import MinimaxCode.WireIds

/-!
# Registrations of tools and tool servers

A registration carries the description of a tool with its capabilities, and the sessions it is
bound to: none given, none at all, or a list. Fields that are `None` or empty are left out, the two
flags of the capabilities never. A server id with the reserved prefix is written and not read.
-/

namespace MinimaxCode.ToolProtocol

open PyText PyJson RecordFields

/-- The member of an enumeration with a given value. -/
def memberOf {α : Type*} (members : List α) (value : α → PyStr) : Json → Option α
  | .str s => members.find? fun m => value m = s
  | _ => none

inductive HookKind
  | onSessionOpen
  | onSessionClose
  | onToolCallStart
  | onToolCallResult
  | onCancel
  | onNotification

inductive ToolScope
  | read
  | write

inductive TransportKind
  | local
  | remote

def HookKind.value : HookKind → PyStr
  | .onSessionOpen => lit "on_session_open"
  | .onSessionClose => lit "on_session_close"
  | .onToolCallStart => lit "on_tool_call_start"
  | .onToolCallResult => lit "on_tool_call_result"
  | .onCancel => lit "on_cancel"
  | .onNotification => lit "on_notification"

def ToolScope.value : ToolScope → PyStr
  | .read => lit "read"
  | .write => lit "write"

def TransportKind.value : TransportKind → PyStr
  | .local => lit "local"
  | .remote => lit "remote"

def HookKind.toWire (k : HookKind) : Json := .str k.value
def ToolScope.toWire (s : ToolScope) : Json := .str s.value
def TransportKind.toWire (k : TransportKind) : Json := .str k.value

section Enums

variable (py : Python)

/-- A lookup by value, which lists and dictionaries do not allow and which refuses unknown values. -/
def knownMember {α : Type*} (name : String) (members : List α) (value : α → PyStr) :
    Json → Except WireError α
  | .arr _ => .error .typeError
  | .obj _ => .error .typeError
  | v =>
    match memberOf members value v with
    | some m => .ok m
    | none => .error (.valueError (lit "unknown "++lit name++lit " wire value: "++py.repr v))

def HookKind.fromWire : Json → Except WireError HookKind :=
  knownMember py "HookKind" [.onSessionOpen,.onSessionClose,.onToolCallStart,.onToolCallResult,
    .onCancel,.onNotification] HookKind.value

def ToolScope.fromWire : Json → Except WireError ToolScope :=
  knownMember py "ToolScope" [.read,.write] ToolScope.value

def TransportKind.fromWire : Json → Except WireError TransportKind :=
  knownMember py "TransportKind" [.local,.remote] TransportKind.value

end Enums

structure StreamingSpec where
  subkind : PyStr
  maxDeltaBytes : Option ℤ

structure ToolCapabilities where
  streaming : Option StreamingSpec
  supportsCancel : Bool
  maxConcurrency : Option ℤ
  isReadOnly : Bool
  hooks : List HookKind
  behaviorVersion : Option PyStr
  maxFrameBytes : Option ℤ
  timeoutMs : Option ℤ
  toolScope : Option ToolScope

structure NotificationSchemas where
  outbound : Fields
  inbound : Fields

def StreamingSpec.toWire (s : StreamingSpec) : Json := object [
  (lit "subkind",some (.str s.subkind)),
  (lit "max_delta_bytes",s.maxDeltaBytes.map Json.int)]

def ToolCapabilities.toWire (c : ToolCapabilities) : Json := object [
  (lit "supports_cancel",some (.bool c.supportsCancel)),
  (lit "is_read_only",some (.bool c.isReadOnly)),
  (lit "streaming",c.streaming.map StreamingSpec.toWire),
  (lit "max_concurrency",c.maxConcurrency.map Json.int),
  (lit "hooks",notEmpty (c.hooks.map HookKind.toWire)),
  (lit "behavior_version",c.behaviorVersion.map Json.str),
  (lit "max_frame_bytes",c.maxFrameBytes.map Json.int),
  (lit "timeout_ms",c.timeoutMs.map Json.int),
  (lit "tool_scope",c.toolScope.map ToolScope.toWire)]

/-- `d[key] = dict(fields)` unless the dictionary is empty. -/
def notEmptyDict (fields : Fields) : Option Json := if fields.isEmpty then none else some (.obj fields)

def NotificationSchemas.toWire (s : NotificationSchemas) : Json := object [
  (lit "outbound",notEmptyDict s.outbound),
  (lit "inbound",notEmptyDict s.inbound)]

section Capabilities

variable (py : Python)

/-- `bool(data.get(key, False))`. -/
def flag (data : Fields) (key : PyStr) : Bool := truthy ((get data key).getD (.bool false))

/-- `[read(x) for x in v]`. -/
def readEach {α : Type} (read : Json → Except WireError α) (v : Json) : Except WireError (List α) := do
  (← pyList v).mapM read

/-- `read(v) if v else default`. -/
def ifTruthy {α : Type} (default : α) (read : Json → Except WireError α) (v : Json) :
    Except WireError α :=
  if truthy v then read v else .ok default

def StreamingSpec.fromWire (data : Json) : Except WireError StreamingSpec := do
  let data ← dict data
  let subkind ← item data (lit "subkind")
  let maxDeltaBytes ← readSome (pyInt py) (get data (lit "max_delta_bytes"))
  return ⟨pyStr py subkind,maxDeltaBytes⟩

def ToolCapabilities.fromWire (data : Json) : Except WireError ToolCapabilities := do
  let data ← dict data
  let streaming ← unlessNone (StreamingSpec.fromWire py) (getOrNone data (lit "streaming"))
  let maxConcurrency ← readSome (pyInt py) (get data (lit "max_concurrency"))
  let hooks ← ifTruthy [] (readEach (HookKind.fromWire py)) (getOrNone data (lit "hooks"))
  let maxFrameBytes ← readSome (pyInt py) (get data (lit "max_frame_bytes"))
  let timeoutMs ← readSome (pyInt py) (get data (lit "timeout_ms"))
  let toolScope ← readSome (fun v => ToolScope.fromWire py (.str (pyStr py v)))
    (get data (lit "tool_scope"))
  return {
    streaming
    supportsCancel := flag data (lit "supports_cancel")
    maxConcurrency
    isReadOnly := flag data (lit "is_read_only")
    hooks
    behaviorVersion := (get data (lit "behavior_version")).map (pyStr py)
    maxFrameBytes
    timeoutMs
    toolScope}

def NotificationSchemas.fromWire (data : Json) : Except WireError NotificationSchemas := do
  let data ← dict data
  let outbound ← ifTruthy [] (pyDict py) (getOrNone data (lit "outbound"))
  let inbound ← ifTruthy [] (pyDict py) (getOrNone data (lit "inbound"))
  return ⟨outbound,inbound⟩

end Capabilities

/-- The strings a `str` field of a data model takes. -/
def UnicodeText : Type := {s : PyStr // encodes s = true}

def UnicodeText.toWire (s : UnicodeText) : Json := .str s.val

/-- A data model with a validating constructor. -/
structure ToolDescription where
  name : UnicodeText
  ns : Option UnicodeText
  title : Option UnicodeText
  description : UnicodeText
  argumentsSchema : Json
  kind : Option UnicodeText

/-- `_description_to_wire`: `model_dump(exclude_none=True)`. -/
def ToolDescription.toWire (d : ToolDescription) : Json := object [
  (lit "name",some d.name.toWire),
  (lit "namespace",d.ns.map UnicodeText.toWire),
  (lit "title",d.title.map UnicodeText.toWire),
  (lit "description",some d.description.toWire),
  (lit "arguments_schema",notNone d.argumentsSchema),
  (lit "kind",d.kind.map UnicodeText.toWire)]

/-- The validation of a `str` field. -/
def textField (key : PyStr) : Json → Except WireError UnicodeText
  | .str s => if h : encodes s = true then .ok ⟨s,h⟩ else .error (.validation key)
  | _ => .error (.validation key)

/-- A required `str` field. -/
def requiredText (data : Fields) (key : PyStr) : Except WireError UnicodeText :=
  match get data key with
  | some v => textField key v
  | none => .error (.validation key)

/-- A `str | None` field. -/
def optionalText (data : Fields) (key : PyStr) : Except WireError (Option UnicodeText) :=
  unlessNone (textField key) (getOrNone data key)

def ToolDescription.modelValidate : Json → Except WireError ToolDescription
  | .obj data => do
    let name ← requiredText data (lit "name")
    let ns ← optionalText data (lit "namespace")
    let title ← optionalText data (lit "title")
    let description ← requiredText data (lit "description")
    let kind ← optionalText data (lit "kind")
    return ⟨name,ns,title,description,getOrNone data (lit "arguments_schema"),kind⟩
  | _ => .error (.validation [])

structure ToolDescriptionWithSchema where
  description : ToolDescription
  inputSchema : Json
  capabilities : Option ToolCapabilities
  notificationSchemas : Option NotificationSchemas

structure ToolRegistration where
  toolId : ToolId
  userId : UserId
  description : ToolDescription
  transportKind : TransportKind
  sessions : Option (List SessionId)
  serverId : Option ServerId
  inputSchema : Json
  capabilities : Option ToolCapabilities
  notificationSchemas : Option NotificationSchemas
  ifMatchGeneration : Option ℤ
  metadata : Json

structure ToolServerRegistration where
  serverId : ServerId
  userId : UserId
  tools : List ToolDescriptionWithSchema
  sessions : Option (List SessionId)
  title : Option PyStr
  description : PyStr
  hooks : List HookKind
  ifMatchGeneration : Option ℤ
  metadata : Json

def ToolDescriptionWithSchema.toWire (t : ToolDescriptionWithSchema) : Json := object [
  (lit "description",some t.description.toWire),
  (lit "input_schema",notNone t.inputSchema),
  (lit "capabilities",t.capabilities.map ToolCapabilities.toWire),
  (lit "notification_schemas",t.notificationSchemas.map NotificationSchemas.toWire)]

def sessionsToWire (sessions : List SessionId) : Json := .arr (sessions.map OpaqueId.toWire)

def ServerId.toWire (id : ServerId) : Json := .str id.value

def ToolRegistration.toWire (r : ToolRegistration) : Json := object [
  (lit "tool_id",some r.toolId.toWire),
  (lit "sessions",r.sessions.map sessionsToWire),
  (lit "user_id",some r.userId.toWire),
  (lit "server_id",r.serverId.map ServerId.toWire),
  (lit "description",some r.description.toWire),
  (lit "input_schema",notNone r.inputSchema),
  (lit "capabilities",r.capabilities.map ToolCapabilities.toWire),
  (lit "notification_schemas",r.notificationSchemas.map NotificationSchemas.toWire),
  (lit "transport_kind",some r.transportKind.toWire),
  (lit "if_match_generation",r.ifMatchGeneration.map Json.int),
  (lit "metadata",notNone r.metadata)]

/-- `d[key] = s` unless the text is empty. -/
def notEmptyStr (s : PyStr) : Option Json := if s.isEmpty then none else some (.str s)

def ToolServerRegistration.toWire (r : ToolServerRegistration) : Json := object [
  (lit "server_id",some r.serverId.toWire),
  (lit "sessions",r.sessions.map sessionsToWire),
  (lit "user_id",some r.userId.toWire),
  (lit "title",r.title.map Json.str),
  (lit "description",notEmptyStr r.description),
  (lit "tools",some (.arr (r.tools.map ToolDescriptionWithSchema.toWire))),
  (lit "hooks",notEmpty (r.hooks.map HookKind.toWire)),
  (lit "if_match_generation",r.ifMatchGeneration.map Json.int),
  (lit "metadata",notNone r.metadata)]

section Registrations

variable (py : Python)

def ToolDescriptionWithSchema.fromWire (data : Json) :
    Except WireError ToolDescriptionWithSchema := do
  let data ← dict data
  let description ← ToolDescription.modelValidate (← item data (lit "description"))
  let capabilities ← readSome (ToolCapabilities.fromWire py) (get data (lit "capabilities"))
  let notificationSchemas ← readSome (NotificationSchemas.fromWire py)
    (get data (lit "notification_schemas"))
  return ⟨description,getOrNone data (lit "input_schema"),capabilities,notificationSchemas⟩

/-- `[SessionId(str(s)) for s in v]`. -/
def sessionsFromWire : Json → Except WireError (List SessionId) :=
  readEach (OpaqueId.fromWire py .session)

/-- `ServerId(str(v))`. -/
def ServerId.fromWire (v : Json) : Except WireError ServerId := ServerId.new (pyStr py v)

def ToolRegistration.fromWire (data : Json) : Except WireError ToolRegistration := do
  let data ← dict data
  let toolId ← OpaqueId.fromWire py .tool (← item data (lit "tool_id"))
  let userId ← OpaqueId.fromWire py .user (← item data (lit "user_id"))
  let description ← ToolDescription.modelValidate (← item data (lit "description"))
  let transportKind ← item data (lit "transport_kind")
  let transportKind ← TransportKind.fromWire py (.str (pyStr py transportKind))
  let sessions ← readSome (sessionsFromWire py) (get data (lit "sessions"))
  let serverId ← readSome (ServerId.fromWire py) (get data (lit "server_id"))
  let capabilities ← readSome (ToolCapabilities.fromWire py) (get data (lit "capabilities"))
  let notificationSchemas ← readSome (NotificationSchemas.fromWire py)
    (get data (lit "notification_schemas"))
  let ifMatchGeneration ← readSome (pyInt py) (get data (lit "if_match_generation"))
  return {
    toolId,userId,description,transportKind,sessions,serverId
    inputSchema := getOrNone data (lit "input_schema")
    capabilities,notificationSchemas,ifMatchGeneration
    metadata := getOrNone data (lit "metadata")}

def ToolServerRegistration.fromWire (data : Json) : Except WireError ToolServerRegistration := do
  let data ← dict data
  let serverId ← ServerId.fromWire py (← item data (lit "server_id"))
  let userId ← OpaqueId.fromWire py .user (← item data (lit "user_id"))
  let tools ← readEach (ToolDescriptionWithSchema.fromWire py) (← item data (lit "tools"))
  let sessions ← readSome (sessionsFromWire py) (get data (lit "sessions"))
  let hooks ← readOr [] (readEach (HookKind.fromWire py)) (get data (lit "hooks"))
  let ifMatchGeneration ← readSome (pyInt py) (get data (lit "if_match_generation"))
  return {
    serverId,userId,tools,sessions
    title := (get data (lit "title")).map (pyStr py)
    description := ((get data (lit "description")).map (pyStr py)).getD []
    hooks,ifMatchGeneration
    metadata := getOrNone data (lit "metadata")}

end Registrations

section RoundTrips

variable (py : Python)

@[simp] theorem HookKind.fromWire_toWire (k : HookKind) : fromWire py k.toWire = .ok k := by
  cases k <;> rfl

@[simp] theorem ToolScope.fromWire_toWire (s : ToolScope) : fromWire py s.toWire = .ok s := by
  cases s <;> rfl

@[simp] theorem TransportKind.fromWire_toWire (k : TransportKind) : fromWire py k.toWire = .ok k := by
  cases k <;> rfl

theorem readEach_map {α : Type} {read : Json → Except WireError α} {write : α → Json}
    (h : ∀ x, read (write x) = .ok x) (xs : List α) :
    readEach read (.arr (xs.map write)) = .ok xs := by
  simp [readEach,mapM_encode fun x _ => h x]

theorem ifTruthy_notEmpty {α : Type} {read : Json → Except WireError α} {write : α → Json}
    (h : ∀ x, read (write x) = .ok x) (xs : List α) :
    ifTruthy [] (readEach read) ((notEmpty (xs.map write)).getD .null) = .ok xs := by
  cases xs with
  | nil => rfl
  | cons x xs => exact readEach_map h (x::xs)

theorem readOr_notEmpty_map {α : Type} {read : Json → Except WireError α} {write : α → Json}
    (h : ∀ x, read (write x) = .ok x) (xs : List α) :
    readOr [] (readEach read) (notEmpty (xs.map write)) = .ok xs := by
  cases xs with
  | nil => rfl
  | cons x xs => exact readEach_map h (x::xs)

@[simp] theorem ifTruthy_notEmptyDict (fields : Fields) :
    ifTruthy [] (pyDict py) ((notEmptyDict fields).getD .null) = .ok fields := by
  cases fields <;> rfl

@[simp] theorem readSome_int (n : Option ℤ) : readSome (pyInt py) (n.map Json.int) = .ok n := by
  cases n <;> rfl

@[simp] theorem map_pyStr (s : Option PyStr) : s.map (pyStr py ∘ Json.str) = s := by
  cases s <;> rfl

@[simp] theorem notEmptyStr_getD (s : PyStr) : ((notEmptyStr s).map (pyStr py)).getD [] = s := by
  cases s <;> rfl

@[simp] theorem textField_toWire (key : PyStr) (s : UnicodeText) : textField key s.toWire = .ok s :=
  dif_pos s.property

theorem StreamingSpec.fromWire_toWire (s : StreamingSpec) :
    StreamingSpec.fromWire py s.toWire = .ok s := by
  simp [StreamingSpec.fromWire,StreamingSpec.toWire,item]

theorem ToolCapabilities.fromWire_toWire (c : ToolCapabilities) :
    ToolCapabilities.fromWire py c.toWire = .ok c := by
  have hstreaming := unlessNone_encode (StreamingSpec.fromWire_toWire py)
    (fun s => by simp [StreamingSpec.toWire,object]) c.streaming
  have hhooks := ifTruthy_notEmpty (HookKind.fromWire_toWire py) c.hooks
  have hread (s : ToolScope) : ToolScope.fromWire py (.str (pyStr py s.toWire)) = .ok s :=
    ToolScope.fromWire_toWire py s
  have hscope : readSome (fun v => ToolScope.fromWire py (.str (pyStr py v)))
      (c.toolScope.map ToolScope.toWire) = .ok c.toolScope := by
    cases c.toolScope with
    | none => rfl
    | some s => simp [readSome,readOr,hread,Except.map]
  simp [ToolCapabilities.fromWire,ToolCapabilities.toWire,getOrNone,flag,hstreaming,hhooks,hscope]

theorem NotificationSchemas.fromWire_toWire (s : NotificationSchemas) :
    NotificationSchemas.fromWire py s.toWire = .ok s := by
  simp [NotificationSchemas.fromWire,NotificationSchemas.toWire,getOrNone]

@[simp] theorem ToolDescription.modelValidate_toWire (d : ToolDescription) :
    ToolDescription.modelValidate d.toWire = .ok d := by
  have hoptional (key : PyStr) (o : Option UnicodeText) :
      unlessNone (textField key) ((o.map UnicodeText.toWire).getD .null) = .ok o :=
    unlessNone_encode (textField_toWire key) (fun _ => by simp [UnicodeText.toWire]) o
  simp [ToolDescription.modelValidate,ToolDescription.toWire,object,requiredText,optionalText,
    getOrNone,hoptional]

theorem ToolDescriptionWithSchema.fromWire_toWire (t : ToolDescriptionWithSchema) :
    ToolDescriptionWithSchema.fromWire py t.toWire = .ok t := by
  have hcapabilities := readSome_encode (ToolCapabilities.fromWire_toWire py) t.capabilities
  have hschemas := readSome_encode (NotificationSchemas.fromWire_toWire py) t.notificationSchemas
  simp [ToolDescriptionWithSchema.fromWire,ToolDescriptionWithSchema.toWire,item,getOrNone,
    hcapabilities,hschemas]

theorem readSome_sessions (sessions : Option (List SessionId)) :
    readSome (sessionsFromWire py) (sessions.map sessionsToWire) = .ok sessions :=
  readSome_encode (readEach_map (OpaqueId.fromWire_toWire py)) sessions

theorem ServerId.fromWire_toWire (id : ServerId) :
    ServerId.fromWire py id.toWire = answer id id.refusal := ServerId.new_value id

theorem ServerId.readSome_toWire (id : Option ServerId) :
    readSome (ServerId.fromWire py) (id.map ServerId.toWire) =
      answer id (id.bind ServerId.refusal) := by
  cases id with
  | none => rfl
  | some id => simp [readSome,readOr,ServerId.fromWire_toWire,map_answer]

theorem ToolRegistration.fromWire_toWire (r : ToolRegistration) :
    ToolRegistration.fromWire py r.toWire = answer r (r.serverId.bind ServerId.refusal) := by
  have hkind : TransportKind.fromWire py (.str (pyStr py r.transportKind.toWire)) =
      .ok r.transportKind := TransportKind.fromWire_toWire py r.transportKind
  have hcapabilities := readSome_encode (ToolCapabilities.fromWire_toWire py) r.capabilities
  have hschemas := readSome_encode (NotificationSchemas.fromWire_toWire py) r.notificationSchemas
  simp [ToolRegistration.fromWire,ToolRegistration.toWire,item,getOrNone,hkind,hcapabilities,
    hschemas,readSome_sessions,ServerId.readSome_toWire]
  cases r.serverId.bind ServerId.refusal <;> rfl

theorem ToolServerRegistration.fromWire_toWire (r : ToolServerRegistration) :
    ToolServerRegistration.fromWire py r.toWire = answer r r.serverId.refusal := by
  have htools := readEach_map (ToolDescriptionWithSchema.fromWire_toWire py) r.tools
  have hhooks := readOr_notEmpty_map (HookKind.fromWire_toWire py) r.hooks
  simp [ToolServerRegistration.fromWire,ToolServerRegistration.toWire,item,getOrNone,htools,hhooks,
    readSome_sessions,ServerId.fromWire_toWire]
  cases r.serverId.refusal <;> rfl

end RoundTrips

end MinimaxCode.ToolProtocol
