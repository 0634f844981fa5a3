import MinimaxCode.JsonRpcEnvelope
import MinimaxCode.ToolErrorWire
import MinimaxCode.ToolOutputWire

/-!
# The terminal of a remote call

The response of a remote tool server is decoded into a typed output or a tool error. A body
that cannot be decoded becomes a tool error itself, so every response has a terminal.
-/

namespace MinimaxCode.RemoteCall

open PyText PyJson RecordFields ToolProtocol

inductive ToolErrorKind
  | invalidArguments
  | notFound
  | permissionDenied
  | timeout
  | cancelled
  | execution
  | behaviorVersionUnsupported
  | renderLimited
  | terminalError
  | networkError
  | custom

/-- A tool error; its detail is taken from the wire as it is. -/
structure ToolError where
  kind : ToolErrorKind
  detail : Json
  details : Json

namespace ToolError

def new (kind : ToolErrorKind) (detail : Json) : ToolError := ⟨kind,detail,.null⟩

def withDetails (e : ToolError) (details : Json) : ToolError := {e with details := details}

/-- An error whose details name the tool. -/
def ofTool (kind : ToolErrorKind) (toolId : PyStr) (detail : Json) : ToolError :=
  (new kind detail).withDetails (.obj [(lit "tool_id",.str toolId)])

def custom (code : PyStr) (detail : Json) : ToolError :=
  (new .custom detail).withDetails (.obj [(lit "code",.str code)])

end ToolError

/-- `wire.name`. -/
def valueOf (wire : ErrorWire.Instance) (name : PyStr) : Json :=
  (((wire.variant.fields.zip wire.values).find? fun fv => fv.1.name = name).map (·.2)).getD .null

section Decode

variable (py : Python)

/-- `str(wire.name)`. -/
def textOf (wire : ErrorWire.Instance) (name : PyStr) : PyStr := pyStr py (valueOf wire name)

/-- `e.with_details(details)` if the wire error has some. -/
def withOptional (e : ToolError) (details : Json) : ToolError :=
  if details.isNull then e else e.withDetails details

/-- `tool_error_from_wire`; nothing for a class that is no variant, a `TypeError`. -/
def toolErrorFromWire (wire : ErrorWire.Instance) : Option ToolError :=
  let toolId := textOf py wire (lit "tool_id")
  let message := valueOf wire (lit "message")
  let reason := valueOf wire (lit "reason")
  let details := valueOf wire (lit "details")
  if wire.variant = ErrorWire.invalidArguments then
    some (withOptional (.new .invalidArguments message) details)
  else if wire.variant = ErrorWire.toolNotFound then
    some (.ofTool .notFound toolId (.str (lit "tool not found: "++toolId)))
  else if wire.variant = ErrorWire.permissionDenied then some (.new .permissionDenied reason)
  else if wire.variant = ErrorWire.timeout then
    let elapsed := valueOf wire (lit "elapsed_ms")
    some ((ToolError.new .timeout
      (.str (lit "timed out after "++pyStr py elapsed++lit "ms"))).withDetails
        (.obj [(lit "tool_id",.str toolId),(lit "elapsed_ms",elapsed)]))
  else if wire.variant = ErrorWire.cancelled then
    some (.ofTool .cancelled toolId (.str (lit "cancelled")))
  else if wire.variant = ErrorWire.execution then some (.ofTool .execution toolId message)
  else if wire.variant = ErrorWire.behaviorVersionUnsupported then
    let requested := valueOf wire (lit "requested")
    some ((ToolError.new .behaviorVersionUnsupported
      (.str (lit "behavior version "++pyStr py requested++lit " not supported"))).withDetails
        (.obj [(lit "tool_id",.str toolId),(lit "requested",requested)]))
  else if wire.variant = ErrorWire.renderLimited then
    some ((ToolError.new .renderLimited reason).withDetails
      (.obj [(lit "tool_id",.str toolId),(lit "card_id",valueOf wire (lit "card_id"))]))
  else if wire.variant = ErrorWire.terminalError then some (.ofTool .terminalError toolId message)
  else if wire.variant = ErrorWire.custom then
    some (withOptional (.custom (textOf py wire (lit "subcode")) message) details)
  else if wire.variant = ErrorWire.sessionMismatch then
    some (.custom (lit "session_mismatch") (.str (lit "session mismatch")))
  else if wire.variant = ErrorWire.transportClosed then
    some (.new .networkError (.str (lit "transport closed for "++toolId)))
  else if wire.variant = ErrorWire.unsupportedProtocolVersion then
    some (.custom (lit "unsupported_protocol_version")
      (.str (lit "supported versions: "++py.repr (valueOf wire (lit "supported")))))
  else if wire.variant = ErrorWire.payloadTooLarge then
    some (.custom (lit "payload_too_large") (.str (lit "payload "++
      textOf py wire (lit "bytes")++lit " bytes exceeds limit "++
        textOf py wire (lit "limit"))))
  else if wire.variant = ErrorWire.internal then
    let detail := valueOf wire (lit "detail")
    let requestId := valueOf wire (lit "request_id")
    let e := ToolError.custom (lit "internal_error")
      (if detail.isNull then .str (lit "internal router error") else detail)
    some (if requestId.isNull then e else e.withDetails (.obj
      [(lit "code",.str (lit "internal_error")),(lit "request_id",.str (pyStr py requestId))]))
  else none

/-- What `except (KeyError, ValueError, TypeError)` catches. -/
def caught : WireError → Bool
  | .overflowError => false
  | _ => true

/-- What leaves a decoder. -/
inductive Uncaught
  | wire (e : WireError)
  | typeError

def errorFromEnvelope (err : JsonRpcError) : Except Uncaught ToolError :=
  let fallback := withOptional
    (.custom (lit "jsonrpc_"++intText err.code) (.str err.message)) err.data
  match err.data with
  | .obj _ => match ErrorWire.fromWire py err.data with
    | .ok wire => match toolErrorFromWire py wire with
      | some e => .ok e
      | none => .error .typeError
    | .error e => if caught e then .ok fallback else .error (.wire e)
  | _ => .ok fallback

/-- `ContentBlock.to_dict` of a wire block. -/
def blockValue : McpBlock → Json
  | .text text => .obj [(lit "type",.str (lit "text")),(lit "text",.str text)]
  | .image mimeType data => .obj [(lit "type",.str (lit "image")),
      (lit "mime_type",.str mimeType),(lit "data",.str data)]
  | .resource uri mimeType text => object [
      (lit "type",some (.str (lit "resource"))),
      (lit "uri",some (.str uri)),
      (lit "mime_type",notNone mimeType),
      (lit "text",notNone text)]

def outputToValue : ToolOutputWire → Json
  | .text text => .str text
  | .json v => v
  | .mcp blocks => .obj [(lit "blocks",.arr (blocks.map blockValue))]

/-- The body of a result, its fields other than the output as they are. -/
structure CallResult where
  toolCallId : Json
  output : ToolOutputWire
  followUps : Json
  reminders : Json
  chatCompletionOutput : Json

def decodeToolCallResult (value : Fields) : Except WireError CallResult := do
  let toolCallId ← item value (lit "tool_call_id")
  let output ← ToolOutputWire.fromWire py (← item value (lit "output"))
  return ⟨toolCallId,output,(get value (lit "follow_ups")).getD (.arr []),
    (get value (lit "reminders")).getD (.arr []),getOrNone value (lit "chat_completion_output")⟩

variable {Card : Type}

/-- What the decoder uses beside the interpreter: `str` of an exception, and
`ToolChatCompletionResponse.from_dict`, which gives nothing where it raises. -/
structure Runtime (Card : Type) where
  errorText : WireError → PyStr
  cardFromDict : Fields → Option Card

variable (rt : Runtime Card)

structure TypedToolOutput (Card : Type) where
  toolId : ToolId
  value : Json
  chatCompletionOutput : Option Card

/-- A typed output or a tool error. -/
inductive Terminal (Card : Type)
  | output (out : TypedToolOutput Card)
  | error (e : ToolError)

/-- `_decode_chat_completion_output`. -/
def decodeCard : Json → Option Card
  | .obj fields => rt.cardFromDict fields
  | _ => none

def decodeCallResult (toolId : ToolId) (value : Json) : Except Uncaught (Terminal Card) :=
  match value with
  | .obj fields =>
    if !has fields (lit "tool_call_id") then .ok (.output ⟨toolId,value,none⟩)
    else match decodeToolCallResult py fields with
      | .ok result =>
        .ok (.output ⟨toolId,outputToValue result.output,decodeCard rt result.chatCompletionOutput⟩)
      | .error e =>
        if caught e then .ok (.error (.custom (lit "response_decoding") (.str (rt.errorText e))))
        else .error (.wire e)
  | _ => .ok (.output ⟨toolId,value,none⟩)

def terminalFromResponse (toolId : ToolId) (resp : JsonRpcResponse) :
    Except Uncaught (Terminal Card) :=
  match resp.outcome with
  | .result value => decodeCallResult py rt toolId value
  | .error e => (errorFromEnvelope py e).map .error

end Decode

/-- Whatever the reader raises is caught. -/
def Tame {α : Type} (x : Except WireError α) : Prop := ∀ e, x = .error e → caught e = true

section Tame

variable {α β : Type}

@[simp] theorem tame_ok (a : α) : Tame (.ok a : Except WireError α) := by simp [Tame]

@[simp] theorem tame_pure (a : α) : Tame (pure a : Except WireError α) := by simp [Tame,pure,Except.pure]

@[simp] theorem tame_error (e : WireError) : Tame (.error e : Except WireError α) ↔ caught e = true := by
  simp [Tame]

theorem Tame.bind {x : Except WireError α} {f : α → Except WireError β} (hx : Tame x)
    (hf : ∀ a, Tame (f a)) : Tame (x >>= f) := by
  cases x with
  | ok a => exact hf a
  | error e => exact (tame_error e).mpr ((tame_error e).mp hx)

theorem Tame.map {x : Except WireError α} (hx : Tame x) (f : α → β) : Tame (x.map f) := by
  cases x with
  | ok a => exact tame_ok (f a)
  | error e => exact (tame_error e).mpr ((tame_error e).mp hx)

theorem Tame.mapM {f : α → Except WireError β} (hf : ∀ a, Tame (f a)) (xs : List α) :
    Tame (xs.mapM f) := by
  induction xs with
  | nil => exact tame_pure []
  | cons x xs ih =>
    rw [List.mapM_cons]
    exact (hf x).bind fun b => ih.bind fun bs => tame_pure (b::bs)

end Tame

theorem tame_dict (v : Json) : Tame (dict v) := by cases v <;> simp [dict,caught]

theorem tame_item (data : Fields) (key : PyStr) : Tame (item data key) := by
  unfold item
  split <;> simp [caught]

theorem tame_pyList (v : Json) : Tame (pyList v) := by cases v <;> simp [pyList,caught]

section Total

variable (py : Python)

theorem tame_block (v : Json) : Tame (McpBlock.fromWire py v) := by
  refine (tame_dict v).bind fun data => (tame_item data _).bind fun type => ?_
  split
  · exact (tame_item data _).bind fun _ => tame_pure _
  · split
    · exact (tame_item data _).bind fun _ => (tame_item data _).bind fun _ => tame_pure _
    · split
      · exact (tame_item data _).bind fun _ => tame_pure _
      · simp [caught]

theorem tame_output (v : Json) : Tame (ToolOutputWire.fromWire py v) := by
  refine (tame_dict v).bind fun data => (tame_item data _).bind fun kind =>
    (tame_item data _).bind fun value => ?_
  split
  · exact tame_pure _
  · split
    · exact tame_pure _
    · split
      · refine Tame.bind ?_ fun blocks => tame_pure _
        exact (tame_dict value).bind fun fields => (tame_item fields _).bind fun blocks =>
          (tame_pyList blocks).bind fun xs => Tame.mapM (tame_block py) xs
      · simp [caught]

theorem tame_callResult (value : Fields) : Tame (decodeToolCallResult py value) :=
  (tame_item value _).bind fun _ => (tame_item value _).bind fun output =>
    (tame_output py output).bind fun _ => tame_pure _

theorem tame_id (kind : IdKind) (s : PyStr) : Tame (OpaqueId.new kind s) := by
  unfold OpaqueId.new
  split <;> simp [caught]

theorem tame_errorWire (v : Json) : Tame (ErrorWire.fromWire py v) := by
  have hcoerce : ∀ type v, Tame (ErrorWire.coerceField type v) := by
    intro type v
    unfold ErrorWire.coerceField
    split
    · exact (tame_id _ _).map _
    · exact (tame_id _ _).map _
    · exact tame_ok _
  have hargument : ∀ data f, Tame (ErrorWire.argument data f) := by
    intro data f
    unfold ErrorWire.argument
    split
    · exact tame_ok _
    · exact (hcoerce _ _).map _
  have hinit : ∀ kwarg, Tame (ErrorWire.initField kwarg) := by
    rintro ⟨f,v⟩
    cases v with
    | some v => exact tame_ok v
    | none =>
      change Tame (if f.optional then .ok Json.null else .error .typeError)
      split <;> simp [caught]
  refine (tame_dict v).bind fun data => (tame_item data _).bind fun code => ?_
  dsimp only
  split
  · simp [caught]
  · exact (Tame.mapM (hargument data) _).bind fun kwargs =>
      (Tame.mapM hinit kwargs).bind fun values => tame_pure _

theorem bind_eq_ok {α β : Type} {x : Except WireError α} {f : α → Except WireError β} {b : β}
    (h : x >>= f = .ok b) : ∃ a, x = .ok a ∧ f a = .ok b := by
  cases x with
  | ok a => exact ⟨a,rfl,h⟩
  | error e => simp [bind,Except.bind] at h

theorem errorWire_known {v : Json} {wire : ErrorWire.Instance}
    (h : ErrorWire.fromWire py v = .ok wire) : wire.variant ∈ ErrorWire.variants := by
  obtain ⟨data,-,h⟩ := bind_eq_ok h
  obtain ⟨code,-,h⟩ := bind_eq_ok h
  dsimp only at h
  split at h
  · simp at h
  · next variant hvariant =>
    obtain ⟨kwargs,-,h⟩ := bind_eq_ok h
    obtain ⟨values,-,h⟩ := bind_eq_ok h
    cases h
    exact List.mem_of_find?_eq_some hvariant

theorem toolErrorFromWire_known {wire : ErrorWire.Instance}
    (h : wire.variant ∈ ErrorWire.variants) : ∃ e, toolErrorFromWire py wire = some e := by
  simp only [ErrorWire.variants,List.mem_cons,List.not_mem_nil,or_false] at h
  unfold toolErrorFromWire
  obtain h | h | h | h | h | h | h | h | h | h | h | h | h | h | h := h <;> exact ⟨_,by rw [h]; rfl⟩

theorem errorFromEnvelope_total (err : JsonRpcError) : ∃ e, errorFromEnvelope py err = .ok e := by
  unfold errorFromEnvelope
  dsimp only
  split
  · cases hwire : ErrorWire.fromWire py err.data with
    | ok wire =>
      obtain ⟨e,he⟩ := toolErrorFromWire_known py (errorWire_known py hwire)
      exact ⟨e,by simp [he]⟩
    | error e => simp [tame_errorWire py err.data e hwire]
  · exact ⟨_,rfl⟩

variable {Card : Type} (rt : Runtime Card)

theorem decodeCallResult_total (toolId : ToolId) (value : Json) :
    ∃ t, decodeCallResult py rt toolId value = .ok t := by
  unfold decodeCallResult
  split
  · next fields =>
    split
    · exact ⟨_,rfl⟩
    · cases hresult : decodeToolCallResult py fields with
      | ok result => exact ⟨_,rfl⟩
      | error e => simp [tame_callResult py fields e hresult]
  · exact ⟨_,rfl⟩

theorem terminalFromResponse_total (toolId : ToolId) (resp : JsonRpcResponse) :
    ∃ t, terminalFromResponse py rt toolId resp = .ok t := by
  unfold terminalFromResponse
  split
  · exact decodeCallResult_total py rt toolId _
  · next e _ =>
    obtain ⟨err,herr⟩ := errorFromEnvelope_total py e
    exact ⟨.error err,by simp [herr,Except.map]⟩

end Total

end MinimaxCode.RemoteCall
