import MinimaxCode.JsonText
import MinimaxCode.RecordFields

/-!
# Wire values and identifiers of the tool protocol

The readers of the protocol get a JSON value and take its fields with `data[key]` and
`data.get(key)`, through `str`, `int`, `bool` and `list`. The identifiers are strings that their
constructor checks; only the hub makes a server id with the reserved prefix.
-/

namespace MinimaxCode.ToolProtocol

open PyText PyJson RecordFields

abbrev Fields := List (PyStr × Json)

inductive IdError
  | empty
  | invalidFormat (value : PyStr)
  | reservedPrefix (value : PyStr)

/-- What a reader raises: a missing key, an operation its value does not have, a number out of
range, an id, a version, a value with the text the reader gives, or a field that the data model
refuses. -/
inductive WireError
  | keyError (key : PyStr)
  | typeError
  | overflowError
  | id (e : IdError)
  | version (value : Json)
  | valueError (message : PyStr)
  | validation (field : PyStr)

/-- `repr` of a value, `int` of a text and `dict` of a value that is no dictionary. -/
structure Python where
  repr : Json → PyStr
  intOfStr : PyStr → Option ℤ
  dictOf : Json → Except WireError Fields

section Python

variable (py : Python)

def IdError.message : IdError → PyStr
  | .empty => lit "identifier must not be empty"
  | .invalidFormat value => lit "identifier "++py.repr (.str value)++lit " has invalid format"
  | .reservedPrefix value => lit "identifier "++py.repr (.str value)++lit " uses a reserved prefix"

/-- The text of an error, where the protocol gives it one. -/
def WireError.message : WireError → Option PyStr
  | .id e => some (e.message py)
  | .version value => some (lit "expected jsonrpc \"2.0\", got "++py.repr value)
  | .valueError message => some message
  | _ => none

/-- `type(v).__name__`. -/
def typeName : Json → PyStr
  | .null => lit "NoneType"
  | .bool _ => lit "bool"
  | .int _ => lit "int"
  | .float _ => lit "float"
  | .str _ => lit "str"
  | .arr _ => lit "list"
  | .obj _ => lit "dict"

/-- `str(v)`. -/
def pyStr : Json → PyStr
  | .str s => s
  | v => py.repr v

/-- `int(v)`. -/
def pyInt : Json → Except WireError ℤ
  | .int n => .ok n
  | .bool b => .ok (if b then 1 else 0)
  | .float (.finite bits) => .ok bits.truncate
  | .float .nan => .error (.valueError (lit "cannot convert float NaN to integer"))
  | .float (.inf _) => .error .overflowError
  | .str s =>
    match py.intOfStr s with
    | some n => .ok n
    | none => .error (.valueError
        (lit "invalid literal for int() with base 10: "++py.repr (.str s)))
  | _ => .error .typeError

/-- `dict(v)`. -/
def pyDict : Json → Except WireError Fields
  | .obj fields => .ok fields
  | v => py.dictOf v

/-- `list(v)`: a dictionary gives its keys and a text its characters. -/
def pyList : Json → Except WireError (List Json)
  | .arr xs => .ok xs
  | .obj fields => .ok (fields.map fun kv => .str kv.1)
  | .str s => .ok (s.map fun c => .str [c])
  | _ => .error .typeError

/-- A value whose fields are read has to be a dictionary. -/
def dict : Json → Except WireError Fields
  | .obj fields => .ok fields
  | _ => .error .typeError

/-- `data[key]`. -/
def item (data : Fields) (key : PyStr) : Except WireError Json :=
  match get data key with
  | some v => .ok v
  | none => .error (.keyError key)

/-- `data.get(key)`. -/
def getOrNone (data : Fields) (key : PyStr) : Json := (get data key).getD .null

/-- A value that is read unless it is `None`. -/
def unlessNone {α : Type*} (read : Json → Except WireError α) : Json → Except WireError (Option α)
  | .null => .ok none
  | v => (read v).map some

/-- `d[key] = v` unless `v` is `None`. -/
def notNone (v : Json) : Option Json := if v.isNull then none else some v

/-- `d[key] = v` unless `v` is empty. -/
def notEmpty (xs : List Json) : Option Json := if xs.isEmpty then none else some (.arr xs)

def object (fields : List (PyStr × Option Json)) : Json := .obj (present fields)

end Python

inductive IdKind
  | session
  | user
  | connection
  | request
  | toolCall
  | server
  | tool

def isIdChar (c : PyChar) : Bool :=
  match c with
  | .scalar c => c.isAlphanum || c == '_' || c == '-'
  | .surrogate _ => false

def isValidSegment (s : PyStr) : Bool := !s.isEmpty && s.all isIdChar

/-- `{namespace}:{name}` or `{name}`. -/
def isWellFormedToolId (s : PyStr) : Bool :=
  match splitOn (ch ':') s with
  | [name] => isValidSegment name
  | [ns,name] => isValidSegment ns && isValidSegment name
  | _ => false

def serverIdReservedPrefix : PyStr := lit "auto:"

def validateServerId (s : PyStr) : Except IdError Unit :=
  if serverIdReservedPrefix.isPrefixOf s then .error (.reservedPrefix s) else .ok ()

def validateToolId (s : PyStr) : Except IdError Unit :=
  if isWellFormedToolId s then .ok () else .error (.invalidFormat s)

/-- The validator of a class of ids, after the check for the empty string. -/
def extraValidator : IdKind → PyStr → Except IdError Unit
  | .server => validateServerId
  | .tool => validateToolId
  | _ => fun _ => .ok ()

def checkId (kind : IdKind) (value : PyStr) : Except IdError Unit :=
  if value.isEmpty then .error .empty else extraValidator kind value

/-- A string that the constructor of its class let through. -/
structure OpaqueId (kind : IdKind) where
  value : PyStr
  checked : checkId kind value = .ok ()

def OpaqueId.new (kind : IdKind) (value : PyStr) : Except WireError (OpaqueId kind) :=
  match h : checkId kind value with
  | .ok () => .ok ⟨value,h⟩
  | .error e => .error (.id e)

/-- `str(id)`. -/
def OpaqueId.toWire {kind : IdKind} (id : OpaqueId kind) : Json := .str id.value

/-- An id made from `str(v)`. -/
def OpaqueId.fromWire (py : Python) (kind : IdKind) (v : Json) : Except WireError (OpaqueId kind) :=
  OpaqueId.new kind (pyStr py v)

abbrev SessionId := OpaqueId .session
abbrev UserId := OpaqueId .user
abbrev ConnectionId := OpaqueId .connection
abbrev RequestId := OpaqueId .request
abbrev ToolCallId := OpaqueId .toolCall
abbrev ToolId := OpaqueId .tool

/-- A server id is one that a client gave, or one that the hub made for a tool. -/
inductive ServerId
  | given (id : OpaqueId .server)
  | synthesized (tool : ToolId)

def ServerId.value : ServerId → PyStr
  | .given id => id.value
  | .synthesized tool => serverIdReservedPrefix++lit "tool:"++tool.value

def ServerId.new (value : PyStr) : Except WireError ServerId :=
  (OpaqueId.new .server value).map .given

def ServerId.synthesizeForTool (_ : ConnectionId) (tool : ToolId) : ServerId := .synthesized tool

/-- `FrameSeq`: the number of a notification on its connection. -/
structure FrameSeq where
  value : ℕ

def FrameSeq.toWire (seq : FrameSeq) : Json := .int seq.value

def FrameSeq.fromWire : Json → Except WireError FrameSeq
  | .int n =>
    if n < 0 then .error (.valueError (lit "FrameSeq expects u64, got negative "++intText n))
    else .ok ⟨n.toNat⟩
  | v => .error (.valueError (lit "FrameSeq.from_wire expects u64, got "++typeName v))

section Values

variable {py : Python}

@[simp] theorem lit_inj {a b : String} : lit a = lit b ↔ a = b := by
  simp [lit,List.map_inj_right fun _ _ => PyChar.scalar.inj,String.toList_inj]

@[simp] theorem lit_beq (a b : String) : (lit a == lit b) = decide (a = b) :=
  Bool.eq_iff_iff.mpr (by simp)

@[simp] theorem dict_object (fields : List (PyStr × Option Json)) :
    dict (object fields) = .ok (present fields) := rfl

@[simp] theorem get_present_nil (key : PyStr) :
    get (present ([] : List (PyStr × Option Json))) key = none := rfl

@[simp] theorem get_present_cons (key key' : PyStr) (o : Option Json)
    (fields : List (PyStr × Option Json)) : get (present ((key',o)::fields)) key =
      if key = key' then o.or (get (present fields) key) else get (present fields) key :=
  lookup_present_cons key key' o fields

@[simp] theorem pyStr_str (s : PyStr) : pyStr py (.str s) = s := rfl

@[simp] theorem pyInt_int (n : ℤ) : pyInt py (.int n) = .ok n := rfl

@[simp] theorem pyList_arr (xs : List Json) : pyList (.arr xs) = .ok xs := rfl

@[simp] theorem isNull_null : Json.null.isNull = true := rfl

@[simp] theorem isNull_object (fields : List (PyStr × Option Json)) :
    (object fields).isNull = false := rfl

@[simp] theorem truthy_bool (b : Bool) : truthy (.bool b) = b := rfl

/-- A value that is `None` and one left out are read alike. -/
@[simp] theorem notNone_getD (v : Json) : (notNone v).getD .null = v := by
  cases v <;> rfl

theorem unlessNone_encode {α : Type*} {read : Json → Except WireError α} {write : α → Json}
    (hread : ∀ x, read (write x) = .ok x) (hwrite : ∀ x, write x ≠ .null) (o : Option α) :
    unlessNone read ((o.map write).getD .null) = .ok o := by
  cases o with
  | none => rfl
  | some x =>
    have hx := hread x
    have hne := hwrite x
    simp only [Option.map_some,Option.getD_some]
    generalize write x = v at hx hne
    cases v with
    | null => exact absurd rfl hne
    | _ => simp [unlessNone,hx,Except.map]

/-- An optional number is read as it was written. -/
@[simp] theorem unlessNone_int (n : Option ℤ) :
    unlessNone (pyInt py) ((n.map Json.int).getD .null) = .ok n := by
  cases n <;> rfl

/-- An optional text is read as it was written. -/
@[simp] theorem unlessNone_str (s : Option PyStr) :
    unlessNone (fun v => .ok (pyStr py v)) ((s.map Json.str).getD .null) = .ok s := by
  cases s <;> rfl

/-- An empty list and one left out are read alike. -/
@[simp] theorem readOr_notEmpty (xs : List Json) : readOr [] pyList (notEmpty xs) = .ok xs := by
  cases xs <;> rfl

end Values

section Ids

@[simp] theorem OpaqueId.new_value {kind : IdKind} (id : OpaqueId kind) :
    OpaqueId.new kind id.value = .ok id := by
  unfold OpaqueId.new
  split
  · rfl
  · next e he => exact nomatch id.checked.symm.trans he

@[simp] theorem OpaqueId.fromWire_toWire (py : Python) {kind : IdKind} (id : OpaqueId kind) :
    OpaqueId.fromWire py kind id.toWire = .ok id := OpaqueId.new_value id

@[simp] theorem OpaqueId.unlessNone_toWire (py : Python) {kind : IdKind}
    (id : Option (OpaqueId kind)) :
    unlessNone (OpaqueId.fromWire py kind) ((id.map OpaqueId.toWire).getD .null) = .ok id :=
  unlessNone_encode (OpaqueId.fromWire_toWire py) (fun _ => by simp [OpaqueId.toWire]) id

theorem OpaqueId.new_error {kind : IdKind} {value : PyStr} {e : IdError}
    (h : checkId kind value = .error e) : OpaqueId.new kind value = .error (.id e) := by
  unfold OpaqueId.new
  split
  · next hok => exact nomatch hok.symm.trans h
  · next e' he =>
    cases he.symm.trans h
    rfl

theorem checkId_reserved {s : PyStr} (h : serverIdReservedPrefix <+: s) :
    checkId .server s = .error (.reservedPrefix s) := by
  have hne : s ≠ [] := by
    rintro rfl
    exact absurd (List.prefix_nil.mp h) (by decide)
  simp [checkId,extraValidator,validateServerId,hne,h]

/-- The error that reading a server id raises. -/
def ServerId.refusal : ServerId → Option WireError
  | .given _ => none
  | .synthesized tool => some (.id (.reservedPrefix (ServerId.synthesized tool).value))

theorem ServerId.new_value (id : ServerId) : ServerId.new id.value = answer id id.refusal := by
  cases id with
  | given id => simp [ServerId.new,ServerId.value,ServerId.refusal,answer,Except.map]
  | synthesized tool =>
    have hcheck := checkId_reserved (s:=ServerId.value (.synthesized tool))
      (by simp [ServerId.value,List.append_assoc])
    simp [ServerId.new,OpaqueId.new_error hcheck,ServerId.refusal,answer,Except.map]

@[simp] theorem FrameSeq.fromWire_toWire (seq : FrameSeq) :
    FrameSeq.fromWire seq.toWire = .ok seq := by
  simp [FrameSeq.fromWire,FrameSeq.toWire]

@[simp] theorem FrameSeq.unlessNone_toWire (seq : Option FrameSeq) :
    unlessNone FrameSeq.fromWire ((seq.map FrameSeq.toWire).getD .null) = .ok seq :=
  unlessNone_encode FrameSeq.fromWire_toWire (fun _ => by simp [FrameSeq.toWire]) seq

end Ids

end MinimaxCode.ToolProtocol
