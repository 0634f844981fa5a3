import Mathlib.Data.List.Forall2
import MinimaxCode.WireIds

/-!
# The wire errors of tool calls

An error is a variant with its attributes. Its JSON is an object with the code of the variant and
the attributes that are not `None`. The reader finds the variant by its code, makes ids of the
attributes that are ids and leaves the others as they are.
-/

namespace MinimaxCode.ToolProtocol
namespace ErrorWire

open PyText PyJson RecordFields

/-- The annotation of a field, without its `None`. -/
inductive FieldType
  | toolId
  | requestId
  | text
  | number
  | texts
  | anything
deriving DecidableEq

/-- A field of a variant; one that is optional defaults to `None`. -/
structure FieldSpec where
  name : PyStr
  type : FieldType
  optional : Bool
deriving DecidableEq

structure Variant where
  code : PyStr
  fields : List FieldSpec
deriving DecidableEq

def toolIdField : FieldSpec := ⟨lit "tool_id",.toolId,false⟩
def messageField : FieldSpec := ⟨lit "message",.text,false⟩
def reasonField : FieldSpec := ⟨lit "reason",.text,false⟩
def detailsField : FieldSpec := ⟨lit "details",.anything,true⟩

def toolNotFound : Variant := ⟨lit "tool_not_found",[toolIdField]⟩
def sessionMismatch : Variant := ⟨lit "session_mismatch",[]⟩
def permissionDenied : Variant := ⟨lit "forbidden",[reasonField]⟩
def transportClosed : Variant := ⟨lit "connection_lost",[toolIdField]⟩
def timeout : Variant := ⟨lit "timeout",[toolIdField,⟨lit "elapsed_ms",.number,false⟩]⟩
def cancelled : Variant := ⟨lit "cancelled",[toolIdField]⟩
def invalidArguments : Variant := ⟨lit "invalid_params",[messageField,detailsField]⟩
def execution : Variant := ⟨lit "execution",[toolIdField,messageField]⟩
def unsupportedProtocolVersion : Variant :=
  ⟨lit "unsupported_protocol_version",[⟨lit "supported",.texts,false⟩]⟩
def payloadTooLarge : Variant :=
  ⟨lit "frame_too_large",[⟨lit "bytes",.number,false⟩,⟨lit "limit",.number,false⟩]⟩
def behaviorVersionUnsupported : Variant :=
  ⟨lit "behavior_version_unsupported",[toolIdField,⟨lit "requested",.text,false⟩]⟩
def renderLimited : Variant :=
  ⟨lit "render_limited",[toolIdField,reasonField,⟨lit "card_id",.text,true⟩]⟩
def terminalError : Variant := ⟨lit "terminal_error",[toolIdField,messageField]⟩
def internal : Variant :=
  ⟨lit "internal_error",[⟨lit "request_id",.requestId,true⟩,⟨lit "detail",.text,true⟩]⟩
def custom : Variant :=
  ⟨lit "custom",[⟨lit "subcode",.text,false⟩,messageField,detailsField]⟩

def variants : List Variant :=
  [toolNotFound,sessionMismatch,permissionDenied,transportClosed,timeout,cancelled,
    invalidArguments,execution,unsupportedProtocolVersion,payloadTooLarge,
    behaviorVersionUnsupported,renderLimited,terminalError,internal,custom]

/-- `_VARIANTS.get(code)`. -/
def variantOf (code : PyStr) : Option Variant := variants.find? fun v => v.code = code

/-- An object of the class of a variant, with a value for each of its fields. -/
structure Instance where
  variant : Variant
  values : List Json

/-- The values an annotation allows. -/
def FieldType.Allows : FieldType → Json → Prop
  | .toolId,v => ∃ id : ToolId, v = id.toWire
  | .requestId,v => ∃ id : RequestId, v = id.toWire
  | .text,v => ∃ s, v = .str s
  | .number,v => ∃ n, v = .int n
  | .texts,v => ∃ texts : List PyStr, v = .arr (texts.map .str)
  | .anything,_ => True

def FieldSpec.Allows (f : FieldSpec) (v : Json) : Prop :=
  v = .null ∧ f.optional ∨ v ≠ .null ∧ f.type.Allows v

/-- An error of one of the fifteen variants whose attributes are of their types. -/
structure ToolErrorWire extends Instance where
  known : variant ∈ variants
  typed : List.Forall₂ FieldSpec.Allows variant.fields values

def Instance.entries (e : Instance) : List (PyStr × Option Json) :=
  (lit "code",some (.str e.variant.code))::
    (e.variant.fields.zip e.values).map fun fv => (fv.1.name,notNone fv.2)

def Instance.toWire (e : Instance) : Json := object e.entries

section Reading

variable (py : Python)

def coerceField : FieldType → Json → Except WireError Json
  | .toolId,.str s => (OpaqueId.new .tool s).map OpaqueId.toWire
  | .requestId,.str s => (OpaqueId.new .request s).map OpaqueId.toWire
  | _,v => .ok v

/-- The keyword argument of a field, if the data have its key. -/
def argument (data : Fields) (f : FieldSpec) : Except WireError (FieldSpec × Option Json) :=
  match get data f.name with
  | none => .ok (f,none)
  | some v => (coerceField f.type v).map fun v => (f,some v)

/-- The value the constructor gives a field. -/
def initField : FieldSpec × Option Json → Except WireError Json
  | (_,some v) => .ok v
  | (f,none) => if f.optional then .ok .null else .error .typeError

def fromWire (data : Json) : Except WireError Instance := do
  let data ← dict data
  let code := pyStr py (← item data (lit "code"))
  match variantOf code with
  | none => .error (.valueError (lit "unknown ToolErrorWire code "++py.repr (.str code)))
  | some variant =>
    let kwargs ← variant.fields.mapM (argument data)
    let values ← kwargs.mapM initField
    return ⟨variant,values⟩

end Reading

theorem variantOf_code : ∀ v ∈ variants, variantOf v.code = some v := by decide

theorem nodup_keys : ∀ v ∈ variants, (lit "code"::v.fields.map FieldSpec.name).Nodup := by decide

section RoundTrip

variable {f : FieldSpec} {v : Json}

theorem coerceField_of_allows {type : FieldType} (h : type.Allows v) :
    coerceField type v = .ok v := by
  cases type with
  | toolId =>
    obtain ⟨id,rfl⟩ := h
    simp [coerceField,OpaqueId.toWire,Except.map]
  | requestId =>
    obtain ⟨id,rfl⟩ := h
    simp [coerceField,OpaqueId.toWire,Except.map]
  | _ => rfl

theorem argument_of_allows {data : Fields} (hget : get data f.name = notNone v) (h : f.Allows v) :
    argument data f = .ok (f,notNone v) := by
  unfold argument
  rw [hget]
  rcases h with ⟨rfl,-⟩ | ⟨hne,htype⟩
  · rfl
  · have hsome : notNone v = some v := by
      cases v with
      | null => exact absurd rfl hne
      | _ => rfl
    simp [hsome,coerceField_of_allows htype,Except.map]

theorem initField_of_allows (h : f.Allows v) : initField (f,notNone v) = .ok v := by
  rcases h with ⟨rfl,hopt⟩ | ⟨hne,-⟩
  · exact if_pos hopt
  · cases v with
    | null => exact absurd rfl hne
    | _ => rfl

variable (e : ToolErrorWire)

theorem get_code : get (present e.entries) (lit "code") = some (.str e.variant.code) := by
  simp [Instance.entries]

theorem get_attribute {fv : FieldSpec × Json} (h : fv ∈ e.variant.fields.zip e.values) :
    get (present e.entries) fv.1.name = notNone fv.2 := by
  have hlength := e.typed.length_eq
  have hnames : e.entries.map Prod.fst = lit "code"::e.variant.fields.map FieldSpec.name := by
    simp only [Instance.entries,List.map_cons,List.map_map]
    congr 1
    have hcomp : (Prod.fst ∘ fun fv : FieldSpec × Json => (fv.1.name,notNone fv.2)) =
        FieldSpec.name ∘ Prod.fst := rfl
    rw [hcomp,← List.map_map,List.map_fst_zip hlength.le]
  refine lookup_present (hnames ▸ nodup_keys _ e.known) ?_
  exact List.mem_cons_of_mem _ (List.mem_map.mpr ⟨fv,h,rfl⟩)

theorem fromWire_toWire (py : Python) : fromWire py e.toWire = .ok e.toInstance := by
  have hlength := e.typed.length_eq
  have hallows : ∀ fv ∈ e.variant.fields.zip e.values, fv.1.Allows fv.2 := fun fv hfv =>
    (List.forall₂_iff_zip.mp e.typed).2 hfv
  have harguments : e.variant.fields.mapM (argument (present e.entries)) =
      .ok ((e.variant.fields.zip e.values).map fun fv => (fv.1,notNone fv.2)) := by
    conv_lhs => rw [← List.map_fst_zip hlength.le]
    exact mapM_map fun fv hfv => argument_of_allows (get_attribute e hfv) (hallows fv hfv)
  have hvalues : ((e.variant.fields.zip e.values).map fun fv => (fv.1,notNone fv.2)).mapM
      initField = .ok e.values := by
    rw [mapM_map (h:=Prod.snd) fun fv hfv => initField_of_allows (hallows fv hfv),
      List.map_snd_zip hlength.ge]
  simp [fromWire,Instance.toWire,item,get_code,variantOf_code _ e.known,harguments,hvalues]

end RoundTrip

end ErrorWire
end MinimaxCode.ToolProtocol
