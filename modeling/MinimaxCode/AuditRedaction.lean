import MinimaxCode.JsonText

/-!
# Redaction of audited arguments

Every tool dispatch is written to the audit log and mirrored into the telemetry, with the
arguments sanitized. The sanitizer follows nested dictionaries and stops at a list. Deep
redaction of JSON values is developed first, for any choice of keys and replacement; the
sanitizer is compared with it.
-/

namespace MinimaxCode
namespace PyJson

open PyText

section Blank

variable (chosen : PyStr → Bool) (w : Json)

mutual

/-- Every value under a chosen key, at any depth, is replaced. -/
def blankValue : Json → Json
  | .arr xs => .arr (blankItems xs)
  | .obj fields => .obj (blankFields fields)
  | v => v

def blankItems : List Json → List Json
  | [] => []
  | x::xs => blankValue x::blankItems xs

def blankFields : List (PyStr × Json) → List (PyStr × Json)
  | [] => []
  | (k,v)::fields => (k,if chosen k then w else blankValue v)::blankFields fields

end

mutual

/-- No key is chosen, at any depth. -/
def Json.keyFree : Json → Bool
  | .arr xs => itemsKeyFree xs
  | .obj fields => fieldsKeyFree fields
  | _ => true

def itemsKeyFree : List Json → Bool
  | [] => true
  | x::xs => x.keyFree && itemsKeyFree xs

def fieldsKeyFree : List (PyStr × Json) → Bool
  | [] => true
  | (k,v)::fields => !chosen k && v.keyFree && fieldsKeyFree fields

end

theorem blankItems_eq (xs : List Json) : blankItems chosen w xs = xs.map (blankValue chosen w) := by
  induction xs with
  | nil => rfl
  | cons x xs ih => rw [blankItems,ih,List.map_cons]

theorem blankFields_eq (fields : List (PyStr × Json)) :
    blankFields chosen w fields =
      fields.map fun kv => (kv.1,if chosen kv.1 then w else blankValue chosen w kv.2) := by
  induction fields with
  | nil => rfl
  | cons kv fields ih => rw [blankFields,ih,List.map_cons]

theorem blankValue_arr (xs : List Json) :
    blankValue chosen w (.arr xs) = .arr (xs.map (blankValue chosen w)) :=
  congrArg Json.arr (blankItems_eq chosen w xs)

theorem blankValue_obj (fields : List (PyStr × Json)) : blankValue chosen w (.obj fields) =
    .obj (fields.map fun kv => (kv.1,if chosen kv.1 then w else blankValue chosen w kv.2)) :=
  congrArg Json.obj (blankFields_eq chosen w fields)

theorem itemsKeyFree_iff {xs : List Json} :
    itemsKeyFree chosen xs = true ↔ ∀ x ∈ xs, x.keyFree chosen = true := by
  induction xs with
  | nil => simp [itemsKeyFree]
  | cons x xs ih => simp [itemsKeyFree,ih]

theorem fieldsKeyFree_iff {fields : List (PyStr × Json)} :
    fieldsKeyFree chosen fields = true ↔
      ∀ kv ∈ fields, chosen kv.1 = false ∧ kv.2.keyFree chosen = true := by
  induction fields with
  | nil => simp [fieldsKeyFree]
  | cons kv fields ih => simp [fieldsKeyFree,ih]

theorem keyFree_arr {xs : List Json} :
    (Json.arr xs).keyFree chosen = true ↔ ∀ x ∈ xs, x.keyFree chosen = true :=
  itemsKeyFree_iff chosen

theorem keyFree_obj {fields : List (PyStr × Json)} : (Json.obj fields).keyFree chosen = true ↔
    ∀ kv ∈ fields, chosen kv.1 = false ∧ kv.2.keyFree chosen = true :=
  fieldsKeyFree_iff chosen

variable {chosen} {w} {v : Json}

theorem blank_blank (w' v : Json) : blankValue chosen w (blankValue chosen w' v) = blankValue chosen w v := by
  induction v using Json.induct with
  | null => rfl
  | bool b => rfl
  | int n => rfl
  | float x => rfl
  | str s => rfl
  | arr xs ih =>
    simp only [blankValue_arr,List.map_map]
    congr 1
    exact List.map_congr_left ih
  | obj fields ih =>
    simp only [blankValue_obj,List.map_map]
    congr 1
    refine List.map_congr_left fun kv hkv => ?_
    by_cases hk : chosen kv.1 = true
    · simp [hk]
    · simp [hk,ih kv hkv]

theorem blank_of_keyFree (h : v.keyFree chosen = true) : blankValue chosen w v = v := by
  induction v using Json.induct with
  | null => rfl
  | bool b => rfl
  | int n => rfl
  | float x => rfl
  | str s => rfl
  | arr xs ih =>
    rw [keyFree_arr] at h
    rw [blankValue_arr]
    congr 1
    conv_rhs => rw [← List.map_id xs]
    exact List.map_congr_left fun x hx => ih x hx (h x hx)
  | obj fields ih =>
    rw [keyFree_obj] at h
    rw [blankValue_obj]
    congr 1
    conv_rhs => rw [← List.map_id fields]
    refine List.map_congr_left fun kv hkv => ?_
    rw [(h kv hkv).1,ih kv hkv (h kv hkv).2]
    rfl

theorem keyFree_blank : (blankValue chosen w v).keyFree chosen = v.keyFree chosen := by
  rw [Bool.eq_iff_iff]
  refine ⟨fun h => ?_,fun h => (blank_of_keyFree h).symm ▸ h⟩
  induction v using Json.induct with
  | null => rfl
  | bool b => rfl
  | int n => rfl
  | float x => rfl
  | str s => rfl
  | arr xs ih =>
    rw [blankValue_arr,keyFree_arr,List.forall_mem_map] at h
    rw [keyFree_arr]
    exact fun x hx => ih x hx (h x hx)
  | obj fields ih =>
    rw [blankValue_obj,keyFree_obj,List.forall_mem_map] at h
    rw [keyFree_obj]
    intro kv hkv
    obtain ⟨hk,hv⟩ := h kv hkv
    rw [if_neg (by simpa using hk)] at hv
    exact ⟨hk,ih kv hkv hv⟩

theorem keyFree_of_blank_eq {w' : Json} (hne : w ≠ w')
    (h : blankValue chosen w v = blankValue chosen w' v) : v.keyFree chosen = true := by
  induction v using Json.induct with
  | null => rfl
  | bool b => rfl
  | int n => rfl
  | float x => rfl
  | str s => rfl
  | arr xs ih =>
    simp only [blankValue_arr,Json.arr.injEq] at h
    rw [keyFree_arr]
    exact fun x hx => ih x hx (List.map_inj_left.mp h x hx)
  | obj fields ih =>
    simp only [blankValue_obj,Json.obj.injEq] at h
    rw [keyFree_obj]
    intro kv hkv
    have hkv' := (Prod.mk.injEq _ _ _ _ ▸ List.map_inj_left.mp h kv hkv).2
    by_cases hk : chosen kv.1 = true
    · rw [if_pos hk,if_pos hk] at hkv'
      exact absurd hkv' hne
    · rw [if_neg hk,if_neg hk] at hkv'
      exact ⟨Bool.not_eq_true _ ▸ hk,ih kv hkv hkv'⟩

theorem blank_distinct (hw : w.distinct = true) (h : v.distinct = true) :
    (blankValue chosen w v).distinct = true := by
  induction v using Json.induct with
  | null => rfl
  | bool b => rfl
  | int n => rfl
  | float x => rfl
  | str s => rfl
  | arr xs ih =>
    rw [Json.distinct,allDistinct_iff] at h
    rw [blankValue_arr,Json.distinct,allDistinct_iff,List.forall_mem_map]
    exact fun x hx => ih x hx (h x hx)
  | obj fields ih =>
    rw [Json.distinct,Bool.and_eq_true,decide_eq_true_eq,fieldsDistinct_iff] at h
    rw [blankValue_obj,Json.distinct,Bool.and_eq_true,decide_eq_true_eq,fieldsDistinct_iff,
      List.forall_mem_map,List.map_map]
    refine ⟨h.1,fun kv hkv => ?_⟩
    by_cases hk : chosen kv.1 = true
    · simpa [hk] using hw
    · simpa [hk] using ih kv hkv (h.2 kv hkv)

end Blank

end PyJson

namespace Audit

open PyText PyJson

/-- `str.lower` as far as a word of ASCII letters can tell. The Kelvin sign is the one other
character whose lower case is an ASCII letter. -/
def lower (s : PyStr) : PyStr :=
  s.map fun
    | .scalar c => .scalar (if c = '\u212a' then 'k' else c.toLower)
    | c => c

def sanitizeKeys : List PyStr :=
  ["api_key","token","secret","password","authorization","apikey","access_token","refresh_token",
    "private_key"].map lit

/-- `k.lower() in sensitive_keys`. -/
def sensitive (sensitiveKeys : List PyStr) (k : PyStr) : Bool := sensitiveKeys.contains (lower k)

def stars : Json := .str (lit "***")

section Sanitize

variable (sensitiveKeys : List PyStr)

mutual

/-- A value under a key that is not sensitive: a dictionary is sanitized in turn, anything
else is taken over. -/
def sanitizeValue : Json → Json
  | .obj fields => .obj (sanitizeFields fields)
  | v => v

def sanitizeFields : List (PyStr × Json) → List (PyStr × Json)
  | [] => []
  | (k,v)::fields =>
    (k,if sensitive sensitiveKeys k then stars else sanitizeValue v)::sanitizeFields fields

end

def sanitizeArgs : Json → List (PyStr × Json)
  | .obj fields => sanitizeFields sensitiveKeys fields
  | _ => []

mutual

/-- A value without a sensitive key below a list. -/
def clearValue : Json → Bool
  | .arr xs => itemsKeyFree (sensitive sensitiveKeys) xs
  | .obj fields => clearFields fields
  | _ => true

def clearFields : List (PyStr × Json) → Bool
  | [] => true
  | (k,v)::fields => (sensitive sensitiveKeys k || clearValue v) && clearFields fields

end

/-- Arguments without a sensitive key in a dictionary that lies inside a list. Arguments that
are no dictionary are dropped whole. -/
def clearOfLists : Json → Bool
  | .obj fields => clearFields sensitiveKeys fields
  | _ => true

/-- Full redaction, through dictionaries and lists. -/
def redact : Json → Json := blankValue (sensitive sensitiveKeys) stars

/-- Two argument values that differ at most under sensitive keys. -/
def SameButSecrets (a b : Json) : Prop := redact sensitiveKeys a = redact sensitiveKeys b

theorem sanitizeFields_eq (fields : List (PyStr × Json)) :
    sanitizeFields sensitiveKeys fields = fields.map fun kv =>
      (kv.1,if sensitive sensitiveKeys kv.1 then stars else sanitizeValue sensitiveKeys kv.2) := by
  induction fields with
  | nil => rfl
  | cons kv fields ih => rw [sanitizeFields,ih,List.map_cons]

theorem clearFields_iff {fields : List (PyStr × Json)} :
    clearFields sensitiveKeys fields = true ↔
      ∀ kv ∈ fields, sensitive sensitiveKeys kv.1 = true ∨ clearValue sensitiveKeys kv.2 = true := by
  induction fields with
  | nil => simp [clearFields]
  | cons kv fields ih => simp [clearFields,ih]

variable {sensitiveKeys} {v args : Json}

theorem sanitizeValue_eq_redact (h : clearValue sensitiveKeys v = true) :
    sanitizeValue sensitiveKeys v = redact sensitiveKeys v := by
  induction v using Json.induct with
  | null => rfl
  | bool b => rfl
  | int n => rfl
  | float x => rfl
  | str s => rfl
  | arr xs _ => exact (blank_of_keyFree (v:=.arr xs) h).symm
  | obj fields ih =>
    rw [clearValue,clearFields_iff] at h
    rw [sanitizeValue,redact,blankValue_obj,sanitizeFields_eq]
    congr 1
    refine List.map_congr_left fun kv hkv => ?_
    by_cases hk : sensitive sensitiveKeys kv.1 = true
    · rw [if_pos hk,if_pos hk]
    · rw [if_neg hk,if_neg hk,ih kv hkv ((h kv hkv).resolve_left hk)]
      rfl

theorem clearValue_of_blank_eq {w w' : Json} (hne : w ≠ w')
    (h : sanitizeValue sensitiveKeys (blankValue (sensitive sensitiveKeys) w v) =
      sanitizeValue sensitiveKeys (blankValue (sensitive sensitiveKeys) w' v)) :
    clearValue sensitiveKeys v = true := by
  induction v using Json.induct with
  | null => rfl
  | bool b => rfl
  | int n => rfl
  | float x => rfl
  | str s => rfl
  | arr xs _ => exact keyFree_of_blank_eq (v:=.arr xs) hne h
  | obj fields ih =>
    simp only [blankValue_obj,sanitizeValue,sanitizeFields_eq,List.map_map,Json.obj.injEq] at h
    rw [clearValue,clearFields_iff]
    intro kv hkv
    by_cases hk : sensitive sensitiveKeys kv.1 = true
    · exact .inl hk
    · have hkv' := List.map_inj_left.mp h kv hkv
      simp only [Function.comp_apply,if_neg hk,Prod.mk.injEq,true_and] at hkv'
      exact .inr (ih kv hkv hkv')

theorem sanitizeValue_distinct (h : v.distinct = true) :
    (sanitizeValue sensitiveKeys v).distinct = true := by
  induction v using Json.induct with
  | null => rfl
  | bool b => rfl
  | int n => rfl
  | float x => rfl
  | str s => rfl
  | arr xs _ => exact h
  | obj fields ih =>
    rw [Json.distinct,Bool.and_eq_true,decide_eq_true_eq,fieldsDistinct_iff] at h
    rw [sanitizeValue,sanitizeFields_eq,Json.distinct,Bool.and_eq_true,decide_eq_true_eq,
      fieldsDistinct_iff,List.forall_mem_map,List.map_map]
    refine ⟨h.1,fun kv hkv => ?_⟩
    by_cases hk : sensitive sensitiveKeys kv.1 = true
    · simp only [hk,if_true]
      rfl
    · simpa [hk] using ih kv hkv (h.2 kv hkv)

theorem sanitizeArgs_distinct (h : args.distinct = true) :
    (Json.obj (sanitizeArgs sensitiveKeys args)).distinct = true := by
  cases args with
  | obj fields => exact sanitizeValue_distinct h
  | _ => rfl

theorem clearValue_redact : clearValue sensitiveKeys (redact sensitiveKeys v) = clearValue sensitiveKeys v := by
  induction v using Json.induct with
  | null => rfl
  | bool b => rfl
  | int n => rfl
  | float x => rfl
  | str s => rfl
  | arr xs _ => exact keyFree_blank (v:=.arr xs)
  | obj fields ih =>
    rw [Bool.eq_iff_iff,redact,blankValue_obj,clearValue,clearValue,clearFields_iff,
      clearFields_iff,List.forall_mem_map]
    refine forall₂_congr fun kv hkv => ?_
    by_cases hk : sensitive sensitiveKeys kv.1 = true
    · simp only [hk,true_or]
    · rw [if_neg hk,← ih kv hkv]
      rfl

theorem clearOfLists_redact (args : Json) :
    clearOfLists sensitiveKeys (redact sensitiveKeys args) = clearOfLists sensitiveKeys args := by
  cases args with
  | obj fields => exact clearValue_redact (v:=.obj fields)
  | _ => rfl

/-- The fields of a dictionary. -/
def fieldsOf : Json → List (PyStr × Json)
  | .obj fields => fields
  | _ => []

theorem sanitizeArgs_of_clear (h : clearOfLists sensitiveKeys args = true) :
    sanitizeArgs sensitiveKeys args = fieldsOf (redact sensitiveKeys args) := by
  cases args with
  | obj fields => exact Json.obj.inj (sanitizeValue_eq_redact (v:=.obj fields) h)
  | _ => rfl

theorem redact_redact (v : Json) : redact sensitiveKeys (redact sensitiveKeys v) = redact sensitiveKeys v :=
  blank_blank stars v

theorem redact_sanitizeArgs_of_clear (h : clearOfLists sensitiveKeys args = true) :
    redact sensitiveKeys (.obj (sanitizeArgs sensitiveKeys args)) = .obj (sanitizeArgs sensitiveKeys args) := by
  rw [sanitizeArgs_of_clear h]
  cases args with
  | obj fields => exact redact_redact (.obj fields)
  | _ => rfl

theorem clearOfLists_of_blank_eq {w w' : Json} (hne : w ≠ w')
    (h : sanitizeArgs sensitiveKeys (blankValue (sensitive sensitiveKeys) w args) =
      sanitizeArgs sensitiveKeys (blankValue (sensitive sensitiveKeys) w' args)) :
    clearOfLists sensitiveKeys args = true := by
  cases args with
  | obj fields => exact clearValue_of_blank_eq (v:=.obj fields) hne (congrArg Json.obj h)
  | _ => rfl

end Sanitize

/-- What a dispatch hands to the audit, as far as it is read. -/
structure CallLog where
  name : Option PyStr
  args : Option Json

/-- The outcome of a dispatch. -/
structure Outcome where
  resultStatus : PyStr
  permission : Option PyStr
  durationMs : ℤ
  error : Option PyStr
  exitCode : Option ℤ

inductive Severity
  | info
  | error
  deriving DecidableEq

/-- A `tool_call` event. -/
structure TelemetryEvent where
  sessionId : Option PyStr
  severity : Severity
  name : PyStr
  payload : Json

/-- The parameters of the row that `AuditLogDAO.record` inserts. -/
structure AuditRow where
  id : PyStr
  sessionId : Option PyStr
  toolName : PyStr
  toolArgs : PyStr
  permission : Option PyStr
  resultStatus : PyStr
  exitCode : Option ℤ
  durationMs : ℤ
  error : Option PyStr
  createdAt : PyStr

/-- `(error or "")[:n] if error else None`. -/
def clipped (n : ℕ) : Option PyStr → Option PyStr
  | some e => if e = [] then none else some (e.take n)
  | none => none

def orNull {α : Type} (f : α → Json) : Option α → Json
  | some a => f a
  | none => .null

/-- `call_log.get("name", "unknown")`. -/
def CallLog.toolName (c : CallLog) : PyStr := c.name.getD (lit "unknown")

/-- `_sanitize_args(call_log.get("args", {}), self._SANITIZE_KEYS)`. -/
def CallLog.sanitized (c : CallLog) : List (PyStr × Json) :=
  sanitizeArgs sanitizeKeys (c.args.getD (.obj []))

def toolCallEvent (sessionId : Option PyStr) (c : CallLog) (o : Outcome) : TelemetryEvent where
  sessionId := sessionId
  severity := if o.resultStatus = lit "error" then .error else .info
  name := c.toolName
  payload := .obj [(lit "tool",.str c.toolName),(lit "args",.obj c.sanitized),
    (lit "permission",orNull .str o.permission),(lit "status",.str o.resultStatus),
    (lit "exit_code",orNull .int o.exitCode),(lit "duration_ms",.int o.durationMs),
    (lit "error",orNull .str (clipped 500 o.error))]

section Record

variable (scrub : PyStr → PyStr) (ft : FloatText)

mutual

/-- `redact_value`; `scrub` is what it does to a string. -/
def redactValue : Json → Json
  | .str s => .str (scrub s)
  | .arr xs => .arr (redactItems xs)
  | .obj fields => .obj (redactFields fields)
  | v => v

def redactItems : List Json → List Json
  | [] => []
  | x::xs => redactValue x::redactItems xs

def redactFields : List (PyStr × Json) → List (PyStr × Json)
  | [] => []
  | (k,v)::fields => (k,redactValue v)::redactFields fields

end

/-- What `TelemetryEngine.emit` buffers. -/
def bufferRecord (e : TelemetryEvent) : TelemetryEvent := { e with payload := redactValue scrub e.payload }

/-- `AuditLogDAO.record`, with the identifier and the time it takes. -/
def auditRow (id createdAt : PyStr) (sessionId : Option PyStr) (c : CallLog) (o : Outcome) : AuditRow where
  id := id
  sessionId := sessionId
  toolName := c.toolName
  toolArgs := dumps ft false (.obj c.sanitized)
  permission := o.permission
  resultStatus := o.resultStatus
  exitCode := o.exitCode
  durationMs := o.durationMs
  error := clipped 2000 o.error
  createdAt := createdAt

/-- `_record_audit` with a telemetry engine and an audit table. -/
def recordAudit (id createdAt : PyStr) (sessionId : Option PyStr) (c : CallLog) (o : Outcome) :
    TelemetryEvent × AuditRow :=
  (bufferRecord scrub (toolCallEvent sessionId c o),auditRow ft id createdAt sessionId c o)

/-- The redaction is deep: nothing under a sensitive key is left in the sanitized arguments, and
arguments that differ only there give the same record. -/
def RedactsDeeply (id createdAt : PyStr) (sessionId : Option PyStr) (name : Option PyStr) (o : Outcome)
    (args : Json) : Prop :=
  redact sanitizeKeys (.obj (sanitizeArgs sanitizeKeys args)) = .obj (sanitizeArgs sanitizeKeys args) ∧
    ∀ other, other.distinct = true → SameButSecrets sanitizeKeys other args →
      recordAudit scrub ft id createdAt sessionId ⟨name,some other⟩ o =
        recordAudit scrub ft id createdAt sessionId ⟨name,some args⟩ o

variable {scrub ft}

theorem sanitizeArgs_of_row_eq {id createdAt : PyStr} {sessionId name : Option PyStr} {o : Outcome}
    {a b : Json} (ha : a.distinct = true) (hb : b.distinct = true)
    (h : (auditRow ft id createdAt sessionId ⟨name,some a⟩ o).toolArgs =
      (auditRow ft id createdAt sessionId ⟨name,some b⟩ o).toolArgs) :
    sanitizeArgs sanitizeKeys a = sanitizeArgs sanitizeKeys b := by
  have hload : ∀ v : Json, v.distinct = true →
      loads ft (dumps ft false (.obj (sanitizeArgs sanitizeKeys v))) =
        some (.obj (sanitizeArgs sanitizeKeys v)) := fun v hv =>
    loads_dumps ft false _ (sanitizeArgs_distinct hv) (by simp)
  have h : dumps ft false (.obj (sanitizeArgs sanitizeKeys a)) =
      dumps ft false (.obj (sanitizeArgs sanitizeKeys b)) := h
  have hloaded := hload a ha
  rw [h,hload b hb] at hloaded
  exact Json.obj.inj (Option.some.inj hloaded).symm

theorem recordAudit_congr {id createdAt : PyStr} {sessionId name : Option PyStr} {o : Outcome} {a b : Json}
    (h : sanitizeArgs sanitizeKeys a = sanitizeArgs sanitizeKeys b) :
    recordAudit scrub ft id createdAt sessionId ⟨name,some a⟩ o =
      recordAudit scrub ft id createdAt sessionId ⟨name,some b⟩ o := by
  have hs : CallLog.sanitized ⟨name,some a⟩ = CallLog.sanitized ⟨name,some b⟩ := h
  simp only [recordAudit,toolCallEvent,auditRow,hs,CallLog.toolName]

end Record

/-- The redaction of an argument value is deep exactly when no dictionary inside a list has a
sensitive key. -/
theorem redactsDeeply_iff (scrub : PyStr → PyStr) (ft : FloatText) (id createdAt : PyStr)
    (sessionId name : Option PyStr) (o : Outcome) (args : Json) (hd : args.distinct = true) :
    RedactsDeeply scrub ft id createdAt sessionId name o args ↔ clearOfLists sanitizeKeys args = true := by
  constructor
  · rintro ⟨_,hsame⟩
    have hrow : ∀ w : Json, w.distinct = true →
        sanitizeArgs sanitizeKeys (blankValue (sensitive sanitizeKeys) w args) =
          sanitizeArgs sanitizeKeys args := by
      intro w hw
      have hdist : (blankValue (sensitive sanitizeKeys) w args).distinct = true := blank_distinct hw hd
      have hrec := hsame _ hdist (blank_blank w args)
      exact sanitizeArgs_of_row_eq hdist hd (congrArg (fun r => r.2.toolArgs) hrec)
    have hne : Json.null ≠ .bool true := by simp
    refine clearOfLists_of_blank_eq hne ?_
    rw [hrow _ rfl,hrow _ rfl]
  · intro hclear
    refine ⟨redact_sanitizeArgs_of_clear hclear,fun other _ hsame => recordAudit_congr ?_⟩
    have hother : clearOfLists sanitizeKeys other = true := by
      rw [← clearOfLists_redact,show redact sanitizeKeys other = _ from hsame,clearOfLists_redact,hclear]
    rw [sanitizeArgs_of_clear hother,sanitizeArgs_of_clear hclear,show redact sanitizeKeys other = _ from hsame]

/-- A secret in a list of servers. -/
def serversWith (token : PyStr) : Json :=
  .obj [(lit "servers",.arr [.obj [(lit "url",.str (lit "http://a")),(lit "token",.str token)]])]

def success : Outcome := ⟨lit "success",some (lit "allow"),3,none,none⟩

/-- A secret under a key of a dictionary in a list is taken over. -/
theorem secret_in_list_kept :
    sanitizeArgs sanitizeKeys (serversWith (lit "s3cret")) = fieldsOf (serversWith (lit "s3cret")) ∧
      ¬ RedactsDeeply (fun s => s) plainFloats (lit "aud_1") (lit "2025-01-01") none (some (lit "connect"))
        success (serversWith (lit "s3cret")) := by
  refine ⟨rfl,?_⟩
  rintro ⟨h,_⟩
  have hleft : redact sanitizeKeys (.obj (sanitizeArgs sanitizeKeys (serversWith (lit "s3cret")))) =
      serversWith (lit "***") := rfl
  have hright : Json.obj (sanitizeArgs sanitizeKeys (serversWith (lit "s3cret"))) =
      serversWith (lit "s3cret") := rfl
  rw [hleft,hright] at h
  simp only [serversWith,Json.obj.injEq,Json.arr.injEq,List.cons.injEq,Prod.mk.injEq,Json.str.injEq,
    and_true,true_and] at h
  exact absurd h (by decide)

/-- Secrets in nested dictionaries and a list of plain values. -/
def plainArgs : Json :=
  .obj [(lit "config",.obj [(lit "Token",.str (lit "s3cret"))]),
    (lit "paths",.arr [.obj [(lit "path",.str (lit "a.py"))]])]

theorem plainArgs_redactsDeeply :
    clearOfLists sanitizeKeys plainArgs = true ∧
      RedactsDeeply (fun s => s) plainFloats (lit "aud_1") (lit "2025-01-01") none (some (lit "connect"))
        success plainArgs :=
  ⟨rfl,(redactsDeeply_iff (fun s => s) plainFloats (lit "aud_1") (lit "2025-01-01") none
    (some (lit "connect")) success plainArgs rfl).mpr rfl⟩

end Audit
end MinimaxCode
