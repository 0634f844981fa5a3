import Mathlib.Data.List.Nodup
import Mathlib.Tactic.Common

/-!
# Records with fields left out

An encoder lists the fields of a record in their order, and a field without a value is left out
of what it writes. A decoder looks the fields up one by one. Reading a field gives back what the
encoder listed for it, present or left out, as long as no two fields share a key.
-/

namespace MinimaxCode.RecordFields

section Lookup

variable {K V : Type*}

/-- The fields that have a value. -/
def present (fields : List (K × Option V)) : List (K × V) :=
  fields.filterMap fun kv => kv.2.map fun v => (kv.1,v)

theorem present_cons (k : K) (o : Option V) (fields : List (K × Option V)) :
    present ((k,o)::fields) = (o.map fun v => (k,v)).toList++present fields := by
  cases o <;> rfl

variable [BEq K] [LawfulBEq K]

theorem lookup_present_cons [DecidableEq K] (k k' : K) (o : Option V)
    (fields : List (K × Option V)) : (present ((k',o)::fields)).lookup k =
      if k = k' then o.or ((present fields).lookup k) else (present fields).lookup k := by
  rw [present_cons]
  by_cases hk : k = k'
  · subst hk
    cases o <;> simp
  · cases o with
    | none => simp [hk]
    | some v => simp [List.lookup_cons,beq_false_of_ne hk,hk]

theorem lookup_present_of_not_mem {fields : List (K × Option V)} {k : K}
    (h : k ∉ fields.map Prod.fst) : (present fields).lookup k = none := by
  classical
  induction fields with
  | nil => rfl
  | cons kv fields ih =>
    rw [List.map_cons,List.mem_cons,not_or] at h
    rw [lookup_present_cons,if_neg h.1,ih h.2]

theorem lookup_present {fields : List (K × Option V)} {k : K} {o : Option V}
    (hkeys : (fields.map Prod.fst).Nodup) (h : (k,o) ∈ fields) : (present fields).lookup k = o := by
  classical
  induction fields with
  | nil => cases h
  | cons kv fields ih =>
    obtain ⟨hnew,hrest⟩ := List.nodup_cons.mp hkeys
    rw [lookup_present_cons]
    rcases List.mem_cons.mp h with rfl | hmem
    · rw [if_pos rfl,lookup_present_of_not_mem hnew,Option.or_none]
    · have hne : k ≠ kv.1 := by
        rintro rfl
        exact hnew (List.mem_map.mpr ⟨_,hmem,rfl⟩)
      rw [if_neg hne,ih hrest hmem]

end Lookup

section Decoding

universe u

variable {α β E : Type*} {decode : β → Except E α} {encode : α → β}

@[simp] theorem ok_bind {α β : Type u} (x : β) (f : β → Except E α) : (Except.ok x >>= f) = f x :=
  rfl

@[simp] theorem pure_eq_ok {α : Type u} (x : α) : (pure x : Except E α) = .ok x := rfl

@[simp] theorem map_ok {α β : Type u} (f : β → α) (x : β) :
    (f <$> (Except.ok x : Except E β)) = .ok (f x) := rfl

theorem mapM_map {γ : Type*} {f : β → Except E α} {g : γ → β} {h : γ → α} {xs : List γ}
    (hok : ∀ x ∈ xs, f (g x) = .ok (h x)) : (xs.map g).mapM f = .ok (xs.map h) := by
  induction xs with
  | nil => rfl
  | cons x xs ih =>
    have hx := hok x List.mem_cons_self
    have hxs := ih fun y hy => hok y (List.mem_cons_of_mem x hy)
    simp only [List.map_cons,List.mapM_cons,hx,hxs]
    rfl

theorem mapM_encode {xs : List α} (h : ∀ x ∈ xs, decode (encode x) = .ok x) :
    (xs.map encode).mapM decode = .ok xs := by
  rw [mapM_map (h:=id) h,List.map_id]

/-- The value a decoder returns, or the error it refuses the value with. -/
def answer (x : α) : Option E → Except E α
  | none => .ok x
  | some e => .error e

theorem map_answer {γ : Type*} (f : α → γ) (x : α) (refusal : Option E) :
    (answer x refusal).map f = answer (f x) refusal := by
  cases refusal <;> rfl

/-- Reading a field that may be left out, with a default. -/
def readOr (default : α) (decode : β → Except E α) : Option β → Except E α
  | none => .ok default
  | some v => decode v

/-- Reading a field that may be left out. -/
def readSome (decode : β → Except E α) : Option β → Except E (Option α) :=
  readOr none fun v => (decode v).map some

theorem readSome_encode (h : ∀ x, decode (encode x) = .ok x) (o : Option α) :
    readSome decode (o.map encode) = .ok o := by
  cases o with
  | none => rfl
  | some x => simp [readSome,readOr,h,Except.map]

end Decoding

end MinimaxCode.RecordFields
