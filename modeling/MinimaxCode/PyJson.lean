import Mathlib.Algebra.Group.Nat.Defs
import MinimaxCode.PyText

/-!
# JSON values

The values `json.loads` returns. A float is not a number, an infinity, or the bit
pattern of a finite double. An object keeps the order of its keys, which are distinct
in a Python dictionary.
-/

namespace MinimaxCode.PyJson

open PyText

/-- The bit patterns of the finite doubles. -/
def FiniteBits : Type := {bits : UInt64 // (bits >>> 52) &&& 0x7FF ≠ 0x7FF}

theorem zero_finiteBits : ((0 : UInt64) >>> 52) &&& 0x7FF ≠ 0x7FF := by decide

inductive PyFloat
  | nan
  | inf (negative : Bool)
  | finite (bits : FiniteBits)

inductive Json
  | null
  | bool (b : Bool)
  | int (n : ℤ)
  | float (x : PyFloat)
  | str (s : PyStr)
  | arr (xs : List Json)
  | obj (fields : List (PyStr × Json))

namespace Json

def isNull : Json → Bool
  | null => true
  | _ => false

theorem induct {P : Json → Prop} (null : P .null) (bool : ∀ b, P (.bool b))
    (int : ∀ n, P (.int n)) (float : ∀ x, P (.float x)) (str : ∀ s, P (.str s))
    (arr : ∀ xs, (∀ x ∈ xs, P x) → P (.arr xs))
    (obj : ∀ fields, (∀ kv ∈ fields, P kv.2) → P (.obj fields)) (v : Json) : P v := by
  refine @Json.rec P (fun xs => ∀ x ∈ xs, P x) (fun fields => ∀ kv ∈ fields, P kv.2)
    (fun kv => P kv.2) null bool int float str arr obj ?_ ?_ ?_ ?_ ?_ v
  · simp
  · intro x xs hx hxs y hy
    cases hy with
    | head => exact hx
    | tail _ hy => exact hxs y hy
  · simp
  · intro kv fields hkv hfields kv' hkv'
    cases hkv' with
    | head => exact hkv
    | tail _ h => exact hfields kv' h
  · intro _ _ h
    exact h

end Json

/-- Python's truth value. Of the floats only the two zeros are false. -/
def truthy : Json → Bool
  | .null => false
  | .bool b => b
  | .int n => n ≠ 0
  | .float (.finite bits) => bits.val &&& 0x7FFFFFFFFFFFFFFF ≠ 0
  | .float _ => true
  | .str s => !s.isEmpty
  | .arr xs => !xs.isEmpty
  | .obj fields => !fields.isEmpty

/-- `int` of a finite float: the value rounded towards zero. -/
def FiniteBits.truncate (b : FiniteBits) : ℤ :=
  let bits := b.val.toNat
  let exponent := bits/2^52%2^11
  let mantissa := bits%2^52+if exponent = 0 then 0 else 2^52
  let magnitude : ℕ :=
    if exponent < 1075 then mantissa/2^(1075-exponent) else mantissa*2^(exponent-1075)
  if bits/2^63 = 0 then magnitude else -magnitude

/-- What `json.loads` does with a text: a value, a `JSONDecodeError`, another
`ValueError`, or another exception such as `RecursionError`. -/
inductive LoadsOutcome
  | value (v : Json)
  | decodeError (message : PyStr)
  | valueError (message : PyStr)
  | raises

def get (fields : List (PyStr × Json)) (key : PyStr) : Option Json := fields.lookup key

/-- `key in dict`. -/
def has (fields : List (PyStr × Json)) (key : PyStr) : Bool := (get fields key).isSome

/-- `dict[key] = value`: an old key keeps its place. -/
def set (fields : List (PyStr × Json)) (key : PyStr) (value : Json) : List (PyStr × Json) :=
  if key ∈ fields.map Prod.fst then fields.map fun kv => if kv.1 = key then (key,value) else kv
  else fields++[(key,value)]

/-- `dict(pairs)`. -/
def dictOf (pairs : List (PyStr × Json)) : List (PyStr × Json) :=
  pairs.foldl (fun fields kv => set fields kv.1 kv.2) []

mutual

/-- The keys of every object are distinct. -/
def Json.distinct : Json → Bool
  | .arr xs => allDistinct xs
  | .obj fields => (fields.map Prod.fst).Nodup && fieldsDistinct fields
  | _ => true

def allDistinct : List Json → Bool
  | [] => true
  | x::xs => x.distinct && allDistinct xs

def fieldsDistinct : List (PyStr × Json) → Bool
  | [] => true
  | (_,v)::fields => v.distinct && fieldsDistinct fields

end

mutual

/-- Every string and key has a UTF-8 encoding. -/
def Json.encodes : Json → Bool
  | .str s => PyText.encodes s
  | .arr xs => allEncode xs
  | .obj fields => fieldsEncode fields
  | _ => true

def allEncode : List Json → Bool
  | [] => true
  | x::xs => x.encodes && allEncode xs

def fieldsEncode : List (PyStr × Json) → Bool
  | [] => true
  | (k,v)::fields => PyText.encodes k && v.encodes && fieldsEncode fields

end

theorem allDistinct_iff {xs : List Json} : allDistinct xs ↔ ∀ x ∈ xs, x.distinct := by
  induction xs with
  | nil => simp [allDistinct]
  | cons x xs ih => simp [allDistinct,ih]

variable {fields : List (PyStr × Json)}

theorem fieldsDistinct_iff :
    fieldsDistinct fields ↔ ∀ kv ∈ fields, kv.2.distinct := by
  induction fields with
  | nil => simp [fieldsDistinct]
  | cons kv fields ih => simp [fieldsDistinct,ih]

theorem allEncode_iff {xs : List Json} : allEncode xs ↔ ∀ x ∈ xs, x.encodes := by
  induction xs with
  | nil => simp [allEncode]
  | cons x xs ih => simp [allEncode,ih]

theorem fieldsEncode_iff :
    fieldsEncode fields ↔ ∀ kv ∈ fields, PyText.encodes kv.1 ∧ kv.2.encodes := by
  induction fields with
  | nil => simp [fieldsEncode]
  | cons kv fields ih => simp [fieldsEncode,ih]

theorem dictOf_of_nodup {pairs : List (PyStr × Json)} (h : (pairs.map Prod.fst).Nodup) :
    dictOf pairs = pairs := by
  have hgen : ∀ done rest : List (PyStr × Json), ((done++rest).map Prod.fst).Nodup →
      rest.foldl (fun fields kv => set fields kv.1 kv.2) done = done++rest := by
    intro done rest
    induction rest generalizing done with
    | nil => simp
    | cons kv rest ih =>
      intro hn
      have hnew : kv.1 ∉ done.map Prod.fst := by
        intro hm
        simp only [List.map_append,List.map_cons,List.nodup_append] at hn
        exact hn.2.2 kv.1 hm kv.1 List.mem_cons_self rfl
      rw [List.foldl_cons,set,if_neg hnew,ih _ (by simpa using hn)]
      simp
  exact hgen [] pairs (by simpa using h)

theorem set_distinct {key : PyStr} {value : Json}
    (hn : (fields.map Prod.fst).Nodup) (hd : ∀ kv ∈ fields, kv.2.distinct)
    (hv : value.distinct) :
    ((set fields key value).map Prod.fst).Nodup ∧ ∀ kv ∈ set fields key value, kv.2.distinct := by
  unfold set
  by_cases hm : key ∈ fields.map Prod.fst
  · have hkeys : (fields.map fun kv => if kv.1 = key then (key,value) else kv).map Prod.fst =
        fields.map Prod.fst := by
      rw [List.map_map]
      apply List.map_congr_left
      intro kv _
      by_cases hkv : kv.1 = key <;> simp [hkv]
    rw [if_pos hm,hkeys]
    refine ⟨hn,?_⟩
    intro kv hkv
    obtain ⟨kv',hkv',rfl⟩ := List.mem_map.mp hkv
    by_cases heq : kv'.1 = key
    · simpa [heq] using hv
    · simpa [heq] using hd kv' hkv'
  · rw [if_neg hm]
    constructor
    · rw [List.map_append,List.nodup_append]
      refine ⟨hn,by simp,?_⟩
      intro k hk k' hk' heq
      rw [List.map_singleton,List.mem_singleton] at hk'
      have hkey : k = key := heq.trans hk'
      exact hm (hkey ▸ hk)
    · intro kv hkv
      cases List.mem_append.mp hkv with
      | inl h => exact hd kv h
      | inr h => rwa [List.mem_singleton.mp h]

theorem dictOf_distinct {pairs : List (PyStr × Json)} (hd : fieldsDistinct pairs) :
    (Json.obj (dictOf pairs)).distinct = true := by
  have hgen : ∀ done : List (PyStr × Json), (done.map Prod.fst).Nodup →
      (∀ kv ∈ done, kv.2.distinct) → (∀ kv ∈ pairs, kv.2.distinct) →
      ((pairs.foldl (fun fields kv => set fields kv.1 kv.2) done).map Prod.fst).Nodup ∧
      ∀ kv ∈ pairs.foldl (fun fields kv => set fields kv.1 kv.2) done, kv.2.distinct := by
    clear hd
    induction pairs with
    | nil => exact fun done hn hdone _ => ⟨hn,hdone⟩
    | cons kv pairs ih =>
      intro done hn hdone hpairs
      have hkv := hpairs kv List.mem_cons_self
      have hset := @set_distinct done kv.1 kv.2 hn hdone hkv
      exact ih _ hset.1 hset.2 fun kv' hkv' => hpairs kv' (List.mem_cons_of_mem kv hkv')
  have hdict := hgen [] (by simp) (by simp) (fieldsDistinct_iff.mp hd)
  rw [Json.distinct,Bool.and_eq_true,decide_eq_true_eq,fieldsDistinct_iff]
  exact hdict

end MinimaxCode.PyJson
