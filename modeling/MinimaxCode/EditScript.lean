import Mathlib.Data.List.Basic
import Mathlib.Tactic.Common

/-!
# Edit scripts

An edit script says how one list comes out of another: which blocks stay, go, come, or are
replaced. A list of changes is a script without the blocks that stay, and is applied to the
old list alone.
-/

namespace MinimaxCode.EditScript

variable {α : Type*}

/-- `a[i:j]`. -/
def slice (a : List α) (i j : ℕ) : List α := (a.drop i).take (j-i)

inductive Tag
  | equal
  | delete
  | insert
  | replace
  deriving DecidableEq

structure Opcode where
  tag : Tag
  i1 : ℕ
  i2 : ℕ
  j1 : ℕ
  j2 : ℕ

/-- The blocks are as the tag says. -/
def Opcode.Fits (a b : List α) (o : Opcode) : Prop :=
  match o.tag with
  | .equal => o.i1 < o.i2 ∧ o.j1 < o.j2 ∧ slice a o.i1 o.i2 = slice b o.j1 o.j2
  | .delete => o.i1 < o.i2 ∧ o.j1 = o.j2
  | .insert => o.i1 = o.i2 ∧ o.j1 < o.j2
  | .replace => o.i1 < o.i2 ∧ o.j1 < o.j2

/-- The blocks follow one another from a place in each list up to the ends. -/
def ValidFrom (a b : List α) : ℕ → ℕ → List Opcode → Prop
  | i, j, [] => i = a.length ∧ j = b.length
  | i, j, o::os => o.i1 = i ∧ o.j1 = j ∧ o.i2 ≤ a.length ∧ o.j2 ≤ b.length ∧ o.Fits a b ∧
      ValidFrom a b o.i2 o.j2 os

def Valid (a b : List α) (os : List Opcode) : Prop := ValidFrom a b 0 0 os

section Checks

variable [DecidableEq α] (a b : List α)

instance decidableFits : (o : Opcode) → Decidable (o.Fits a b)
  | ⟨.equal,i1,i2,j1,j2⟩ => inferInstanceAs (Decidable (i1 < i2 ∧ j1 < j2 ∧ slice a i1 i2 = slice b j1 j2))
  | ⟨.delete,i1,i2,j1,j2⟩ => inferInstanceAs (Decidable (i1 < i2 ∧ j1 = j2))
  | ⟨.insert,i1,i2,j1,j2⟩ => inferInstanceAs (Decidable (i1 = i2 ∧ j1 < j2))
  | ⟨.replace,i1,i2,j1,j2⟩ => inferInstanceAs (Decidable (i1 < i2 ∧ j1 < j2))

instance decidableValidFrom : (i j : ℕ) → (os : List Opcode) → Decidable (ValidFrom a b i j os)
  | i, j, [] => inferInstanceAs (Decidable (i = a.length ∧ j = b.length))
  | i, j, o::os =>
    have := decidableValidFrom o.i2 o.j2 os
    inferInstanceAs (Decidable (o.i1 = i ∧ o.j1 = j ∧ o.i2 ≤ a.length ∧ o.j2 ≤ b.length ∧
      o.Fits a b ∧ ValidFrom a b o.i2 o.j2 os))

instance (os : List Opcode) : Decidable (Valid a b os) := decidableValidFrom a b 0 0 os

end Checks

theorem Opcode.Fits.le {a b : List α} {o : Opcode} (h : o.Fits a b) : o.i1 ≤ o.i2 ∧ o.j1 ≤ o.j2 := by
  rw [Opcode.Fits] at h
  split at h <;> omega

variable {a b : List α} {i j k : ℕ}

theorem length_slice (h : j ≤ a.length) : (slice a i j).length = j-i := by
  simp only [slice,List.length_take,List.length_drop]
  omega

@[simp] theorem slice_self (a : List α) (i : ℕ) : slice a i i = [] := by simp [slice]

theorem slice_append (hij : i ≤ j) (hjk : j ≤ k) : slice a i j++slice a j k = slice a i k := by
  have hdrop : a.drop j = (a.drop i).drop (j-i) := by
    rw [List.drop_drop]
    congr 1
    omega
  have hsplit : k-i = (j-i)+(k-j) := by omega
  rw [slice,slice,slice,hdrop,hsplit,List.take_add]

theorem slice_zero (a : List α) (j : ℕ) : slice a 0 j = a.take j := by simp [slice]

theorem slice_length (a : List α) (i : ℕ) : slice a i a.length = a.drop i := by
  rw [slice,List.take_of_length_le]
  simp

theorem slice_of_length (a : List α) (i j : ℕ) : slice a i (i+(slice a i j).length) = slice a i j := by
  simp only [slice,Nat.add_sub_cancel_left,List.length_take,List.length_drop]
  rcases Nat.le_total (j-i) (a.length-i) with hle | hle
  · rw [Nat.min_eq_left hle]
  · rw [Nat.min_eq_right hle,List.take_of_length_le (by simp),List.take_of_length_le (by simpa using hle)]

theorem slice_min (h : i ≤ a.length) (j : ℕ) : slice a i (min j a.length) = slice a i j := by
  rcases Nat.le_total j a.length with hj | hj
  · rw [Nat.min_eq_left hj]
  · rw [Nat.min_eq_right hj,slice,slice,List.take_of_length_le (by simp),
      List.take_of_length_le (by rw [List.length_drop]; omega)]

theorem slice_map {β : Type*} (f : α → β) (a : List α) (i j : ℕ) :
    slice (a.map f) i j = (slice a i j).map f := by
  simp [slice]

theorem filterMap_range' (a : List α) (i n : ℕ) :
    (List.range' i n).filterMap (fun k => a[k]?) = (a.drop i).take n := by
  induction n generalizing i with
  | zero => simp
  | succ n ih =>
    rw [List.range'_succ]
    by_cases hi : i < a.length
    · rw [List.filterMap_cons_some (List.getElem?_eq_getElem hi),ih,List.drop_eq_getElem_cons hi,
        List.take_succ_cons]
    · rw [List.filterMap_cons_none (List.getElem?_eq_none (Nat.le_of_not_lt hi)),ih]
      simp [List.drop_eq_nil_of_le,Nat.le_of_not_lt hi,Nat.le_succ_of_le]

/-- So many elements from a place on give way to others. -/
structure Change (α : Type*) where
  start : ℕ
  count : ℕ
  text : List α

def Change.stop (c : Change α) : ℕ := c.start+c.count

/-- What the changes make of the elements from one place to another. -/
def applyTo (a : List α) (stop : ℕ) : ℕ → List (Change α) → List α
  | pos, [] => slice a pos stop
  | pos, c::cs => slice a pos c.start++c.text++applyTo a stop c.stop cs

def apply (a : List α) (cs : List (Change α)) : List α := applyTo a a.length 0 cs

theorem applyTo_append (a : List α) (stop pos : ℕ) (cs : List (Change α)) (c : Change α) :
    applyTo a stop pos (cs++[c]) = applyTo a c.start pos cs++c.text++slice a c.stop stop := by
  induction cs generalizing pos with
  | nil => rfl
  | cons d cs ih => simp only [List.cons_append,applyTo,ih,List.append_assoc]

theorem applyTo_slice {stop stop' pos : ℕ} {cs : List (Change α)} (hpos : pos ≤ stop)
    (hcs : ∀ c ∈ cs, c.stop ≤ stop) (hle : stop ≤ stop') :
    applyTo a stop pos cs++slice a stop stop' = applyTo a stop' pos cs := by
  induction cs generalizing pos with
  | nil => exact slice_append hpos hle
  | cons c cs ih =>
    have hrest := ih (hcs c List.mem_cons_self) fun d hd => hcs d (List.mem_cons_of_mem c hd)
    rw [applyTo,applyTo,List.append_assoc,hrest]

/-- Up to a place in each list the changes make the new list of the old one. -/
structure Rebuilds (a b : List α) (i j : ℕ) (cs : List (Change α)) : Prop where
  result : applyTo a i 0 cs = b.take j
  inside : ∀ c ∈ cs, c.stop ≤ i

theorem rebuilds_nil (a b : List α) : Rebuilds a b 0 0 [] := ⟨rfl,nofun⟩

variable {i' j' : ℕ} {cs : List (Change α)}

theorem Rebuilds.equal (h : Rebuilds a b i j cs) (hi : i ≤ i') (hj : j ≤ j')
    (heq : slice a i i' = slice b j j') : Rebuilds a b i' j' cs where
  result := by
    rw [← applyTo_slice (Nat.zero_le i) h.inside hi,h.result,heq,← slice_zero,← slice_zero,
      slice_append (Nat.zero_le j) hj]
  inside c hc := Nat.le_trans (h.inside c hc) hi

theorem Rebuilds.change (h : Rebuilds a b i j cs) (hi : i ≤ i') (hj : j ≤ j') :
    Rebuilds a b i' j' (cs++[⟨i,i'-i,slice b j j'⟩]) where
  result := by
    have hstop : i+(i'-i) = i' := by omega
    rw [applyTo_append,h.result,Change.stop,hstop,slice_self,List.append_nil,← slice_zero,← slice_zero,
      slice_append (Nat.zero_le j) hj]
  inside c hc := by
    rcases List.mem_append.mp hc with hc | hc
    · exact Nat.le_trans (h.inside c hc) hi
    · rw [List.mem_singleton.mp hc]
      change i+(i'-i) ≤ i'
      omega

theorem Rebuilds.apply (h : Rebuilds a b a.length b.length cs) : apply a cs = b := by
  rw [EditScript.apply,h.result,List.take_length]

end MinimaxCode.EditScript
