import Mathlib.Data.List.Basic
import Mathlib.Data.List.Infix
import Mathlib.Tactic.Common

/-!
# Substrings

Counting and replacing the occurrences of a pattern from left to right. Occurrences that
overlap one another are counted once, so a count of one does not make an occurrence the
only one.
-/

namespace MinimaxCode.Substrings

variable {α : Type*} [DecidableEq α]

/-- The number of occurrences that do not overlap, behind the next `skip` elements. -/
def countFrom (pat : List α) : ℕ → List α → ℕ
  | _, [] => 0
  | skip+1, _::cs => countFrom pat skip cs
  | 0, c::cs => if pat <+: c::cs then countFrom pat (pat.length-1) cs+1 else countFrom pat 0 cs

/-- `s.count(pat)`. -/
def count (pat s : List α) : ℕ := if pat = [] then s.length+1 else countFrom pat 0 s

/-- `s.replace(pat, new, 1)`. -/
def replaceFirst (pat new : List α) : List α → List α
  | [] => if pat = [] then new else []
  | c::cs => if pat <+: c::cs then new++(c::cs).drop pat.length else c::replaceFirst pat new cs

/-- The replacement of what `countFrom` counts. -/
def replaceFrom (pat new : List α) : ℕ → List α → List α
  | _, [] => []
  | skip+1, _::cs => replaceFrom pat new skip cs
  | 0, c::cs =>
    if pat <+: c::cs then new++replaceFrom pat new (pat.length-1) cs
    else c::replaceFrom pat new 0 cs

/-- `s.replace(pat, new)`. -/
def replace (pat new s : List α) : List α :=
  if pat = [] then new++s.flatMap fun c => c::new else replaceFrom pat new 0 s

/-- The pattern occurs behind `a` and nowhere else. -/
def OnlyBehind (pat s a : List α) : Prop := (∃ b, s = a++pat++b) ∧ ∀ a' b', s = a'++pat++b' → a' = a

/-- The pattern occurs at exactly one position, overlapping occurrences included. -/
def OccursOnce (pat s : List α) : Prop := ∃ a, OnlyBehind pat s a

variable {pat new s : List α}

theorem replaceFirst_of_count (hpat : pat ≠ []) (h : count pat s ≠ 0) :
    ∃ a b, s = a++pat++b ∧ ∀ new, replaceFirst pat new s = a++new++b := by
  rw [count,if_neg hpat] at h
  induction s with
  | nil => exact absurd rfl h
  | cons c cs ih =>
    by_cases hc : pat <+: c::cs
    · obtain ⟨b,hb⟩ := hc
      refine ⟨[],b,hb.symm,fun new => ?_⟩
      rw [replaceFirst,if_pos ⟨b,hb⟩,← hb,List.drop_left,List.nil_append]
    · rw [countFrom,if_neg hc] at h
      obtain ⟨a,b,hcs,hreplace⟩ := ih h
      refine ⟨c::a,b,by rw [hcs]; rfl,fun new => ?_⟩
      rw [replaceFirst,if_neg hc,hreplace]
      rfl

theorem replaceFirst_only (hpat : pat ≠ []) (h : count pat s ≠ 0) {a b : List α}
    (hs : s = a++pat++b) (honly : ∀ a' b', s = a'++pat++b' → a' = a) (new : List α) :
    replaceFirst pat new s = a++new++b := by
  obtain ⟨a',b',hs',hreplace⟩ := replaceFirst_of_count hpat h
  obtain rfl := honly a' b' hs'
  obtain rfl : b' = b := List.append_cancel_left (hs'.symm.trans hs)
  exact hreplace new

theorem replaceFrom_drop (pat new : List α) (skip : ℕ) (s : List α) :
    replaceFrom pat new skip s = replaceFrom pat new 0 (s.drop skip) := by
  induction skip generalizing s with
  | zero => rfl
  | succ skip ih =>
    cases s with
    | nil => rfl
    | cons c cs => exact ih cs

theorem replaceFrom_append (hpat : pat ≠ []) (new b : List α) :
    replaceFrom pat new 0 (pat++b) = new++replaceFrom pat new 0 b := by
  obtain ⟨c,cs,rfl⟩ := List.exists_cons_of_ne_nil hpat
  rw [List.cons_append,replaceFrom,if_pos (by simp),replaceFrom_drop]
  simp

theorem length_replaceFrom_le (pat : List α) (skip : ℕ) (s : List α) :
    (replaceFrom pat [] skip s).length ≤ s.length := by
  induction s generalizing skip with
  | nil => simp [replaceFrom]
  | cons c cs ih =>
    cases skip with
    | succ skip => exact (ih skip).trans (by simp)
    | zero =>
      rw [replaceFrom]
      split
      · exact (ih _).trans (by simp)
      · simpa using ih 0

theorem replace_eq_self_iff (hpat : pat ≠ []) (s : List α) : replace pat [] s = s ↔ ¬ pat <:+: s := by
  rw [replace,if_neg hpat]
  induction s with
  | nil => simp [replaceFrom,hpat]
  | cons c cs ih =>
    rw [replaceFrom,List.infix_cons_iff]
    split
    · next hc =>
      have hlen := length_replaceFrom_le pat (pat.length-1) cs
      simp only [hc,true_or,not_true_eq_false,iff_false,List.nil_append]
      intro heq
      rw [heq,List.length_cons] at hlen
      omega
    · next hc => simp [hc,ih]

end MinimaxCode.Substrings
