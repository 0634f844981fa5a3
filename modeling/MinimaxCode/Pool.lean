import Mathlib.Data.List.Basic
import Mathlib.Data.List.Nodup
import Mathlib.Data.List.Perm.Basic

/-!
# Calls in flight

The calls that wait on one event loop, as a list. A call moves on to its next wait or
ends; the others stay where they are.
-/

namespace MinimaxCode.Pool

variable {C : Type*} {calls : List C} {i : ℕ} {c old : C} {new : Option C}

/-- The calls after the call at a position has moved on, or ended. -/
def put (calls : List C) (i : ℕ) : Option C → List C
  | some c => calls.set i c
  | none => calls.eraseIdx i

theorem mem_put_none (h : c ∈ put calls i none) : c ∈ calls := List.mem_of_mem_eraseIdx h

theorem mem_put_some {c' : C} (h : c ∈ put calls i (some c')) : c = c' ∨ c ∈ calls :=
  (List.mem_or_eq_of_mem_set h).symm

theorem mem_push (h : c ∈ calls++new.toList) : new = some c ∨ c ∈ calls := by
  rcases List.mem_append.mp h with h | h
  · exact .inr h
  · exact .inl (Option.mem_toList.mp h)

theorem mem_put_of_ne (hi : calls[i]? = some old) (hc : c ∈ calls) (hne : c ≠ old) :
    c ∈ put calls i new := by
  obtain ⟨j,hj⟩ := List.mem_iff_getElem?.mp hc
  have hij : i ≠ j := by
    rintro rfl
    rw [hi] at hj
    exact hne (Option.some.inj hj).symm
  cases new with
  | none => exact List.mem_eraseIdx_iff_getElem?.mpr ⟨j,hij.symm,hj⟩
  | some c' =>
    refine List.mem_iff_getElem?.mpr ⟨j,?_⟩
    rwa [put,List.getElem?_set_ne hij]

theorem mem_put_self (hi : calls[i]? = some old) : c ∈ put calls i (some c) := by
  obtain ⟨hlt,-⟩ := List.getElem?_eq_some_iff.mp hi
  exact List.mem_set hlt c

theorem exists_mem_put {P : C → Prop} {c' : C} (hi : calls[i]? = some old) (hkeeps : P old → P c')
    (hc : c ∈ calls) (hP : P c) : ∃ x ∈ put calls i (some c'), P x := by
  by_cases heq : c = old
  · exact ⟨c',mem_put_self hi,hkeeps (heq ▸ hP)⟩
  · exact ⟨c,mem_put_of_ne hi hc heq,hP⟩

theorem map_put_some {N : Type*} {f : C → N} {c' : C} (hi : calls[i]? = some old) (h : f c' = f old) :
    (put calls i (some c')).map f = calls.map f := by
  have hname : (calls.map f)[i]? = some (f old) := by rw [List.getElem?_map,hi,Option.map_some]
  obtain ⟨hlt,hget⟩ := List.getElem?_eq_some_iff.mp hname
  rw [put,List.map_set,h,← hget,List.set_getElem_self]

theorem ne_of_mem_put_none {N : Type*} {f : C → N} (hnodup : (calls.map f).Nodup)
    (hi : calls[i]? = some old) (hc : c ∈ put calls i none) : f c ≠ f old := by
  obtain ⟨hlt,rfl⟩ := List.getElem?_eq_some_iff.mp hi
  have hperm := (List.getElem_cons_eraseIdx_perm hlt).map f
  rw [List.map_cons] at hperm
  have hnot := (List.nodup_cons.mp (hperm.nodup_iff.mpr hnodup)).1
  exact fun heq => hnot (heq ▸ List.mem_map_of_mem hc)

theorem nodup_put_none {N : Type*} {f : C → N} (hnodup : (calls.map f).Nodup) (i : ℕ) :
    ((put calls i none).map f).Nodup :=
  hnodup.sublist ((List.eraseIdx_sublist calls i).map f)

theorem count_put {N : Type*} [BEq N] (held : C → List N) (hi : calls[i]? = some old) (n : N) :
    ((put calls i new).flatMap held).count n+(held old).count n =
      (calls.flatMap held).count n+((new.elim [] held).count n) := by
  induction calls generalizing i with
  | nil => cases hi
  | cons c calls ih =>
    cases i with
    | zero =>
      cases hi
      cases new with
      | none =>
        simp only [put,List.eraseIdx_cons_zero,List.flatMap_cons,List.count_append,Option.elim_none,
          List.count_nil]
        omega
      | some c' =>
        simp only [put,List.set_cons_zero,List.flatMap_cons,List.count_append,Option.elim_some]
        omega
    | succ i =>
      have hrest := ih hi
      have hput : put (c::calls) (i+1) new = c::put calls i new := by cases new <;> rfl
      rw [hput,List.flatMap_cons,List.flatMap_cons,List.count_append,List.count_append]
      omega

end MinimaxCode.Pool
