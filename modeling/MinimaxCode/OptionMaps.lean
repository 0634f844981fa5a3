import Mathlib.Data.List.Forall2
import Mathlib.Tactic.Common

/-!
# Maps that can fail

A map into an option type over a list fails when it fails at one element.
-/

namespace MinimaxCode.OptionMaps

variable {α β γ : Type*} {f : α → Option β} {xs : List α}

theorem mapM_some {g : α → β} (h : ∀ x ∈ xs, f x = some (g x)) : xs.mapM f = some (xs.map g) := by
  induction xs with
  | nil => rfl
  | cons x xs ih =>
    simp [List.mapM_cons,h x List.mem_cons_self,ih fun y hy => h y (List.mem_cons_of_mem x hy)]

theorem mapM_bind_mapM (f : α → Option β) (g : β → Option γ) (xs : List α) :
    (xs.mapM f).bind (fun ys => ys.mapM g) = xs.mapM fun x => (f x).bind g := by
  induction xs with
  | nil => rfl
  | cons x xs ih =>
    simp only [List.mapM_cons,Option.pure_def,Option.bind_eq_bind]
    rw [← ih]
    cases hx : f x with
    | none => rfl
    | some y =>
      cases hxs : xs.mapM f with
      | none => cases hy : g y <;> simp
      | some ys => simp [List.mapM_cons]

theorem mapM_eq_some {ys : List β} (h : xs.mapM f = some ys) :
    List.Forall₂ (fun x y => f x = some y) xs ys := by
  induction xs generalizing ys with
  | nil =>
    cases h
    exact .nil
  | cons x xs ih =>
    simp only [List.mapM_cons,Option.pure_def,Option.bind_eq_bind,Option.bind_eq_some_iff,
      Option.some.injEq] at h
    obtain ⟨y,hy,ys',hys,rfl⟩ := h
    exact .cons hy (ih hys)

theorem mem_of_mapM {ys : List β} (h : xs.mapM f = some ys) {y : β} (hy : y ∈ ys) :
    ∃ x ∈ xs, f x = some y := by
  have hall := mapM_eq_some h
  clear h
  induction hall with
  | nil => cases hy
  | cons hxy _ ih =>
    obtain rfl | hy := List.mem_cons.mp hy
    · exact ⟨_,List.mem_cons_self,hxy⟩
    · obtain ⟨x,hx,hxy⟩ := ih hy
      exact ⟨x,List.mem_cons_of_mem _ hx,hxy⟩

theorem map_of_mapM {p : β → γ} {q : α → γ} {ys : List β} (hpq : ∀ x y, f x = some y → p y = q x)
    (h : xs.mapM f = some ys) : ys.map p = xs.map q := by
  have hall := mapM_eq_some h
  clear h
  induction hall with
  | nil => rfl
  | cons hxy _ ih => rw [List.map_cons,List.map_cons,hpq _ _ hxy,ih]

theorem mapM_eq_none (h : xs.mapM f = none) : ∃ x ∈ xs, f x = none := by
  induction xs with
  | nil => simp at h
  | cons x xs ih =>
    cases hx : f x with
    | none => exact ⟨x,List.mem_cons_self,hx⟩
    | some y =>
      cases hxs : xs.mapM f with
      | none =>
        obtain ⟨z,hz,hnone⟩ := ih hxs
        exact ⟨z,List.mem_cons_of_mem x hz,hnone⟩
      | some ys => simp [List.mapM_cons,hx,hxs] at h

theorem mapM_isSome_iff : (xs.mapM f).isSome ↔ ∀ x ∈ xs, (f x).isSome := by
  induction xs with
  | nil => simp
  | cons x xs ih =>
    rw [List.forall_mem_cons,← ih]
    cases hx : f x <;> cases hxs : xs.mapM f <;> simp [List.mapM_cons,hx,hxs]

end MinimaxCode.OptionMaps
