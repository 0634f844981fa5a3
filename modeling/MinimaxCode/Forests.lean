import Mathlib.Data.List.Nodup
import Mathlib.Data.Nat.Find
import Mathlib.Logic.Relation
import Mathlib.Tactic.Common

/-!
# Forests given by parents

A partial parent function makes a forest when every node comes to the root by going up.
The root has no parent. Nothing in such a forest lies above itself.
-/

namespace MinimaxCode.Forests

variable {α : Type*} {parent parent' : α → Option α} {r v x p : α}

/-- Going up one step. -/
def Up (parent : α → Option α) (x p : α) : Prop := parent x = some p

/-- Nothing lies above itself. -/
def Acyclic (parent : α → Option α) : Prop := ∀ x, ¬ Relation.TransGen (Up parent) x x

inductive Rooted (parent : α → Option α) (r : α) : α → Prop
  | root : Rooted parent r r
  | step {x p : α} : parent x = some p → Rooted parent r p → Rooted parent r x

theorem above_iff (h : parent x = some p) :
    Relation.TransGen (Up parent) x v ↔ Relation.ReflTransGen (Up parent) p v := by
  constructor
  · intro hx
    obtain ⟨q,hq,hqv⟩ := Relation.TransGen.head'_iff.mp hx
    have hpq : p = q := Option.some.inj (h.symm.trans hq)
    rwa [hpq]
  · intro hp
    exact Relation.TransGen.head' h hp

theorem not_above_of_none (h : parent x = none) : ¬ Relation.TransGen (Up parent) x v := by
  intro hx
  obtain ⟨q,hq,-⟩ := Relation.TransGen.head'_iff.mp hx
  cases h.symm.trans hq

theorem not_above_self (hr : parent r = none) (h : Rooted parent r x) :
    ¬ Relation.TransGen (Up parent) x x := by
  induction h with
  | root => exact not_above_of_none hr
  | step hx _ ih =>
    intro hxx
    exact ih (Relation.TransGen.tail' ((above_iff hx).mp hxx) hx)

theorem acyclic_of_rooted (hr : parent r = none)
    (h : ∀ x p, parent x = some p → Rooted parent r x) : Acyclic parent := by
  intro x hx
  obtain ⟨p,hp,-⟩ := Relation.TransGen.head'_iff.mp hx
  exact not_above_self hr (h x p hp) hx

theorem Acyclic.mono (h : Acyclic parent') (hle : ∀ x p, parent x = some p → parent' x = some p) :
    Acyclic parent := 
  fun x hx => h x (Relation.TransGen.mono hle x x hx)

theorem Acyclic.ne (h : Acyclic parent) (hx : parent x = some p) : p ≠ x := by
  rintro rfl
  exact h p (.single hx)

theorem Rooted.congr (h : Rooted parent r x)
    (hsame : ∀ y, Relation.ReflTransGen (Up parent) x y → parent' y = parent y) :
    Rooted parent' r x := by
  induction h with
  | root => exact .root
  | step hx _ ih =>
    refine .step ((hsame _ .refl).trans hx) (ih fun y hy => hsame y (.head hx hy))

theorem Rooted.move (hp : Rooted parent r p) (hv : ¬ Relation.ReflTransGen (Up parent) p v)
    (hnew : parent' v = some p) (hold : ∀ y, y ≠ v → parent' y = parent y)
    (h : Rooted parent r x) : Rooted parent' r x := by
  classical
  have hp' : Rooted parent' r p := hp.congr fun y hy => hold y fun he => hv (he ▸ hy)
  induction h with
  | root => exact .root
  | @step x q hx _ ih =>
    by_cases hxv : x = v
    · rw [hxv]
      exact .step hnew hp'
    · exact .step ((hold x hxv).trans hx) ih

theorem Rooted.remove (hkids : ∀ y, y ≠ v → parent y = some v → parent' y = some r)
    (hold : ∀ y, y ≠ v → parent y ≠ some v → parent' y = parent y)
    (h : Rooted parent r x) (hx : x ≠ v) : Rooted parent' r x := by
  classical
  induction h with
  | root => exact .root
  | @step x p hxp _ ih =>
    by_cases hpv : p = v
    · exact .step (hkids x hx (hpv ▸ hxp)) .root
    · have hne : parent x ≠ some v := by
        intro he
        exact hpv (Option.some.inj (hxp.symm.trans he))
      exact .step ((hold x hx hne).trans hxp) (ih hpv)

section Walk

variable [DecidableEq α]

/-- Whether a walk up meets a node above the one it starts from; the fuel bounds the
number of nodes it looks at. -/
def meets (parent : α → Option α) (v : α) : ℕ → α → Option Bool
  | 0, _ => none
  | n+1, a =>
    match parent a with
    | none => some false
    | some p => if p = v then some true else meets parent v n p

theorem meets_of_none (n : ℕ) (h : parent x = none) : meets parent v (n+1) x = some false := by
  rw [meets,h]

theorem meets_of_eq (n : ℕ) (h : parent x = some v) : meets parent v (n+1) x = some true := by
  rw [meets,h]
  exact if_pos rfl

theorem meets_of_ne (n : ℕ) (h : parent x = some p) (hne : p ≠ v) :
    meets parent v (n+1) x = meets parent v n p := by
  rw [meets,h]
  exact if_neg hne

theorem above_of_meets {n : ℕ} (h : meets parent v n x = some true) :
    Relation.TransGen (Up parent) x v := by
  induction n generalizing x with
  | zero => cases h
  | succ n ih =>
    cases hx : parent x with
    | none => rw [meets_of_none n hx] at h; cases h
    | some p =>
      by_cases hp : p = v
      · exact .single (hp ▸ hx)
      · rw [meets_of_ne n hx hp] at h
        exact .head hx (ih h)

theorem not_above_of_meets {n : ℕ} (h : meets parent v n x = some false) :
    ¬ Relation.TransGen (Up parent) x v := by
  induction n generalizing x with
  | zero => cases h
  | succ n ih =>
    cases hx : parent x with
    | none => exact not_above_of_none hx
    | some p =>
      by_cases hp : p = v
      · rw [meets_of_eq n (hp ▸ hx)] at h
        cases h
      · rw [meets_of_ne n hx hp] at h
        rw [above_iff hx,Relation.reflTransGen_iff_eq_or_transGen]
        rintro (he | habove)
        · exact hp he.symm
        · exact ih h habove

theorem meets_isSome (hac : Acyclic parent) (l : List α) (x : α)
    (hl : ∀ y, Relation.ReflTransGen (Up parent) x y → (parent y).isSome → y ∈ l) :
    (meets parent v (l.length+1) x).isSome := by
  induction hn : l.length generalizing l x with
  | zero =>
    have hx : parent x = none := by
      rw [← Option.not_isSome_iff_eq_none]
      intro hx
      rw [List.length_eq_zero_iff.mp hn] at hl
      cases hl x .refl hx
    rw [meets_of_none 0 hx]
    rfl
  | succ n ih =>
    cases hx : parent x with
    | none =>
      rw [meets_of_none _ hx]
      rfl
    | some p =>
      by_cases hp : p = v
      · rw [meets_of_eq _ (hp ▸ hx)]
        rfl
      · rw [meets_of_ne _ hx hp]
        have hmem : x ∈ l := hl x .refl (by simp [hx])
        refine ih (l.erase x) p (fun y hy hsome => ?_) ?_
        · -- what lies above the parent is not the node itself
          have hne : y ≠ x := by
            rintro rfl
            exact hac y ((above_iff hx).mpr hy)
          exact (List.mem_erase_of_ne hne).mpr (hl y (.head hx hy) hsome)
        · rw [List.length_erase_of_mem hmem,hn]
          rfl

end Walk

end MinimaxCode.Forests
