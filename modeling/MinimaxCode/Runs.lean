import Mathlib.Logic.Function.Defs
import Mathlib.Data.List.Basic

/-!
# Runs of a partial step function

A step function says which actions are enabled in a state and where each one
leads. A run meets a condition when the condition holds of the state before each
of its steps, together with the action taken there. One induction turns a step
lemma into a lemma about every run.
-/

namespace MinimaxCode.Runs

variable {S A : Type*}

/-- A run from the first state to the last, all of whose steps meet `ok`. -/
inductive Run (step : S → A → Option S) (ok : S → A → Prop) : S → List A → S → Prop
  | refl (s) : Run step ok s [] s
  | succ {s t u a as} : ok s a → step s a = some t → Run step ok t as u →
      Run step ok s (a::as) u

/-- The condition that every step meets. -/
def always : S → A → Prop := fun _ _ => True

variable {step : S → A → Option S} {ok ok' : S → A → Prop} {as : List A} {s : S}

namespace Run

theorem trans {s t u : S} {as bs : List A} (hst : Run step ok s as t)
    (htu : Run step ok t bs u) : Run step ok s (as++bs) u := by
  induction hst with
  | refl => exact htu
  | succ hok hs _ ih => exact succ hok hs (ih htu)

theorem mono (himp : ∀ s a, ok s a → ok' s a) {s t : S} {as : List A}
    (h : Run step ok s as t) : Run step ok' s as t := by
  induction h with
  | refl => exact refl _
  | succ hok hs _ ih => exact succ (himp _ _ hok) hs ih

theorem invariant {Inv : S → Prop}
    (hstep : ∀ s a t, ok s a → step s a = some t → Inv s → Inv t)
    {s t : S} {as : List A} (h : Run step ok s as t) (hs : Inv s) : Inv t := by
  induction h with
  | refl => exact hs
  | succ hok hst _ ih => exact ih (hstep _ _ _ hok hst hs)

theorem of_forall {good : A → Prop} {s t : S} {as : List A} (h : Run step ok s as t)
    (hgood : ∀ a ∈ as, good a) : Run step (fun _ a => good a) s as t := by
  induction h with
  | refl => exact refl _
  | succ _ hs _ ih =>
    exact succ (hgood _ List.mem_cons_self) hs (ih fun a ha => hgood a (List.mem_cons_of_mem _ ha))

/-- A run of a longer action list passes through a state after each prefix. -/
theorem split {s u : S} {as bs : List A} (h : Run step ok s (as++bs) u) :
    ∃ t, Run step ok s as t ∧ Run step ok t bs u := by
  induction as generalizing s with
  | nil => exact ⟨s,refl s,h⟩
  | cons a as ih =>
    cases h with
    | succ hok hs ht =>
      obtain ⟨t,h₁,h₂⟩ := ih ht
      exact ⟨t,succ hok hs h₁,h₂⟩

end Run

theorem exists_run (h : ∀ s a, (step s a).isSome) (s : S) (as : List A) :
    ∃ t, Run step always s as t := by
  induction as generalizing s with
  | nil => exact ⟨s,.refl s⟩
  | cons a as ih =>
    obtain ⟨u,hu⟩ := Option.isSome_iff_exists.mp (h s a)
    obtain ⟨t,ht⟩ := ih u
    exact ⟨t,.succ trivial hu ht⟩

/-- A property holds in every state that a run of the actions passes through. -/
def Throughout (step : S → A → Option S) (P : S → Prop) (s : S) (as : List A) : Prop :=
  ∀ before t, before <+: as → Run step always s before t → P t

theorem throughout_cons {P : S → Prop} {t : S} {a : A} (hs : step s a = some t) :
    Throughout step P s (a::as) ↔ P s ∧ Throughout step P t as := by
  constructor
  · intro h
    refine ⟨h [] s (List.nil_prefix) (.refl s),fun before u hbefore hrun => ?_⟩
    exact h (a::before) u (List.cons_prefix_cons.mpr ⟨rfl,hbefore⟩) (.succ trivial hs hrun)
  · rintro ⟨hP,h⟩ before u hbefore hrun
    cases hrun with
    | refl => exact hP
    | succ _ ht hrun =>
      obtain ⟨rfl,hrest⟩ := List.cons_prefix_cons.mp hbefore
      rw [hs] at ht
      cases ht
      exact h _ u hrest hrun

theorem throughout_iff {Inv P : S → Prop} {base : S → A → Prop}
    (hinv : ∀ s a t, base s a → step s a = some t → Inv s → P s → P t → Inv t)
    (hstep : ∀ s a t, base s a → step s a = some t → Inv s → P s → (P t ↔ ok s a))
    {u : S} (h : Run step base s as u) (hs : Inv s) (hP : P s) :
    Throughout step P s as ↔ Run step ok s as u := by
  induction h with
  | refl s =>
    refine ⟨fun _ => .refl s,fun _ before t hbefore hrun => ?_⟩
    rw [List.prefix_nil.mp hbefore] at hrun
    cases hrun
    exact hP
  | succ hbase hst hrun ih =>
    rw [throughout_cons hst]
    have hiff := hstep _ _ _ hbase hst hs hP
    constructor
    · rintro ⟨-,hrest⟩
      have hPt := hrest [] _ List.nil_prefix (.refl _)
      exact .succ (hiff.mp hPt) hst ((ih (hinv _ _ _ hbase hst hs hP hPt) hPt).mp hrest)
    · intro hok
      cases hok with
      | succ hok hst' hrest =>
        rw [hst] at hst'
        cases hst'
        have hPt := hiff.mpr hok
        exact ⟨hP,(ih (hinv _ _ _ hbase hst hs hP hPt) hPt).mpr hrest⟩

/-- The state an action list leads to, when every action is enabled. -/
def exec (step : S → A → Option S) : S → List A → Option S
  | s, [] => some s
  | s, a::as => (step s a).bind fun t => exec step t as

theorem run_of_exec {t : S} (h : exec step s as = some t) :
    Run step always s as t := by
  induction as generalizing s with
  | nil => cases h; exact .refl _
  | cons a as ih =>
    obtain ⟨u,hu,ht⟩ := Option.bind_eq_some_iff.mp h
    exact .succ trivial hu (ih ht)

theorem run_of_checked {good : S → A → Bool} {t : S}
    (h : exec (fun s a => if good s a then step s a else none) s as = some t) :
    Run step (fun s a => good s a = true) s as t := by
  induction as generalizing s with
  | nil => cases h; exact .refl _
  | cons a as ih =>
    obtain ⟨u,hu,ht⟩ := Option.bind_eq_some_iff.mp h
    dsimp only at hu
    split at hu
    · next hgood => exact .succ hgood hu (ih ht)
    · cases hu

/-- Where an action list leads; the start when an action is not enabled. -/
def last (step : S → A → Option S) (s : S) (as : List A) : S := (exec step s as).getD s

theorem run_last (h : (exec step s as).isSome) :
    Run step always s as (last step s as) := by
  obtain ⟨t,ht⟩ := Option.isSome_iff_exists.mp h
  apply run_of_exec
  rw [last,ht,Option.getD_some]

theorem step_last {a : A} (h : (step s a).isSome) : step s a = some (last step s [a]) := by
  obtain ⟨t,ht⟩ := Option.isSome_iff_exists.mp h
  simp [last,exec,ht]

theorem exec_of_run {t : S} (h : Run step ok s as t) : exec step s as = some t := by
  induction h with
  | refl => rfl
  | succ _ hs _ ih => rw [exec,hs,Option.bind_some,ih]

theorem run_last_nil : Run step ok s [] (last step s []) := .refl _

theorem run_last_cons {a : A} (hok : ok s a) (hs : (step s a).isSome)
    (h : Run step ok (last step s [a]) as (last step (last step s [a]) as)) :
    Run step ok s (a::as) (last step s (a::as)) := by
  have hlast : last step s (a::as) = last step (last step s [a]) as := by
    have hexec := exec_of_run h
    rw [last,exec,step_last hs,Option.bind_some,hexec,Option.getD_some]
  rw [hlast]
  exact .succ hok (step_last hs) h

end MinimaxCode.Runs
