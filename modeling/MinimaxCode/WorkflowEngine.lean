import Mathlib.Data.Fintype.EquivFin
import Mathlib.Data.Int.Interval
import Mathlib.Logic.Relation
import Mathlib.Order.WellFounded
import MinimaxCode.PyJson

/-!
# Running a workflow

A workflow is a list of steps. An action is executed and the next step follows; a condition may
lead to any step, by a number that indexes the list as Python does. The context does not change,
so the steps that follow one another from the first are a walk in a graph, and the run returns
exactly when the walk leaves the list.
-/

namespace MinimaxCode

namespace Walk

open Relation

variable {α : Type*} {r : α → α → Prop}

theorem acc_of_acyclic {s : Set α} (hs : s.Finite) {a : α}
    (hin : ∀ i j, ReflTransGen r a i → r i j → i ∈ s)
    (hacyclic : ∀ i, ReflTransGen r a i → ¬ TransGen r i i) : Acc (fun j i => r i j) a := by
  have hfinite : Finite {i // i ∈ s ∧ ReflTransGen r a i} := (hs.subset fun i hi => hi.1).to_subtype
  let after : {i // i ∈ s ∧ ReflTransGen r a i} → {i // i ∈ s ∧ ReflTransGen r a i} → Prop :=
    fun j i => TransGen r i.1 j.1
  have htrans : IsTrans _ after := ⟨fun _ _ _ hij hjk => hjk.trans hij⟩
  have hirrefl : Std.Irrefl after := ⟨fun i hi => hacyclic i.1 i.2.2 hi⟩
  have hwf : WellFounded after := Finite.wellFounded_of_trans_of_irrefl after
  have hfinal : ∀ i, (∀ j, ¬ r i j) → Acc (fun j i => r i j) i :=
    fun i hi => .intro i fun j hj => absurd hj (hi j)
  have hinner : ∀ i : {i // i ∈ s ∧ ReflTransGen r a i}, Acc (fun j i => r i j) i.1 := by
    intro i
    induction i using hwf.induction with
    | h i ih =>
      refine .intro _ fun j hj => ?_
      have hreach : ReflTransGen r a j := i.2.2.tail hj
      by_cases hnext : ∃ k, r j k
      · obtain ⟨k,hk⟩ := hnext
        exact ih ⟨j,hin j k hreach hk,hreach⟩ (.single hj)
      · exact hfinal j fun k hk => hnext ⟨k,hk⟩
  by_cases hnext : ∃ k, r a k
  · obtain ⟨k,hk⟩ := hnext
    exact hinner ⟨a,hin a k .refl hk,.refl⟩
  · exact hfinal a fun k hk => hnext ⟨k,hk⟩

end Walk

namespace Workflow

open PyText PyJson Relation

/-- What a run comes to. -/
inductive Result
  | returned (completed failed : ℕ)
  | raised
  deriving DecidableEq

/-- `xs[i]`, nothing where it raises. -/
def item (xs : List Json) (i : ℤ) : Option Json :=
  if 0 ≤ i then xs[i.toNat]?
  else if -i ≤ xs.length then xs[(xs.length+i).toNat]?
  else none

/-- `n if isinstance(n, int) else None`; a bool is an int. -/
def asIndex : Option Json → Option ℤ
  | some (.int n) => some n
  | some (.bool b) => some b.toInt
  | _ => none

/-- `context.get(field, "")`; nothing where it raises. -/
def contextGet (context field : Json) : Option Json :=
  match context,field with
  | .obj _,.arr _ => none
  | .obj _,.obj _ => none
  | .obj fields,.str key => some ((get fields key).getD (.str []))
  | .obj _,_ => some (.str [])
  | _,_ => none

section Engine

variable (str : Json → PyStr)

/-- The operators of a condition; `str` is Python's. -/
def holds (op actual expected : Json) : Bool :=
  match op with
  | .str op =>
    if op = lit "eq" then str actual = str expected
    else if op = lit "neq" then str actual ≠ str expected
    else if op = lit "contains" then str expected <:+: str actual
    else if op = lit "startswith" then str expected <+: str actual
    else false
  | _ => false

/-- `_run_condition`; nothing where it raises. -/
def runCondition (step : List (PyStr × Json)) (context : Json) : Option (Option ℤ) :=
  match (get step (lit "if")).getD (.obj []) with
  | .obj cond =>
    (contextGet context ((get cond (lit "field")).getD (.str []))).map fun actual =>
      if holds str ((get cond (lit "op")).getD (.str (lit "eq"))) actual
          ((get cond (lit "value")).getD (.str []))
      then asIndex (get step (lit "then_step")) else asIndex (get step (lit "else_step"))
  | _ => none

/-- Whether a step has the type. -/
def hasType (step : List (PyStr × Json)) (type : String) : Bool :=
  match get step (lit "type") with
  | some (.str t) => t = lit type
  | _ => false

structure Loop where
  idx : ℤ
  completed : ℕ
  failed : ℕ
  actions : ℕ

variable (outcomes : ℕ → Bool) (xs : List Json) (context : Json)

/-- The `while` loop, with a bound on its iterations. `outcomes` tells which actions complete
and which raise; a condition that raises counts as failed. -/
def runLoop : ℕ → Loop → Option Result
  | 0, _ => none
  | fuel+1, s =>
    if (xs.length : ℤ) ≤ s.idx then some (.returned s.completed s.failed)
    else
      match item xs s.idx with
      | some (.obj step) =>
        if hasType step "condition" then
          match runCondition str step context with
          | some (some next) => runLoop fuel { s with idx := next }
          | some none => runLoop fuel { s with idx := s.idx+1 }
          | none => runLoop fuel { s with idx := s.idx+1, failed := s.failed+1 }
        else if hasType step "action" then
          if outcomes s.actions then
            runLoop fuel { s with idx := s.idx+1, completed := s.completed+1, actions := s.actions+1 }
          else runLoop fuel { s with idx := s.idx+1, failed := s.failed+1, actions := s.actions+1 }
        else runLoop fuel { s with idx := s.idx+1, failed := s.failed+1 }
      | _ => some .raised

/-- `workflow.get("steps") or []`, which is of use only as a list. -/
def stepsOf (workflow : List (PyStr × Json)) : Option (List Json) :=
  match get workflow (lit "steps") with
  | some (.arr xs) => some xs
  | some v => if truthy v then none else some []
  | none => some []

/-- `WorkflowEngine.run_workflow`, with a bound on the iterations of its loop. -/
def runWorkflow (workflow : List (PyStr × Json)) (context : Json) (fuel : ℕ) : Option Result :=
  match stepsOf workflow with
  | some [] => some (.returned 0 0)
  | some xs => runLoop str outcomes xs context fuel ⟨0,0,0,0⟩
  | none => some .raised

/-- Where a step leads. -/
def successor (step : List (PyStr × Json)) (i : ℤ) : ℤ :=
  if hasType step "condition" then
    match runCondition str step context with
    | some (some next) => next
    | _ => i+1
  else i+1

/-- One index follows another. -/
def Follows (i j : ℤ) : Prop :=
  i < xs.length ∧ ∃ step, item xs i = some (.obj step) ∧ successor str context step i = j

/-- Every index that the steps lead to from an index addresses a step, and no step leads back
to itself. -/
def NoLoopFrom (a : ℤ) : Prop :=
  ∀ i, ReflTransGen (Follows str xs context) a i → i < xs.length →
    (∃ step, item xs i = some (.obj step)) ∧ ¬ TransGen (Follows str xs context) i i

variable {str outcomes xs context}

theorem runLoop_done {fuel : ℕ} {s : Loop} (h : (xs.length : ℤ) ≤ s.idx) :
    runLoop str outcomes xs context (fuel+1) s = some (.returned s.completed s.failed) := if_pos h

theorem runLoop_raised {fuel : ℕ} {s : Loop} (h : s.idx < xs.length)
    (hitem : ∀ step, item xs s.idx ≠ some (.obj step)) :
    runLoop str outcomes xs context (fuel+1) s = some .raised := by
  rw [runLoop,if_neg (not_le.mpr h)]
  split
  · next step heq => exact absurd heq (hitem step)
  · rfl

variable (str outcomes context) in
theorem runLoop_follow {s : Loop} {step : List (PyStr × Json)} (h : s.idx < xs.length)
    (hitem : item xs s.idx = some (.obj step)) :
    ∃ t : Loop, t.idx = successor str context step s.idx ∧
      ∀ fuel, runLoop str outcomes xs context (fuel+1) s = runLoop str outcomes xs context fuel t := by
  have hstep : ∀ fuel, runLoop str outcomes xs context (fuel+1) s = _ := fun fuel => by
    rw [runLoop,if_neg (not_le.mpr h),hitem]
  unfold successor
  by_cases hcond : hasType step "condition" = true
  · simp only [hcond,if_true] at hstep ⊢
    cases hrun : runCondition str step context with
    | none =>
      simp only [hrun] at hstep
      exact ⟨_,rfl,hstep⟩
    | some next =>
      cases next with
      | none =>
        simp only [hrun] at hstep
        exact ⟨_,rfl,hstep⟩
      | some next =>
        simp only [hrun] at hstep
        exact ⟨_,rfl,hstep⟩
  · simp only [hcond,Bool.false_eq_true,if_false] at hstep ⊢
    by_cases hact : hasType step "action" = true
    · simp only [hact,if_true] at hstep
      by_cases hout : outcomes s.actions = true
      · simp only [hout,if_true] at hstep
        exact ⟨_,rfl,hstep⟩
      · simp only [hout,Bool.false_eq_true,if_false] at hstep
        exact ⟨_,rfl,hstep⟩
    · simp only [hact,Bool.false_eq_true,if_false] at hstep
      exact ⟨_,rfl,hstep⟩

theorem follows_unique {i j k : ℤ} (hj : Follows str xs context i j) (hk : Follows str xs context i k) :
    j = k := by
  obtain ⟨_,step,hstep,rfl⟩ := hj
  obtain ⟨_,step',hstep',rfl⟩ := hk
  rw [hstep] at hstep'
  cases hstep'
  rfl

theorem noLoopFrom_follow {i j : ℤ} (hij : Follows str xs context i j) (h : NoLoopFrom str xs context i) :
    NoLoopFrom str xs context j := fun k hk => h k (.head hij hk)

theorem noLoopFrom_of_follow {i j : ℤ} (hij : Follows str xs context i j)
    (h : NoLoopFrom str xs context j) : NoLoopFrom str xs context i := by
  intro k hk hlen
  cases hk.cases_head with
  | inl heq =>
    subst heq
    obtain ⟨step,hstep,_⟩ := hij.2
    refine ⟨⟨step,hstep⟩,fun hloop => ?_⟩
    obtain ⟨m,him,hmk⟩ := TransGen.head'_iff.mp hloop
    have hback : ReflTransGen (Follows str xs context) j i := follows_unique hij him ▸ hmk
    exact (h i hback hlen).2 hloop
  | inr hmore =>
    obtain ⟨m,him,hmk⟩ := hmore
    exact h k (follows_unique hij him ▸ hmk) hlen

theorem noLoopFrom_of_returned {fuel : ℕ} {s : Loop} {c f : ℕ}
    (h : runLoop str outcomes xs context fuel s = some (.returned c f)) :
    NoLoopFrom str xs context s.idx := by
  induction fuel generalizing s with
  | zero => cases h
  | succ fuel ih =>
    by_cases hlen : s.idx < xs.length
    · by_cases hitem : ∃ step, item xs s.idx = some (.obj step)
      · obtain ⟨step,hstep⟩ := hitem
        obtain ⟨t,ht,hnext⟩ := runLoop_follow str outcomes context hlen hstep
        rw [hnext] at h
        exact noLoopFrom_of_follow ⟨hlen,step,hstep,ht.symm⟩ (ih h)
      · rw [runLoop_raised hlen fun step heq => hitem ⟨step,heq⟩] at h
        cases h
    · intro i hi hi'
      cases hi.cases_head with
      | inl heq => exact absurd (heq ▸ hi') hlen
      | inr hmore =>
        obtain ⟨j,hj,_⟩ := hmore
        exact absurd hj.1 hlen

theorem item_bounds {i : ℤ} {v : Json} (h : item xs i = some v) : -(xs.length : ℤ) ≤ i := by
  unfold item at h
  split at h
  · omega
  · split at h
    · omega
    · cases h

theorem returned_of_noLoopFrom {a : ℤ} (h : NoLoopFrom str xs context a) :
    ∀ s : Loop, s.idx = a → ∃ fuel c f, runLoop str outcomes xs context fuel s = some (.returned c f) := by
  have hacc : Acc (fun j i => Follows str xs context i j) a := by
    refine Walk.acc_of_acyclic (Set.finite_Ico (-(xs.length : ℤ)) xs.length) ?_ ?_
    · rintro i j _ ⟨hlen,step,hstep,_⟩
      exact ⟨item_bounds hstep,hlen⟩
    · intro i hi hloop
      obtain ⟨j,hij,_⟩ := TransGen.head'_iff.mp hloop
      exact (h i hi hij.1).2 hloop
  induction hacc with
  | intro a _ ih =>
    rintro s rfl
    by_cases hlen : s.idx < xs.length
    · obtain ⟨step,hstep⟩ := (h s.idx .refl hlen).1
      obtain ⟨t,ht,hnext⟩ := runLoop_follow str outcomes context hlen hstep
      have hfollows : Follows str xs context s.idx t.idx := ⟨hlen,step,hstep,ht.symm⟩
      obtain ⟨fuel,c,f,hrun⟩ := ih t.idx hfollows (noLoopFrom_follow hfollows h) t rfl
      exact ⟨fuel+1,c,f,(hnext fuel).trans hrun⟩
    · exact ⟨1,_,_,runLoop_done (not_lt.mp hlen)⟩

/-- The steps of a workflow lead on from the first one without a loop. -/
def LoopFree (str : Json → PyStr) (workflow : List (PyStr × Json)) (context : Json) : Prop :=
  ∃ xs, stepsOf workflow = some xs ∧ NoLoopFrom str xs context 0

/-- A run returns exactly when the steps of the workflow lead on without a loop. -/
theorem run_returns_iff_loopFree (str : Json → PyStr) (outcomes : ℕ → Bool)
    (workflow : List (PyStr × Json)) (context : Json) :
    (∃ fuel c f, runWorkflow str outcomes workflow context fuel = some (.returned c f)) ↔
      LoopFree str workflow context := by
  unfold runWorkflow LoopFree
  cases hsteps : stepsOf workflow with
  | none => simp
  | some xs =>
    simp only [Option.some.injEq,exists_eq_left']
    constructor
    · rintro ⟨fuel,c,f,hrun⟩
      cases xs with
      | nil =>
        have hrun : runLoop str outcomes [] context 1 ⟨0,0,0,0⟩ = some (.returned 0 0) := rfl
        exact noLoopFrom_of_returned hrun
      | cons x xs => exact noLoopFrom_of_returned hrun
    · intro hfree
      cases xs with
      | nil => exact ⟨0,0,0,rfl⟩
      | cons x xs => exact returned_of_noLoopFrom hfree ⟨0,0,0,0⟩ rfl

end Engine

/-- `str` of a string; the conditions below compare strings only. -/
def strOfStr : Json → PyStr
  | .str s => s
  | _ => []

/-- A condition on the main branch. -/
def onMainStep (thenStep : ℤ) : List (PyStr × Json) :=
  [(lit "type",.str (lit "condition")),
    (lit "if",.obj [(lit "field",.str (lit "branch")),(lit "op",.str (lit "eq")),
      (lit "value",.str (lit "main"))]),
    (lit "then_step",.int thenStep)]

def notifyStep : List (PyStr × Json) :=
  [(lit "type",.str (lit "action")),(lit "action_type",.str (lit "notify"))]

/-- A condition in front of a notification. -/
def mainThenSteps (thenStep : ℤ) : List Json := [.obj (onMainStep thenStep),.obj notifyStep]

def mainThen (thenStep : ℤ) : List (PyStr × Json) := [(lit "steps",.arr (mainThenSteps thenStep))]

def onMain : Json := .obj [(lit "branch",.str (lit "main"))]

/-- The editor writes `-1` for the end of the workflow. The step `-1` is the last one, and behind
it comes the first again. -/
theorem ending_early_loops :
    ¬ ∃ fuel c f, runWorkflow strOfStr (fun _ => true) (mainThen (-1)) onMain fuel = some (.returned c f) := by
  have hcond : successor strOfStr onMain (onMainStep (-1)) 0 = -1 := by decide
  have haction : successor strOfStr onMain notifyStep (-1) = 0 := by decide
  have hiter : ∀ (s : Loop) (step : List (PyStr × Json)), s.idx < 2 →
      item (mainThenSteps (-1)) s.idx = some (.obj step) → ∃ t : Loop,
        t.idx = successor strOfStr onMain step s.idx ∧ ∀ fuel,
        runLoop strOfStr (fun _ => true) (mainThenSteps (-1)) onMain (fuel+1) s =
          runLoop strOfStr (fun _ => true) (mainThenSteps (-1)) onMain fuel t :=
    fun s step hlen hstep => runLoop_follow strOfStr (fun _ => true) onMain hlen hstep
  have hloop : ∀ fuel (s : Loop), s.idx = 0 ∨ s.idx = -1 →
      runLoop strOfStr (fun _ => true) (mainThenSteps (-1)) onMain fuel s = none := by
    intro fuel
    induction fuel with
    | zero => exact fun _ _ => rfl
    | succ fuel ih =>
      intro s hs
      cases hs with
      | inl hs =>
        obtain ⟨t,ht,hnext⟩ := hiter s (onMainStep (-1)) (by omega) (by rw [hs]; rfl)
        rw [hs,hcond] at ht
        exact (hnext fuel).trans (ih t (.inr ht))
      | inr hs =>
        obtain ⟨t,ht,hnext⟩ := hiter s notifyStep (by omega) (by rw [hs]; rfl)
        rw [hs,haction] at ht
        exact (hnext fuel).trans (ih t (.inl ht))
  rintro ⟨fuel,c,f,hrun⟩
  have hnone := hloop fuel ⟨0,0,0,0⟩ (.inl rfl)
  rw [show runWorkflow strOfStr (fun _ => true) (mainThen (-1)) onMain fuel = none from hnone] at hrun
  cases hrun

example : runWorkflow strOfStr (fun _ => true) (mainThen 1) onMain 3 = some (.returned 1 0) := by decide

end Workflow
end MinimaxCode
