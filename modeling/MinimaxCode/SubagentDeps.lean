import MinimaxCode.OrderedDict
import MinimaxCode.PyJson
import MinimaxCode.Runs
import Mathlib.Data.Int.Notation
import Mathlib.Data.Rat.Init
import Mathlib.Order.Basic

/-!
# Dependencies between background sub-agents

A background run is a task. It waits until the runs it depends on are over, or until its
wait limit has passed, and then starts its agent. Tasks and the callbacks of tasks that are
done take their steps in any order.
-/

namespace MinimaxCode.SubagentDeps

open PyText PyJson OrderedDict Runs

inductive Phase
  | created
  | waiting (wallDepStart : ℚ)
  | running
  | done
  deriving DecidableEq

/-- What a task that is done calls: `_on_background_run_done` and `_on_finish`. -/
inductive Callback
  | backgroundRunDone
  | finish
  deriving DecidableEq

structure Task where
  phase : Phase
  callbacks : List Callback

/-- All tasks there have been, and the three tables of the module. The table of background
runs has its keys only; under each key is the task of that run. -/
structure State where
  tasks : List (PyStr × Task)
  backgroundRuns : List PyStr
  depPending : List (PyStr × List PyStr)
  startedAt : List (PyStr × ℚ)

def start : State := ⟨[],[],[],[]⟩

def State.phase (s : State) (rid : PyStr) : Option Phase := (lookup s.tasks rid).map Task.phase

def getBackgroundRun (s : State) (rid : PyStr) : Option Task :=
  if rid ∈ s.backgroundRuns then lookup s.tasks rid else none

def setBackgroundDeps (depPending : List (PyStr × List PyStr)) (rid : PyStr) (deps : List PyStr) :
    List (PyStr × List PyStr) :=
  if deps.isEmpty then remove depPending rid else assign depPending rid deps

/-- The body of the loop over the items. -/
def clearEntry (dep : PyStr) (depPending : List (PyStr × List PyStr)) (kv : PyStr × List PyStr) :
    List (PyStr × List PyStr) :=
  if dep ∈ kv.2 then setBackgroundDeps depPending kv.1 (kv.2.filter (· ≠ dep)) else depPending

def clearBackgroundDep (depPending : List (PyStr × List PyStr)) (dep : PyStr) :
    List (PyStr × List PyStr) :=
  depPending.foldl (clearEntry dep) depPending

/-- The dependencies of a spawn, or its refusal. -/
def spawnDeps (wait : Bool) (dependsOn : List Json) : Except PyStr (List PyStr) :=
  if !dependsOn.isEmpty && wait then
    .error (lit "depends_on requires wait=false (foreground runs cannot "++
      lit "wait on background dependencies — chain wait_subagent "++lit "explicitly instead)")
  else
    let error := lit "depends_on entries must be non-empty run_id strings"
    dependsOn.mapM fun
      | .str d => if isBlank d then .error error else .ok d
      | _ => .error error

def launch (s : State) (rid : PyStr) (deps : List PyStr) (now : ℚ) : State :=
  { tasks := assign s.tasks rid ⟨.created,[.backgroundRunDone,.finish]⟩
    backgroundRuns := if rid ∈ s.backgroundRuns then s.backgroundRuns else s.backgroundRuns++[rid]
    depPending := setBackgroundDeps s.depPending rid deps
    startedAt := assign s.startedAt rid now }

/-- A task goes on to another phase. -/
def advance (s : State) (rid : PyStr) (t : Task) (p : Phase) : State :=
  { s with tasks := assign s.tasks rid { t with phase := p } }

def stillRunning (s : State) (rid : PyStr) : List PyStr :=
  ((lookup s.depPending rid).getD []).filter fun d =>
    match getBackgroundRun s d with
    | some dep => dep.phase ≠ .done
    | none => false

/-- The last sweep, and on to the agent. -/
def proceed (s : State) (rid : PyStr) (t : Task) : State :=
  advance { s with depPending := remove s.depPending rid } rid t .running

/-- The loop up to its sleep, or its end. -/
def waitLoop (s : State) (rid : PyStr) (t : Task) (wallDepStart : ℚ) : State :=
  if (stillRunning s rid).isEmpty then proceed s rid t else advance s rid t (.waiting wallDepStart)

/-- Dependencies that the table of background runs does not have count as satisfied. -/
def dropUnknown (s : State) (rid : PyStr) (blocking : List PyStr) : State :=
  if (blocking.filter fun d => (getBackgroundRun s d).isNone).isEmpty then s
  else { s with
    depPending := setBackgroundDeps s.depPending rid
      (blocking.filter fun d => (getBackgroundRun s d).isSome) }

/-- `_drive_run` up to its first sleep, or to the agent. -/
def driveRun (s : State) (rid : PyStr) (t : Task) (now : ℚ) : State :=
  let blocking := (lookup s.depPending rid).getD []
  if blocking.isEmpty then advance s rid t .running
  else waitLoop (dropUnknown s rid blocking) rid t now

def callBack (s : State) (rid : PyStr) : Callback → State
  | .backgroundRunDone => { s with backgroundRuns := s.backgroundRuns.filter (· ≠ rid) }
  | .finish =>
    { s with
      startedAt := remove s.startedAt rid
      depPending := clearBackgroundDep (remove s.depPending rid) rid }

inductive Action
  /-- A spawn, refused by another check when it is not admitted. -/
  | spawn (rid : PyStr) (wait : Bool) (dependsOn : List Json) (admitted : Bool) (now : ℚ)
  | begin (rid : PyStr) (now : ℚ)
  /-- The sleep is over; a wall clock of zero or less is off. -/
  | wake (rid : PyStr) (now wall : ℚ)
  | finish (rid : PyStr)
  /-- A task is cancelled before it starts or where it is suspended. -/
  | cancel (rid : PyStr)
  | callBack (rid : PyStr)

def withTask (s : State) (rid : PyStr) (f : Task → Option State) : Option State :=
  (lookup s.tasks rid).bind f

/-- Run identifiers are new. A foreground run enters none of the tables. -/
def step (s : State) : Action → Option State
  | .spawn rid wait dependsOn admitted now =>
    match spawnDeps wait dependsOn with
    | .ok deps =>
      if wait || !admitted then some s
      else if (s.phase rid).isSome then none
      else some (launch s rid deps now)
    | .error _ => some s
  | .begin rid now => withTask s rid fun t =>
    if t.phase = .created then some (driveRun s rid t now) else none
  | .wake rid now wall => withTask s rid fun t =>
    match t.phase with
    | .waiting wallDepStart =>
      if 0 < wall ∧ wall < now-wallDepStart then some (proceed s rid t)
      else some (waitLoop s rid t wallDepStart)
    | _ => none
  | .finish rid => withTask s rid fun t =>
    if t.phase = .running then some (advance s rid t .done) else none
  | .cancel rid => withTask s rid fun t =>
    if t.phase = .done then none else some (advance s rid t .done)
  | .callBack rid => withTask s rid fun t =>
    if t.phase = .done then
      match t.callbacks with
      | c::rest => some { callBack s rid c with tasks := assign s.tasks rid { t with callbacks := rest } }
      | [] => none
    else none

def State.deps (s : State) (rid : PyStr) : List PyStr := (lookup s.depPending rid).getD []

/-- The run exists and is not over. -/
def InFlight (s : State) (rid : PyStr) : Prop := ∃ p, s.phase rid = some p ∧ p ≠ .done

def Terminal (s : State) (rid : PyStr) : Prop := s.phase rid = some .done

/-- The run has not yet gone on to its agent. -/
def Queued (s : State) (rid : PyStr) : Prop :=
  ∃ p, s.phase rid = some p ∧ p ≠ .running ∧ p ≠ .done

/-- The step takes the run on to its agent. -/
def Starts (s s' : State) (rid : PyStr) : Prop :=
  Queued s rid ∧ s'.phase rid = some .running

/-- The step ends a wait that has taken longer than the wall clock. -/
def LimitElapsed (s : State) (rid : PyStr) : Action → Prop
  | .wake r now wall =>
    r = rid ∧ ∃ wallDepStart, s.phase rid = some (.waiting wallDepStart) ∧
      0 < wall ∧ wall < now-wallDepStart
  | _ => False

def AllTerminal (s : State) : Prop := ∀ rid p, s.phase rid = some p → p = .done

/-- The callback that takes the run out of the tables is still to come. -/
def Due (s : State) (rid : PyStr) : Prop :=
  ∃ t, lookup s.tasks rid = some t ∧ .finish ∈ t.callbacks

/-- A table of dependencies has one entry for a run, and no empty one. -/
structure WellFormed (depPending : List (PyStr × List PyStr)) : Prop where
  nodup : (keys depPending).Nodup
  filled : ∀ kv ∈ depPending, kv.2 ≠ []

structure Tracked (s : State) : Prop where
  wellFormed : WellFormed s.depPending
  registered : ∀ rid, InFlight s rid → rid ∈ s.backgroundRuns
  callbacks : ∀ rid t, lookup s.tasks rid = some t → t.phase ≠ .done →
    t.callbacks = [.backgroundRunDone,.finish]
  owner : ∀ rid ∈ keys s.depPending, Due s rid ∧ s.phase rid ≠ some .running

section Tables

variable {depPending : List (PyStr × List PyStr)} {rid dep d : PyStr} {deps : List PyStr}

theorem WellFormed.remove (h : WellFormed depPending) (rid : PyStr) :
    WellFormed (remove depPending rid) :=
  ⟨nodup_keys_remove h.nodup,fun kv hkv => h.filled kv (List.mem_of_mem_filter hkv)⟩

theorem WellFormed.set (h : WellFormed depPending) (rid : PyStr) (deps : List PyStr) :
    WellFormed (setBackgroundDeps depPending rid deps) := by
  rw [setBackgroundDeps]
  split
  · exact h.remove rid
  · next hne =>
    refine ⟨nodup_keys_assign h.nodup,fun kv hkv => ?_⟩
    cases mem_assign hkv with
    | inl heq =>
      rw [heq]
      exact fun hempty => hne (List.isEmpty_iff.mpr hempty)
    | inr hmem => exact h.filled kv hmem

theorem WellFormed.clear (h : WellFormed depPending) (dep : PyStr) :
    WellFormed (clearBackgroundDep depPending dep) := by
  refine List.foldlRecOn _ _ h fun d hd kv _ => ?_
  rw [clearEntry]
  split
  · exact hd.set kv.1 _
  · exact hd

theorem WellFormed.not_mem (h : WellFormed depPending) (hempty : (lookup depPending rid).getD [] = []) :
    rid ∉ keys depPending := by
  intro hmem
  obtain ⟨kv,hkv,rfl⟩ := List.mem_map.mp hmem
  rw [lookup_of_mem h.nodup hkv] at hempty
  exact h.filled kv hkv hempty

theorem mem_keys_setBackgroundDeps {r : PyStr} (h : r ∈ keys (setBackgroundDeps depPending rid deps)) :
    r = rid ∨ r ∈ keys depPending := by
  rw [setBackgroundDeps] at h
  split at h
  · exact .inr (mem_keys_remove h).2
  · exact mem_keys_assign h

theorem lookup_setBackgroundDeps (r : PyStr) :
    (lookup (setBackgroundDeps depPending rid deps) r).getD [] =
      if rid = r then deps else (lookup depPending r).getD [] := by
  rw [setBackgroundDeps]
  split
  · next hempty =>
    rw [lookup_remove,List.isEmpty_iff.mp hempty]
    split <;> rfl
  · rw [lookup_assign]
    split <;> rfl

theorem mem_keys_clearBackgroundDep {r : PyStr} (h : r ∈ keys (clearBackgroundDep depPending dep)) :
    r ∈ keys depPending := by
  revert h
  refine List.foldlRecOn (motive := fun d => r ∈ keys d → r ∈ keys depPending) _ _ id
    fun d hd kv hkv h => ?_
  rw [clearEntry] at h
  split at h
  · cases mem_keys_setBackgroundDeps h with
    | inl heq => exact heq ▸ List.mem_map_of_mem hkv
    | inr hmem => exact hd hmem
  · exact hd h

theorem mem_clearBackgroundDep (h : WellFormed depPending) (hne : d ≠ dep) {r : PyStr}
    (hd : d ∈ (lookup depPending r).getD []) :
    d ∈ (lookup (clearBackgroundDep depPending dep) r).getD [] := by
  refine List.foldlRecOn (motive := fun p => d ∈ (lookup p r).getD []) _ _ hd fun p hp kv hkv => ?_
  rw [clearEntry]
  split
  · rw [lookup_setBackgroundDeps]
    split
    · next heq =>
      rw [← heq,lookup_of_mem h.nodup hkv] at hd
      exact List.mem_filter.mpr ⟨hd,decide_eq_true hne⟩
    · exact hp
  · exact hp

end Tables

variable {s s' : State} {rid r d : PyStr} {t : Task} {p : Phase}

theorem phase_of_lookup (h : lookup s.tasks rid = some t) : s.phase rid = some t.phase :=
  congrArg (Option.map Task.phase) h

theorem phase_assign (tasks : List (PyStr × Task)) (r : PyStr) :
    (lookup (assign tasks rid t) r).map Task.phase =
      if rid = r then some t.phase else (lookup tasks r).map Task.phase := by
  rw [lookup_assign]
  split <;> rfl

@[simp] theorem phase_advance (r : PyStr) :
    (advance s rid t p).phase r = if rid = r then some p else s.phase r :=
  phase_assign s.tasks r

@[simp] theorem phase_launch (deps : List PyStr) (now : ℚ) (r : PyStr) :
    (launch s rid deps now).phase r = if rid = r then some .created else s.phase r :=
  phase_assign s.tasks r

theorem inFlight_of_lookup (ht : lookup s.tasks rid = some t) (h : t.phase ≠ .done) : InFlight s rid :=
  ⟨t.phase,phase_of_lookup ht,h⟩

theorem InFlight.of_advance (ht : lookup s.tasks rid = some t) (hdone : t.phase ≠ .done)
    (h : InFlight (advance s rid t p) r) : InFlight s r := by
  obtain ⟨q,hq,hne⟩ := h
  rw [phase_advance] at hq
  split at hq
  · next heq => exact heq ▸ inFlight_of_lookup ht hdone
  · exact ⟨q,hq,hne⟩

theorem getBackgroundRun_of_inFlight (hs : Tracked s) (h : InFlight s d) :
    ∃ dep, getBackgroundRun s d = some dep ∧ dep.phase ≠ .done := by
  obtain ⟨q,hq,hne⟩ := h
  obtain ⟨dep,hdep,rfl⟩ := Option.map_eq_some_iff.mp hq
  refine ⟨dep,?_,hne⟩
  rw [getBackgroundRun,if_pos (hs.registered d ⟨_,hq,hne⟩),hdep]

theorem mem_stillRunning (hs : Tracked s) (hd : d ∈ s.deps rid) (h : InFlight s d) :
    d ∈ stillRunning s rid := by
  obtain ⟨dep,hdep,hne⟩ := getBackgroundRun_of_inFlight hs h
  refine List.mem_filter.mpr ⟨hd,?_⟩
  rw [hdep]
  exact decide_eq_true hne

theorem tracked_start : Tracked start :=
  ⟨⟨List.nodup_nil,nofun⟩,by rintro rid ⟨p,⟨⟩,-⟩,nofun,nofun⟩

theorem Tracked.shrink (hs : Tracked s) {depPending : List (PyStr × List PyStr)}
    (hwf : WellFormed depPending) (hkeys : ∀ r ∈ keys depPending, r ∈ keys s.depPending) :
    Tracked { s with depPending := depPending } where
  wellFormed := hwf
  registered := hs.registered
  callbacks := hs.callbacks
  owner r hr := hs.owner r (hkeys r hr)

theorem Tracked.advance (hs : Tracked s) (ht : lookup s.tasks rid = some t) (hdone : t.phase ≠ .done)
    (hrun : p = .running → rid ∉ keys s.depPending) : Tracked (advance s rid t p) where
  wellFormed := hs.wellFormed
  registered r hr := hs.registered r (hr.of_advance ht hdone)
  callbacks r t' ht' hdone' := by
    rw [SubagentDeps.advance,lookup_assign] at ht'
    split at ht'
    · cases ht'
      exact hs.callbacks rid t ht hdone
    · exact hs.callbacks r t' ht' hdone'
  owner r hr := by
    obtain ⟨⟨t',ht',hdue⟩,hne⟩ := hs.owner r hr
    by_cases heq : rid = r
    · subst heq
      rw [ht] at ht'
      cases ht'
      refine ⟨⟨{ t with phase := p },?_,hdue⟩,?_⟩
      · rw [SubagentDeps.advance,lookup_assign,if_pos rfl]
      · rw [phase_advance,if_pos rfl]
        rintro ⟨⟩
        exact hrun rfl hr
    · refine ⟨⟨t',?_,hdue⟩,?_⟩
      · rw [SubagentDeps.advance,lookup_assign,if_neg heq,ht']
      · rwa [phase_advance,if_neg heq]

theorem Tracked.proceed (hs : Tracked s) (ht : lookup s.tasks rid = some t) (hdone : t.phase ≠ .done) :
    Tracked (proceed s rid t) := by
  have hshrink := hs.shrink (hs.wellFormed.remove rid) fun r hr => (mem_keys_remove hr).2
  exact hshrink.advance ht hdone fun _ hmem => (mem_keys_remove hmem).1 rfl

theorem Tracked.waitLoop (hs : Tracked s) (ht : lookup s.tasks rid = some t) (hdone : t.phase ≠ .done)
    (wallDepStart : ℚ) : Tracked (waitLoop s rid t wallDepStart) := by
  rw [SubagentDeps.waitLoop]
  split
  · exact hs.proceed ht hdone
  · exact hs.advance ht hdone nofun

theorem Tracked.dropUnknown (hs : Tracked s) (hne : s.deps rid ≠ []) :
    Tracked (dropUnknown s rid (s.deps rid)) := by
  rw [SubagentDeps.dropUnknown]
  split
  · exact hs
  · refine hs.shrink (hs.wellFormed.set rid _) fun r hr => ?_
    cases mem_keys_setBackgroundDeps hr with
    | inr hmem => exact hmem
    | inl heq =>
      subst heq
      by_contra hnew
      exact hne (by rw [State.deps,lookup_eq_none hnew,Option.getD_none])

theorem tasks_dropUnknown (blocking : List PyStr) : (dropUnknown s rid blocking).tasks = s.tasks := by
  rw [dropUnknown]
  split <;> rfl

theorem Tracked.driveRun (hs : Tracked s) (ht : lookup s.tasks rid = some t) (hdone : t.phase ≠ .done)
    (now : ℚ) : Tracked (driveRun s rid t now) := by
  rw [SubagentDeps.driveRun]
  split
  · next hempty =>
    exact hs.advance ht hdone fun _ => hs.wellFormed.not_mem (List.isEmpty_iff.mp hempty)
  · next hempty =>
    have hdrop := hs.dropUnknown fun hnil => hempty (List.isEmpty_iff.mpr hnil)
    exact hdrop.waitLoop (by rwa [tasks_dropUnknown]) hdone now

theorem Tracked.launch (hs : Tracked s) (rid : PyStr) (deps : List PyStr) (now : ℚ) :
    Tracked (launch s rid deps now) where
  wellFormed := hs.wellFormed.set rid deps
  registered r hr := by
    obtain ⟨q,hq,hne⟩ := hr
    have hmem : r = rid ∨ r ∈ s.backgroundRuns := by
      rw [phase_launch] at hq
      split at hq
      · next heq => exact .inl heq.symm
      · exact .inr (hs.registered r ⟨q,hq,hne⟩)
    rw [SubagentDeps.launch]
    split
    · next hold => exact hmem.elim (fun heq => heq ▸ hold) id
    · exact hmem.elim (fun heq => by simp [heq]) (List.mem_append_left _)
  callbacks r t' ht' hdone' := by
    rw [SubagentDeps.launch,lookup_assign] at ht'
    split at ht'
    · cases ht'
      rfl
    · exact hs.callbacks r t' ht' hdone'
  owner r hr := by
    by_cases heq : rid = r
    · subst heq
      refine ⟨⟨⟨.created,[.backgroundRunDone,.finish]⟩,?_,by simp⟩,by simp⟩
      rw [SubagentDeps.launch,lookup_assign,if_pos rfl]
    · have hold : r ∈ keys s.depPending := by
        cases mem_keys_setBackgroundDeps hr with
        | inl hrid => exact absurd hrid.symm heq
        | inr hmem => exact hmem
      obtain ⟨⟨t',ht',hdue⟩,hne⟩ := hs.owner r hold
      refine ⟨⟨t',?_,hdue⟩,by rwa [phase_launch,if_neg heq]⟩
      rw [SubagentDeps.launch,lookup_assign,if_neg heq,ht']

theorem phase_callBack {c : Callback} {rest : List Callback} (ht : lookup s.tasks rid = some t)
    (r : PyStr) : State.phase
      { callBack s rid c with tasks := assign s.tasks rid { t with callbacks := rest } } r =
        s.phase r := by
  refine (phase_assign s.tasks r).trans ?_
  split
  · next heq => exact heq ▸ (phase_of_lookup ht).symm
  · rfl

theorem mem_backgroundRuns_callBack {c : Callback} (hr : r ∈ s.backgroundRuns) (hne : r ≠ rid) :
    r ∈ (callBack s rid c).backgroundRuns := by
  cases c with
  | backgroundRunDone => exact List.mem_filter.mpr ⟨hr,decide_eq_true hne⟩
  | finish => exact hr

theorem Tracked.callBack {c : Callback} {rest : List Callback} (hs : Tracked s)
    (ht : lookup s.tasks rid = some t) (hdone : t.phase = .done) (hc : t.callbacks = c::rest) :
    Tracked { callBack s rid c with tasks := assign s.tasks rid { t with callbacks := rest } } where
  wellFormed := by
    cases c with
    | backgroundRunDone => exact hs.wellFormed
    | finish => exact (hs.wellFormed.remove rid).clear rid
  registered r hr := by
    obtain ⟨q,hq,hne⟩ := hr
    rw [phase_callBack ht] at hq
    refine mem_backgroundRuns_callBack (hs.registered r ⟨q,hq,hne⟩) ?_
    rintro rfl
    rw [phase_of_lookup ht,hdone] at hq
    cases hq
    exact hne rfl
  callbacks r t' ht' hdone' := by
    rw [lookup_assign] at ht'
    split at ht'
    · cases ht'
      exact absurd hdone hdone'
    · exact hs.callbacks r t' ht' hdone'
  owner r hr := by
    have hold : r ∈ keys s.depPending ∧ (r = rid → c = .backgroundRunDone) := by
      cases c with
      | backgroundRunDone => exact ⟨hr,fun _ => rfl⟩
      | finish =>
        obtain ⟨hne,hmem⟩ := mem_keys_remove (mem_keys_clearBackgroundDep hr)
        exact ⟨hmem,fun heq => absurd heq hne⟩
    obtain ⟨⟨t',ht',hdue⟩,hne⟩ := hs.owner r hold.1
    rw [phase_callBack ht]
    refine ⟨?_,hne⟩
    by_cases heq : rid = r
    · subst heq
      rw [ht] at ht'
      cases ht'
      rw [hc,hold.2 rfl] at hdue
      refine ⟨_,by rw [lookup_assign,if_pos rfl],?_⟩
      cases List.mem_cons.mp hdue with
      | inl heq => cases heq
      | inr hmem => exact hmem
    · exact ⟨t',by rw [lookup_assign,if_neg heq,ht'],hdue⟩

/-- What a step can do. -/
inductive Stepped (s : State) : Action → State → Prop
  | refused {rid wait dependsOn admitted now} : Stepped s (.spawn rid wait dependsOn admitted now) s
  | launched {rid dependsOn deps now} : spawnDeps false dependsOn = .ok deps → s.phase rid = none →
      Stepped s (.spawn rid false dependsOn true now) (launch s rid deps now)
  | drove {rid t now} : lookup s.tasks rid = some t → t.phase = .created →
      Stepped s (.begin rid now) (driveRun s rid t now)
  | gaveUp {rid t now wall wallDepStart} : lookup s.tasks rid = some t →
      t.phase = .waiting wallDepStart → 0 < wall → wall < now-wallDepStart →
      Stepped s (.wake rid now wall) (proceed s rid t)
  | looped {rid t now wall wallDepStart} : lookup s.tasks rid = some t →
      t.phase = .waiting wallDepStart → Stepped s (.wake rid now wall) (waitLoop s rid t wallDepStart)
  | ended {a rid t} : lookup s.tasks rid = some t → t.phase ≠ .done → Stepped s a (advance s rid t .done)
  | calledBack {rid t c rest} : lookup s.tasks rid = some t → t.phase = .done → t.callbacks = c::rest →
      Stepped s (.callBack rid)
        { callBack s rid c with tasks := assign s.tasks rid { t with callbacks := rest } }

theorem stepped {a : Action} (h : step s a = some s') : Stepped s a s' := by
  cases a with
  | spawn rid wait dependsOn admitted now =>
    simp only [step] at h
    split at h
    · next deps hdeps =>
      split at h
      · cases h
        exact .refused
      · next hgo =>
        split at h
        · cases h
        · next hnew =>
          cases h
          simp only [Bool.or_eq_true,Bool.not_eq_true',not_or,Bool.not_eq_true,
            Bool.not_eq_false] at hgo
          rw [hgo.1,hgo.2]
          exact .launched (hgo.1 ▸ hdeps) (Option.not_isSome_iff_eq_none.mp hnew)
    · cases h
      exact .refused
  | begin rid now =>
    obtain ⟨t,ht,h⟩ := Option.bind_eq_some_iff.mp h
    split at h
    · next hp =>
      cases h
      exact .drove ht hp
    · cases h
  | wake rid now wall =>
    obtain ⟨t,ht,h⟩ := Option.bind_eq_some_iff.mp h
    split at h
    · next wallDepStart hp =>
      split at h
      · next hover =>
        cases h
        exact .gaveUp ht hp hover.1 hover.2
      · cases h
        exact .looped ht hp
    · cases h
  | finish rid =>
    obtain ⟨t,ht,h⟩ := Option.bind_eq_some_iff.mp h
    split at h
    · next hp =>
      cases h
      exact .ended ht (by rw [hp]; nofun)
    · cases h
  | cancel rid =>
    obtain ⟨t,ht,h⟩ := Option.bind_eq_some_iff.mp h
    split at h
    · cases h
    · next hp =>
      cases h
      exact .ended ht hp
  | callBack rid =>
    obtain ⟨t,ht,h⟩ := Option.bind_eq_some_iff.mp h
    split at h
    · next hp =>
      split at h
      · next c rest hc =>
        cases h
        exact .calledBack ht hp hc
      · cases h
    · cases h

theorem Tracked.step {a : Action} (hs : Tracked s) (h : step s a = some s') : Tracked s' := by
  cases stepped h with
  | refused => exact hs
  | launched => exact hs.launch _ _ _
  | drove ht hp => exact hs.driveRun ht (by rw [hp]; nofun) _
  | gaveUp ht hp => exact hs.proceed ht (by rw [hp]; nofun)
  | looped ht hp => exact hs.waitLoop ht (by rw [hp]; nofun) _
  | ended ht hp => exact hs.advance ht hp nofun
  | calledBack ht hp hc => exact hs.callBack ht hp hc

/-- If the second state has the run queued and the dependency in flight, so had the first,
and the run still waits for the dependency. -/
def Kept (s s' : State) (rid d : PyStr) : Prop :=
  Queued s' rid → InFlight s' d → Queued s rid ∧ InFlight s d ∧ (d ∈ s.deps rid → d ∈ s'.deps rid)

theorem Kept.refl (s : State) (rid d : PyStr) : Kept s s rid d := fun hq hf => ⟨hq,hf,id⟩

theorem Kept.trans {u : State} (h : Kept s s' rid d) (h' : Kept s' u rid d) : Kept s u rid d := by
  intro hq hf
  obtain ⟨hq',hf',hd'⟩ := h' hq hf
  obtain ⟨hqs,hfs,hd⟩ := h hq' hf'
  exact ⟨hqs,hfs,fun hmem => hd' (hd hmem)⟩

theorem Queued.of_advance (h : Queued (advance s r t p) rid) (hp : p = .running ∨ p = .done ∨ Queued s r) :
    Queued s rid ∧ (p = .running → r ≠ rid) := by
  obtain ⟨q,hq,hrun,hdone⟩ := h
  rw [phase_advance] at hq
  split at hq
  · next heq =>
    cases hq
    exact ⟨heq ▸ (hp.resolve_left hrun).resolve_left hdone,fun he => absurd he hrun⟩
  · next hne => exact ⟨⟨q,hq,hrun,hdone⟩,fun _ => hne⟩

theorem kept_advance (ht : lookup s.tasks r = some t) (hdone : t.phase ≠ .done)
    (hp : p = .running ∨ p = .done ∨ Queued s r) : Kept s (advance s r t p) rid d :=
  fun hq hf => ⟨(hq.of_advance hp).1,hf.of_advance ht hdone,id⟩

theorem kept_proceed (ht : lookup s.tasks r = some t) (hdone : t.phase ≠ .done) :
    Kept s (proceed s r t) rid d := by
  intro hq hf
  obtain ⟨hqs,hne⟩ := Queued.of_advance hq (.inl rfl)
  refine ⟨hqs,hf.of_advance ht hdone,fun hd => ?_⟩
  change d ∈ (lookup (remove s.depPending r) rid).getD []
  rwa [lookup_remove,if_neg (hne rfl)]

theorem kept_waitLoop (ht : lookup s.tasks r = some t) (hq : Queued s r) (wallDepStart : ℚ) :
    Kept s (waitLoop s r t wallDepStart) rid d := by
  have hdone : t.phase ≠ .done := by
    obtain ⟨q,hq,-,hne⟩ := hq
    rw [phase_of_lookup ht] at hq
    cases hq
    exact hne
  rw [waitLoop]
  split
  · exact kept_proceed ht hdone
  · exact kept_advance ht hdone (.inr (.inr hq))

theorem kept_dropUnknown (hs : Tracked s) : Kept s (dropUnknown s r (s.deps r)) rid d := by
  rw [dropUnknown]
  split
  · exact Kept.refl s rid d
  · intro hq hf
    refine ⟨hq,hf,fun hd => ?_⟩
    change d ∈ (lookup (setBackgroundDeps s.depPending r _) rid).getD []
    rw [lookup_setBackgroundDeps]
    split
    · next heq =>
      obtain ⟨dep,hdep,-⟩ := getBackgroundRun_of_inFlight hs hf
      exact List.mem_filter.mpr ⟨heq ▸ hd,by rw [hdep]; rfl⟩
    · exact hd

theorem kept_driveRun (hs : Tracked s) (ht : lookup s.tasks r = some t) (hp : t.phase = .created)
    (now : ℚ) : Kept s (driveRun s r t now) rid d := by
  have hq : ∀ u : State, u.tasks = s.tasks → Queued u r := by
    intro u hu
    refine ⟨.created,?_,nofun,nofun⟩
    rw [State.phase,hu,ht,Option.map_some,hp]
  rw [driveRun]
  split
  · exact kept_advance ht (by rw [hp]; nofun) (.inl rfl)
  · refine (kept_dropUnknown hs).trans (kept_waitLoop ?_ (hq _ (tasks_dropUnknown _)) now)
    rwa [tasks_dropUnknown]

theorem kept_launch (hnew : s.phase r = none) (deps : List PyStr) (now : ℚ) (hrid : s.phase rid ≠ none)
    (hd : s.phase d ≠ none) : Kept s (launch s r deps now) rid d := by
  have hr : r ≠ rid := by rintro rfl; exact hrid hnew
  have hr' : r ≠ d := by rintro rfl; exact hd hnew
  rintro ⟨q,hq,hqueued⟩ ⟨q',hq',hne⟩
  rw [phase_launch,if_neg hr] at hq
  rw [phase_launch,if_neg hr'] at hq'
  refine ⟨⟨q,hq,hqueued⟩,⟨q',hq',hne⟩,fun hmem => ?_⟩
  change d ∈ (lookup (setBackgroundDeps s.depPending r deps) rid).getD []
  rwa [lookup_setBackgroundDeps,if_neg hr]

theorem kept_callBack (hs : Tracked s) {c : Callback} {rest : List Callback}
    (ht : lookup s.tasks r = some t) (hdone : t.phase = .done) : Kept s
      { callBack s r c with tasks := assign s.tasks r { t with callbacks := rest } } rid d := by
  rintro ⟨q,hq,hrun,hqdone⟩ ⟨q',hq',hne⟩
  rw [phase_callBack ht] at hq hq'
  refine ⟨⟨q,hq,hrun,hqdone⟩,⟨q',hq',hne⟩,fun hd => ?_⟩
  have hother : ∀ {x : PyStr} {p : Phase}, s.phase x = some p → p ≠ .done → r ≠ x := by
    rintro x p hx hp rfl
    rw [phase_of_lookup ht,hdone] at hx
    cases hx
    exact hp rfl
  cases c with
  | backgroundRunDone => exact hd
  | finish =>
    refine mem_clearBackgroundDep (hs.wellFormed.remove r) (hother hq' hne).symm ?_
    rwa [lookup_remove,if_neg (hother hq hqdone)]

theorem kept_step {a : Action} (hs : Tracked s) (h : step s a = some s') (hrid : s.phase rid ≠ none)
    (hd : s.phase d ≠ none) : Kept s s' rid d := by
  have hqueued : ∀ {r t wallDepStart}, lookup s.tasks r = some t → t.phase = .waiting wallDepStart →
      Queued s r := fun ht hp => ⟨_,phase_of_lookup ht,by rw [hp]; nofun,by rw [hp]; nofun⟩
  cases stepped h with
  | refused => exact Kept.refl s rid d
  | launched _ hnew => exact kept_launch hnew _ _ hrid hd
  | drove ht hp => exact kept_driveRun hs ht hp _
  | gaveUp ht hp => exact kept_proceed ht (by rw [hp]; nofun)
  | looped ht hp => exact kept_waitLoop ht (hqueued ht hp) _
  | ended ht hp => exact kept_advance ht hp (.inr (.inl rfl))
  | calledBack ht hp => exact kept_callBack hs ht hp

theorem exists_phase_waitLoop (s : State) (rid : PyStr) (t : Task) (wallDepStart : ℚ) :
    ∃ p, ∀ r, (waitLoop s rid t wallDepStart).phase r = if rid = r then some p else s.phase r := by
  rw [waitLoop]
  split
  · exact ⟨.running,phase_advance⟩
  · exact ⟨.waiting wallDepStart,phase_advance⟩

theorem phase_dropUnknown (blocking : List PyStr) (r : PyStr) :
    (dropUnknown s rid blocking).phase r = s.phase r := by
  rw [State.phase,tasks_dropUnknown]
  rfl

theorem exists_phase_driveRun (s : State) (rid : PyStr) (t : Task) (now : ℚ) :
    ∃ p, ∀ r, (driveRun s rid t now).phase r = if rid = r then some p else s.phase r := by
  rw [driveRun]
  split
  · exact ⟨.running,phase_advance⟩
  · obtain ⟨p,hp⟩ := exists_phase_waitLoop (dropUnknown s rid (s.deps rid)) rid t now
    exact ⟨p,fun r => (hp r).trans (by rw [phase_dropUnknown])⟩

theorem exists_phase_step {a : Action} (h : step s a = some s') :
    s'.phase = s.phase ∨ ∃ rid p, ∀ r, s'.phase r = if rid = r then some p else s.phase r := by
  cases stepped h with
  | refused => exact .inl rfl
  | @launched rid => exact .inr ⟨rid,_,phase_launch _ _⟩
  | @drove rid t => exact .inr ⟨rid,exists_phase_driveRun s rid t _⟩
  | @gaveUp rid => exact .inr ⟨rid,_,phase_advance⟩
  | @looped rid t => exact .inr ⟨rid,exists_phase_waitLoop s rid t _⟩
  | @ended _ rid => exact .inr ⟨rid,_,phase_advance⟩
  | calledBack ht => exact .inl (funext (phase_callBack ht))

theorem phase_step {a : Action} (h : step s a = some s') (hr : s.phase r ≠ none) :
    s'.phase r ≠ none := by
  rcases exists_phase_step h with heq | ⟨rid,p,hp⟩
  · rwa [heq]
  · rw [hp]
    split
    · nofun
    · exact hr

theorem phase_waitLoop (hs : Tracked s) (hd : d ∈ s.deps rid) (hf : InFlight s d) (t : Task)
    (wallDepStart : ℚ) : (waitLoop s rid t wallDepStart).phase rid = some (.waiting wallDepStart) := by
  have hmem := mem_stillRunning hs hd hf
  have hne : ¬ (stillRunning s rid).isEmpty := by
    rw [List.isEmpty_iff]
    exact List.ne_nil_of_mem hmem
  rw [waitLoop,if_neg hne,phase_advance,if_pos rfl]

theorem phase_driveRun (hs : Tracked s) (hq : Queued s rid) (hd : d ∈ s.deps rid) (hf : InFlight s d)
    (t : Task) (now : ℚ) : (driveRun s rid t now).phase rid = some (.waiting now) := by
  have hne : ¬ (s.deps rid).isEmpty := by
    rw [List.isEmpty_iff]
    exact List.ne_nil_of_mem hd
  have hdrive : driveRun s rid t now = waitLoop (dropUnknown s rid (s.deps rid)) rid t now := if_neg hne
  have hf' : InFlight (dropUnknown s rid (s.deps rid)) d := by rwa [InFlight,phase_dropUnknown]
  have hq' : Queued (dropUnknown s rid (s.deps rid)) rid := by rwa [Queued,phase_dropUnknown]
  obtain ⟨-,-,hkeep⟩ := kept_dropUnknown hs hq' hf'
  rw [hdrive]
  exact phase_waitLoop (hs.dropUnknown (List.ne_nil_of_mem hd)) (hkeep hd) hf' t now

theorem not_starts_of_phase_eq (h : s'.phase rid = s.phase rid) : ¬ Starts s s' rid := by
  rintro ⟨⟨q,hq,hnot,-⟩,hrun⟩
  rw [h,hq] at hrun
  cases hrun
  exact hnot rfl

theorem limitElapsed_of_starts {a : Action} (hs : Tracked s) (h : step s a = some s')
    (hstart : Starts s s' rid) (hd : d ∈ s.deps rid) (hf : InFlight s d) : LimitElapsed s rid a := by
  have hother : ∀ {r p}, (∀ x, s'.phase x = if r = x then some p else s.phase x) → r = rid := by
    intro r p hp
    by_contra hne
    exact not_starts_of_phase_eq ((hp rid).trans (if_neg hne)) hstart
  obtain ⟨hq,hrun⟩ := hstart
  cases stepped h with
  | refused => exact absurd ⟨hq,hrun⟩ (not_starts_of_phase_eq rfl)
  | @launched r =>
    cases hother (phase_launch _ _)
    rw [phase_launch,if_pos rfl] at hrun
    cases hrun
  | @drove r t now =>
    obtain ⟨p,hp⟩ := exists_phase_driveRun s r t now
    cases hother hp
    rw [phase_driveRun hs hq hd hf] at hrun
    cases hrun
  | @gaveUp r t now wall wallDepStart ht hp hpos hover =>
    cases hother phase_advance
    exact ⟨rfl,wallDepStart,(phase_of_lookup ht).trans (congrArg some hp),hpos,hover⟩
  | @looped r t now wall wallDepStart =>
    obtain ⟨p,hp⟩ := exists_phase_waitLoop s r t wallDepStart
    cases hother hp
    rw [phase_waitLoop hs hd hf] at hrun
    cases hrun
  | @ended _ r =>
    cases hother phase_advance
    rw [phase_advance,if_pos rfl] at hrun
    cases hrun
  | calledBack ht => exact absurd ⟨hq,hrun⟩ (not_starts_of_phase_eq (phase_callBack ht rid))

/-- The run and the dependency exist, and the run waits for the dependency as long as the
one is queued and the other in flight. -/
structure Held (rid d : PyStr) (s : State) : Prop where
  run : s.phase rid ≠ none
  dep : s.phase d ≠ none
  waits : Queued s rid → InFlight s d → d ∈ s.deps rid

theorem held_step {a : Action} (hs : Tracked s) (h : step s a = some s') (hheld : Held rid d s) :
    Held rid d s' where
  run := phase_step h hheld.run
  dep := phase_step h hheld.dep
  waits hq hf := by
    obtain ⟨hqs,hfs,hkeep⟩ := kept_step hs h hheld.run hheld.dep hq hf
    exact hkeep (hheld.waits hqs hfs)

theorem held_launch (deps : List PyStr) (now : ℚ) (hd : d ∈ deps) (hf : InFlight s d) :
    Held rid d (launch s rid deps now) where
  run := by
    rw [phase_launch,if_pos rfl]
    nofun
  dep := by
    obtain ⟨q,hq,-⟩ := hf
    rw [phase_launch]
    split
    · nofun
    · rw [hq]
      nofun
  waits _ _ := by
    change d ∈ (lookup (setBackgroundDeps s.depPending rid deps) rid).getD []
    rwa [lookup_setBackgroundDeps,if_pos rfl]

theorem tracked_run {as : List Action} (h : Run step always s as s') (hs : Tracked s) : Tracked s' :=
  h.invariant (fun _ _ _ _ hst hinv => hinv.step hst) hs

theorem held_run {as : List Action} (h : Run step always s as s') (hs : Tracked s)
    (hheld : Held rid d s) : Held rid d s' := by
  induction h with
  | refl => exact hheld
  | succ _ hst _ ih => exact ih (hs.step hst) (held_step hs hst hheld)

theorem launch_of_step {deps : List PyStr} {dependsOn : List Json} {now : ℚ}
    (hdeps : spawnDeps false dependsOn = .ok deps)
    (h : step s (.spawn rid false dependsOn true now) = some s') : s' = launch s rid deps now := by
  simp only [step,hdeps,Bool.not_true,Bool.or_false,Bool.false_eq_true,if_false] at h
  split at h
  · cases h
  · exact (Option.some.inj h).symm

theorem terminal_of_not_inFlight (hd : s.phase d ≠ none) (h : ¬ InFlight s d) : Terminal s d := by
  obtain ⟨p,hp⟩ := Option.ne_none_iff_exists'.mp hd
  by_contra hne
  refine h ⟨p,hp,?_⟩
  rintro rfl
  exact hne hp

/-- What a state that is reached promises to the runs that are spawned in it: they start
after the dependencies that are in flight there, or when their wait has gone on for too long. -/
def InOrder (s : State) : Prop :=
  ∀ rid dependsOn deps now s₁ bs s₂ a s₃, spawnDeps false dependsOn = .ok deps →
    step s (.spawn rid false dependsOn true now) = some s₁ → Run step always s₁ bs s₂ →
    step s₂ a = some s₃ → Starts s₂ s₃ rid →
    ∀ d ∈ deps, InFlight s d → Terminal s₂ d ∨ LimitElapsed s₂ rid a

theorem inOrder_of_tracked (hs : Tracked s) : InOrder s := by
  intro rid dependsOn deps now s₁ bs s₂ a s₃ hdeps hspawn hrun h hstart d hd hf
  rw [launch_of_step hdeps hspawn] at hrun
  have htracked := hs.launch rid deps now
  have hheld := held_run hrun htracked (held_launch deps now hd hf)
  by_cases hover : InFlight s₂ d
  · exact .inr (limitElapsed_of_starts (tracked_run hrun htracked) h hstart
      (hheld.waits hstart.1 hover) hover)
  · exact .inl (terminal_of_not_inFlight hheld.dep hover)

/-- Runs start behind their dependencies, and once all runs are over the table has entries
only for those whose last callback is still to come. -/
theorem inOrder_and_released {as : List Action} (h : Run step always start as s) :
    InOrder s ∧ (AllTerminal s → (∀ r ∈ keys s.depPending, Due s r) ∧
      ((∀ r, ¬ Due s r) → s.depPending = [])) := by
  have hs := tracked_run h tracked_start
  have hdue : ∀ r ∈ keys s.depPending, Due s r := fun r hr => (hs.owner r hr).1
  refine ⟨inOrder_of_tracked hs,fun _ => ⟨hdue,fun hnone => ?_⟩⟩
  refine List.eq_nil_iff_forall_not_mem.mpr fun kv hkv => ?_
  exact hnone kv.1 (hdue kv.1 (List.mem_map_of_mem hkv))

/-- One run in flight. -/
def upstream : State := last step start [.spawn (lit "run_a") false [] true 0,.begin (lit "run_a") 0]

/-- A second run has been spawned behind the first, which is now over. -/
def downstream : List Action := [.begin (lit "run_b") 1,.finish (lit "run_a")]

theorem inOrder_and_released_downstream :
    let s₁ := last step upstream [.spawn (lit "run_b") false [.str (lit "run_a")] true 1]
    let s₂ := last step s₁ downstream
    Terminal s₂ (lit "run_a") ∨ LimitElapsed s₂ (lit "run_b") (.wake (lit "run_b") 2 600) := by
  have hup : Run step always start _ upstream := run_last (by decide +kernel)
  refine (inOrder_and_released hup).1 _ [.str (lit "run_a")] [lit "run_a"] 1 _ downstream _ _ _ rfl
    (step_last (by decide +kernel)) (run_last (by decide +kernel)) (step_last (by decide +kernel))
    ⟨⟨.waiting 1,by decide +kernel,nofun,nofun⟩,by decide +kernel⟩ _ List.mem_cons_self
    ⟨.running,by decide +kernel,nofun⟩

theorem allTerminal_of_tasks (h : ∀ kt ∈ s.tasks, kt.2.phase = .done) : AllTerminal s := by
  rintro rid p hp
  obtain ⟨t,ht,rfl⟩ := Option.map_eq_some_iff.mp hp
  exact h _ (mem_of_lookup ht)

/-- Both runs are cancelled, the second one while it waits for the first. -/
def shutdown : List Action :=
  [.spawn (lit "run_a") false [] true 0,.spawn (lit "run_b") false [.str (lit "run_a")] true 0,
    .begin (lit "run_a") 0,.begin (lit "run_b") 0,.cancel (lit "run_a"),.cancel (lit "run_b")]

/-- All runs are over and one is still in the table. -/
theorem shutdown_not_released : Run step always start shutdown (last step start shutdown) ∧
    AllTerminal (last step start shutdown) ∧ (last step start shutdown).depPending ≠ [] := by
  refine ⟨run_last (by decide +kernel),allTerminal_of_tasks ?_,by decide +kernel⟩
  decide +kernel

end MinimaxCode.SubagentDeps
