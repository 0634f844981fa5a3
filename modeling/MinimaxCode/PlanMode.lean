import MinimaxCode.PyJson
import MinimaxCode.Runs

/-!
# Plan mode

The tracker of a session's plan mode, its snapshots, and the sessions it runs in. What the
model was last told stands beside the tracker: no field of the tracker stores it.
-/

namespace MinimaxCode.PlanMode

open PyText PyJson Runs

inductive PlanModeState
  | inactive
  | pending
  | active
  | exitPending
  deriving DecidableEq

def PlanModeState.value : PlanModeState → PyStr
  | .inactive => lit "Inactive"
  | .pending => lit "Pending"
  | .active => lit "Active"
  | .exitPending => lit "ExitPending"

/-- `PlanModeState(value)`, with the fallback of `from_dict`. -/
def PlanModeState.ofValue (v : Json) : PlanModeState :=
  match v with
  | .str s =>
    if s = lit "Pending" then .pending else if s = lit "Active" then .active
    else if s = lit "ExitPending" then .exitPending else .inactive
  | _ => .inactive

theorem PlanModeState.ofValue_value (m : PlanModeState) : ofValue (.str m.value) = m := by
  cases m <;> decide

/-- The parts of a path. -/
abbrev Path := List PyStr

structure PendingActivation where
  text : PyStr
  priorWasPreviouslyActive : Bool

structure PlanModeSnapshot where
  state : PlanModeState
  wasPreviouslyActive : Bool
  reminderCount : ℤ
  pendingExitReminder : Bool
  awaitingPlanApproval : Bool

def PlanModeSnapshot.toDict (s : PlanModeSnapshot) : List (PyStr × Json) :=
  [(lit "state",.str s.state.value),(lit "was_previously_active",.bool s.wasPreviouslyActive),
    (lit "reminder_count",.int s.reminderCount),
    (lit "pending_exit_reminder",.bool s.pendingExitReminder),
    (lit "awaiting_plan_approval",.bool s.awaitingPlanApproval)]

/-- `int(x)`; `none` is a `TypeError`, a `ValueError` or an `OverflowError`. -/
def toInt (intOfStr : PyStr → Option ℤ) : Json → Option ℤ
  | .int n => some n
  | .bool b => some b.toInt
  | .float (.finite bits) => some bits.truncate
  | .str s => intOfStr s
  | _ => none

def flag (data : List (PyStr × Json)) (key : PyStr) : Bool :=
  truthy ((get data key).getD (.bool false))

def PlanModeSnapshot.fromDict (intOfStr : PyStr → Option ℤ) (data : List (PyStr × Json)) :
    Option PlanModeSnapshot :=
  (toInt intOfStr ((get data (lit "reminder_count")).getD (.int 0))).map fun n =>
    { state := .ofValue ((get data (lit "state")).getD (.str PlanModeState.inactive.value))
      wasPreviouslyActive := flag data (lit "was_previously_active")
      reminderCount := n
      pendingExitReminder := flag data (lit "pending_exit_reminder")
      awaitingPlanApproval := flag data (lit "awaiting_plan_approval") }

theorem fromDict_toDict (intOfStr : PyStr → Option ℤ) (s : PlanModeSnapshot) :
    PlanModeSnapshot.fromDict intOfStr s.toDict = some s := by
  change some (⟨.ofValue (.str s.state.value),s.wasPreviouslyActive,s.reminderCount,
    s.pendingExitReminder,s.awaitingPlanApproval⟩ : PlanModeSnapshot) = some s
  rw [PlanModeState.ofValue_value]

structure PlanModeTracker where
  state : PlanModeState
  wasPreviouslyActive : Bool
  reminderCount : ℤ
  pendingExitReminder : Bool
  awaitingPlanApproval : Bool
  pendingActivation : Option PendingActivation
  planFilePath : Path

namespace PlanModeTracker

def planFile (sessionDir : Path) : Path := sessionDir++[lit "plan.md"]

def new (sessionDir : Path) : PlanModeTracker :=
  ⟨.inactive,false,0,false,false,none,planFile sessionDir⟩

/-- Transient states collapse: `Pending` to `Inactive`, and `ExitPending` to `Inactive` with
the exit reminder armed. -/
def fromSnapshot (sessionDir : Path) (s : PlanModeSnapshot) : PlanModeTracker where
  state := if s.state = .pending ∨ s.state = .exitPending then .inactive else s.state
  wasPreviouslyActive := s.wasPreviouslyActive
  reminderCount := s.reminderCount
  pendingExitReminder := s.pendingExitReminder || s.state = .exitPending
  awaitingPlanApproval := s.awaitingPlanApproval
  pendingActivation := none
  planFilePath := planFile sessionDir

variable (t : PlanModeTracker)

def snapshot : PlanModeSnapshot :=
  ⟨t.state,t.wasPreviouslyActive,t.reminderCount,t.pendingExitReminder,t.awaitingPlanApproval⟩

def setAwaitingPlanApproval (awaiting : Bool) : PlanModeTracker :=
  { t with awaitingPlanApproval := awaiting }

def isActive : Bool := t.state = .active

def shouldUseFullReminder : Bool := t.reminderCount%2 = 0

def isReentry : Bool := t.wasPreviouslyActive && t.state = .pending

/-- The transitions give back whether the state changed. -/
def enterPending : Bool × PlanModeTracker :=
  match t.state with
  | .inactive => (true,{ t with state := .pending, pendingExitReminder := false })
  | .exitPending => (true,{ t with state := .active, pendingExitReminder := false })
  | _ => (false,t)

def activate : Bool × PlanModeTracker :=
  if t.state ≠ .pending then (false,t)
  else (true,{ t with state := .active, wasPreviouslyActive := true, reminderCount := 0 })

def activateMidTurn (rendered : PyStr) : Bool × PlanModeTracker :=
  if t.state ≠ .pending then (false,t)
  else (true,{ t with
    state := .active, wasPreviouslyActive := true, reminderCount := 0,
    pendingActivation := some ⟨rendered,t.wasPreviouslyActive⟩ })

def takePendingActivation : Option PyStr × PlanModeTracker :=
  (t.pendingActivation.map PendingActivation.text,{ t with pendingActivation := none })

def activateFromTool : Bool × PlanModeTracker :=
  if t.state ≠ .inactive then (false,t)
  else (true,{ t with
    state := .active, wasPreviouslyActive := true, reminderCount := 0,
    pendingExitReminder := false })

def deactivateApproved : Bool × PlanModeTracker :=
  if t.state ≠ .active then (false,t)
  else (true,{ t with
    state := .inactive, reminderCount := 0, awaitingPlanApproval := false,
    pendingActivation := none })

/-- An activation that was not delivered is rolled back; the model never saw it. -/
def userExit (turnInFlight : Bool) : PlanModeTracker :=
  let t := { t with awaitingPlanApproval := false }
  match t.pendingActivation,t.state with
  | some a,.active =>
    { t with pendingActivation := none, state := .inactive,
             wasPreviouslyActive := a.priorWasPreviouslyActive }
  | _,.pending => { t with state := .inactive }
  | none,.active =>
    if turnInFlight then { t with state := .exitPending }
    else { t with state := .inactive, pendingExitReminder := true }
  | _,_ => t

def completeDeferredExit : PlanModeTracker :=
  if t.state ≠ .exitPending then t
  else { t with state := .inactive, pendingExitReminder := true }

def queueExitReminder : PlanModeTracker := { t with pendingExitReminder := true }

def recordReminderInjected : PlanModeTracker := { t with reminderCount := t.reminderCount+1 }

def clearPendingExitReminder : PlanModeTracker := { t with pendingExitReminder := false }

def resetAfterCompaction : PlanModeTracker :=
  if t.state = .active then { t with reminderCount := 0, pendingActivation := none } else t

end PlanModeTracker

open PlanModeTracker

/-- A tracker, and whether plan mode being active is what the model was last told. -/
structure Session where
  tracker : PlanModeTracker
  told : Bool

/-- What the user, the model and the host do with the tracker. A reminder goes into the
conversation at the next turn, an activation that was toggled in a running turn when it is
drained; an approved exit either says so in the tool result or queues the exit reminder. -/
inductive Event
  | toggleOn
  | prompt
  | toggleOnMidTurn (rendered : PyStr)
  | drain
  | remind
  | enterTool
  | exitTool (signalled : Bool)
  | toggleOff (turnInFlight : Bool)
  | turnDone
  | remindExit
  | compact
  | park (awaiting : Bool)
  | restore (sessionDir : Path)

def Session.quiet (s : Session) (t : PlanModeTracker) : Session := { s with tracker := t }

section Step

variable (intOfStr : PyStr → Option ℤ)

/-- A restart reads the snapshot back from its dictionary. -/
def reload (t : PlanModeTracker) (sessionDir : Path) : Option PlanModeTracker :=
  (PlanModeSnapshot.fromDict intOfStr t.snapshot.toDict).map (fromSnapshot sessionDir)

def step (s : Session) : Event → Option Session
  | .toggleOn => some (s.quiet s.tracker.enterPending.2)
  | .prompt => some (s.quiet s.tracker.activate.2)
  | .toggleOnMidTurn rendered => some (s.quiet (s.tracker.activateMidTurn rendered).2)
  | .drain =>
    match s.tracker.takePendingActivation with
    | (some _,t) => some ⟨t.recordReminderInjected,true⟩
    | (none,t) => some (s.quiet t)
  | .remind =>
    if s.tracker.isActive then some ⟨s.tracker.recordReminderInjected,true⟩ else none
  | .enterTool =>
    match s.tracker.activateFromTool with
    | (true,t) => some ⟨t,true⟩
    | (false,t) => some (s.quiet t)
  | .exitTool signalled =>
    match s.tracker.deactivateApproved with
    | (true,t) => some (if signalled then ⟨t,false⟩ else s.quiet t.queueExitReminder)
    | (false,t) => some (s.quiet t)
  | .toggleOff turnInFlight => some (s.quiet (s.tracker.userExit turnInFlight))
  | .turnDone => some (s.quiet s.tracker.completeDeferredExit)
  | .remindExit =>
    if s.tracker.pendingExitReminder then some ⟨s.tracker.clearPendingExitReminder,false⟩
    else none
  | .compact => some (s.quiet s.tracker.resetAfterCompaction)
  | .park awaiting => some (s.quiet (s.tracker.setAwaitingPlanApproval awaiting))
  | .restore sessionDir => (reload intOfStr s.tracker sessionDir).map s.quiet

end Step

def start (sessionDir : Path) : Session := ⟨new sessionDir,false⟩

/-- A model that was last told of plan mode is about to be told of its end wherever plan
mode is off, and an activation is buffered only in the state that delivers it. -/
structure Sound (s : Session) : Prop where
  exit_pending : s.told → s.tracker.state = .inactive → s.tracker.pendingExitReminder
  delivering : s.tracker.pendingActivation.isSome → s.tracker.state = .active

/-- The exit reminder is armed only while plan mode is off. -/
def Armed (s : Session) : Prop :=
  s.tracker.pendingExitReminder → s.tracker.state = .inactive

/-- Plan mode is on again but nobody has told the model so. -/
def undelivered (t : PlanModeTracker) : Prop :=
  t.state = .pending ∨ t.state = .active ∧ t.pendingActivation.isSome

/-- Neither the user nor a restart takes back an undelivered plan mode from a model that
was told of an earlier one. A restart keeps the active state. -/
def Keeps (s : Session) : Event → Prop
  | .toggleOff _ => s.told → ¬ undelivered s.tracker
  | .restore _ => s.told → s.tracker.state ≠ .pending
  | _ => True

variable {intOfStr : PyStr → Option ℤ}

@[simp] theorem reload_eq (t : PlanModeTracker) (sessionDir : Path) :
    reload intOfStr t sessionDir = some (fromSnapshot sessionDir t.snapshot) := by
  rw [reload,fromDict_toDict,Option.map_some]

theorem sound_iff {s : Session} : Sound s ↔
    (s.told → s.tracker.state = .inactive → s.tracker.pendingExitReminder) ∧
      (s.tracker.pendingActivation.isSome → s.tracker.state = .active) :=
  ⟨fun h => ⟨h.exit_pending,h.delivering⟩,fun h => ⟨h.1,h.2⟩⟩

theorem armed_sound_step {s u : Session} {e : Event} (h : step intOfStr s e = some u)
    (hs : Armed s) : Armed u ∧ (Sound s → (Sound u ↔ Keeps s e)) := by
  obtain ⟨⟨state,prev,count,exits,waits,buffer,path⟩,told⟩ := s
  simp only [sound_iff]
  cases e with
  | toggleOn => cases state <;> cases h <;> simp_all [Armed,Keeps,Session.quiet,enterPending]
  | prompt => cases state <;> cases h <;> simp_all [Armed,Keeps,Session.quiet,activate]
  | toggleOnMidTurn =>
    cases state <;> cases h <;> simp_all [Armed,Keeps,Session.quiet,activateMidTurn]
  | drain =>
    cases buffer <;> cases h <;>
      simp_all [Armed,Keeps,Session.quiet,recordReminderInjected]
  | remind =>
    cases state <;> cases h
    simp_all [Armed,Keeps,recordReminderInjected]
  | enterTool => cases state <;> cases h <;> simp_all [Armed,Keeps,Session.quiet]
  | exitTool signalled =>
    cases state <;> cases signalled <;> cases h <;>
      simp_all [Armed,Keeps,Session.quiet,queueExitReminder]
  | toggleOff turnInFlight =>
    cases state <;> cases buffer <;> cases turnInFlight <;> cases h <;>
      simp_all [Armed,Keeps,undelivered,Session.quiet,userExit]
  | turnDone => cases state <;> cases h <;> simp_all [Armed,Keeps,Session.quiet,completeDeferredExit]
  | remindExit =>
    cases exits <;> cases h
    simp_all [Armed,Keeps,clearPendingExitReminder]
  | compact => cases state <;> cases h <;> simp_all [Armed,Keeps,Session.quiet,resetAfterCompaction]
  | park =>
    cases h
    exact ⟨hs,fun hsound => iff_of_true hsound trivial⟩
  | restore sessionDir =>
    rw [step,reload_eq,Option.map_some,Option.some.injEq] at h
    subst h
    cases state <;> simp_all [Armed,Keeps,Session.quiet,fromSnapshot,snapshot]

theorem armed_start (sessionDir : Path) : Armed (start sessionDir) := fun _ => rfl

theorem sound_start (sessionDir : Path) : Sound (start sessionDir) :=
  ⟨fun h => absurd h Bool.false_ne_true,fun h => absurd h Bool.false_ne_true⟩

/-- The tracker is sound in every state of a run exactly when no undelivered plan mode is
taken back from a model that was told of an earlier one. -/
theorem sound_throughout_iff (sessionDir : Path) {es : List Event} {u : Session}
    (h : Run (step intOfStr) always (start sessionDir) es u) :
    Throughout (step intOfStr) Sound (start sessionDir) es ↔
      Run (step intOfStr) Keeps (start sessionDir) es u :=
  throughout_iff (fun _ _ _ _ h harmed _ _ => And.left (armed_sound_step h harmed))
    (fun _ _ _ _ h harmed hs => And.right (armed_sound_step h harmed) hs) h
    (armed_start sessionDir) (sound_start sessionDir)

/-- A plan mode that the user leaves in a running turn. -/
def leftInTurn : List Event := [.toggleOn,.prompt,.remind,.toggleOff true,.turnDone,.remindExit]

theorem sound_throughout_leftInTurn :
    Throughout (step fun _ => none) Sound (start []) leftInTurn ↔
      Run (step fun _ => none) Keeps (start []) leftInTurn
        (last (step fun _ => none) (start []) leftInTurn) :=
  sound_throughout_iff [] (run_last rfl)

/-- The user switches plan mode off, on and off again between two turns. -/
def toggles : List Event := [.enterTool,.toggleOff false,.toggleOn,.toggleOff false]

theorem toggles_lose_reminder : ¬ Throughout (step fun _ => none) Sound (start []) toggles := by
  intro h
  have hsound := h toggles _ (List.prefix_refl _) (run_last rfl)
  exact Bool.false_ne_true (hsound.exit_pending rfl rfl)

end MinimaxCode.PlanMode
