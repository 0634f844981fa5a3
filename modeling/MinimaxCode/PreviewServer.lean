import MinimaxCode.PyText
import MinimaxCode.Runs

/-!
# Switching the root of the preview

The preview has a watcher task and a fan-out task. `stop` cancels both, waits for them and
then forgets them; `set_root` reads whether the watcher runs, stops, changes the root and
starts again. What begins while another call waits sees half of this, so the tasks and the
root are right as long as calls do not overlap, but for stops with stops, and the watcher
does not end of itself.
-/

namespace MinimaxCode.PreviewServer

open PyText Runs

/-- What a task does: watch a root, or hand on events. -/
inductive Kind
  | watcher (root : PyStr)
  | fanout
  deriving DecidableEq

/-- A task that was cancelled goes on until it ends. -/
inductive Status
  | running
  | cancelling
  | returned
  | cancelled
  | failed
  deriving DecidableEq

def Status.done : Status → Bool
  | .running => false
  | .cancelling => false
  | _ => true

structure Task where
  kind : Kind
  status : Status
  deriving DecidableEq

/-- A call that is suspended in `stop`: the tasks it has yet to wait for, and for a switch the
new root and whether the watcher was running. -/
structure Call where
  awaited : List ℕ
  switch : Option (PyStr × Bool)
  deriving DecidableEq

structure Event where
  kind : PyStr
  path : PyStr

/-- `PreviewState` with all tasks that were made, by their numbers, and the suspended calls. -/
structure State where
  workspace : PyStr
  watcherTask : Option ℕ
  fanoutTask : Option ℕ
  tasks : List Task
  calls : List Call
  eventQueue : List Event
  subscribers : List (ℕ × List Event)
  subscribed : ℕ

def initial (workspace : PyStr) : State := ⟨workspace,none,none,[],[],[],[],0⟩

/-- A task that was made and is not done. -/
def alive (s : State) (id : ℕ) : Bool := ((s.tasks[id]?).map fun t => !t.status.done).getD false

/-- `_watcher_task is not None and not _watcher_task.done()`. -/
def watcherLive (s : State) : Bool := (s.watcherTask.map (alive s)).getD false

def fanoutLive (s : State) : Bool := (s.fanoutTask.map (alive s)).getD false

def startWatcher (s : State) : State :=
  if watcherLive s then s
  else { s with
    tasks := s.tasks++[⟨.watcher s.workspace,.running⟩,⟨.fanout,.running⟩]
    watcherTask := some s.tasks.length
    fanoutTask := some (s.tasks.length+1) }

/-- The tasks that `stop` cancels and waits for. -/
def stopTasks (s : State) : List ℕ := s.watcherTask.toList++s.fanoutTask.toList

def Task.cancel (t : Task) : Task := if t.status = .running then { t with status := .cancelling } else t

def cancelAll (s : State) : State :=
  { s with tasks := s.tasks.mapIdx fun id t => if id ∈ stopTasks s then t.cancel else t }

inductive Waited
  | suspended (awaited : List ℕ)
  | raised
  | finished

/-- `await task` for each task in turn: one that is done does not suspend, one that was cancelled
is passed over, and one that failed raises. -/
def awaitAll (s : State) : List ℕ → Waited
  | [] => .finished
  | id::ids =>
    match s.tasks[id]? with
    | none => awaitAll s ids
    | some t =>
      if t.status = .failed then .raised
      else if t.status.done then awaitAll s ids
      else .suspended (id::ids)

/-- What `set_root` does when `stop` has returned. -/
def switchRoot (s : State) (root : PyStr) (wasRunning : Bool) : State :=
  let s := { s with workspace := root, eventQueue := [] }
  if wasRunning then startWatcher s else s

theorem switchRoot_false (s : State) (root : PyStr) :
    switchRoot s root false = { s with workspace := root, eventQueue := [] } := rfl

theorem switchRoot_true (s : State) (root : PyStr) :
    switchRoot s root true = startWatcher { s with workspace := root, eventQueue := [] } := rfl

/-- A call goes on from where it waits. -/
def proceed (s : State) (call : Call) : State :=
  match awaitAll s call.awaited with
  | .suspended awaited => { s with calls := s.calls++[⟨awaited,call.switch⟩] }
  | .raised => s
  | .finished =>
    let s := { s with watcherTask := none, fanoutTask := none }
    match call.switch with
    | none => s
    | some (root,wasRunning) => switchRoot s root wasRunning

def stop (s : State) : State := proceed (cancelAll s) ⟨stopTasks s,none⟩

/-- `set_root` with a resolved root. -/
def setRoot (s : State) (root : PyStr) : State :=
  if root = s.workspace then s
  else proceed (cancelAll s) ⟨stopTasks s,some (root,watcherLive s)⟩

/-- A task ends: a fan-out only when it was cancelled, and without an error. -/
def endTask (s : State) (id : ℕ) (status : Status) : Option State :=
  match s.tasks[id]? with
  | none => none
  | some t =>
    if t.status.done ∨ status.done = false ∨ (status = .cancelled ∧ t.status ≠ .cancelling) ∨
        (t.kind = .fanout ∧ (status = .failed ∨ t.status ≠ .cancelling)) then none
    else some { s with tasks := s.tasks.set id { t with status := status } }

/-- The watcher puts an event into the main queue, which drops it when it is full. -/
def putEvent (s : State) (event : Event) : State :=
  if s.eventQueue.length < 256 then { s with eventQueue := s.eventQueue++[event] } else s

theorem putEvent_eq (s : State) (event : Event) :
    putEvent s event = { s with eventQueue := (putEvent s event).eventQueue } := by
  rw [putEvent]
  split <;> rfl

/-- A round of `_fanout`: subscribers whose queues are full are removed. -/
def fanOut (s : State) : Option State :=
  match s.eventQueue with
  | [] => none
  | event::queue => some { s with
      eventQueue := queue
      subscribers := (s.subscribers.filter fun q => q.2.length < 64).map fun q => (q.1,q.2++[event]) }

inductive Action
  | startWatcher
  | stop
  | setRoot (root : PyStr)
  /-- A suspended call goes on, when the task it waits for is done. -/
  | resume (index : ℕ)
  | ends (id : ℕ) (status : Status)
  | change (id : ℕ) (event : Event)
  | fanOut (id : ℕ)
  | subscribe
  | unsubscribe (id : ℕ)
  /-- A subscriber takes an event from its queue. -/
  | read (id : ℕ)

def running (s : State) (id : ℕ) : Bool := ((s.tasks[id]?).map (·.status == .running)).getD false

def stepState (s : State) : Action → Option State
  | .startWatcher => some (startWatcher s)
  | .stop => some (stop s)
  | .setRoot root => some (setRoot s root)
  | .resume index =>
    (s.calls[index]?).bind fun call =>
      match call.awaited with
      | [] => none
      | id::_ =>
        if alive s id then none
        else some (proceed { s with calls := s.calls.eraseIdx index } call)
  | .ends id status => endTask s id status
  | .change id event => if alive s id then some (putEvent s event) else none
  | .fanOut id => if running s id then fanOut s else none
  | .subscribe => some { s with
      subscribers := s.subscribers++[(s.subscribed,[])], subscribed := s.subscribed+1 }
  | .unsubscribe id => some { s with subscribers := s.subscribers.filter fun q => q.1 ≠ id }
  | .read id => some { s with subscribers := s.subscribers.map fun q => if q.1 = id then (id,q.2.tail) else q }

/-- The state with what its rule speaks about: the root of the switch that began last, and
whether a watcher was running before a switch and since then neither `stop` was called nor
the watcher ended outside of a switch. -/
structure World where
  preview : State
  lastRoot : PyStr
  expected : Bool

def switching (s : State) : Bool := s.calls.any (·.switch.isSome)

def step (w : World) (a : Action) : Option World :=
  (stepState w.preview a).map fun s =>
    match a with
    | .stop => ⟨s,w.lastRoot,false⟩
    | .setRoot root => ⟨s,root,w.expected || watcherLive w.preview⟩
    | .ends id _ => ⟨s,w.lastRoot,w.expected &&
        (switching w.preview || decide (w.preview.watcherTask ≠ some id))⟩
    | _ => ⟨s,w.lastRoot,w.expected⟩

def start (workspace : PyStr) : World := ⟨initial workspace,workspace,false⟩

/-- What holds when no call is in progress: the tasks that are not done are the ones the state
refers to, the watcher watches the root, the root is that of the last switch, and a watcher
runs that should. -/
structure Consistent (w : World) : Prop where
  watcher : ∀ id t root, w.preview.tasks[id]? = some t → t.kind = .watcher root → t.status.done = false →
    w.preview.watcherTask = some id ∧ root = w.preview.workspace
  fanout : ∀ id t, w.preview.tasks[id]? = some t → t.kind = .fanout → t.status.done = false →
    w.preview.fanoutTask = some id
  root : w.preview.workspace = w.lastRoot
  kept : w.expected = true → watcherLive w.preview = true

/-- A call begins while no other waits, but a stop may begin while stops wait and a start may
find the watcher running; a start finds no fan-out without a watcher, and a switch no watcher
that failed; and no watcher fails under a switch. -/
def Safe (w : World) : Action → Prop
  | .startWatcher => watcherLive w.preview = true ∨ w.preview.calls = [] ∧ fanoutLive w.preview = false
  | .stop => switching w.preview = false
  | .setRoot root => w.preview.calls = [] ∧ (root = w.preview.workspace ∨
      ∀ id ∈ w.preview.watcherTask, ∀ t ∈ w.preview.tasks[id]?, t.status ≠ .failed)
  | .ends _ status => status = .failed → switching w.preview = false
  | _ => True

variable {s : State} {ids : List ℕ}

theorem alive_iff {id : ℕ} :
    alive s id = true ↔ ∃ t, s.tasks[id]? = some t ∧ t.status.done = false := by
  rw [alive]
  cases s.tasks[id]? <;> simp

theorem alive_congr {t : State} (h : t.tasks = s.tasks) (id : ℕ) : alive t id = alive s id := by
  rw [alive,alive,h]

theorem watcherLive_iff :
    watcherLive s = true ↔ ∃ id, s.watcherTask = some id ∧ alive s id = true := by
  rw [watcherLive]
  cases s.watcherTask <;> simp

theorem fanoutLive_iff :
    fanoutLive s = true ↔ ∃ id, s.fanoutTask = some id ∧ alive s id = true := by
  rw [fanoutLive]
  cases s.fanoutTask <;> simp

@[simp] theorem cancel_kind (t : Task) : t.cancel.kind = t.kind := by
  rw [Task.cancel]
  split <;> rfl

@[simp] theorem cancel_done (t : Task) : t.cancel.status.done = t.status.done := by
  rw [Task.cancel]
  split
  case isTrue h => rw [h]; rfl
  case isFalse => rfl

theorem cancel_failed (t : Task) : t.cancel.status = .failed ↔ t.status = .failed := by
  rw [Task.cancel]
  split
  case isTrue h => simp [h]
  case isFalse => rfl

theorem tasks_cancelAll (s : State) (id : ℕ) : ∃ f : Task → Task,
    (cancelAll s).tasks[id]? = (s.tasks[id]?).map f ∧ ∀ t, f t = t ∨ f t = t.cancel := by
  refine ⟨fun t => if id ∈ stopTasks s then t.cancel else t,?_,fun t => ?_⟩
  · rw [cancelAll,List.getElem?_mapIdx]
  · by_cases h : id ∈ stopTasks s
    · exact Or.inr (if_pos h)
    · exact Or.inl (if_neg h)

theorem cancelAll_task {id : ℕ} {t : Task} (h : (cancelAll s).tasks[id]? = some t) :
    ∃ t', s.tasks[id]? = some t' ∧ t.kind = t'.kind ∧ t.status.done = t'.status.done ∧
      (t.status = .failed ↔ t'.status = .failed) := by
  obtain ⟨f,hf,hcases⟩ := tasks_cancelAll s id
  rw [hf,Option.map_eq_some_iff] at h
  obtain ⟨t',ht',rfl⟩ := h
  obtain heq | heq := hcases t'
  · exact ⟨t',ht',by rw [heq],by rw [heq],by rw [heq]⟩
  · exact ⟨t',ht',by rw [heq,cancel_kind],by rw [heq,cancel_done],by rw [heq,cancel_failed]⟩

theorem alive_cancelAll (s : State) (id : ℕ) : alive (cancelAll s) id = alive s id := by
  obtain ⟨f,hf,hcases⟩ := tasks_cancelAll s id
  rw [alive,alive,hf]
  cases s.tasks[id]? with
  | none => rfl
  | some t =>
    obtain heq | heq := hcases t
    · simp [heq]
    · simp [heq]

theorem awaitAll_finished (h : awaitAll s ids = .finished) :
    ∀ id ∈ ids, alive s id = false := by
  induction ids with
  | nil => simp
  | cons id ids ih =>
    rw [awaitAll] at h
    refine List.forall_mem_cons.mpr ?_
    rw [alive]
    cases htask : s.tasks[id]? with
    | none =>
      rw [htask] at h
      exact ⟨rfl,ih h⟩
    | some t =>
      rw [htask] at h
      dsimp only at h
      split at h
      · cases h
      · split at h
        case isTrue hdone => exact ⟨by simp [hdone],ih h⟩
        case isFalse => cases h

theorem awaitAll_suspended {rest : List ℕ} (h : awaitAll s ids = .suspended rest) :
    rest ⊆ ids ∧ ∀ id ∈ ids, alive s id = true → id ∈ rest := by
  induction ids with
  | nil => cases h
  | cons id ids ih =>
    rw [awaitAll] at h
    cases htask : s.tasks[id]? with
    | none =>
      rw [htask] at h
      obtain ⟨hsub,hall⟩ := ih h
      refine ⟨List.subset_cons_of_subset id hsub,List.forall_mem_cons.mpr ⟨fun hid => ?_,hall⟩⟩
      rw [alive,htask] at hid
      cases hid
    | some t =>
      rw [htask] at h
      dsimp only at h
      split at h
      · cases h
      · split at h
        case isTrue hdone =>
          obtain ⟨hsub,hall⟩ := ih h
          refine ⟨List.subset_cons_of_subset id hsub,List.forall_mem_cons.mpr ⟨fun hid => ?_,hall⟩⟩
          rw [alive,htask,Option.map_some,hdone] at hid
          cases hid
        case isFalse =>
          cases h
          exact ⟨List.Subset.refl _,fun i hi _ => hi⟩

theorem awaitAll_raised (h : awaitAll s ids = .raised) :
    ∃ id ∈ ids, ∃ t, s.tasks[id]? = some t ∧ t.status = .failed := by
  induction ids with
  | nil => cases h
  | cons id ids ih =>
    rw [awaitAll] at h
    cases htask : s.tasks[id]? with
    | none =>
      rw [htask] at h
      obtain ⟨i,hi,hfailed⟩ := ih h
      exact ⟨i,List.mem_cons_of_mem id hi,hfailed⟩
    | some t =>
      rw [htask] at h
      dsimp only at h
      split at h
      case isTrue hfailed => exact ⟨id,List.mem_cons_self,t,htask,hfailed⟩
      case isFalse =>
        split at h
        · obtain ⟨i,hi,hfailed⟩ := ih h
          exact ⟨i,List.mem_cons_of_mem id hi,hfailed⟩
        · cases h

/-- The tasks that are not done are those the state refers to and every suspended call waits
for them; a live watcher watches the root, and the fan-out has not failed. -/
structure Tidy (s : State) : Prop where
  watcher : ∀ id t root, s.tasks[id]? = some t → t.kind = .watcher root → t.status.done = false →
    s.watcherTask = some id ∧ root = s.workspace
  fanout : ∀ id t, s.tasks[id]? = some t → t.kind = .fanout → t.status.done = false →
    s.fanoutTask = some id
  reliable : ∀ id ∈ s.fanoutTask, ∀ t ∈ s.tasks[id]?, t.kind = .fanout ∧ t.status ≠ .failed
  awaited : ∀ c ∈ s.calls, ∀ id, alive s id = true → id ∈ c.awaited

section Steps

variable {s : State}

theorem Tidy.mem_stopTasks (h : Tidy s) {id : ℕ} (hid : alive s id = true) : id ∈ stopTasks s := by
  obtain ⟨t,ht,hdone⟩ := alive_iff.mp hid
  rw [stopTasks,List.mem_append,Option.mem_toList,Option.mem_toList]
  cases hkind : t.kind with
  | watcher root => exact Or.inl (h.watcher id t root ht hkind hdone).1
  | fanout => exact Or.inr (h.fanout id t ht hkind hdone)

theorem tidy_cancelAll (h : Tidy s) : Tidy (cancelAll s) where
  watcher id t root ht hkind hdone := by
    obtain ⟨t',ht',hkind',hdone',_⟩ := cancelAll_task ht
    exact h.watcher id t' root ht' (hkind' ▸ hkind) (hdone' ▸ hdone)
  fanout id t ht hkind hdone := by
    obtain ⟨t',ht',hkind',hdone',_⟩ := cancelAll_task ht
    exact h.fanout id t' ht' (hkind' ▸ hkind) (hdone' ▸ hdone)
  reliable id hid t ht := by
    obtain ⟨t',ht',hkind,_,hfailed⟩ := cancelAll_task ht
    obtain ⟨hkind',hstatus⟩ := h.reliable id hid t' ht'
    exact ⟨hkind.trans hkind',fun hfail => hstatus (hfailed.mp hfail)⟩
  awaited c hc id hid := h.awaited c hc id (by rwa [alive_cancelAll] at hid)

theorem Tidy.none_alive (h : Tidy s) (hwatcher : watcherLive s = false) (hfanout : fanoutLive s = false)
    (id : ℕ) : alive s id = false := by
  by_contra hid
  rw [Bool.not_eq_false] at hid
  have hmem := h.mem_stopTasks hid
  rw [stopTasks,List.mem_append,Option.mem_toList,Option.mem_toList] at hmem
  obtain hmem | hmem := hmem
  · rw [watcherLive_iff.mpr ⟨id,hmem,hid⟩] at hwatcher
    cases hwatcher
  · rw [fanoutLive_iff.mpr ⟨id,hmem,hid⟩] at hfanout
    cases hfanout

theorem tidy_startWatcher (hnone : ∀ id, alive s id = false) (hcalls : s.calls = []) :
    Tidy (startWatcher s) ∧ watcherLive (startWatcher s) = true := by
  have hlive : ¬ watcherLive s = true := by
    rw [watcherLive_iff]
    rintro ⟨id,_,hid⟩
    rw [hnone] at hid
    cases hid
  have htasks : ∀ id t, (s.tasks++[⟨.watcher s.workspace,.running⟩,⟨.fanout,.running⟩])[id]? = some t →
      t.status.done = false → id = s.tasks.length ∧ t = ⟨.watcher s.workspace,.running⟩ ∨
        id = s.tasks.length+1 ∧ t = ⟨.fanout,.running⟩ := by
    intro id t ht hdone
    rw [List.getElem?_append] at ht
    split at ht
    case isTrue =>
      have hid := hnone id
      rw [alive,ht,Option.map_some,hdone] at hid
      cases hid
    case isFalse hge =>
      obtain hzero | hone | hmore : id-s.tasks.length = 0 ∨ id-s.tasks.length = 1 ∨
          2 ≤ id-s.tasks.length := by omega
      · rw [hzero] at ht
        exact Or.inl ⟨by omega,(Option.some.inj ht).symm⟩
      · rw [hone] at ht
        exact Or.inr ⟨by omega,(Option.some.inj ht).symm⟩
      · rw [List.getElem?_eq_none (by simpa using hmore)] at ht
        cases ht
  rw [startWatcher,if_neg hlive]
  refine ⟨?_,watcherLive_iff.mpr ⟨_,rfl,?_⟩⟩
  · constructor
    case watcher =>
      intro id t root ht hkind hdone
      obtain ⟨rfl,rfl⟩ | ⟨rfl,rfl⟩ := htasks id t ht hdone
      · cases hkind
        exact ⟨rfl,rfl⟩
      · cases hkind
    case fanout =>
      intro id t ht hkind hdone
      obtain ⟨rfl,rfl⟩ | ⟨rfl,rfl⟩ := htasks id t ht hdone
      · cases hkind
      · rfl
    case reliable =>
      intro id hid t ht
      cases hid
      have heq : some (⟨.fanout,.running⟩ : Task) = some t := by simpa using ht
      cases heq
      exact ⟨rfl,Status.noConfusion⟩
    case awaited =>
      intro c hc
      rw [hcalls] at hc
      cases hc
  · simp [alive,Status.done]

/-- How a call goes on: it waits for a task that is not done, it raises, or it comes to its end. -/
inductive Proceeded (s t : State) (call : Call) : Prop
  | suspended {awaited : List ℕ} (hsub : awaited ⊆ call.awaited)
    (hkeep : ∀ id ∈ call.awaited, alive s id = true → id ∈ awaited)
    (ht : t = { s with calls := s.calls++[⟨awaited,call.switch⟩] })
  | raised (hfailed : ∃ id ∈ call.awaited, ∃ task, s.tasks[id]? = some task ∧ task.status = .failed)
    (ht : t = s)
  | stopped (hdone : ∀ id ∈ call.awaited, alive s id = false) (hswitch : call.switch = none)
    (ht : t = { s with watcherTask := none, fanoutTask := none })
  | switched {root : PyStr} {wasRunning : Bool} (hdone : ∀ id ∈ call.awaited, alive s id = false)
    (hswitch : call.switch = some (root,wasRunning))
    (ht : t = switchRoot { s with watcherTask := none, fanoutTask := none } root wasRunning)

theorem proceeded (s : State) (call : Call) : Proceeded s (proceed s call) call := by
  rw [proceed]
  cases hwait : awaitAll s call.awaited with
  | suspended awaited =>
    obtain ⟨hsub,hkeep⟩ := awaitAll_suspended hwait
    exact .suspended hsub hkeep rfl
  | raised => exact .raised (awaitAll_raised hwait) rfl
  | finished =>
    cases hswitch : call.switch with
    | none => exact .stopped (awaitAll_finished hwait) hswitch rfl
    | some r => exact .switched (awaitAll_finished hwait) hswitch rfl

theorem none_alive {awaited : List ℕ} (hall : ∀ id, alive s id = true → id ∈ awaited)
    (hdone : ∀ id ∈ awaited, alive s id = false) (id : ℕ) : alive s id = false := by
  by_contra hid
  rw [Bool.not_eq_false] at hid
  rw [hdone id (hall id hid)] at hid
  cases hid

@[simp] theorem startWatcher_workspace (s : State) : (startWatcher s).workspace = s.workspace := by
  rw [startWatcher]
  split <;> rfl

@[simp] theorem startWatcher_calls (s : State) : (startWatcher s).calls = s.calls := by
  rw [startWatcher]
  split <;> rfl

theorem tidy_of_none (hnone : ∀ id, alive s id = false) (hfanout : s.fanoutTask = none) : Tidy s := by
  have hlive : ∀ (id : ℕ) (t : Task), s.tasks[id]? = some t → t.status.done = false → False := by
    intro id t ht hdone
    have hid := alive_iff.mpr ⟨t,ht,hdone⟩
    rw [hnone] at hid
    cases hid
  constructor
  case watcher =>
    intro id t root ht _ hdone
    exact (hlive id t ht hdone).elim
  case fanout =>
    intro id t ht _ hdone
    exact (hlive id t ht hdone).elim
  case reliable =>
    intro id hid
    rw [hfanout] at hid
    cases hid
  case awaited =>
    intro c _ id hid
    rw [hnone] at hid
    cases hid

end Steps

/-- A suspended switch is alone, is the one that began last, remembers a watcher that should run
and waits for no task that failed. When none is suspended the root is that of the last one and
a watcher runs that should; while stops wait none should. -/
structure Inv (w : World) : Prop where
  tidy : Tidy w.preview
  switch : ∀ c ∈ w.preview.calls, ∀ root b, c.switch = some (root,b) → w.preview.calls = [c] ∧
    root = w.lastRoot ∧ (w.expected = true → b = true) ∧
    ∀ id ∈ c.awaited, ∀ t ∈ w.preview.tasks[id]?, t.status ≠ .failed
  settled : switching w.preview = false → w.preview.workspace = w.lastRoot ∧
    (w.expected = true → watcherLive w.preview = true)
  stopping : switching w.preview = false → w.preview.calls ≠ [] → w.expected = false

theorem switching_eq_false : switching s = false ↔ ∀ c ∈ s.calls, c.switch = none := by
  rw [switching,List.any_eq_false]
  exact forall₂_congr fun c _ => by cases c.switch <;> simp

section Runs

variable {s : State} {call : Call} {lastRoot : PyStr} {expected : Bool} {w : World}

theorem Inv.consistent (h : Inv w) (hidle : w.preview.calls = []) : Consistent w := by
  have hsettled := h.settled (switching_eq_false.mpr (by simp [hidle]))
  exact ⟨h.tidy.watcher,h.tidy.fanout,hsettled.1,hsettled.2⟩

theorem inv_proceed_stop (h : Tidy s) (hall : ∀ id, alive s id = true → id ∈ call.awaited)
    (hswitch : call.switch = none) (hcalls : switching s = false) (hroot : s.workspace = lastRoot) :
    Inv ⟨proceed s call,lastRoot,false⟩ := by
  have hstops := switching_eq_false.mp hcalls
  have hnever : ∀ {t : State}, (∀ c ∈ t.calls, c.switch = none) → ∀ c ∈ t.calls, ∀ (root : PyStr) (b : Bool),
      c.switch = some (root,b) → t.calls = [c] ∧ root = lastRoot ∧ (false = true → b = true) ∧
        ∀ id ∈ c.awaited, ∀ u ∈ t.tasks[id]?, u.status ≠ .failed := by
    intro t hall c hc root b heq
    rw [hall c hc] at heq
    cases heq
  cases proceeded s call with
  | @suspended awaited hsub hkeep ht =>
    have hstops' : ∀ c ∈ s.calls++[⟨awaited,call.switch⟩], c.switch = none := by
      intro c hc
      obtain hc | hc := List.mem_append.mp hc
      · exact hstops c hc
      · obtain rfl := List.mem_singleton.mp hc
        exact hswitch
    rw [ht]
    refine ⟨⟨h.watcher,h.fanout,h.reliable,?_⟩,hnever hstops',fun _ => ⟨hroot,?_⟩,fun _ _ => rfl⟩
    · intro c hc id hid
      obtain hc | hc := List.mem_append.mp hc
      · exact h.awaited c hc id hid
      · obtain rfl := List.mem_singleton.mp hc
        exact hkeep id (hall id hid) hid
    · exact fun hfalse => absurd hfalse Bool.false_ne_true
  | raised _ ht =>
    rw [ht]
    exact ⟨h,hnever hstops,fun _ => ⟨hroot,fun hfalse => absurd hfalse Bool.false_ne_true⟩,fun _ _ => rfl⟩
  | stopped hdone _ ht =>
    have hnone : ∀ id, alive s id = false := none_alive hall hdone
    rw [ht]
    exact ⟨tidy_of_none hnone rfl,hnever hstops,
      fun _ => ⟨hroot,fun hfalse => absurd hfalse Bool.false_ne_true⟩,fun _ _ => rfl⟩
  | switched _ hsome _ =>
    rw [hswitch] at hsome
    cases hsome

theorem inv_proceed_switch {b : Bool} (h : Tidy s) (hall : ∀ id, alive s id = true → id ∈ call.awaited)
    (hswitch : call.switch = some (lastRoot,b)) (hcalls : s.calls = []) (hb : expected = true → b = true)
    (hfailed : ∀ id ∈ call.awaited, ∀ t ∈ s.tasks[id]?, t.status ≠ .failed) :
    Inv ⟨proceed s call,lastRoot,expected⟩ := by
  cases proceeded s call with
  | @suspended awaited hsub hkeep ht =>
    have hone : s.calls++[⟨awaited,call.switch⟩] = [⟨awaited,call.switch⟩] := by
      rw [hcalls,List.nil_append]
    have hactive : ¬ switching { s with calls := s.calls++[⟨awaited,call.switch⟩] } = false := by
      rw [switching_eq_false,hone]
      intro hnone
      have hswitch' := hnone _ List.mem_cons_self
      rw [hswitch] at hswitch'
      cases hswitch'
    rw [ht]
    refine ⟨⟨h.watcher,h.fanout,h.reliable,?_⟩,?_,fun hnone => absurd hnone hactive,
      fun hnone => absurd hnone hactive⟩
    · intro c hc id hid
      obtain rfl := List.mem_singleton.mp (hone ▸ hc)
      exact hkeep id (hall id hid) hid
    · intro c hc root b' heq
      obtain rfl := List.mem_singleton.mp (hone ▸ hc)
      obtain ⟨rfl,rfl⟩ := Prod.mk.inj (Option.some.inj (hswitch.symm.trans heq))
      exact ⟨hone,rfl,hb,fun id hid => hfailed id (hsub hid)⟩
  | raised hraised _ =>
    obtain ⟨id,hid,t,ht,hstatus⟩ := hraised
    exact absurd hstatus (hfailed id hid t ht)
  | stopped _ hnone _ =>
    rw [hswitch] at hnone
    cases hnone
  | switched hdone hsome ht =>
    obtain ⟨rfl,rfl⟩ := Prod.mk.inj (Option.some.inj (hswitch.symm.trans hsome))
    have hnone : ∀ id, alive s id = false := none_alive hall hdone
    have hcalls' : ∀ t : State, t.calls = s.calls → ∀ c ∈ t.calls, ∀ (root : PyStr) (b' : Bool),
        c.switch = some (root,b') → t.calls = [c] ∧ root = lastRoot ∧ (expected = true → b' = true) ∧
          ∀ id ∈ c.awaited, ∀ u ∈ t.tasks[id]?, u.status ≠ .failed := by
      intro t heq c hc
      rw [heq,hcalls] at hc
      cases hc
    rw [ht]
    cases b with
    | false =>
      rw [switchRoot_false]
      refine ⟨tidy_of_none hnone rfl,hcalls' _ rfl,fun _ => ⟨rfl,fun hexpected => ?_⟩,
        fun _ hcalls'' => absurd hcalls hcalls''⟩
      exact absurd (hb hexpected) Bool.false_ne_true
    | true =>
      rw [switchRoot_true]
      obtain ⟨htidy,hlive⟩ := @tidy_startWatcher
        { s with watcherTask := none, fanoutTask := none, workspace := lastRoot, eventQueue := [] } hnone hcalls
      refine ⟨htidy,hcalls' _ (startWatcher_calls _),fun _ => ⟨startWatcher_workspace _,fun _ => hlive⟩,
        fun _ hcalls'' => absurd ?_ hcalls''⟩
      exact (startWatcher_calls _).trans hcalls

theorem Inv.frame {t : State} (h : Inv ⟨s,lastRoot,expected⟩) (htasks : t.tasks = s.tasks)
    (hcalls : t.calls = s.calls) (hwatcher : t.watcherTask = s.watcherTask)
    (hfanout : t.fanoutTask = s.fanoutTask) (hroot : t.workspace = s.workspace) :
    Inv ⟨t,lastRoot,expected⟩ := by
  have hswitching : switching t = switching s := by rw [switching,switching,hcalls]
  have hlive : watcherLive t = watcherLive s := by
    rw [watcherLive,watcherLive,hwatcher]
    exact congrArg (fun f => (s.watcherTask.map f).getD false) (funext (alive_congr htasks))
  obtain ⟨⟨hw,hf,hr,ha⟩,hswitch,hsettled,hstopping⟩ := h
  constructor
  case tidy =>
    constructor
    · exact fun id u root => htasks ▸ hwatcher ▸ hroot ▸ hw id u root
    · exact fun id u => htasks ▸ hfanout ▸ hf id u
    · exact fun id hid => htasks ▸ hr id (hfanout ▸ hid)
    · exact fun c hc id hid => ha c (hcalls ▸ hc) id (alive_congr htasks id ▸ hid)
  case switch => exact fun c hc => htasks ▸ hcalls ▸ hswitch c (hcalls ▸ hc)
  case settled =>
    intro hnone
    obtain ⟨hlast,hkept⟩ := hsettled (hswitching ▸ hnone)
    exact ⟨hroot.trans hlast,fun hexpected => hlive.trans (hkept hexpected)⟩
  case stopping => exact fun hnone hne => hstopping (hswitching ▸ hnone) (hcalls ▸ hne)

theorem endTask_spec {t : State} {id : ℕ} {status : Status} (h : endTask s id status = some t) :
    ∃ task, s.tasks[id]? = some task ∧ task.status.done = false ∧ status.done = true ∧
      (task.kind = .fanout → status ≠ .failed) ∧
      t = { s with tasks := s.tasks.set id { task with status := status } } := by
  rw [endTask] at h
  cases htask : s.tasks[id]? with
  | none =>
    rw [htask] at h
    cases h
  | some task =>
    rw [htask] at h
    dsimp only at h
    split at h
    · cases h
    case isFalse hok =>
      push Not at hok
      obtain ⟨hdone,hstatus,_,hkind⟩ := hok
      cases h
      exact ⟨task,rfl,Bool.not_eq_true _ ▸ hdone,Bool.not_eq_false _ ▸ hstatus,
        fun hfanout => (hkind hfanout).1,rfl⟩

theorem inv_ends {t : State} {id : ℕ} {status : Status} (h : Inv w)
    (hsafe : status = .failed → switching w.preview = false) (hend : endTask w.preview id status = some t) :
    Inv ⟨t,w.lastRoot,w.expected && (switching w.preview || decide (w.preview.watcherTask ≠ some id))⟩ := by
  obtain ⟨task,htask,hdone,hstatus,hkind,rfl⟩ := endTask_spec hend
  have hget : ∀ i (u : Task), (w.preview.tasks.set id { task with status := status })[i]? = some u →
      (i ≠ id ∧ w.preview.tasks[i]? = some u) ∨ (i = id ∧ u = { task with status := status }) := by
    intro i u hu
    rw [List.getElem?_set] at hu
    split at hu
    case isTrue heq =>
      split at hu
      · exact Or.inr ⟨heq.symm,(Option.some.inj hu).symm⟩
      · cases hu
    case isFalse hne => exact Or.inl ⟨Ne.symm hne,hu⟩
  have hother : ∀ i, i ≠ id → alive { w.preview with tasks := w.preview.tasks.set id { task with status := status } } i =
      alive w.preview i := by
    intro i hne
    rw [alive,alive,List.getElem?_set_ne (Ne.symm hne)]
  have halive : ∀ i, alive { w.preview with tasks := w.preview.tasks.set id { task with status := status } } i = true →
      alive w.preview i = true := by
    intro i hi
    obtain ⟨u,hu,hlive⟩ := alive_iff.mp hi
    obtain ⟨_,hold⟩ | ⟨_,rfl⟩ := hget i u hu
    · exact alive_iff.mpr ⟨u,hold,hlive⟩
    · rw [hstatus] at hlive
      cases hlive
  have hexpected : (w.expected && (switching w.preview || decide (w.preview.watcherTask ≠ some id))) = true →
      w.expected = true := fun htrue => (Bool.and_eq_true _ _ ▸ htrue).1
  constructor
  case tidy =>
    constructor
    case watcher =>
      intro i u root hu hkindu hlive
      obtain ⟨_,hold⟩ | ⟨_,rfl⟩ := hget i u hu
      · exact h.tidy.watcher i u root hold hkindu hlive
      · rw [hstatus] at hlive
        cases hlive
    case fanout =>
      intro i u hu hkindu hlive
      obtain ⟨_,hold⟩ | ⟨_,rfl⟩ := hget i u hu
      · exact h.tidy.fanout i u hold hkindu hlive
      · rw [hstatus] at hlive
        cases hlive
    case reliable =>
      intro i hi u hu
      obtain ⟨_,hold⟩ | ⟨rfl,rfl⟩ := hget i u hu
      · exact h.tidy.reliable i hi u hold
      · have hfanout := (h.tidy.reliable i hi task htask).1
        exact ⟨hfanout,hkind hfanout⟩
    case awaited => exact fun c hc i hi => h.tidy.awaited c hc i (halive i hi)
  case switch =>
    intro c hc root b heq
    obtain ⟨hone,hroot,hb,hfailed⟩ := h.switch c hc root b heq
    refine ⟨hone,hroot,fun htrue => hb (hexpected htrue),fun i hi u hu => ?_⟩
    obtain ⟨_,hold⟩ | ⟨_,rfl⟩ := hget i u hu
    · exact hfailed i hi u hold
    · intro hfail
      have hnone := switching_eq_false.mp (hsafe hfail) c hc
      rw [heq] at hnone
      cases hnone
  case settled =>
    intro hnone
    obtain ⟨hroot,hkept⟩ := h.settled hnone
    refine ⟨hroot,fun htrue => ?_⟩
    obtain ⟨i,hi,hlive⟩ := watcherLive_iff.mp (hkept (hexpected htrue))
    have hne : i ≠ id := by
      rintro rfl
      rw [switching] at hnone
      simp [switching,hi,hnone] at htrue
    exact watcherLive_iff.mpr ⟨i,hi,(hother i hne).trans hlive⟩
  case stopping =>
    intro hnone hne
    dsimp only
    rw [h.stopping hnone hne,Bool.false_and]

theorem inv_startWatcher (h : Inv w) (hsafe : Safe w .startWatcher) :
    Inv ⟨startWatcher w.preview,w.lastRoot,w.expected⟩ := by
  by_cases hlive : watcherLive w.preview = true
  · rw [startWatcher,if_pos hlive]
    exact h
  · obtain ⟨hcalls,hfanout⟩ := hsafe.resolve_left hlive
    have hnone := h.tidy.none_alive (Bool.eq_false_iff.mpr hlive) hfanout
    obtain ⟨htidy,hstarted⟩ := tidy_startWatcher hnone hcalls
    obtain ⟨hroot,-⟩ := h.settled (switching_eq_false.mpr (by simp [hcalls]))
    have hcalls' := (startWatcher_calls w.preview).trans hcalls
    constructor
    case tidy => exact htidy
    case switch =>
      intro c hc
      rw [hcalls'] at hc
      cases hc
    case settled => exact fun _ => ⟨(startWatcher_workspace _).trans hroot,fun _ => hstarted⟩
    case stopping => exact fun _ hne => absurd hcalls' hne

theorem inv_setRoot {root : PyStr} (h : Inv w) (hsafe : Safe w (.setRoot root)) :
    Inv ⟨setRoot w.preview root,root,w.expected || watcherLive w.preview⟩ := by
  obtain ⟨hcalls,hfailed⟩ := hsafe
  obtain ⟨-,hkept⟩ := h.settled (switching_eq_false.mpr (by simp [hcalls]))
  have hlive : (w.expected || watcherLive w.preview) = true → watcherLive w.preview = true := by
    intro htrue
    obtain hexpected | hlive := (Bool.or_eq_true _ _).mp htrue
    · exact hkept hexpected
    · exact hlive
  rw [setRoot]
  split
  case isTrue hsame =>
    constructor
    case tidy => exact h.tidy
    case switch =>
      intro c hc
      rw [hcalls] at hc
      cases hc
    case settled => exact fun _ => ⟨hsame.symm,hlive⟩
    case stopping => exact fun _ hne => absurd hcalls hne
  case isFalse hother =>
    refine inv_proceed_switch (tidy_cancelAll h.tidy)
      (fun id hid => h.tidy.mem_stopTasks (by rwa [alive_cancelAll] at hid)) rfl hcalls hlive ?_
    intro id hid t ht
    obtain ⟨t',ht',_,_,hstatus⟩ := cancelAll_task ht
    rw [stopTasks,List.mem_append,Option.mem_toList,Option.mem_toList] at hid
    intro hfail
    obtain hid | hid := hid
    · exact hfailed.resolve_left hother id hid t' ht' (hstatus.mp hfail)
    · exact (h.tidy.reliable id hid t' ht').2 (hstatus.mp hfail)

theorem inv_resume {index : ℕ} {call : Call} (h : Inv w)
    (hcall : w.preview.calls[index]? = some call) :
    Inv ⟨proceed { w.preview with calls := w.preview.calls.eraseIdx index } call,w.lastRoot,w.expected⟩ := by
  have hmem := List.mem_of_getElem? hcall
  have hsub : ∀ c ∈ w.preview.calls.eraseIdx index, c ∈ w.preview.calls :=
    fun c hc => List.mem_of_mem_eraseIdx hc
  have htidy : Tidy { w.preview with calls := w.preview.calls.eraseIdx index } :=
    ⟨h.tidy.watcher,h.tidy.fanout,h.tidy.reliable,fun c hc => h.tidy.awaited c (hsub c hc)⟩
  cases hswitch : call.switch with
  | none =>
    -- a suspended switch would be alone
    have hnone : switching w.preview = false := by
      refine switching_eq_false.mpr fun c hc => ?_
      by_contra hsome
      obtain ⟨r,hr⟩ := Option.ne_none_iff_exists'.mp hsome
      rw [(h.switch c hc r.1 r.2 hr).1] at hmem
      obtain rfl := List.mem_singleton.mp hmem
      exact hsome hswitch
    have hnever := h.stopping hnone (List.ne_nil_of_mem hmem)
    rw [hnever]
    exact inv_proceed_stop htidy (h.tidy.awaited call hmem) hswitch
      (switching_eq_false.mpr fun c hc => switching_eq_false.mp hnone c (hsub c hc)) (h.settled hnone).1
  | some r =>
    obtain ⟨hone,hroot,hb,hfailed⟩ := h.switch call hmem r.1 r.2 hswitch
    have hcalls : w.preview.calls.eraseIdx index = [] := by
      rw [hone] at hcall ⊢
      cases index with
      | zero => rfl
      | succ index => cases hcall
    refine inv_proceed_switch htidy (h.tidy.awaited call hmem) ?_ hcalls hb hfailed
    rw [hswitch,← hroot]

theorem inv_step {v : World} {a : Action} (hsafe : Safe w a) (hstep : step w a = some v)
    (h : Inv w) : Inv v := by
  obtain ⟨t,ht,rfl⟩ := Option.map_eq_some_iff.mp hstep
  cases a with
  | startWatcher =>
    cases ht
    exact inv_startWatcher h hsafe
  | stop =>
    cases ht
    obtain ⟨hroot,-⟩ := h.settled hsafe
    exact inv_proceed_stop (tidy_cancelAll h.tidy)
      (fun id hid => h.tidy.mem_stopTasks (by rwa [alive_cancelAll] at hid)) rfl hsafe hroot
  | setRoot root =>
    cases ht
    exact inv_setRoot h hsafe
  | resume index =>
    obtain ⟨call,hcall,hgo⟩ := Option.bind_eq_some_iff.mp ht
    split at hgo
    · cases hgo
    · split at hgo
      · cases hgo
      · cases hgo
        exact inv_resume h hcall
  | ends id status => exact inv_ends h hsafe ht
  | change id event =>
    rw [stepState] at ht
    split at ht
    · cases ht
      rw [putEvent_eq]
      exact h.frame rfl rfl rfl rfl rfl
    · cases ht
  | fanOut id =>
    rw [stepState] at ht
    split at ht
    · rw [fanOut] at ht
      split at ht
      · cases ht
      · cases ht
        exact h.frame rfl rfl rfl rfl rfl
    · cases ht
  | subscribe =>
    cases ht
    exact h.frame rfl rfl rfl rfl rfl
  | unsubscribe id =>
    cases ht
    exact h.frame rfl rfl rfl rfl rfl
  | read id =>
    cases ht
    exact h.frame rfl rfl rfl rfl rfl

theorem inv_start (workspace : PyStr) : Inv (start workspace) := by
  refine ⟨tidy_of_none (fun _ => rfl) rfl,?_,fun _ => ⟨rfl,?_⟩,fun _ _ => rfl⟩
  · intro c hc
    cases hc
  · exact fun hfalse => absurd hfalse Bool.false_ne_true

/-- In a run in which calls do not overlap, but for stops with stops and starts that find the
watcher running, and in which the watcher does not end of itself before a start or fail before
or under a switch, the preview is consistent whenever no call is in progress. -/
theorem consistent_of_safe {workspace : PyStr} {as : List Action} {w : World}
    (h : Run step Safe (start workspace) as w) (hidle : w.preview.calls = []) : Consistent w :=
  (h.invariant (fun _ _ _ => inv_step) (inv_start workspace)).consistent hidle

end Runs

/-- A switch while the preview runs, and its end. -/
def oneSwitch : List Action :=
  [.startWatcher,.setRoot (lit "b"),.ends 0 .cancelled,.ends 1 .returned,.resume 0]

/-- A second switch begins while the first waits. -/
def twoSwitches : List Action :=
  [.startWatcher,.setRoot (lit "b"),.setRoot (lit "c"),.ends 0 .cancelled,.ends 1 .returned,.resume 0,
    .resume 0]

instance (w : World) (a : Action) : Decidable (Safe w a) := by
  cases a <;> unfold Safe <;> infer_instance

theorem consistent_oneSwitch : Consistent (last step (start (lit "a")) oneSwitch) :=
  @consistent_of_safe (lit "a") oneSwitch _
    (run_last_cons (by decide) (by decide) <| run_last_cons (by decide) (by decide) <|
      run_last_cons (by decide) (by decide) <| run_last_cons (by decide) (by decide) <|
      run_last_cons (by decide) (by decide) run_last_nil) (by decide)

/-- The second of two overlapping switches forgets the tasks of the first, which go on. -/
theorem watcher_leaks : ∃ w, Run step always (start (lit "a")) twoSwitches w ∧ w.preview.calls = [] ∧
    ¬ Consistent w := by
  refine ⟨_,run_last (by decide),by decide,fun h => ?_⟩
  have hleft : (last step (start (lit "a")) twoSwitches).preview.tasks[2]? =
      some ⟨.watcher (lit "b"),.running⟩ := by decide
  have hforgotten : (last step (start (lit "a")) twoSwitches).preview.watcherTask ≠ some 2 := by decide
  exact hforgotten (h.watcher 2 _ (lit "b") hleft rfl rfl).1

end MinimaxCode.PreviewServer
