import Mathlib.Data.List.Basic

/-!
# Bounded queues of an event loop

The queue of `asyncio` as steps between which other tasks run. A `put` on a full queue and a
`get` on an empty one park their task; each value that arrives wakes the getter parked first,
each that leaves the putter parked first. A task that was woken tests the queue again when it
runs, and parks anew at the end when another task was faster.
-/

namespace MinimaxCode.AsyncQueue

/-- The values, and the tasks that are parked or woken, which for `put` hold their values. A
capacity of zero is no bound. -/
structure Queue (T : Type*) where
  buffer : List T
  capacity : ℕ
  getters : List ℕ
  wokenGets : List ℕ
  putters : List (ℕ × T)
  wokenPuts : List (ℕ × T)

namespace Queue

variable {T : Type*}

def empty (capacity : ℕ) : Queue T := ⟨[],capacity,[],[],[],[]⟩

def full (q : Queue T) : Bool := decide (0 < q.capacity ∧ q.capacity ≤ q.buffer.length)

def wakeGetter (q : Queue T) : Queue T :=
  { q with getters := q.getters.tail, wokenGets := q.wokenGets++q.getters.take 1 }

def wakePutter (q : Queue T) : Queue T :=
  { q with putters := q.putters.tail, wokenPuts := q.wokenPuts++q.putters.take 1 }

/-- `put_nowait`, and `none` where it raises `QueueFull`. -/
def putNowait (q : Queue T) (value : T) : Option (Queue T) :=
  if q.full then none else some (wakeGetter { q with buffer := q.buffer++[value] })

/-- `get_nowait`, and `none` where it raises `QueueEmpty`. -/
def getNowait (q : Queue T) : Option (T × Queue T) :=
  match q.buffer with
  | [] => none
  | value::rest => some (value,wakePutter { q with buffer := rest })

/-- A task at the head of the loop of `put`: it parks, or puts its value. -/
def put (q : Queue T) (task : ℕ) (value : T) : Queue T :=
  (q.putNowait value).getD { q with putters := q.putters++[(task,value)] }

/-- A task at the head of the loop of `get`: it parks, or takes a value. -/
def get (q : Queue T) (task : ℕ) : Option T × Queue T :=
  match q.getNowait with
  | none => (none,{ q with getters := q.getters++[task] })
  | some (value,q) => (some value,q)

/-- A task that waits in `get` is cancelled: one that was woken passes its turn on. -/
def cancelGet (q : Queue T) (task : ℕ) : Queue T :=
  if task ∈ q.wokenGets then
    let q := { q with wokenGets := q.wokenGets.erase task }
    if q.buffer.isEmpty then q else q.wakeGetter
  else { q with getters := q.getters.erase task }

/-- A task that waits in `put` is cancelled: one that was woken passes its turn on. -/
def cancelPut (q : Queue T) (task : ℕ) : Queue T :=
  if q.wokenPuts.any (·.1 == task) then
    let q := { q with wokenPuts := q.wokenPuts.eraseP (·.1 == task) }
    if q.full then q else q.wakePutter
  else { q with putters := q.putters.eraseP (·.1 == task) }

section Spec

variable {q r : Queue T} {value : T} {task : ℕ}

/-- A value arrives. -/
structure Arrives (q r : Queue T) (value : T) : Prop where
  room : q.full = false
  buffer : r.buffer = q.buffer++[value]
  capacity : r.capacity = q.capacity
  getters : r.getters = q.getters.tail
  wokenGets : r.wokenGets = q.wokenGets++q.getters.take 1
  putters : r.putters = q.putters
  wokenPuts : r.wokenPuts = q.wokenPuts

/-- A value leaves. -/
structure Leaves (q r : Queue T) (value : T) : Prop where
  buffer : q.buffer = value::r.buffer
  capacity : r.capacity = q.capacity
  getters : r.getters = q.getters
  wokenGets : r.wokenGets = q.wokenGets
  putters : r.putters = q.putters.tail
  wokenPuts : r.wokenPuts = q.wokenPuts++q.putters.take 1

theorem putNowait_spec (h : q.putNowait value = some r) : Arrives q r value := by
  rw [putNowait] at h
  split at h
  · cases h
  case isFalse hroom =>
    cases h
    exact ⟨Bool.eq_false_iff.mpr hroom,rfl,rfl,rfl,rfl,rfl,rfl⟩

theorem putNowait_none : q.putNowait value = none ↔ q.full = true := by
  rw [putNowait]
  split <;> simp_all

theorem getNowait_spec (h : q.getNowait = some (value,r)) : Leaves q r value := by
  rw [getNowait] at h
  split at h
  · cases h
  case h_2 v rest heq =>
    cases h
    exact ⟨heq,rfl,rfl,rfl,rfl,rfl⟩

theorem getNowait_none : q.getNowait = none ↔ q.buffer = [] := by
  rw [getNowait]
  split <;> simp_all

theorem put_cases (q : Queue T) (task : ℕ) (value : T) : Arrives q (q.put task value) value ∨
    q.full = true ∧ q.put task value = { q with putters := q.putters++[(task,value)] } := by
  rw [put]
  cases h : q.putNowait value with
  | none => exact Or.inr ⟨putNowait_none.mp h,rfl⟩
  | some r => exact Or.inl (putNowait_spec h)

theorem get_cases (q : Queue T) (task : ℕ) :
    (∃ value, (q.get task).1 = some value ∧ Leaves q (q.get task).2 value) ∨
      q.buffer = [] ∧ q.get task = (none,{ q with getters := q.getters++[task] }) := by
  rw [get]
  cases h : q.getNowait with
  | none => exact Or.inr ⟨getNowait_none.mp h,rfl⟩
  | some r => exact Or.inl ⟨r.1,rfl,getNowait_spec h⟩

@[simp] theorem cancelGet_buffer (q : Queue T) (task : ℕ) : (q.cancelGet task).buffer = q.buffer := by
  rw [cancelGet]
  split
  · dsimp only
    split <;> rfl
  · rfl

@[simp] theorem cancelPut_buffer (q : Queue T) (task : ℕ) : (q.cancelPut task).buffer = q.buffer := by
  rw [cancelPut]
  split
  · dsimp only
    split <;> rfl
  · rfl

/-- A buffer within the capacity of its queue. -/
def Bounded (q : Queue T) : Prop := 0 < q.capacity → q.buffer.length ≤ q.capacity

theorem Arrives.bounded (h : Arrives q r value) : Bounded r := by
  have hroom := h.room
  rw [full,decide_eq_false_iff_not] at hroom
  intro hcapacity
  rw [h.capacity] at hcapacity ⊢
  rw [h.buffer,List.length_append,List.length_singleton]
  omega

theorem Leaves.bounded (h : Leaves q r value) (hq : Bounded q) : Bounded r := by
  intro hcapacity
  rw [h.capacity] at hcapacity ⊢
  have hlength := hq hcapacity
  rw [h.buffer,List.length_cons] at hlength
  omega

theorem bounded_put (h : Bounded q) : Bounded (q.put task value) := by
  obtain harrives | ⟨_,hparked⟩ := q.put_cases task value
  · exact harrives.bounded
  · rw [hparked]
    exact h

theorem bounded_get (h : Bounded q) : Bounded (q.get task).2 := by
  obtain ⟨value,_,hleaves⟩ | ⟨_,hparked⟩ := q.get_cases task
  · exact hleaves.bounded h
  · rw [hparked]
    exact h

@[simp] theorem cancelGet_capacity (q : Queue T) (task : ℕ) :
    (q.cancelGet task).capacity = q.capacity := by
  rw [cancelGet]
  split
  · dsimp only
    split <;> rfl
  · rfl

@[simp] theorem cancelPut_capacity (q : Queue T) (task : ℕ) :
    (q.cancelPut task).capacity = q.capacity := by
  rw [cancelPut]
  split
  · dsimp only
    split <;> rfl
  · rfl

end Spec

end Queue

end MinimaxCode.AsyncQueue
