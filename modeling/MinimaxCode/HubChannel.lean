import MinimaxCode.AsyncQueue
import MinimaxCode.Runs

/-!
# The channels of the hub

A channel is a queue with a flag that `send` and `recv` test before they wait on the queue.
Closing only sets the flag, so it wakes nobody: a `recv` that is parked stays so, and a `send`
that is parked still puts its value. All waiting ends when the channel is closed while no
`recv` waits and few enough `send` calls do.
-/

namespace MinimaxCode.HubChannel

open AsyncQueue Runs

variable {T : Type}

/-- A channel, and beside it what was accepted and received so far, and which calls of `recv`
returned `None`. -/
structure Channel (T : Type) where
  queue : Queue T
  closed : Bool
  accepted : List T
  received : List T
  ended : List ℕ

def mpscChannel (capacity : ℕ) : Channel T := ⟨.empty capacity,false,[],[],[]⟩

inductive TrySend (T : Type)
  | closed
  | full
  | sent (channel : Channel T)

def trySend (c : Channel T) (value : T) : TrySend T :=
  if c.closed then .closed
  else
    match c.queue.putNowait value with
    | none => .full
    | some queue => .sent { c with queue := queue, accepted := c.accepted++[value] }

/-- A task at the head of the loop of `put`. -/
def putAgain (c : Channel T) (task : ℕ) (value : T) : Channel T :=
  { c with
    queue := c.queue.put task value
    accepted := if c.queue.full then c.accepted else c.accepted++[value] }

/-- `_Sink.send` up to where it waits, and `none` where it raises `_MpscClosed`. -/
def send (c : Channel T) (task : ℕ) (value : T) : Option (Channel T) :=
  if c.closed then none else some (putAgain c task value)

/-- A task at the head of the loop of `get`. -/
def getAgain (c : Channel T) (task : ℕ) : Channel T :=
  { c with
    queue := (c.queue.get task).2
    received := c.received++(c.queue.get task).1.toList }

/-- `_SinkRx.recv` up to where it waits. -/
def recv (c : Channel T) (task : ℕ) : Channel T :=
  if c.closed && c.queue.buffer.isEmpty then { c with ended := c.ended++[task] } else getAgain c task

/-- `_SinkRx.try_recv`, which returns `None` of an empty buffer. -/
def tryRecv (c : Channel T) : Option T × Channel T :=
  match c.queue.getNowait with
  | none => (none,c)
  | some (value,queue) => (some value,{ c with queue := queue, received := c.received++[value] })

/-- `_Sink.close` and `_SinkRx.close_channel`. -/
def close (c : Channel T) : Channel T := { c with closed := true }

/-- The steps of the tasks. A task is named by a number that no waiting task has. -/
inductive Action (T : Type)
  | send (task : ℕ) (value : T)
  | trySend (value : T)
  | close
  | closeChannel
  | recv (task : ℕ)
  | tryRecv
  /-- A task that was woken runs. -/
  | resumeSend (task : ℕ)
  | resumeRecv (task : ℕ)
  | cancelSend (task : ℕ)
  | cancelRecv (task : ℕ)

def waiting (q : Queue T) (task : ℕ) : Bool :=
  q.getters.contains task || q.wokenGets.contains task || q.putters.any (·.1 == task) ||
    q.wokenPuts.any (·.1 == task)

def step (c : Channel T) : Action T → Option (Channel T)
  | .send task value =>
    if waiting c.queue task then none else some ((send c task value).getD c)
  | .trySend value =>
    match trySend c value with
    | .sent c => some c
    | _ => some c
  | .close => some (close c)
  | .closeChannel => some (close c)
  | .recv task => if waiting c.queue task then none else some (recv c task)
  | .tryRecv => some (tryRecv c).2
  | .resumeSend task =>
    (c.queue.wokenPuts.find? (·.1 == task)).map fun p =>
      putAgain { c with queue := { c.queue with wokenPuts := c.queue.wokenPuts.eraseP (·.1 == task) } } task p.2
  | .resumeRecv task =>
    if task ∈ c.queue.wokenGets then
      some (getAgain { c with queue := { c.queue with wokenGets := c.queue.wokenGets.erase task } } task)
    else none
  | .cancelSend task => some { c with queue := c.queue.cancelPut task }
  | .cancelRecv task => some { c with queue := c.queue.cancelGet task }

/-- What was accepted is received in this order, and nobody is left waiting in a channel that is
closed and drained. -/
structure Released (c : Channel T) : Prop where
  fifo : c.accepted = c.received++c.queue.buffer
  drained : c.closed = true → c.queue.buffer = [] → c.queue.getters = [] ∧ c.queue.putters = []

/-- No `recv` waits, and those that wait in `send` are parked behind as many values and fit with
the values into two buffers. -/
structure Settled (q : Queue T) : Prop where
  getters : q.getters = []
  wokenGets : q.wokenGets = []
  putters : q.putters.length ≤ q.buffer.length
  room : 0 < q.capacity → q.putters.length+q.wokenPuts.length+q.buffer.length ≤ 2*q.capacity

/-- A channel is closed when those that wait will all be released. -/
def Safe (c : Channel T) : Action T → Prop
  | .close => c.closed = false → Settled c.queue
  | .closeChannel => c.closed = false → Settled c.queue
  | _ => True

section Move

variable {c d : Channel T}

inductive Move (c : Channel T) (a : Action T) : Channel T → Prop
  | stay : Move c a c
  | ends (ended : List ℕ) : Move c a { c with ended := ended }
  | closes (h : Safe c a → c.closed = false → Settled c.queue) : Move c a (close c)
  /-- A value arrives in an open channel. -/
  | arrives {queue : Queue T} {value : T} (hopen : c.closed = false)
      (h : Queue.Arrives c.queue queue value) :
      Move c a { c with queue := queue, accepted := c.accepted++[value] }
  | leaves {queue : Queue T} {value : T} (h : Queue.Leaves c.queue queue value) :
      Move c a { c with queue := queue, received := c.received++[value] }
  /-- A `send` waits in an open channel, or one that was woken runs. -/
  | puts {woken : List (ℕ × T)} (task : ℕ) (value : T)
      (h : c.closed = false ∨ woken.length+1 = c.queue.wokenPuts.length) :
      Move c a (putAgain { c with queue := { c.queue with wokenPuts := woken } } task value)
  /-- A `recv` takes a value or waits where values can come, or one that was woken runs. -/
  | gets {woken : List ℕ} (task : ℕ)
      (h : c.closed = false ∨ c.queue.wokenGets ≠ [] ∨ woken = c.queue.wokenGets ∧ c.queue.buffer ≠ []) :
      Move c a (getAgain { c with queue := { c.queue with wokenGets := woken } } task)
  | cancelPut (task : ℕ) : Move c a { c with queue := c.queue.cancelPut task }
  | cancelGet (task : ℕ) : Move c a { c with queue := c.queue.cancelGet task }

theorem trySend_spec {value : T} (h : trySend c value = .sent d) : c.closed = false ∧
    ∃ queue, Queue.Arrives c.queue queue value ∧
      d = { c with queue := queue, accepted := c.accepted++[value] } := by
  rw [trySend] at h
  split at h
  · cases h
  case isFalse hopen =>
    split at h
    · cases h
    case h_2 queue heq =>
      cases h
      exact ⟨Bool.eq_false_iff.mpr hopen,queue,Queue.putNowait_spec heq,rfl⟩

theorem move_tryRecv (c : Channel T) : Move c .tryRecv (tryRecv c).2 := by
  rw [tryRecv]
  cases hget : c.queue.getNowait with
  | none => exact .stay
  | some r => exact .leaves (Queue.getNowait_spec hget)

theorem move_recv (c : Channel T) (task : ℕ) : Move c (.recv task) (recv c task) := by
  rw [recv]
  split
  · exact .ends _
  case isFalse h =>
    refine @Move.gets _ c _ c.queue.wokenGets task ?_
    cases hclosed : c.closed with
    | false => exact Or.inl rfl
    | true =>
      refine Or.inr (Or.inr ⟨rfl,fun hempty => ?_⟩)
      rw [hclosed,hempty] at h
      exact h rfl

theorem move_send (c : Channel T) (task : ℕ) (value : T) :
    Move c (.send task value) ((send c task value).getD c) := by
  rw [send]
  cases hclosed : c.closed with
  | true => exact .stay
  | false => exact @Move.puts _ c _ c.queue.wokenPuts task value (Or.inl hclosed)

theorem step_move {a : Action T} (hstep : step c a = some d) : Move c a d := by
  cases a with
  | send task value =>
    rw [step] at hstep
    split at hstep
    · cases hstep
    · cases hstep
      exact move_send c task value
  | trySend value =>
    rw [step] at hstep
    split at hstep
    case h_1 e hsent =>
      cases hstep
      obtain ⟨hopen,queue,harrives,rfl⟩ := trySend_spec hsent
      exact .arrives hopen harrives
    case h_2 =>
      cases hstep
      exact .stay
  | close =>
    cases hstep
    exact .closes id
  | closeChannel =>
    cases hstep
    exact .closes id
  | recv task =>
    rw [step] at hstep
    split at hstep
    · cases hstep
    · cases hstep
      exact move_recv c task
  | tryRecv =>
    cases hstep
    exact move_tryRecv c
  | resumeSend task =>
    obtain ⟨p,hp,rfl⟩ := Option.map_eq_some_iff.mp hstep
    have hmem := List.mem_of_find?_eq_some hp
    have hpos := List.length_pos_of_mem hmem
    refine .puts task p.2 (Or.inr ?_)
    rw [List.length_eraseP_of_mem hmem (List.find?_some hp)]
    omega
  | resumeRecv task =>
    rw [step] at hstep
    split at hstep
    case isTrue hwoken =>
      cases hstep
      exact .gets task (Or.inr (Or.inl (List.ne_nil_of_mem hwoken)))
    · cases hstep
  | cancelSend task =>
    cases hstep
    exact .cancelPut task
  | cancelRecv task =>
    cases hstep
    exact .cancelGet task

theorem closed_step {a : Action T} (hstep : step c a = some d) (hclosed : c.closed = true) :
    d.closed = true := by
  cases step_move hstep with
  | closes => rfl
  | _ => exact hclosed

end Move

section Order

variable {c d : Channel T}

def Fifo (c : Channel T) : Prop := c.accepted = c.received++c.queue.buffer

theorem fifo_putAgain (task : ℕ) (value : T) (h : Fifo c) : Fifo (putAgain c task value) := by
  unfold Fifo putAgain at *
  obtain harrives | ⟨hfull,hparked⟩ := c.queue.put_cases task value
  · rw [if_neg (by rw [harrives.room]; exact Bool.false_ne_true),harrives.buffer,h,List.append_assoc]
  · rw [if_pos hfull,hparked,h]

theorem fifo_getAgain (task : ℕ) (h : Fifo c) : Fifo (getAgain c task) := by
  unfold Fifo getAgain at *
  obtain ⟨value,hvalue,hleaves⟩ | ⟨hempty,hparked⟩ := c.queue.get_cases task
  · rw [hvalue,h,hleaves.buffer,Option.toList_some,List.append_assoc,List.singleton_append]
  · rw [hparked,h,Option.toList_none,List.append_nil]

theorem fifo_step {a : Action T} (hstep : step c a = some d) (h : Fifo c) : Fifo d := by
  cases step_move hstep with
  | stay => exact h
  | ends => exact h
  | closes => exact h
  | arrives hopen harrives =>
    unfold Fifo at *
    rw [h,harrives.buffer,List.append_assoc]
  | leaves hleaves =>
    unfold Fifo at *
    rw [h,hleaves.buffer,List.append_assoc,List.singleton_append]
  | puts task value => exact fifo_putAgain task value h
  | gets task => exact fifo_getAgain task h
  | cancelPut task =>
    unfold Fifo at *
    rw [Queue.cancelPut_buffer]
    exact h
  | cancelGet task =>
    unfold Fifo at *
    rw [Queue.cancelGet_buffer]
    exact h

theorem fifo_run {capacity : ℕ} {as : List (Action T)} (h : Run step always (mpscChannel capacity) as c) :
    Fifo c :=
  h.invariant (fun _ _ _ _ hstep => fifo_step hstep) rfl

end Order

section Waiting

variable {c d : Channel T} {q r : Queue T}

theorem Settled.drained (h : Settled q) (hempty : q.buffer = []) : q.getters = [] ∧ q.putters = [] := by
  refine ⟨h.getters,List.eq_nil_of_length_eq_zero ?_⟩
  have hputters := h.putters
  rw [hempty,List.length_nil] at hputters
  omega

theorem Settled.leaves {value : T} (h : Settled q) (hleaves : Queue.Leaves q r value) : Settled r := by
  have hputters := h.putters
  have hroom := h.room
  have htake : (q.putters.take 1).length+q.putters.tail.length = q.putters.length := by
    cases q.putters <;> simp [Nat.add_comm]
  rw [hleaves.buffer,List.length_cons] at hputters hroom
  constructor
  case getters => rw [hleaves.getters,h.getters]
  case wokenGets => rw [hleaves.wokenGets,h.wokenGets]
  case putters =>
    rw [hleaves.putters,List.length_tail]
    omega
  case room =>
    intro hcapacity
    rw [hleaves.capacity] at hcapacity ⊢
    have hbound := hroom hcapacity
    rw [hleaves.putters,hleaves.wokenPuts,List.length_append]
    omega

theorem Settled.put {task : ℕ} {value : T} (h : Settled q) {woken : List (ℕ × T)}
    (hwoken : woken.length+1 = q.wokenPuts.length) :
    Settled (({ q with wokenPuts := woken } : Queue T).put task value) := by
  have hputters := h.putters
  have hroom := h.room
  obtain harrives | ⟨hfull,hparked⟩ := ({ q with wokenPuts := woken } : Queue T).put_cases task value
  · constructor
    case getters => rw [harrives.getters,h.getters,List.tail_nil]
    case wokenGets => rw [harrives.wokenGets,h.wokenGets,h.getters,List.take_nil,List.append_nil]
    case putters =>
      rw [harrives.putters,harrives.buffer,List.length_append]
      exact Nat.le_add_right_of_le hputters
    case room =>
      intro hcapacity
      rw [harrives.capacity] at hcapacity ⊢
      have hbound := hroom hcapacity
      rw [harrives.putters,harrives.wokenPuts,harrives.buffer,List.length_append,List.length_singleton]
      dsimp only
      omega
  · rw [Queue.full,decide_eq_true_eq] at hfull
    have hbound := hroom hfull.1
    rw [hparked]
    dsimp only at hfull
    constructor
    case getters => exact h.getters
    case wokenGets => exact h.wokenGets
    case putters =>
      rw [List.length_append,List.length_singleton]
      dsimp only
      omega
    case room =>
      intro _
      rw [List.length_append,List.length_singleton]
      dsimp only
      omega

theorem Settled.wakePutter (h : Settled q) : Settled q.wakePutter := by
  have hputters := h.putters
  have htake : (q.putters.take 1).length+q.putters.tail.length = q.putters.length := by
    cases q.putters <;> simp [Nat.add_comm]
  refine ⟨h.getters,h.wokenGets,?_,fun hcapacity => ?_⟩
  · rw [Queue.wakePutter]
    dsimp only
    omega
  · have hbound := h.room hcapacity
    rw [Queue.wakePutter]
    dsimp only
    rw [List.length_append]
    omega

theorem Settled.cancelGet (h : Settled q) (task : ℕ) : Settled (q.cancelGet task) := by
  rw [Queue.cancelGet,if_neg (by rw [h.wokenGets]; exact List.not_mem_nil)]
  exact ⟨by rw [h.getters]; rfl,h.wokenGets,h.putters,h.room⟩

theorem Settled.cancelPut (h : Settled q) (task : ℕ) : Settled (q.cancelPut task) := by
  have hputters := h.putters
  have hroom := h.room
  rw [Queue.cancelPut]
  split
  case isTrue hany =>
    obtain ⟨p,hp,htask⟩ := List.any_eq_true.mp hany
    have hwoken : (q.wokenPuts.eraseP (·.1 == task)).length+1 = q.wokenPuts.length := by
      rw [List.length_eraseP_of_mem hp htask]
      have hpos := List.length_pos_of_mem hp
      omega
    dsimp only
    split
    · exact ⟨h.getters,h.wokenGets,hputters,fun hcapacity => by
        have hbound := hroom hcapacity
        dsimp only
        omega⟩
    · exact Settled.wakePutter ⟨h.getters,h.wokenGets,hputters,fun hcapacity => by
        have hbound := hroom hcapacity
        dsimp only
        omega⟩
  case isFalse =>
    have hle := List.length_eraseP_le (l := q.putters) (p := (·.1 == task))
    exact ⟨h.getters,h.wokenGets,Nat.le_trans hle hputters,fun hcapacity => by
      have hbound := hroom hcapacity
      dsimp only
      omega⟩

theorem settled_step {a : Action T} (hstep : step c a = some d) (hsafe : Safe c a)
    (h : c.closed = true → Settled c.queue) (hclosed : d.closed = true) : Settled d.queue := by
  cases step_move hstep with
  | stay => exact h hclosed
  | ends => exact h hclosed
  | closes hcloses =>
    cases hopen : c.closed with
    | true => exact h hopen
    | false => exact hcloses hsafe hopen
  | arrives hopen => exact absurd (hopen.symm.trans hclosed) Bool.false_ne_true
  | leaves hleaves => exact (h hclosed).leaves hleaves
  | puts task value hputs =>
    obtain hopen | hwoken := hputs
    · exact absurd (hopen.symm.trans hclosed) Bool.false_ne_true
    · exact (h hclosed).put hwoken
  | gets task hgets =>
    obtain hopen | hwoken | ⟨rfl,hvalue⟩ := hgets
    · exact absurd (hopen.symm.trans hclosed) Bool.false_ne_true
    · exact absurd (h hclosed).wokenGets hwoken
    · obtain ⟨value,_,hleaves⟩ | ⟨hempty,_⟩ := c.queue.get_cases task
      · exact (h hclosed).leaves hleaves
      · exact absurd hempty hvalue
  | cancelPut task => exact (h hclosed).cancelPut task
  | cancelGet task => exact (h hclosed).cancelGet task

end Waiting

section Unsettled

variable {c d : Channel T}

theorem run_drain (c : Channel T) : ∃ d, Run step always c (List.replicate c.queue.buffer.length .tryRecv) d ∧
    d.closed = c.closed ∧ d.queue.buffer = [] ∧ d.queue.getters = c.queue.getters ∧
    d.queue.wokenGets = c.queue.wokenGets ∧
    d.queue.putters = c.queue.putters.drop c.queue.buffer.length := by
  induction hn : c.queue.buffer.length generalizing c with
  | zero => exact ⟨c,.refl c,rfl,List.eq_nil_of_length_eq_zero hn,rfl,rfl,rfl⟩
  | succ n ih =>
    cases hget : c.queue.getNowait with
    | none =>
      rw [Queue.getNowait_none.mp hget] at hn
      cases hn
    | some r =>
      obtain ⟨value,queue⟩ := r
      have hleaves := Queue.getNowait_spec hget
      have hrecv : tryRecv c = (some value,{ c with queue := queue, received := c.received++[value] }) := by
        rw [tryRecv,hget]
      rw [hleaves.buffer,List.length_cons] at hn
      obtain ⟨d,hrun,hclosed,hempty,hgetters,hwoken,hputters⟩ :=
        ih { c with queue := queue, received := c.received++[value] } (Nat.succ.inj hn)
      have hstep : step c .tryRecv = some { c with queue := queue, received := c.received++[value] } := by
        rw [step,hrecv]
      refine ⟨d,.succ trivial hstep hrun,hclosed,hempty,?_,?_,?_⟩
      · rw [hgetters,hleaves.getters]
      · rw [hwoken,hleaves.wokenGets]
      · rw [hputters,hleaves.putters,List.drop_tail]

theorem not_released (hclosed : c.closed = true) (hempty : c.queue.buffer = [])
    (h : c.queue.getters ≠ [] ∨ c.queue.putters ≠ []) : ¬ Released c := by
  intro hreleased
  obtain ⟨hgetters,hputters⟩ := hreleased.drained hclosed hempty
  exact h.elim (· hgetters) (· hputters)

/-- A closed channel from which a run leads to one that is not released. -/
def Breaks (c : Channel T) : Prop := ∃ as d, Run step always c as d ∧ ¬ Released d

theorem breaks_getters (hclosed : c.closed = true) (h : c.queue.getters ≠ []) : Breaks c := by
  obtain ⟨d,hrun,hd,hempty,hgetters,_,_⟩ := run_drain c
  exact ⟨_,d,hrun,not_released (hd.trans hclosed) hempty (Or.inl (hgetters ▸ h))⟩

theorem breaks_wokenGets (hclosed : c.closed = true) {task : ℕ} (h : task ∈ c.queue.wokenGets) :
    Breaks c := by
  obtain ⟨d,hrun,hd,hempty,_,hwoken,_⟩ := run_drain c
  have hresumes : step d (.resumeRecv task) = some (getAgain
      { d with queue := { d.queue with wokenGets := d.queue.wokenGets.erase task } } task) :=
    if_pos (hwoken ▸ h)
  obtain ⟨value,_,hleaves⟩ | ⟨_,hparked⟩ :=
    ({ d.queue with wokenGets := d.queue.wokenGets.erase task } : Queue T).get_cases task
  · exact absurd (hempty.symm.trans hleaves.buffer) (List.cons_ne_nil _ _).symm
  · refine ⟨_,_,hrun.trans (.succ trivial hresumes (.refl _)),?_⟩
    refine not_released (hd.trans hclosed) ?_ (Or.inl ?_)
    · rw [getAgain,hparked]
      exact hempty
    · rw [getAgain,hparked]
      exact List.append_ne_nil_of_right_ne_nil _ (List.cons_ne_nil _ _)

theorem breaks_putters (hclosed : c.closed = true)
    (h : c.queue.buffer.length < c.queue.putters.length) : Breaks c := by
  obtain ⟨d,hrun,hd,hempty,_,_,hputters⟩ := run_drain c
  refine ⟨_,d,hrun,not_released (hd.trans hclosed) hempty (Or.inr fun hnil => ?_)⟩
  rw [hputters,List.drop_eq_nil_iff] at hnil
  omega

theorem put_counts {q : Queue T} (task : ℕ) (value : T) (hcapacity : 0 < q.capacity)
    (hbuffer : q.buffer.length ≤ q.capacity) : (q.put task value).capacity = q.capacity ∧
      (q.put task value).wokenPuts = q.wokenPuts ∧
      (q.put task value).putters.length+(q.put task value).buffer.length =
        q.putters.length+q.buffer.length+1 ∧
      (q.put task value).buffer.length ≤ q.capacity := by
  obtain harrives | ⟨_,hparked⟩ := q.put_cases task value
  · have hroom := harrives.room
    rw [Queue.full,decide_eq_false_iff_not] at hroom
    refine ⟨harrives.capacity,harrives.wokenPuts,?_,?_⟩
    · rw [harrives.putters,harrives.buffer,List.length_append,List.length_singleton,Nat.add_assoc]
    · rw [harrives.buffer,List.length_append,List.length_singleton]
      omega
  · rw [hparked]
    refine ⟨rfl,rfl,?_,hbuffer⟩
    dsimp only
    rw [List.length_append,List.length_singleton]
    omega

theorem breaks_room (hclosed : c.closed = true) (hcapacity : 0 < c.queue.capacity)
    (hbuffer : c.queue.buffer.length ≤ c.queue.capacity) (h : 2*c.queue.capacity <
      c.queue.putters.length+c.queue.wokenPuts.length+c.queue.buffer.length) : Breaks c := by
  induction hw : c.queue.wokenPuts generalizing c with
  | nil =>
    rw [hw,List.length_nil] at h
    exact breaks_putters hclosed (by omega)
  | cons p woken ih =>
    have hresumes : step c (.resumeSend p.1) = some (putAgain
        { c with queue := { c.queue with wokenPuts := woken } } p.1 p.2) := by
      rw [step,hw,List.find?_cons_of_pos (by exact beq_self_eq_true p.1),
        List.eraseP_cons_of_pos (by exact beq_self_eq_true p.1)]
      rfl
    rw [hw,List.length_cons] at h
    obtain ⟨hcap,hwoken,hsum,hle⟩ :=
      @put_counts _ { c.queue with wokenPuts := woken } p.1 p.2 hcapacity hbuffer
    obtain ⟨as,d,hrun,hd⟩ := @ih (putAgain { c with queue := { c.queue with wokenPuts := woken } } p.1 p.2)
      hclosed (hcap ▸ hcapacity) (hcap ▸ hle) (by
        dsimp only [putAgain] at hsum ⊢
        rw [hcap,hwoken]
        dsimp only
        omega) hwoken
    exact ⟨_,d,.succ trivial hresumes hrun,hd⟩

theorem bounded_step {a : Action T} (hstep : step c a = some d) (h : Queue.Bounded c.queue) :
    Queue.Bounded d.queue := by
  cases step_move hstep with
  | stay => exact h
  | ends => exact h
  | closes => exact h
  | arrives _ harrives => exact harrives.bounded
  | leaves hleaves => exact hleaves.bounded h
  | puts => exact Queue.bounded_put h
  | gets => exact Queue.bounded_get h
  | cancelPut =>
    unfold Queue.Bounded at *
    rw [Queue.cancelPut_buffer,Queue.cancelPut_capacity]
    exact h
  | cancelGet =>
    unfold Queue.Bounded at *
    rw [Queue.cancelGet_buffer,Queue.cancelGet_capacity]
    exact h

theorem breaks_of_not_settled (hbounded : Queue.Bounded c.queue) (hclosed : c.closed = true)
    (h : ¬ Settled c.queue) : Breaks c := by
  by_contra hbreaks
  refine h ⟨?_,?_,?_,?_⟩
  case refine_1 => exact by_contra fun hgetters => hbreaks (breaks_getters hclosed hgetters)
  case refine_2 =>
    exact List.eq_nil_iff_forall_not_mem.mpr fun task hwoken => hbreaks (breaks_wokenGets hclosed hwoken)
  case refine_3 => exact Nat.le_of_not_lt fun hputters => hbreaks (breaks_putters hclosed hputters)
  case refine_4 =>
    exact fun hcapacity => Nat.le_of_not_lt fun hroom =>
      hbreaks (breaks_room hclosed hcapacity (hbounded hcapacity) hroom)

theorem settled_iff {capacity : ℕ} {as : List (Action T)} (h : Run step always (mpscChannel capacity) as c) :
    Settled c.queue ↔ ∀ bs d, Run step always (close c) bs d → Released d := by
  have hbounded : Queue.Bounded c.queue :=
    h.invariant (fun _ _ _ _ hstep => bounded_step hstep) fun _ => Nat.zero_le _
  constructor
  · intro hsettled bs d hrun
    have hfifo : Fifo d := hrun.invariant (fun _ _ _ _ hstep => fifo_step hstep)
      (@fifo_run T c _ _ h)
    have hd : d.closed = true ∧ Settled d.queue := by
      refine @Run.invariant _ _ _ _ (fun s => s.closed = true ∧ Settled s.queue) ?_ _ _ _ hrun ⟨rfl,hsettled⟩
      intro s a t _ hstep hs
      have hsafe : Safe s a := by
        cases a with
        | close => exact fun hopen => absurd (hopen.symm.trans hs.1) Bool.false_ne_true
        | closeChannel => exact fun hopen => absurd (hopen.symm.trans hs.1) Bool.false_ne_true
        | _ => trivial
      have hclosed := closed_step hstep hs.1
      exact ⟨hclosed,settled_step hstep hsafe (fun _ => hs.2) hclosed⟩
    exact ⟨hfifo,fun _ => hd.2.drained⟩
  · intro hreleased
    by_contra hsettled
    obtain ⟨bs,d,hrun,hd⟩ := @breaks_of_not_settled _ (close c) hbounded rfl hsettled
    exact hd (hreleased bs d hrun)

/-- No order of steps loses or reorders a value, and a close releases everybody, whatever comes
after it, exactly when the channel is settled. -/
theorem close_releases_iff {capacity : ℕ} {as : List (Action T)}
    (h : Run step always (mpscChannel capacity) as c) :
    Fifo c ∧ (Settled c.queue ↔ ∀ bs d, Run step always (close c) bs d → Released d) :=
  ⟨fifo_run h,settled_iff h⟩

end Unsettled

/-- Where every channel is closed when those that wait will be released, nobody is left waiting
in a channel that is closed and drained. -/
theorem released_of_safe {capacity : ℕ} {as : List (Action T)} {c : Channel T}
    (h : Run step Safe (mpscChannel capacity) as c) : Released c := by
  have hfifo := fifo_run (h.mono fun _ _ _ => trivial)
  have hsettled : c.closed = true → Settled c.queue :=
    h.invariant (fun _ _ _ hsafe hstep => settled_step hstep hsafe) (fun hclosed => nomatch hclosed)
  exact ⟨hfifo,fun hclosed hempty => (hsettled hclosed).drained hempty⟩

/-- A value is received, another is still buffered when the channel is closed. -/
def drainedAfterClose : List (Action ℕ) :=
  [.recv 0,.trySend 7,.resumeRecv 0,.send 1 8,.close,.recv 0,.recv 0]

theorem released_drainedAfterClose :
    Released (last step (mpscChannel 4) drainedAfterClose) := by
  refine @released_of_safe ℕ 4 drainedAfterClose _ ?_
  refine run_last_cons trivial rfl (run_last_cons trivial rfl ?_)
  refine run_last_cons trivial rfl (run_last_cons trivial rfl ?_)
  refine run_last_cons (fun _ => ⟨rfl,rfl,by decide,by decide⟩) rfl ?_
  exact run_last_cons trivial rfl (run_last_cons trivial rfl run_last_nil)

theorem close_releases_buffered : Settled (last step (mpscChannel (T:=ℕ) 4) [.trySend 7]).queue ↔
    ∀ bs d, Run step always (close (last step (mpscChannel (T:=ℕ) 4) [.trySend 7])) bs d → Released d :=
  (close_releases_iff (run_last (by decide))).2

/-- A `recv` that waits is not woken by the close. -/
theorem parked_recv : ∃ c, Run step always (mpscChannel (T := ℕ) 4) [.recv 0,.close] c ∧ ¬ Released c := by
  refine ⟨_,run_last (by decide),fun h => ?_⟩
  exact absurd (h.drained rfl rfl).1 (List.cons_ne_nil 0 [])

end MinimaxCode.HubChannel
