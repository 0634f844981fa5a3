import MinimaxCode.Runs
import MinimaxCode.OrderedDict
import MinimaxCode.PyText
import Mathlib.Algebra.BigOperators.Group.Finset.Basic
import Mathlib.Algebra.Order.BigOperators.Group.Finset

/-!
# The permits of admission

A call takes a permit of its session, of the connection and of the whole process, in this
order, and gives them back when it is over. A permit that comes back wakes one waiting call,
which takes it when it runs next. A call that is cancelled in between takes nothing and wakes
nobody, so that calls can wait for ever beside a free permit.
-/

namespace MinimaxCode.AdmissionPermits

open PyText OrderedDict Runs

/-- `_ClosableSemaphore`, and the value that it was made with. -/
structure ClosableSemaphore where
  cap : ℕ
  value : ℕ
  waiters : List ℕ
  closed : Bool
  deriving DecidableEq

/-- What ends a wait before its time: the deadline of the call, or its caller. -/
inductive Why
  | timeout
  | cancel
  deriving DecidableEq

/-- The future that a call waits for. A call that is cancelled when its future has a result
does not get to see the result. -/
inductive Wait
  | pending
  | woken
  | cancelled (why : Why)
  | doomed (why : Why)
  deriving DecidableEq

inductive Phase
  | ready
  | waiting (w : Wait)
  | guard
  | over
  deriving DecidableEq

/-- A call of `admit`: the semaphores that it has yet to acquire, and those it has. -/
structure Call where
  needs : List ℕ
  held : List ℕ
  phase : Phase
  deriving DecidableEq

/-- `Admission`, with its semaphores by their numbers. -/
structure Admission where
  sessionSems : List (PyStr × ℕ)
  sessionMax : ℕ
  connSem : ℕ

/-- All the connections of a process. The global semaphore is number zero. -/
structure Hub where
  sems : ℕ → ClosableSemaphore
  semCount : ℕ
  calls : ℕ → Call
  callCount : ℕ
  admissions : List Admission

namespace Hub

def setSem (s : Hub) (x : ℕ) (sem : ClosableSemaphore) : Hub :=
  {s with sems := Function.update s.sems x sem}

def setCall (s : Hub) (i : ℕ) (call : Call) : Hub :=
  {s with calls := Function.update s.calls i call}

def setPhase (s : Hub) (i : ℕ) (phase : Phase) : Hub :=
  s.setCall i {s.calls i with phase := phase}

/-- The loop of `release` over the waiters: futures that are done already are passed over. -/
def wakeOne (s : Hub) : List ℕ → Hub × List ℕ
  | [] => (s,[])
  | i::waiters =>
    if (s.calls i).phase = .waiting .pending then (s.setPhase i (.waiting .woken),waiters)
    else wakeOne s waiters

def release (s : Hub) (x : ℕ) : Hub :=
  if (s.sems x).closed then s
  else
    let r := s.wakeOne (s.sems x).waiters
    r.1.setSem x {s.sems x with value := (s.sems x).value+1, waiters := r.2}

/-- The call is over, and holds nothing from here on. -/
def leave (s : Hub) (i : ℕ) : Hub := s.setCall i ⟨[],[],.over⟩

/-- The call is over and its permits come back one after another. -/
def giveBack (s : Hub) (i : ℕ) (permits : List ℕ) : Hub := permits.foldl release (s.leave i)

/-- The end of `admit` when a scope is not to be had: the permits that the call has come back
in the order in which it got them. -/
def refuse (s : Hub) (i : ℕ) : Hub := s.giveBack i (s.calls i).held

/-- One round of the loop of `acquire`. -/
def acquire (s : Hub) (i : ℕ) : Option Hub :=
  match (s.calls i).needs with
  | [] => none
  | x::rest =>
    let sem := s.sems x
    if sem.closed then some (s.refuse i)
    else if 0 < sem.value then
      some ((s.setSem x {sem with value := sem.value-1}).setCall i
        ⟨rest,(s.calls i).held++[x],if rest = [] then .guard else .ready⟩)
    else some ((s.setSem x {sem with waiters := sem.waiters++[i]}).setPhase i (.waiting .pending))

def newSem (s : Hub) (value : ℕ) : Hub :=
  {s.setSem s.semCount ⟨value,value,[],false⟩ with semCount := s.semCount+1}

/-- `Admission(...)`. -/
def connect (s : Hub) (sessionMax connMax : ℕ) : Hub :=
  {s.newSem connMax with admissions := s.admissions++[⟨[],sessionMax,s.semCount⟩]}

def ensureSession (s : Hub) (a : ℕ) (sessionId : PyStr) : Option Hub :=
  s.admissions[a]?.map fun admission =>
    if sessionId ∈ keys admission.sessionSems then s
    else {s.newSem admission.sessionMax with
      admissions := s.admissions.set a {admission with
        sessionSems := assign admission.sessionSems sessionId s.semCount}}

def removeSession (s : Hub) (a : ℕ) (sessionId : PyStr) : Option Hub :=
  s.admissions[a]?.map fun admission =>
    {s with admissions := s.admissions.set a {admission with
      sessionSems := remove admission.sessionSems sessionId}}

def start (s : Hub) (needs : List ℕ) : Hub :=
  {s.setCall s.callCount ⟨needs,[],.ready⟩ with callCount := s.callCount+1}

/-- The beginning of `admit`; a session that is not there gets a semaphore of its own. -/
def admitCall (s : Hub) (a : ℕ) (sessionId : PyStr) : Option Hub :=
  s.admissions[a]?.map fun admission =>
    match lookup admission.sessionSems sessionId with
    | some sessionSem => s.start [sessionSem,admission.connSem,0]
    | none => (s.newSem admission.sessionMax).start [s.semCount,admission.connSem,0]

/-- A cancellation on its way to the call: it takes the future with it unless that is done. A
call that is not waiting ends at once, without giving anything back. -/
def cancel (s : Hub) (i : ℕ) (why : Why) : Option Hub :=
  match (s.calls i).phase with
  | .waiting .pending => some (s.setPhase i (.waiting (.cancelled why)))
  | .waiting .woken => some (s.setPhase i (.waiting (.doomed why)))
  | .waiting (.cancelled _) =>
    if why = .cancel then some (s.setPhase i (.waiting (.cancelled .cancel))) else none
  | .waiting (.doomed _) =>
    if why = .cancel then some (s.setPhase i (.waiting (.doomed .cancel))) else none
  | .ready => if why = .cancel then some (s.leave i) else none
  | _ => none

/-- `finally` in `acquire`. -/
def unqueue (s : Hub) (i : ℕ) : Hub :=
  match (s.calls i).needs with
  | [] => s
  | x::_ => s.setSem x {s.sems x with waiters := (s.sems x).waiters.filter (· ≠ i)}

/-- A cancelled call runs: `wait_for` turns a cancellation of its own into a timeout, any other
one passes through `admit`. -/
def abort (s : Hub) (i : ℕ) : Option Hub :=
  match (s.calls i).phase with
  | .waiting (.cancelled why) | .waiting (.doomed why) =>
    if why = .timeout then some ((s.unqueue i).refuse i) else some ((s.unqueue i).leave i)
  | _ => none

inductive Op
  | connect (sessionMax connMax : ℕ)
  | ensureSession (a : ℕ) (sessionId : PyStr)
  | removeSession (a : ℕ) (sessionId : PyStr)
  | admitCall (a : ℕ) (sessionId : PyStr)
  | attempt (i : ℕ) (late : Bool)
  | resume (i : ℕ)
  | cancel (i : ℕ) (why : Why)
  | abort (i : ℕ)
  | release (i : ℕ)

/-- One step of the event loop. A call tries the next scope, unless its deadline has passed,
and goes on when it has been woken. -/
def step (s : Hub) : Op → Option Hub
  | .connect sessionMax connMax => some (s.connect sessionMax connMax)
  | .ensureSession a sessionId => s.ensureSession a sessionId
  | .removeSession a sessionId => s.removeSession a sessionId
  | .admitCall a sessionId => s.admitCall a sessionId
  | .attempt i late =>
    if (s.calls i).phase = .ready then if late then some (s.refuse i) else s.acquire i else none
  | .resume i => if (s.calls i).phase = .waiting .woken then s.acquire i else none
  | .cancel i why => s.cancel i why
  | .abort i => s.abort i
  | .release i =>
    if (s.calls i).phase = .guard then some (s.giveBack i (s.calls i).held.reverse) else none

/-- The start of a process: there is the global semaphore. -/
def begin (globalMax : ℕ) : Hub where
  sems := Function.update (fun _ => ⟨0,0,[],false⟩) 0 ⟨globalMax,globalMax,[],false⟩
  semCount := 1
  calls := fun _ => ⟨[],[],.over⟩
  callCount := 0
  admissions := []

/-- The sum over the calls. -/
def total (s : Hub) (f : Call → ℕ) : ℕ := ∑ i ∈ Finset.range s.callCount, f (s.calls i)

/-- The permits that calls have taken. -/
def outstanding (s : Hub) (x : ℕ) : ℕ := s.total fun call => call.held.count x

/-- The call waits in the queue of the semaphore. -/
def Live (s : Hub) (x i : ℕ) : Prop :=
  (s.calls i).phase = .waiting .pending ∧ (s.calls i).needs.head? = some x

/-- The call has been woken to take a permit of the semaphore. -/
def Woken (s : Hub) (x i : ℕ) : Prop :=
  (s.calls i).phase = .waiting .woken ∧ (s.calls i).needs.head? = some x

/-- Permits are neither lost nor made, and no call waits beside a free permit unless another
one has been woken, which takes it when it goes on. -/
structure Admits (s : Hub) : Prop where
  bounded : ∀ x, s.outstanding x ≤ (s.sems x).cap
  conserved : ∀ x, (s.sems x).value+s.outstanding x = (s.sems x).cap
  awake : ∀ x, 0 < (s.sems x).value → (∃ i, s.Live x i) →
    ∃ j, s.Woken x j ∧ ∃ t, s.step (.resume j) = some t ∧ x ∈ (t.calls j).held

def wokenCount (s : Hub) (x : ℕ) : ℕ :=
  s.total fun call => if call.phase = .waiting .woken ∧ call.needs.head? = some x then 1 else 0

/-- A call that has been woken is not cancelled while another one waits for its permit, unless
more calls have been woken than there are free permits, and no call is cancelled by its caller
while it holds permits. -/
def Spares (s : Hub) : Op → Prop
  | .cancel i why => ((s.calls i).phase = .waiting .woken → ∀ x,
      (s.calls i).needs.head? = some x → (∃ j, s.Live x j) → (s.sems x).value < s.wokenCount x) ∧
    (why = .cancel → (s.calls i).held = [])
  | _ => True

variable {s t : Hub} {i j x y : ℕ} {call : Call}

theorem calls_setCall (s : Hub) (i : ℕ) (call : Call) (j : ℕ) :
    (s.setCall i call).calls j = if j = i then call else s.calls j := Function.update_apply _ _ _ _

theorem sems_setSem (s : Hub) (x : ℕ) (sem : ClosableSemaphore) (y : ℕ) :
    (s.setSem x sem).sems y = if y = x then sem else s.sems y := Function.update_apply _ _ _ _

@[simp] theorem calls_setSem (s : Hub) (x : ℕ) (sem : ClosableSemaphore) :
    (s.setSem x sem).calls = s.calls := rfl

@[simp] theorem sems_setCall (s : Hub) (i : ℕ) (call : Call) :
    (s.setCall i call).sems = s.sems := rfl

theorem calls_setPhase (s : Hub) (i : ℕ) (phase : Phase) (j : ℕ) :
    (s.setPhase i phase).calls j =
      if j = i then {s.calls i with phase := phase} else s.calls j := calls_setCall _ _ _ _

theorem total_setCall (h : i < s.callCount) (call : Call) (f : Call → ℕ) :
    (s.setCall i call).total f+f (s.calls i) = s.total f+f call := by
  have hi : i ∈ Finset.range s.callCount := Finset.mem_range.mpr h
  have hrest : ∑ j ∈ (Finset.range s.callCount).erase i, f ((s.setCall i call).calls j) =
      ∑ j ∈ (Finset.range s.callCount).erase i, f (s.calls j) := by
    refine Finset.sum_congr rfl fun j hj => ?_
    rw [calls_setCall,if_neg (Finset.ne_of_mem_erase hj)]
  have hnew := Finset.add_sum_erase (Finset.range s.callCount)
    (fun j => f ((s.setCall i call).calls j)) hi
  have hold := Finset.add_sum_erase (Finset.range s.callCount) (fun j => f (s.calls j)) hi
  rw [calls_setCall,if_pos rfl,hrest] at hnew
  rw [total,total,← hold]
  change ∑ j ∈ Finset.range s.callCount, f ((s.setCall i call).calls j)+_ = _
  rw [← hnew]
  omega

theorem total_start (s : Hub) (needs : List ℕ) {f : Call → ℕ} (hf : f ⟨needs,[],.ready⟩ = 0) :
    (s.start needs).total f = s.total f := by
  rw [total,start,Finset.sum_range_succ,calls_setCall,if_pos rfl,hf,Nat.add_zero]
  refine Finset.sum_congr rfl fun j hj => ?_
  rw [calls_setCall,if_neg (Nat.ne_of_lt (Finset.mem_range.mp hj))]

/-- The queues are in step with the calls, and where calls wait there are no more free permits
than calls that have been woken. -/
structure Queues (s : Hub) : Prop where
  unclosed : ∀ x, (s.sems x).closed = false
  fresh : ∀ i, s.callCount ≤ i → s.calls i = ⟨[],[],.over⟩
  queued : ∀ x, ∀ i ∈ (s.sems x).waiters, (s.calls i).needs.head? = some x ∧
    ((s.calls i).phase = .waiting .pending ∨ ∃ why, (s.calls i).phase = .waiting (.cancelled why))
  nodup : ∀ x, (s.sems x).waiters.Nodup
  pending : ∀ x i, s.Live x i → i ∈ (s.sems x).waiters
  awake : ∀ x, (∃ i, s.Live x i) → (s.sems x).value ≤ s.wokenCount x

theorem Queues.lt (h : s.Queues) (hi : (s.calls i).phase ≠ .over) : i < s.callCount := by
  by_contra hge
  rw [h.fresh i (Nat.le_of_not_lt hge)] at hi
  exact hi rfl

theorem wakeOne_cases (s : Hub) (waiters : List ℕ) :
    (∃ passed i rest, waiters = passed++i::rest ∧ (s.calls i).phase = .waiting .pending ∧
      (∀ j ∈ passed, (s.calls j).phase ≠ .waiting .pending) ∧
      s.wakeOne waiters = (s.setPhase i (.waiting .woken),rest)) ∨
    (∀ j ∈ waiters, (s.calls j).phase ≠ .waiting .pending) ∧ s.wakeOne waiters = (s,[]) := by
  induction waiters with
  | nil => exact .inr ⟨by simp,rfl⟩
  | cons i waiters ih =>
    rw [wakeOne]
    by_cases hi : (s.calls i).phase = .waiting .pending
    · rw [if_pos hi]
      exact .inl ⟨[],i,waiters,rfl,hi,by simp,rfl⟩
    · rw [if_neg hi]
      rcases ih with ⟨passed,j,rest,rfl,hj,hpassed,heq⟩ | ⟨hall,heq⟩
      · exact .inl ⟨i::passed,j,rest,rfl,hj,List.forall_mem_cons.mpr ⟨hi,hpassed⟩,heq⟩
      · exact .inr ⟨List.forall_mem_cons.mpr ⟨hi,hall⟩,heq⟩

/-- Permits come back and calls are woken; nothing else happens. -/
structure Returns (permits : List ℕ) (s t : Hub) : Prop where
  counts : t.callCount = s.callCount ∧ t.semCount = s.semCount ∧ t.admissions = s.admissions
  calls : ∀ i, (t.calls i).held = (s.calls i).held ∧ (t.calls i).needs = (s.calls i).needs ∧
    ((t.calls i).phase = (s.calls i).phase ∨ (t.calls i).phase = .waiting .woken)
  values : ∀ x, (t.sems x).cap = (s.sems x).cap ∧
    (t.sems x).value = (s.sems x).value+permits.count x

theorem Returns.trans {u : Hub} {xs ys : List ℕ} (h : Returns xs s t) (h' : Returns ys t u) :
    Returns (xs++ys) s u := by
  obtain ⟨hcalls,hsems,hadm⟩ := h.counts
  obtain ⟨hcalls',hsems',hadm'⟩ := h'.counts
  refine ⟨⟨hcalls'.trans hcalls,hsems'.trans hsems,hadm'.trans hadm⟩,fun i => ?_,fun x => ?_⟩
  · obtain ⟨hheld,hneeds,hphase⟩ := h.calls i
    obtain ⟨hheld',hneeds',hphase'⟩ := h'.calls i
    refine ⟨hheld'.trans hheld,hneeds'.trans hneeds,?_⟩
    rcases hphase' with heq | hwoken
    · exact hphase.imp heq.trans heq.trans
    · exact .inr hwoken
  · obtain ⟨hcap,hvalue⟩ := h.values x
    obtain ⟨hcap',hvalue'⟩ := h'.values x
    refine ⟨hcap'.trans hcap,?_⟩
    rw [hvalue',hvalue,List.count_append,Nat.add_assoc]

theorem release_cases (h : s.Queues) (x : ℕ) :
    (∃ passed i rest, (s.sems x).waiters = passed++i::rest ∧ s.Live x i ∧
      (∀ j ∈ passed, (s.calls j).phase ≠ .waiting .pending) ∧
      s.release x = (s.setPhase i (.waiting .woken)).setSem x
        {s.sems x with value := (s.sems x).value+1, waiters := rest}) ∨
    (∀ j, ¬ s.Live x j) ∧ s.release x =
      s.setSem x {s.sems x with value := (s.sems x).value+1, waiters := []} := by
  rw [release,if_neg (by rw [h.unclosed]; exact Bool.false_ne_true)]
  rcases s.wakeOne_cases (s.sems x).waiters with ⟨passed,i,rest,hw,hi,hpassed,heq⟩ | ⟨hall,heq⟩
  · have hmem : i ∈ (s.sems x).waiters := by simp [hw]
    rw [heq]
    exact .inl ⟨passed,i,rest,hw,⟨hi,(h.queued x i hmem).1⟩,hpassed,rfl⟩
  · rw [heq]
    exact .inr ⟨fun j hj => hall j (h.pending x j hj) hj.1,rfl⟩

theorem values_setSem (s : Hub) (x : ℕ) (waiters : List ℕ) (y : ℕ) :
    ((s.setSem x {s.sems x with value := (s.sems x).value+1, waiters := waiters}).sems y).cap =
      (s.sems y).cap ∧
    ((s.setSem x {s.sems x with value := (s.sems x).value+1, waiters := waiters}).sems y).value =
      (s.sems y).value+[x].count y := by
  rw [sems_setSem]
  by_cases hy : y = x
  · subst hy
    simp
  · simp [hy,Ne.symm hy]

theorem release_returns (h : s.Queues) (x : ℕ) : Returns [x] s (s.release x) := by
  rcases release_cases h x with ⟨passed,i,rest,-,-,-,heq⟩ | ⟨-,heq⟩
  · rw [heq]
    refine ⟨⟨rfl,rfl,rfl⟩,fun j => ?_,values_setSem (s.setPhase i (.waiting .woken)) x rest⟩
    rw [calls_setSem,calls_setPhase]
    by_cases hj : j = i
    · rw [if_pos hj,hj]
      exact ⟨rfl,rfl,.inr rfl⟩
    · rw [if_neg hj]
      exact ⟨rfl,rfl,.inl rfl⟩
  · rw [heq]
    exact ⟨⟨rfl,rfl,rfl⟩,fun j => ⟨rfl,rfl,.inl rfl⟩,values_setSem s x []⟩

theorem wokenCount_wake (h : s.Queues) (hi : s.Live x i) (y : ℕ) :
    (s.setPhase i (.waiting .woken)).wokenCount y = s.wokenCount y+if x = y then 1 else 0 := by
  have hlt : i < s.callCount := h.lt (by rw [hi.1]; exact Phase.noConfusion)
  have htotal := total_setCall hlt {s.calls i with phase := .waiting .woken} fun call =>
    if call.phase = .waiting .woken ∧ call.needs.head? = some y then 1 else 0
  simp only [hi.1,hi.2,Phase.waiting.injEq,Option.some.injEq,true_and] at htotal
  rw [if_neg (by simp)] at htotal
  exact htotal

theorem Queues.release (h : s.Queues) (x : ℕ) : (s.release x).Queues := by
  rcases release_cases h x with ⟨passed,i,rest,hw,hi,hpassed,heq⟩ | ⟨hnone,heq⟩
  · have hlt : i < s.callCount := h.lt (by rw [hi.1]; exact Phase.noConfusion)
    have hnodup := h.nodup x
    rw [hw] at hnodup
    have hrest : i ∉ rest := (List.nodup_cons.mp (List.nodup_append.mp hnodup).2.1).1
    -- the call that is woken was in no other queue
    have hother : ∀ y, i ∈ (s.sems y).waiters → y = x := by
      intro y hy
      have hhead := (h.queued y i hy).1
      rw [hi.2] at hhead
      exact (Option.some.inj hhead).symm
    have hcount : (s.release x).wokenCount = (s.setPhase i (.waiting .woken)).wokenCount := by
      rw [heq]
      rfl
    rw [heq] at hcount ⊢
    refine ⟨fun y => ?_,fun j hj => ?_,fun y j hj => ?_,fun y => ?_,fun y j hj => ?_,
      fun y hy => ?_⟩
    · rw [sems_setSem]
      split
      · exact h.unclosed x
      · exact h.unclosed y
    · rw [calls_setSem,calls_setPhase,if_neg (Nat.ne_of_gt (Nat.lt_of_lt_of_le hlt hj))]
      exact h.fresh j hj
    · have hold : j ∈ (s.sems y).waiters ∧ j ≠ i := by
        rw [sems_setSem] at hj
        split at hj
        · next hyx =>
          subst hyx
          refine ⟨by rw [hw]; exact List.mem_append_right _ (List.mem_cons_of_mem i hj),?_⟩
          rintro rfl
          exact hrest hj
        · next hyx =>
          refine ⟨hj,?_⟩
          rintro rfl
          exact hyx (hother y hj)
      rw [calls_setSem,calls_setPhase,if_neg hold.2]
      exact h.queued y j hold.1
    · rw [sems_setSem]
      split
      · exact (List.nodup_cons.mp (List.nodup_append.mp hnodup).2.1).2
      · exact h.nodup y
    · obtain ⟨hphase,hhead⟩ := hj
      rw [calls_setSem,calls_setPhase] at hphase hhead
      by_cases hji : j = i
      · rw [if_pos hji] at hphase
        cases hphase
      · rw [if_neg hji] at hphase hhead
        have hin := h.pending y j ⟨hphase,hhead⟩
        rw [sems_setSem]
        split
        · next hyx =>
          rw [hyx,hw] at hin
          rcases List.mem_append.mp hin with hin | hin
          · exact absurd hphase (hpassed j hin)
          · exact (List.mem_cons.mp hin).resolve_left hji
        · exact hin
    · rw [hcount,wokenCount_wake h hi,sems_setSem]
      by_cases hyx : y = x
      · rw [if_pos hyx,hyx,if_pos rfl]
        exact Nat.succ_le_succ (h.awake x ⟨i,hi⟩)
      · rw [if_neg hyx,if_neg (Ne.symm hyx),Nat.add_zero]
        refine h.awake y ?_
        obtain ⟨j,hphase,hhead⟩ := hy
        rw [calls_setSem,calls_setPhase] at hphase hhead
        split at hphase
        · cases hphase
        · next hji =>
          rw [if_neg hji] at hhead
          exact ⟨j,hphase,hhead⟩
  · rw [heq]
    refine ⟨fun y => ?_,h.fresh,fun y j hj => ?_,fun y => ?_,fun y j hj => ?_,fun y hy => ?_⟩
    · rw [sems_setSem]
      split
      · exact h.unclosed x
      · exact h.unclosed y
    · rw [sems_setSem] at hj
      split at hj
      · cases hj
      · exact h.queued y j hj
    · rw [sems_setSem]
      split
      · exact List.nodup_nil
      · exact h.nodup y
    · rw [sems_setSem]
      split
      · next hyx => exact absurd (hyx ▸ hj) (hnone j)
      · exact h.pending y j hj
    · rw [sems_setSem]
      split
      · next hyx =>
        obtain ⟨j,hj⟩ := hy
        exact absurd (hyx ▸ hj) (hnone j)
      · exact h.awake y hy

theorem foldl_release (permits : List ℕ) (h : s.Queues) :
    (permits.foldl Hub.release s).Queues ∧ Returns permits s (permits.foldl Hub.release s) := by
  induction permits generalizing s with
  | nil => exact ⟨h,⟨⟨rfl,rfl,rfl⟩,fun i => ⟨rfl,rfl,.inl rfl⟩,fun x => ⟨rfl,rfl⟩⟩⟩
  | cons x permits ih =>
    obtain ⟨hq,hr⟩ := ih (h.release x)
    exact ⟨hq,(release_returns h x).trans hr⟩

/-- One for a call that has been woken at the semaphore. -/
def wokenAt (x : ℕ) (call : Call) : ℕ :=
  if call.phase = .waiting .woken ∧ call.needs.head? = some x then 1 else 0

theorem wokenAt_of_phase (h : call.phase ≠ .waiting .woken) (x : ℕ) : wokenAt x call = 0 :=
  if_neg fun hw => h hw.1

theorem wokenAt_of_head (h : call.needs.head? = some x) (hne : x ≠ y) : wokenAt y call = 0 := by
  refine if_neg fun hw => hne ?_
  rw [h] at hw
  exact Option.some.inj hw.2

theorem Queues.setCall (h : s.Queues) (hi : i < s.callCount)
    (hqueue : ∀ x, i ∈ (s.sems x).waiters → call.needs.head? = some x ∧
      ∃ why, call.phase = .waiting (.cancelled why))
    (hpending : call.phase ≠ .waiting .pending) (hwoken : call.phase ≠ .waiting .woken)
    (hawake : ∀ x, (∃ j, s.Live x j) → (s.sems x).value+wokenAt x (s.calls i) ≤ s.wokenCount x) :
    (s.setCall i call).Queues := by
  refine ⟨h.unclosed,fun j hj => ?_,fun x j hj => ?_,h.nodup,fun x j hj => ?_,fun x hx => ?_⟩
  · rw [calls_setCall,if_neg (Nat.ne_of_gt (Nat.lt_of_lt_of_le hi hj))]
    exact h.fresh j hj
  · rw [calls_setCall]
    split
    · next hji =>
      obtain ⟨hhead,hphase⟩ := hqueue x (hji ▸ hj)
      exact ⟨hhead,.inr hphase⟩
    · exact h.queued x j hj
  · obtain ⟨hphase,hhead⟩ := hj
    rw [calls_setCall] at hphase hhead
    split at hphase
    · exact absurd hphase hpending
    · next hji =>
      rw [if_neg hji] at hhead
      exact h.pending x j ⟨hphase,hhead⟩
  · have hlive : ∃ j, s.Live x j := by
      obtain ⟨j,hphase,hhead⟩ := hx
      rw [calls_setCall] at hphase hhead
      split at hphase
      · exact absurd hphase hpending
      · next hji =>
        rw [if_neg hji] at hhead
        exact ⟨j,hphase,hhead⟩
    have htotal := total_setCall hi call (wokenAt x)
    rw [wokenAt_of_phase hwoken] at htotal
    have hle := hawake x hlive
    change (s.sems x).value ≤ (s.setCall i call).total (wokenAt x)
    change _ ≤ s.total (wokenAt x) at hle
    omega

theorem Queues.setValue (h : s.Queues) {v : ℕ} (hv : v ≤ (s.sems x).value) :
    (s.setSem x {s.sems x with value := v}).Queues := by
  have hsem : ∀ y, ((s.setSem x {s.sems x with value := v}).sems y).waiters =
        (s.sems y).waiters ∧
      ((s.setSem x {s.sems x with value := v}).sems y).closed = (s.sems y).closed ∧
      ((s.setSem x {s.sems x with value := v}).sems y).value ≤ (s.sems y).value := by
    intro y
    rw [sems_setSem]
    split
    · next hyx =>
      subst hyx
      exact ⟨rfl,rfl,hv⟩
    · exact ⟨rfl,rfl,Nat.le_refl _⟩
  refine ⟨fun y => ?_,h.fresh,fun y j hj => ?_,fun y => ?_,fun y j hj => ?_,fun y hy => ?_⟩
  · rw [(hsem y).2.1]
    exact h.unclosed y
  · rw [(hsem y).1] at hj
    exact h.queued y j hj
  · rw [(hsem y).1]
    exact h.nodup y
  · rw [(hsem y).1]
    exact h.pending y j hj
  · exact Nat.le_trans (hsem y).2.2 (h.awake y hy)

theorem Queues.enqueue (h : s.Queues) (hi : i < s.callCount)
    (hhead : (s.calls i).needs.head? = some x) (hvalue : (s.sems x).value = 0)
    (hqueue : ∀ y, i ∉ (s.sems y).waiters) :
    ((s.setSem x {s.sems x with waiters := (s.sems x).waiters++[i]}).setPhase i
      (.waiting .pending)).Queues := by
  refine ⟨fun y => ?_,fun j hj => ?_,fun y j hj => ?_,fun y => ?_,fun y j hj => ?_,fun y hy => ?_⟩
  · rw [setPhase,sems_setCall,sems_setSem]
    split
    · exact h.unclosed x
    · exact h.unclosed y
  · rw [calls_setPhase,if_neg (Nat.ne_of_gt (Nat.lt_of_lt_of_le hi hj))]
    exact h.fresh j hj
  · rw [setPhase,sems_setCall,sems_setSem] at hj
    rw [calls_setPhase]
    by_cases hji : j = i
    · rw [if_pos hji]
      split at hj
      · next hyx => exact ⟨hyx ▸ hhead,.inl rfl⟩
      · exact absurd (hji ▸ hj) (hqueue y)
    · rw [if_neg hji]
      refine h.queued y j ?_
      split at hj
      · next hyx =>
        rw [hyx]
        exact (List.mem_append.mp hj).resolve_right fun hin => hji (List.mem_singleton.mp hin)
      · exact hj
  · rw [setPhase,sems_setCall,sems_setSem]
    split
    · rw [List.nodup_append]
      refine ⟨h.nodup x,List.nodup_singleton i,fun j hj k hk he => hqueue x ?_⟩
      rwa [← List.mem_singleton.mp hk,← he]
    · exact h.nodup y
  · obtain ⟨hphase,hhead'⟩ := hj
    rw [calls_setPhase] at hphase hhead'
    rw [setPhase,sems_setCall,sems_setSem]
    by_cases hji : j = i
    · rw [if_pos hji] at hhead'
      have hyx : y = x := Option.some.inj (hhead'.symm.trans hhead)
      rw [if_pos hyx,hji]
      exact List.mem_append_right _ (List.mem_singleton_self i)
    · rw [if_neg hji] at hphase hhead'
      have hin := h.pending y j ⟨hphase,hhead'⟩
      split
      · next hyx => exact List.mem_append_left _ (hyx ▸ hin)
      · exact hin
  · rw [setPhase,sems_setCall,sems_setSem]
    by_cases hyx : y = x
    · rw [if_pos hyx]
      exact hvalue ▸ Nat.zero_le _
    · rw [if_neg hyx]
      have hlive : ∃ j, s.Live y j := by
        obtain ⟨j,hphase,hhead'⟩ := hy
        rw [calls_setPhase] at hphase hhead'
        by_cases hji : j = i
        · rw [if_pos hji] at hhead'
          exact absurd (Option.some.inj (hhead'.symm.trans hhead)) hyx
        · rw [if_neg hji] at hphase hhead'
          exact ⟨j,hphase,hhead'⟩
      have htotal := total_setCall hi {s.calls i with phase := .waiting .pending} (wokenAt y)
      rw [wokenAt_of_head hhead (Ne.symm hyx),wokenAt_of_phase (by simp)] at htotal
      have hle := h.awake y hlive
      change _ ≤ s.total (wokenAt y) at hle
      change _ ≤ (s.setCall i {s.calls i with phase := .waiting .pending}).total (wokenAt y)
      omega

/-- The queues are in step, no permit is lost, and a call that its caller has cancelled has
none. -/
structure Inv (s : Hub) : Prop where
  queues : s.Queues
  known : ∀ i, ∀ x ∈ (s.calls i).needs++(s.calls i).held, x < s.semCount
  sessions : 0 < s.semCount ∧ ∀ admission ∈ s.admissions, admission.connSem < s.semCount ∧
    ∀ kv ∈ admission.sessionSems, kv.2 < s.semCount
  conserved : ∀ x, (s.sems x).value+s.outstanding x = (s.sems x).cap
  leaving : ∀ i, (s.calls i).phase = .waiting (.cancelled .cancel) ∨
    (s.calls i).phase = .waiting (.doomed .cancel) → (s.calls i).held = []

theorem conserved_setCall {u : Hub} (hi : i < s.callCount) (hcalls : u.calls = s.calls)
    (hcount : u.callCount = s.callCount)
    (hcons : (s.sems y).value+s.outstanding y = (s.sems y).cap)
    (hcap : (u.sems y).cap = (s.sems y).cap)
    (hvalue : (u.sems y).value+call.held.count y = (s.sems y).value+(s.calls i).held.count y) :
    ((u.setCall i call).sems y).value+(u.setCall i call).outstanding y =
      ((u.setCall i call).sems y).cap := by
  have htotal := total_setCall (hcount ▸ hi) call fun call => call.held.count y
  have hsame : u.outstanding y = s.outstanding y := by
    rw [outstanding,outstanding,total,total,hcount,hcalls]
  rw [hcalls] at htotal
  change (u.setCall i call).outstanding y+_ = u.outstanding y+_ at htotal
  rw [sems_setCall,hcap]
  omega

namespace Inv

theorem giveBack (h : s.Inv) (hphase : (s.calls i).phase ≠ .over)
    (hqueue : ∀ x, i ∉ (s.sems x).waiters) (hwoken : (s.calls i).phase ≠ .waiting .woken)
    {permits : List ℕ} (hpermits : ∀ x, permits.count x = (s.calls i).held.count x) :
    (s.giveBack i permits).Inv := by
  have hi : i < s.callCount := h.queues.lt hphase
  have hleave : (s.leave i).Queues := h.queues.setCall hi (fun x hx => absurd hx (hqueue x))
    Phase.noConfusion Phase.noConfusion fun x hx => by
      rw [wokenAt_of_phase hwoken]
      exact h.queues.awake x hx
  obtain ⟨hq,⟨⟨hcalls,hsems,hadm⟩,hsame,hvalues⟩⟩ := foldl_release permits hleave
  have hcall : ∀ j, (s.leave i).calls j = if j = i then ⟨[],[],.over⟩ else s.calls j :=
    calls_setCall s i _
  refine ⟨hq,fun j x hx => ?_,?_,fun x => ?_,fun j hj => ?_⟩
  · obtain ⟨hheld,hneeds,-⟩ := hsame j
    rw [Hub.giveBack,hheld,hneeds,hcall] at hx
    rw [Hub.giveBack,hsems]
    split at hx
    · cases hx
    · exact h.known j x hx
  · rw [Hub.giveBack,hsems,hadm]
    exact h.sessions
  · obtain ⟨hcap,hvalue⟩ := hvalues x
    have hout : (permits.foldl Hub.release (s.leave i)).outstanding x = (s.leave i).outstanding x := by
      rw [outstanding,outstanding,total,total,hcalls]
      exact Finset.sum_congr rfl fun j _ => by rw [(hsame j).1]
    have htotal := total_setCall hi ⟨[],[],.over⟩ fun call => call.held.count x
    have hcons := h.conserved x
    rw [Hub.giveBack,hcap,hvalue,hout,hpermits]
    change (s.leave i).outstanding x+_ = s.outstanding x+_ at htotal
    change (s.sems x).value+_+_ = (s.sems x).cap
    rw [List.count_nil] at htotal
    omega
  · obtain ⟨hheld,-,hphase'⟩ := hsame j
    rw [Hub.giveBack] at hj ⊢
    rw [hheld,hcall]
    split
    · rfl
    · next hji =>
      refine h.leaving j ?_
      rw [hcall,if_neg hji] at hphase'
      rcases hphase' with heq | heq
      · rwa [← heq]
      · rw [heq] at hj
        rcases hj with hj | hj <;> cases hj

theorem leave (h : s.Inv) (hphase : (s.calls i).phase ≠ .over)
    (hqueue : ∀ x, i ∉ (s.sems x).waiters) (hwoken : (s.calls i).phase ≠ .waiting .woken)
    (hheld : (s.calls i).held = []) : (s.leave i).Inv := by
  have hgive : (s.giveBack i []).Inv := h.giveBack hphase hqueue hwoken fun x => by rw [hheld]
  exact hgive

theorem acquire (h : s.Inv) (hphase : (s.calls i).phase = .ready ∨
    (s.calls i).phase = .waiting .woken) (ht : s.acquire i = some t) : t.Inv := by
  have hi : i < s.callCount := h.queues.lt (by rcases hphase with hp | hp <;> rw [hp] <;> simp)
  have hqueue : ∀ x, i ∉ (s.sems x).waiters := by
    intro x hx
    rcases (h.queues.queued x i hx).2 with hp | ⟨why,hp⟩ <;> rcases hphase with hp' | hp' <;>
      cases hp.symm.trans hp'
  rw [Hub.acquire] at ht
  cases hneeds : (s.calls i).needs with
  | nil =>
    rw [hneeds] at ht
    cases ht
  | cons x rest =>
    have hhead : (s.calls i).needs.head? = some x := by rw [hneeds]; rfl
    rw [hneeds] at ht
    dsimp only at ht
    rw [if_neg (by rw [h.queues.unclosed]; exact Bool.false_ne_true)] at ht
    split at ht
    · next hvalue =>
      cases ht
      have hnext : (if rest = [] then Phase.guard else Phase.ready) ≠ .waiting .pending ∧
          (if rest = [] then Phase.guard else Phase.ready) ≠ .waiting .woken ∧ ∀ why,
          (if rest = [] then Phase.guard else Phase.ready) ≠ .waiting (.cancelled why) ∧
          (if rest = [] then Phase.guard else Phase.ready) ≠ .waiting (.doomed why) := by
        split <;> simp
      have hsem : ∀ y, ((s.setSem x {s.sems x with value := (s.sems x).value-1}).sems y).cap =
          (s.sems y).cap ∧
          ((s.setSem x {s.sems x with value := (s.sems x).value-1}).sems y).value+[x].count y =
            (s.sems y).value := by
        intro y
        rw [sems_setSem]
        by_cases hyx : y = x
        · subst hyx
          rw [if_pos rfl,List.count_singleton_self]
          exact ⟨rfl,Nat.sub_add_cancel hvalue⟩
        · simp [hyx,Ne.symm hyx]
      have htake : (s.setSem x {s.sems x with value := (s.sems x).value-1}).Queues :=
        h.queues.setValue (Nat.sub_le _ _)
      refine ⟨htake.setCall hi (fun y hy => ?_) hnext.1 hnext.2.1 fun y hy => ?_,fun j y hy => ?_,
        h.sessions,fun y => ?_,fun j hj => ?_⟩
      · refine absurd hy ?_
        rw [sems_setSem]
        split
        · exact hqueue x
        · exact hqueue y
      · have hle : (s.sems y).value ≤ s.wokenCount y := h.queues.awake y hy
        have hone : wokenAt y (s.calls i) ≤ [x].count y := by
          by_cases hyx : x = y
          · subst hyx
            rw [List.count_singleton_self,wokenAt]
            split <;> omega
          · rw [wokenAt_of_head hhead hyx]
            exact Nat.zero_le _
        have hval := (hsem y).2
        change _+wokenAt y (s.calls i) ≤ s.wokenCount y
        omega
      · change y < s.semCount
        rw [calls_setCall] at hy
        split at hy
        · have hknown := h.known i
          rw [hneeds] at hknown
          refine hknown y ?_
          simp only [List.mem_append,List.mem_cons,List.not_mem_nil,or_false] at hy ⊢
          rcases hy with hy | hy | hy
          · exact .inl (.inr hy)
          · exact .inr hy
          · exact .inl (.inl hy)
        · exact h.known j y hy
      · obtain ⟨hcap,hval⟩ := hsem y
        refine conserved_setCall hi rfl rfl (h.conserved y) hcap ?_
        rw [List.count_append,Nat.add_left_comm,hval,Nat.add_comm]
      · rw [calls_setCall] at hj ⊢
        split
        · next hji =>
          rw [if_pos hji] at hj
          rcases hj with hj | hj
          · exact absurd hj (hnext.2.2 _).1
          · exact absurd hj (hnext.2.2 _).2
        · next hji =>
          rw [if_neg hji] at hj
          exact h.leaving j hj
    · next hvalue =>
      cases ht
      have hzero : (s.sems x).value = 0 := Nat.eq_zero_of_not_pos hvalue
      refine ⟨h.queues.enqueue hi hhead hzero hqueue,fun j y hy => ?_,h.sessions,fun y => ?_,
        fun j hj => ?_⟩
      · rw [calls_setPhase] at hy
        split at hy
        · next hji => exact h.known i y hy
        · exact h.known j y hy
      · refine conserved_setCall hi rfl rfl (h.conserved y) ?_ ?_
        · rw [sems_setSem]
          split
          · next hyx => rw [hyx]
          · rfl
        · rw [sems_setSem]
          split
          · next hyx => exact hyx ▸ rfl
          · rfl
      · rw [calls_setPhase] at hj ⊢
        split
        · next hji =>
          rw [if_pos hji] at hj
          rcases hj with hj | hj <;> cases hj
        · next hji =>
          rw [if_neg hji] at hj
          exact h.leaving j hj

theorem admissions (h : s.Inv) {admissions : List Admission}
    (hadm : ∀ admission ∈ admissions, admission.connSem < s.semCount ∧
      ∀ kv ∈ admission.sessionSems, kv.2 < s.semCount) :
    Inv {s with admissions := admissions} :=
  ⟨⟨h.queues.unclosed,h.queues.fresh,h.queues.queued,h.queues.nodup,h.queues.pending,
    h.queues.awake⟩,h.known,⟨h.sessions.1,hadm⟩,h.conserved,h.leaving⟩

theorem newSem (h : s.Inv) (value : ℕ) : (s.newSem value).Inv := by
  have hhead : ∀ i, (s.calls i).needs.head? ≠ some s.semCount := by
    intro i hi
    have hmem := List.mem_of_head? hi
    exact Nat.lt_irrefl _ (h.known i _ (List.mem_append_left _ hmem))
  have hsem : ∀ x, (s.newSem value).sems x =
      if x = s.semCount then ⟨value,value,[],false⟩ else s.sems x := sems_setSem s _ _
  refine ⟨⟨fun x => ?_,h.queues.fresh,fun x i hi => ?_,fun x => ?_,fun x i hi => ?_,
    fun x hx => ?_⟩,fun i x hx => Nat.lt_succ_of_lt (h.known i x hx),
    ⟨Nat.succ_pos _,fun admission ha => ?_⟩,fun x => ?_,h.leaving⟩
  · rw [hsem]
    split
    · rfl
    · exact h.queues.unclosed x
  · rw [hsem] at hi
    split at hi
    · cases hi
    · exact h.queues.queued x i hi
  · rw [hsem]
    split
    · exact List.nodup_nil
    · exact h.queues.nodup x
  · rw [hsem]
    split
    · next hx => exact absurd (hx ▸ hi.2) (hhead i)
    · exact h.queues.pending x i hi
  · rw [hsem]
    split
    · next he =>
      obtain ⟨i,hi⟩ := hx
      exact absurd (he ▸ hi.2) (hhead i)
    · exact h.queues.awake x hx
  · obtain ⟨hconn,hsessions⟩ := h.sessions.2 admission ha
    exact ⟨Nat.lt_succ_of_lt hconn,fun kv hkv => Nat.lt_succ_of_lt (hsessions kv hkv)⟩
  · rw [hsem]
    change _+s.outstanding x = _
    split
    · next hx =>
      have hzero : s.outstanding x = 0 := by
        rw [outstanding,total]
        refine Finset.sum_eq_zero fun i _ => ?_
        have hnot : x ∉ (s.calls i).held := fun hin =>
          Nat.ne_of_lt (h.known i x (List.mem_append_right _ hin)) hx
        exact List.count_eq_zero.mpr hnot
      rw [hzero]
      rfl
    · exact h.conserved x

theorem start (h : s.Inv) {needs : List ℕ} (hneeds : ∀ x ∈ needs, x < s.semCount) :
    (s.start needs).Inv := by
  have hold : s.calls s.callCount = ⟨[],[],.over⟩ := h.queues.fresh _ (Nat.le_refl _)
  have hcall : ∀ i, (s.start needs).calls i =
      if i = s.callCount then ⟨needs,[],.ready⟩ else s.calls i := calls_setCall s _ _
  have hlive : ∀ x i, (s.start needs).Live x i → s.Live x i := by
    rintro x i ⟨hphase,hhead⟩
    rw [hcall] at hphase hhead
    split at hphase
    · cases hphase
    · next hi =>
      rw [if_neg hi] at hhead
      exact ⟨hphase,hhead⟩
  refine ⟨⟨h.queues.unclosed,fun i hi => ?_,fun x i hi => ?_,h.queues.nodup,
    fun x i hi => h.queues.pending x i (hlive x i hi),fun x hx => ?_⟩,fun i x hx => ?_,h.sessions,
    fun x => ?_,fun i hi => ?_⟩
  · rw [hcall,if_neg (Nat.ne_of_gt hi)]
    exact h.queues.fresh i (Nat.le_of_succ_le hi)
  · have hq := h.queues.queued x i hi
    rw [hcall]
    split
    · next he =>
      rw [he,hold] at hq
      cases hq.1
    · exact hq
  · obtain ⟨i,hi⟩ := hx
    have hle := h.queues.awake x ⟨i,hlive x i hi⟩
    have hcount : (s.start needs).wokenCount x = s.wokenCount x :=
      total_start s needs (wokenAt_of_phase Phase.noConfusion x)
    rwa [hcount]
  · rw [hcall] at hx
    split at hx
    · rw [List.append_nil] at hx
      exact hneeds x hx
    · exact h.known i x hx
  · have hout : (s.start needs).outstanding x = s.outstanding x :=
      total_start s needs List.count_nil
    rw [hout]
    exact h.conserved x
  · rw [hcall] at hi ⊢
    split
    · rfl
    · next he =>
      rw [if_neg he] at hi
      exact h.leaving i hi

theorem setPhase (h : s.Inv) (hi : i < s.callCount) {phase : Phase}
    (hqueues : (s.setPhase i phase).Queues)
    (hleaving : phase = .waiting (.cancelled .cancel) ∨ phase = .waiting (.doomed .cancel) →
      (s.calls i).held = []) : (s.setPhase i phase).Inv := by
  refine ⟨hqueues,fun j x hx => ?_,h.sessions,
    fun x => conserved_setCall hi rfl rfl (h.conserved x) rfl rfl,fun j hj => ?_⟩
  · rw [calls_setPhase] at hx
    split at hx
    · exact h.known i x hx
    · exact h.known j x hx
  · rw [calls_setPhase] at hj ⊢
    split
    · next hji =>
      rw [if_pos hji] at hj
      exact hleaving hj
    · next hji =>
      rw [if_neg hji] at hj
      exact h.leaving j hj

theorem unqueue (h : s.Inv) (hphase : (s.calls i).phase ≠ .waiting .pending) :
    (s.unqueue i).Inv ∧ (s.unqueue i).calls = s.calls ∧
      ∀ x, i ∉ ((s.unqueue i).sems x).waiters := by
  cases hneeds : (s.calls i).needs with
  | nil =>
    have heq : s.unqueue i = s := by rw [Hub.unqueue,hneeds]
    rw [heq]
    refine ⟨h,rfl,fun x hx => ?_⟩
    have hhead := (h.queues.queued x i hx).1
    rw [hneeds] at hhead
    cases hhead
  | cons x rest =>
    have heq : s.unqueue i =
        s.setSem x {s.sems x with waiters := (s.sems x).waiters.filter (· ≠ i)} := by
      rw [Hub.unqueue,hneeds]
    have hsem : ∀ y, ((s.unqueue i).sems y).cap = (s.sems y).cap ∧
        ((s.unqueue i).sems y).value = (s.sems y).value ∧
        ((s.unqueue i).sems y).closed = (s.sems y).closed ∧
        ((s.unqueue i).sems y).waiters = (s.sems y).waiters.filter (· ≠ i) := by
      intro y
      rw [heq,sems_setSem]
      split
      · next hyx => exact hyx ▸ ⟨rfl,rfl,rfl,rfl⟩
      · next hyx =>
        refine ⟨rfl,rfl,rfl,(List.filter_eq_self.mpr fun j hj => decide_eq_true ?_).symm⟩
        rintro rfl
        have hhead := (h.queues.queued y j hj).1
        rw [hneeds] at hhead
        exact hyx (Option.some.inj hhead).symm
    have hcalls : (s.unqueue i).calls = s.calls := by rw [heq]; rfl
    have hcount : (s.unqueue i).callCount = s.callCount := by rw [heq]; rfl
    refine ⟨⟨⟨fun y => ?_,?_,fun y j hj => ?_,fun y => ?_,fun y j hj => ?_,fun y hy => ?_⟩,?_,?_,
      fun y => ?_,?_⟩,hcalls,fun y hy => ?_⟩
    · rw [(hsem y).2.2.1]
      exact h.queues.unclosed y
    · rw [hcalls,hcount]
      exact h.queues.fresh
    · rw [(hsem y).2.2.2] at hj
      rw [hcalls]
      exact h.queues.queued y j (List.mem_of_mem_filter hj)
    · rw [(hsem y).2.2.2]
      exact (h.queues.nodup y).filter _
    · rw [Live,hcalls] at hj
      rw [(hsem y).2.2.2]
      refine List.mem_filter.mpr ⟨h.queues.pending y j hj,decide_eq_true ?_⟩
      rintro rfl
      exact hphase hj.1
    · have hlive : ∃ j, s.Live y j := by
        obtain ⟨j,hj⟩ := hy
        rw [Live,hcalls] at hj
        exact ⟨j,hj⟩
      have hwoken : (s.unqueue i).wokenCount y = s.wokenCount y := by rw [heq]; rfl
      rw [(hsem y).2.1,hwoken]
      exact h.queues.awake y hlive
    · rw [hcalls,heq]
      exact h.known
    · rw [heq]
      exact h.sessions
    · have hout : (s.unqueue i).outstanding y = s.outstanding y := by rw [heq]; rfl
      rw [(hsem y).1,(hsem y).2.1,hout]
      exact h.conserved y
    · rw [hcalls]
      exact h.leaving
    · rw [(hsem y).2.2.2] at hy
      exact of_decide_eq_true (List.mem_filter.mp hy).2 rfl

theorem cancel (h : s.Inv) {why : Why} (hok : s.Spares (.cancel i why))
    (ht : s.cancel i why = some t) : t.Inv := by
  have hqueued : ∀ {phase : Phase}, (s.calls i).phase = phase → phase ≠ .waiting .pending →
      (∀ why, phase ≠ .waiting (.cancelled why)) → ∀ x, i ∉ (s.sems x).waiters := by
    intro phase hp hpending hcancelled x hx
    rcases (h.queues.queued x i hx).2 with hp' | ⟨why',hp'⟩
    · exact hpending (hp.symm.trans hp')
    · exact hcancelled why' (hp.symm.trans hp')
  have hcalm : (s.calls i).phase ≠ .waiting .woken → ∀ x, (∃ j, s.Live x j) →
      (s.sems x).value+wokenAt x (s.calls i) ≤ s.wokenCount x := by
    intro hp x hx
    rw [wokenAt_of_phase hp]
    exact h.queues.awake x hx
  have hhead : ∀ x, i ∈ (s.sems x).waiters → (s.calls i).needs.head? = some x :=
    fun x hx => (h.queues.queued x i hx).1
  rw [Hub.cancel] at ht
  split at ht
  · next hp =>
    cases ht
    have hi : i < s.callCount := h.queues.lt (by rw [hp]; exact Phase.noConfusion)
    have hw : (s.calls i).phase ≠ .waiting .woken := by simp [hp]
    refine h.setPhase hi (h.queues.setCall hi (fun x hx => ⟨hhead x hx,why,rfl⟩) (by simp)
      (by simp) (hcalm hw)) ?_
    rintro (he | he)
    · cases he
      exact hok.2 rfl
    · cases he
  · next hp =>
    cases ht
    have hi : i < s.callCount := h.queues.lt (by rw [hp]; exact Phase.noConfusion)
    have hout := hqueued hp (by simp) (by simp)
    refine h.setPhase hi (h.queues.setCall hi (fun x hx => absurd hx (hout x)) (by simp)
      (by simp) fun x hx => ?_) ?_
    · rw [wokenAt]
      split
      · next hw => exact hok.1 hp x hw.2 hx
      · exact h.queues.awake x hx
    · rintro (he | he)
      · cases he
      · cases he
        exact hok.2 rfl
  · next hp =>
    split at ht
    · next hwhy =>
      cases ht
      have hi : i < s.callCount := h.queues.lt (by rw [hp]; exact Phase.noConfusion)
      have hw : (s.calls i).phase ≠ .waiting .woken := by simp [hp]
      exact h.setPhase hi (h.queues.setCall hi (fun x hx => ⟨hhead x hx,_,rfl⟩) (by simp)
        (by simp) (hcalm hw)) fun _ => hok.2 hwhy
    · cases ht
  · next hp =>
    split at ht
    · next hwhy =>
      cases ht
      have hi : i < s.callCount := h.queues.lt (by rw [hp]; exact Phase.noConfusion)
      have hw : (s.calls i).phase ≠ .waiting .woken := by simp [hp]
      have hout := hqueued hp (by simp) (by simp)
      exact h.setPhase hi (h.queues.setCall hi (fun x hx => absurd hx (hout x)) (by simp)
        (by simp) (hcalm hw)) fun _ => hok.2 hwhy
    · cases ht
  · next hp =>
    split at ht
    · next hwhy =>
      cases ht
      exact h.leave (by simp [hp]) (hqueued hp (by simp) (by simp)) (by simp [hp]) (hok.2 hwhy)
    · cases ht
  · cases ht

theorem abort (h : s.Inv) (ht : s.abort i = some t) : t.Inv := by
  have hends : ∀ {why : Why}, (s.calls i).phase = .waiting (.cancelled why) ∨
      (s.calls i).phase = .waiting (.doomed why) →
      (if why = .timeout then some ((s.unqueue i).refuse i) else some ((s.unqueue i).leave i)) =
        some t → t.Inv := by
    intro why hp ht
    obtain ⟨hinv,hcalls,hout⟩ := h.unqueue (i := i) (by rcases hp with hp | hp <;> simp [hp])
    have hover : ((s.unqueue i).calls i).phase ≠ .over := by
      rw [hcalls]
      rcases hp with hp | hp <;> simp [hp]
    have hwoken : ((s.unqueue i).calls i).phase ≠ .waiting .woken := by
      rw [hcalls]
      rcases hp with hp | hp <;> simp [hp]
    split at ht
    · cases ht
      exact hinv.giveBack hover hout hwoken fun x => rfl
    · next hwhy =>
      cases ht
      have hcancel : why = .cancel := by
        cases why
        · exact absurd rfl hwhy
        · rfl
      refine hinv.leave hover hout hwoken ?_
      rw [hcalls]
      exact h.leaving i (hcancel ▸ hp)
  rw [Hub.abort] at ht
  split at ht
  · next hp => exact hends (.inl hp) ht
  · next hp => exact hends (.inr hp) ht
  · cases ht

theorem step (h : s.Inv) {op : Op} (hok : s.Spares op) (ht : s.step op = some t) : t.Inv := by
  have hsessions : ∀ {a : ℕ} {admission : Admission}, s.admissions[a]? = some admission →
      admission.connSem < s.semCount ∧ ∀ kv ∈ admission.sessionSems, kv.2 < s.semCount :=
    fun ha => h.sessions.2 _ (List.mem_of_getElem? ha)
  cases op with
  | connect sessionMax connMax =>
    cases ht
    refine (h.newSem connMax).admissions fun admission ha => ?_
    rcases List.mem_append.mp ha with ha | ha
    · exact (h.newSem connMax).sessions.2 admission ha
    · rw [List.mem_singleton.mp ha]
      exact ⟨Nat.lt_succ_self _,fun kv hkv => absurd hkv List.not_mem_nil⟩
  | ensureSession a sessionId =>
    obtain ⟨admission,ha,rfl⟩ := Option.map_eq_some_iff.mp ht
    split
    · exact h
    · refine (h.newSem admission.sessionMax).admissions fun admission' ha' => ?_
      rcases List.mem_or_eq_of_mem_set ha' with ha' | rfl
      · exact (h.newSem admission.sessionMax).sessions.2 admission' ha'
      · refine ⟨Nat.lt_succ_of_lt (hsessions ha).1,fun kv hkv => ?_⟩
        rcases mem_assign hkv with rfl | hkv
        · exact Nat.lt_succ_self _
        · exact Nat.lt_succ_of_lt ((hsessions ha).2 kv hkv)
  | removeSession a sessionId =>
    obtain ⟨admission,ha,rfl⟩ := Option.map_eq_some_iff.mp ht
    refine h.admissions fun admission' ha' => ?_
    rcases List.mem_or_eq_of_mem_set ha' with ha' | rfl
    · exact h.sessions.2 admission' ha'
    · exact ⟨(hsessions ha).1,fun kv hkv => (hsessions ha).2 kv (List.mem_of_mem_filter hkv)⟩
  | admitCall a sessionId =>
    obtain ⟨admission,ha,rfl⟩ := Option.map_eq_some_iff.mp ht
    split
    · next sessionSem hsem =>
      refine h.start fun x hx => ?_
      simp only [List.mem_cons,List.not_mem_nil,or_false] at hx
      rcases hx with rfl | rfl | rfl
      · exact (hsessions ha).2 _ (mem_of_lookup hsem)
      · exact (hsessions ha).1
      · exact h.sessions.1
    · refine (h.newSem admission.sessionMax).start fun x hx => ?_
      simp only [List.mem_cons,List.not_mem_nil,or_false] at hx
      rcases hx with rfl | rfl | rfl
      · exact Nat.lt_succ_self _
      · exact Nat.lt_succ_of_lt (hsessions ha).1
      · exact Nat.succ_pos _
  | attempt i late =>
    rw [Hub.step] at ht
    split at ht
    · next hp =>
      have hqueue : ∀ x, i ∉ (s.sems x).waiters := by
        intro x hx
        rcases (h.queues.queued x i hx).2 with hp' | ⟨why,hp'⟩ <;> cases hp.symm.trans hp'
      split at ht
      · cases ht
        exact h.giveBack (by simp [hp]) hqueue (by simp [hp]) fun x => rfl
      · exact h.acquire (.inl hp) ht
    · cases ht
  | resume i =>
    rw [Hub.step] at ht
    split at ht
    · next hp => exact h.acquire (.inr hp) ht
    · cases ht
  | cancel i why => exact h.cancel hok ht
  | abort i => exact h.abort ht
  | release i =>
    rw [Hub.step] at ht
    split at ht
    · next hp =>
      cases ht
      have hqueue : ∀ x, i ∉ (s.sems x).waiters := by
        intro x hx
        rcases (h.queues.queued x i hx).2 with hp' | ⟨why,hp'⟩ <;> cases hp.symm.trans hp'
      exact h.giveBack (by simp [hp]) hqueue (by simp [hp]) fun x => List.count_reverse
    · cases ht

theorem begin (globalMax : ℕ) : (Hub.begin globalMax).Inv := by
  have hsem : ∀ x, (Hub.begin globalMax).sems x =
      if x = 0 then ⟨globalMax,globalMax,[],false⟩ else ⟨0,0,[],false⟩ :=
    Function.update_apply _ _ _
  refine ⟨⟨fun x => ?_,fun i _ => rfl,fun x i hi => ?_,fun x => ?_,fun x i hi => ?_,
    fun x hx => ?_⟩,fun i x hx => ?_,⟨Nat.one_pos,fun admission ha => ?_⟩,fun x => ?_,
    fun i _ => rfl⟩
  · rw [hsem]
    split <;> rfl
  · rw [hsem] at hi
    split at hi <;> cases hi
  · rw [hsem]
    split <;> exact List.nodup_nil
  · cases hi.1
  · obtain ⟨i,hi⟩ := hx
    cases hi.1
  · cases hx
  · cases ha
  · rw [hsem]
    split <;> rfl

theorem resume (h : s.Inv) (hj : s.Woken x j) (hvalue : 0 < (s.sems x).value) :
    ∃ t, s.step (.resume j) = some t ∧ x ∈ (t.calls j).held := by
  obtain ⟨hphase,hhead⟩ := hj
  obtain ⟨rest,hneeds⟩ := List.head?_eq_some_iff.mp hhead
  refine ⟨(s.setSem x {s.sems x with value := (s.sems x).value-1}).setCall j
    ⟨rest,(s.calls j).held++[x],if rest = [] then .guard else .ready⟩,?_,?_⟩
  · rw [Hub.step,if_pos hphase,Hub.acquire,hneeds]
    dsimp only
    rw [if_neg (by rw [h.queues.unclosed]; exact Bool.false_ne_true),if_pos hvalue]
  · rw [calls_setCall,if_pos rfl]
    exact List.mem_append_right _ (List.mem_singleton_self x)

theorem admits (h : s.Inv) : s.Admits := by
  refine ⟨fun x => ?_,h.conserved,fun x hvalue hlive => ?_⟩
  · rw [← h.conserved x]
    exact Nat.le_add_left _ _
  · have hpos : 0 < s.wokenCount x := Nat.lt_of_lt_of_le hvalue (h.queues.awake x hlive)
    have hwoken : ∃ j, s.Woken x j := by
      by_contra hnone
      refine Nat.ne_of_gt hpos ?_
      rw [wokenCount,total]
      exact Finset.sum_eq_zero fun j _ => if_neg fun hj => hnone ⟨j,hj⟩
    obtain ⟨j,hj⟩ := hwoken
    exact ⟨j,hj,h.resume hj hvalue⟩

end Inv

/-- Every state that is reached without cancelling a call that others depend on keeps the
promises of admission. -/
theorem admits_of_spares (globalMax : ℕ) {ops : List Op}
    (h : Run step Spares (begin globalMax) ops t) : t.Admits :=
  (h.invariant (fun _ _ _ hok ht hs => hs.step hok ht) (Inv.begin globalMax)).admits

/-- Three calls of a session that takes one at a time; the first is let in. -/
def crowd : List Op := [.connect 1 5,.ensureSession 0 (lit "s"),.admitCall 0 (lit "s"),
  .admitCall 0 (lit "s"),.admitCall 0 (lit "s"),.attempt 0 false,.attempt 0 false,.attempt 0 false,
  .attempt 1 false,.attempt 2 false]

theorem run_crowd (as : List Op) (has : ∀ a ∈ as, ∀ i why, a ≠ .cancel i why)
    (h : (exec step (begin 5) as).isSome) :
    Run step Spares (begin 5) as (last step (begin 5) as) := by
  refine ((run_last h).of_forall has).mono fun s a ha => ?_
  cases a with
  | cancel i why => exact absurd rfl (ha i why)
  | _ => trivial

/-- The second call runs out of time before it is let in; the third one is woken for it. -/
theorem crowd_admits : (last step (begin 5) (crowd++[.cancel 1 .timeout,.release 0])).Admits := by
  have hrun : Run step Spares (begin 5) (crowd++[.cancel 1 .timeout,.release 0])
      (last step (begin 5) (crowd++[.cancel 1 .timeout,.release 0])) := by
    refine (run_crowd crowd (by simp [crowd]) rfl).trans ?_
    refine run_last_cons ⟨fun hp => ?_,Why.noConfusion⟩ rfl
      (run_last_cons trivial rfl run_last_nil)
    cases hp
  exact admits_of_spares 5 hrun

/-- The second call is woken by the first one and runs out of time before it goes on. The third
waits from there on while the session has a permit to give. -/
theorem wake_lost : ∃ t, Run step always (begin 5)
    (crowd++[.release 0,.cancel 1 .timeout,.abort 1]) t ∧ ¬ t.Admits := by
  refine ⟨last step (begin 5) (crowd++[.release 0,.cancel 1 .timeout,.abort 1]),run_last rfl,
    fun h => ?_⟩
  obtain ⟨j,⟨hphase,-⟩,-⟩ := h.awake 2 (by decide) ⟨2,rfl,rfl⟩
  match j with
  | 0 | 1 | 2 | _+3 => cases hphase

end Hub
end MinimaxCode.AdmissionPermits
