import MinimaxCode.PyText
import MinimaxCode.Runs

/-!
# The donation pump

One task takes payloads and barriers off a queue. A payload enters a bounded buffer that
drops its oldest entry when it is full; each message then wakes a drain of the buffer from
its front, which stops at the first send that fails. A barrier is acknowledged behind its
drain, also while the link is down.
-/

namespace MinimaxCode.DonatePump

open Runs

/-- `RETRY_CAP`: how many payloads the buffer holds. -/
def retryCap : ℕ := 8

variable {α : Type}

/-- `PumpMsg`; a barrier carries its future. -/
inductive PumpMsg (α : Type)
  | payload (payload : α)
  | barrier (ack : ℕ)
  | close
  deriving DecidableEq

/-- What the pump does, in its order. -/
inductive Entry (α : Type)
  | took (msg : PumpMsg α)
  | dropped (payload : α)
  | tried (payload : α)
  | delivered (payload : α)
  | refused (payload : α)
  | lost (payload : α)
  | acked (ack : ℕ)
  deriving DecidableEq

/-- Where `run_pump` is: at `rx.get()`, at a `donate` of a drain that ends in an
acknowledgement or not, behind its end, or behind an exception of `donate`. -/
inductive Phase (α : Type)
  | getting
  | sending (payload : α) (ack : Option ℕ)
  | closed
  | raised

/-- The pump with its queue, the futures that are done, its buffer, and what it has done. -/
structure Pump (α : Type) where
  rx : List (PumpMsg α)
  done : List ℕ
  retry : List α
  phase : Phase α
  log : List (Entry α)

/-- A producer puts a message, the waiter of a barrier is cancelled, the pump takes a
message, or a `donate` answers or raises. -/
inductive Action (α : Type)
  | put (msg : PumpMsg α)
  | cancel (ack : ℕ)
  | wake
  | answer (ok : Bool)
  | raises

def start : Pump α := ⟨[],[],[],.getting,[]⟩

/-- The drain is over. -/
def finishDrain (s : Pump α) : Option ℕ → Pump α
  | none => {s with phase := .getting}
  | some ack =>
    if ack ∈ s.done then {s with phase := .getting}
    else {s with phase := .getting, done := ack::s.done, log := s.log++[.acked ack]}

/-- `_attempt_sends` up to its next `donate`. -/
def attemptSends (s : Pump α) (ack : Option ℕ) : Pump α :=
  match s.retry with
  | [] => finishDrain s ack
  | payload::rest =>
    {s with retry := rest, phase := .sending payload ack, log := s.log++[.tried payload]}

/-- The buffer takes a payload. -/
def push (s : Pump α) (payload : α) : Pump α :=
  match s.retry with
  | oldest::rest =>
    if s.retry.length = retryCap then
      {s with retry := rest++[payload], log := s.log++[.dropped oldest]}
    else {s with retry := s.retry++[payload]}
  | [] => {s with retry := [payload]}

/-- One message of `run_pump`. -/
def receive (s : Pump α) : PumpMsg α → Pump α
  | .close => {s with phase := .closed}
  | .barrier ack => attemptSends s (some ack)
  | .payload payload => attemptSends (push s payload) none

def wake (s : Pump α) : Option (Pump α) :=
  match s.phase,s.rx with
  | .getting,msg::rx => some (receive {s with rx, log := s.log++[.took msg]} msg)
  | _,_ => none

/-- A `donate` gives its payload back; one that was refused returns to the front. -/
def answer (s : Pump α) (ok : Bool) : Option (Pump α) :=
  match s.phase with
  | .sending payload ack =>
    some (if ok then attemptSends {s with log := s.log++[.delivered payload]} ack
      else finishDrain {s with retry := payload::s.retry, log := s.log++[.refused payload]} ack)
  | _ => none

/-- A `donate` that raises ends the pump. -/
def raises (s : Pump α) : Option (Pump α) :=
  match s.phase with
  | .sending payload _ => some {s with phase := .raised, log := s.log++[.lost payload]}
  | _ => none

def step (s : Pump α) : Action α → Option (Pump α)
  | .put msg => some {s with rx := s.rx++[msg]}
  | .cancel ack => some {s with done := ack::s.done}
  | .wake => wake s
  | .answer ok => answer s ok
  | .raises => raises s

def payloads (msgs : List (PumpMsg α)) : List α :=
  msgs.filterMap fun
    | .payload payload => some payload
    | _ => none

/-- The messages that were put. -/
def puts (acts : List (Action α)) : List (PumpMsg α) :=
  acts.filterMap fun
    | .put msg => some msg
    | _ => none

/-- The messages that were taken. -/
def taken (log : List (Entry α)) : List (PumpMsg α) :=
  log.filterMap fun
    | .took msg => some msg
    | _ => none

/-- The payloads that are delivered, dropped or lost. -/
def settled (log : List (Entry α)) : List α :=
  log.filterMap fun
    | .delivered payload => some payload
    | .dropped payload => some payload
    | .lost payload => some payload
    | _ => none

/-- The payloads that were taken and are not settled. -/
def held (log : List (Entry α)) : List α := (payloads (taken log)).drop (settled log).length

/-- A message, a drop or a delivery: what the pump goes on from with a send. -/
def Entry.wakes : Entry α → Bool
  | .took _ => true
  | .dropped _ => true
  | .delivered _ => true
  | _ => false

/-- No send is under way behind the entry, and none has raised. -/
def Entry.rests : Entry α → Bool
  | .tried _ => false
  | .lost _ => false
  | _ => true

/-- What may follow a log. Nothing follows a send that raised. A send takes the oldest payload and follows a message or a
delivery, so that a refused payload waits for the next message. Only the oldest payload is
dropped, for one that comes to a full buffer. A barrier is acknowledged behind its drain:
nothing is held, or the send of the oldest payload has just failed. -/
def Legal (log : List (Entry α)) : Entry α → Prop
  | .took _ => ∀ e, log.getLast? = some e → e.rests
  | .tried payload => (held log).head? = some payload ∧ ∃ e, log.getLast? = some e ∧ e.wakes
  | .delivered payload => log.getLast? = some (.tried payload)
  | .refused payload => log.getLast? = some (.tried payload)
  | .lost payload => log.getLast? = some (.tried payload)
  | .dropped payload => (held log).head? = some payload ∧ (held log).length = retryCap+1 ∧
      ∃ newest, log.getLast? = some (.took (.payload newest))
  | .acked ack => (taken log).getLast? = some (.barrier ack) ∧
      (∀ e, log.getLast? = some e → e.rests) ∧
      (held log = [] ∨
        ∃ payload, (held log).head? = some payload ∧ log.getLast? = some (.refused payload))

def LegalLog (log : List (Entry α)) : Prop :=
  ∀ before e after, log = before++e::after → Legal before e

/-- The payload of the send under way. -/
def Pump.inFlight (s : Pump α) : List α :=
  match s.phase with
  | .sending payload _ => [payload]
  | _ => []

/-- Messages are taken in the order they were put, payloads are settled once and in that
order, the rest is held, and every entry of the log is legal. -/
structure Orderly (acts : List (Action α)) (s : Pump α) : Prop where
  queued : taken s.log++s.rx = puts acts
  kept : settled s.log++(s.inFlight++s.retry) = payloads (taken s.log)
  bounded : (s.inFlight++s.retry).length ≤ retryCap
  legal : LegalLog s.log

@[simp] theorem payloads_append (a b : List (PumpMsg α)) :
    payloads (a++b) = payloads a++payloads b := by
  simp [payloads]

@[simp] theorem taken_append (a b : List (Entry α)) : taken (a++b) = taken a++taken b := by
  simp [taken]

@[simp] theorem settled_append (a b : List (Entry α)) :
    settled (a++b) = settled a++settled b := by
  simp [settled]

variable {log : List (Entry α)} {s t : Pump α}

theorem held_of_kept {rest : List α}
    (h : settled log++rest = payloads (taken log)) : held log = rest := by
  rw [held,← h,List.drop_left]

theorem legalLog_concat {e : Entry α} (hlog : LegalLog log)
    (he : Legal log e) : LegalLog (log++[e]) := by
  intro before e' after h
  obtain rfl | ⟨rest,last,rfl⟩ := after.eq_nil_or_concat
  · obtain ⟨rfl,hlast⟩ := List.append_inj' h rfl
    obtain rfl := List.singleton_inj.mp hlast
    exact he
  · have hsplit : log++[e] = (before++e'::rest)++[last] := by simpa using h
    exact hlog before e' rest (List.append_inj' hsplit rfl).1

theorem rests_concat {last : Entry α} (h : last.rests) :
    ∀ e, (log++[last]).getLast? = some e → e.rests := by
  intro e he
  obtain rfl : last = e := by simpa using he
  exact h

theorem rests_of_wakes (h : ∃ e, log.getLast? = some e ∧ e.wakes) :
    ∀ e, log.getLast? = some e → e.rests := by
  obtain ⟨last,hlast,hwakes⟩ := h
  intro e he
  obtain rfl : last = e := Option.some.inj (hlast.symm.trans he)
  cases last with
  | took | dropped | delivered => rfl
  | _ => simp [Entry.wakes] at hwakes

/-- The buffer and the log agree, while a send of the payloads `sending` is under way. -/
structure Core (sending : List α) (s : Pump α) : Prop where
  kept : settled s.log++(sending++s.retry) = payloads (taken s.log)
  bounded : (sending++s.retry).length ≤ retryCap
  legal : LegalLog s.log

/-- What the pump remembers of its drain. -/
def Phase.Sound (log : List (Entry α)) : Phase α → Prop
  | .sending payload ack => log.getLast? = some (.tried payload) ∧
      ∀ k ∈ ack, (taken log).getLast? = some (.barrier k)
  | .getting => ∀ e, log.getLast? = some e → e.rests
  | _ => True

structure Inv (s : Pump α) : Prop where
  core : Core s.inFlight s
  sound : s.phase.Sound s.log

theorem inv_finishDrain {ack : Option ℕ} (hs : Core [] s)
    (hack : ∀ k ∈ ack, (taken s.log).getLast? = some (.barrier k))
    (hrests : ∀ e, s.log.getLast? = some e → e.rests)
    (hend : s.retry = [] ∨
      ∃ payload, s.retry.head? = some payload ∧ s.log.getLast? = some (.refused payload)) :
    Inv (finishDrain s ack) := by
  cases ack with
  | none => exact ⟨⟨hs.kept,hs.bounded,hs.legal⟩,hrests⟩
  | some ack =>
    rw [finishDrain]
    split
    · exact ⟨⟨hs.kept,hs.bounded,hs.legal⟩,hrests⟩
    · have hlegal : Legal s.log (.acked ack) := by
        refine ⟨hack ack rfl,hrests,?_⟩
        rw [held_of_kept hs.kept]
        simpa using hend
      refine ⟨⟨?_,hs.bounded,legalLog_concat hs.legal hlegal⟩,?_⟩
      · simpa [settled,taken,Pump.inFlight] using hs.kept
      · exact rests_concat rfl

theorem inv_attemptSends {ack : Option ℕ} (hs : Core [] s)
    (hack : ∀ k ∈ ack, (taken s.log).getLast? = some (.barrier k))
    (hwakes : ∃ e, s.log.getLast? = some e ∧ e.wakes) : Inv (attemptSends s ack) := by
  rw [attemptSends]
  split
  · next hretry => exact inv_finishDrain hs hack (rests_of_wakes hwakes) (.inl hretry)
  · next payload rest hretry =>
    have hkept := hs.kept
    have hbounded := hs.bounded
    rw [hretry] at hkept hbounded
    have hlegal : Legal s.log (.tried payload) := by
      refine ⟨?_,hwakes⟩
      simp [held_of_kept hkept]
    refine ⟨⟨?_,hbounded,legalLog_concat hs.legal hlegal⟩,?_,?_⟩
    · simpa [settled,taken,Pump.inFlight] using hkept
    · simp
    · simpa [taken] using hack

theorem core_push {payload : α}
    (hkept : settled s.log++(s.retry++[payload]) = payloads (taken s.log))
    (hbounded : s.retry.length ≤ retryCap) (hlegal : LegalLog s.log)
    (hlast : s.log.getLast? = some (.took (.payload payload))) : Core [] (push s payload) := by
  rw [push]
  split
  · next oldest rest hretry =>
    rw [hretry] at hkept
    split
    · next hfull =>
      rw [hretry] at hfull
      have hdrop : Legal s.log (.dropped oldest) := by
        refine ⟨?_,?_,payload,hlast⟩
        · simp [held_of_kept hkept]
        · rw [held_of_kept hkept,List.length_append,hfull,List.length_singleton]
      refine ⟨?_,?_,legalLog_concat hlegal hdrop⟩
      · simpa [settled,taken] using hkept
      · simpa using hfull.le
    · next hfull =>
      refine ⟨by simpa [hretry] using hkept,?_,hlegal⟩
      simp only [List.nil_append,List.length_append,List.length_singleton]
      omega
  · next hretry =>
    exact ⟨by simpa [hretry] using hkept,by simp [retryCap],hlegal⟩

theorem push_wakes {payload : α}
    (h : s.log.getLast? = some (.took (.payload payload))) :
    ∃ e, (push s payload).log.getLast? = some e ∧ e.wakes := by
  rw [push]
  split
  · split
    · exact ⟨_,List.getLast?_concat,rfl⟩
    · exact ⟨_,h,rfl⟩
  · exact ⟨_,h,rfl⟩

theorem inv_receive {msg : PumpMsg α} (hs : Inv s) (hphase : s.phase = .getting)
    (rx : List (PumpMsg α)) :
    Inv (receive {s with rx, log := s.log++[.took msg]} msg) := by
  have hidle : s.inFlight = [] := by simp [Pump.inFlight,hphase]
  obtain ⟨⟨hkept,hbounded,hlegal⟩,hrests⟩ := hs
  rw [hidle] at hkept hbounded
  rw [hphase] at hrests
  have htook : LegalLog (s.log++[.took msg]) := legalLog_concat hlegal hrests
  cases msg with
  | close =>
    refine ⟨⟨?_,hbounded,htook⟩,trivial⟩
    simpa [settled,taken,payloads,receive,Pump.inFlight] using hkept
  | barrier ack =>
    refine inv_attemptSends ⟨?_,hbounded,htook⟩ ?_ ⟨_,List.getLast?_concat,rfl⟩
    · simpa [settled,taken,payloads] using hkept
    · simp [taken]
  | payload payload =>
    have hlast : (s.log++[Entry.took (.payload payload)]).getLast? =
        some (.took (.payload payload)) :=
      List.getLast?_concat
    refine inv_attemptSends (core_push ?_ hbounded htook hlast) (by simp) (push_wakes hlast)
    simp only [settled_append,taken_append,payloads_append,← hkept]
    simp [settled,taken,payloads]

theorem inv_answer {ok : Bool} (h : answer s ok = some t) (hs : Inv s) :
    Inv t := by
  rw [answer] at h
  split at h
  · next payload ack hphase =>
    cases h
    obtain ⟨⟨hkept,hbounded,hlegal⟩,hsound⟩ := hs
    rw [hphase] at hsound
    obtain ⟨hlast,hack⟩ := hsound
    have hflight : s.inFlight = [payload] := by simp [Pump.inFlight,hphase]
    rw [hflight] at hkept hbounded
    cases ok with
    | true =>
      refine inv_attemptSends ⟨?_,?_,legalLog_concat hlegal hlast⟩ ?_ ⟨_,List.getLast?_concat,rfl⟩
      · simpa [settled,taken] using hkept
      · exact (Nat.le_succ _).trans hbounded
      · simpa [taken] using hack
    | false =>
      refine inv_finishDrain ⟨?_,hbounded,legalLog_concat hlegal hlast⟩ ?_ (rests_concat rfl)
        (.inr ⟨payload,rfl,?_⟩)
      · simpa [settled,taken] using hkept
      · simpa [taken] using hack
      · exact List.getLast?_concat
  · simp at h

theorem inv_raises (h : raises s = some t) (hs : Inv s) : Inv t := by
  rw [raises] at h
  split at h
  · next payload ack hphase =>
    cases h
    obtain ⟨⟨hkept,hbounded,hlegal⟩,hsound⟩ := hs
    rw [hphase] at hsound
    have hflight : s.inFlight = [payload] := by simp [Pump.inFlight,hphase]
    rw [hflight] at hkept hbounded
    refine ⟨⟨?_,(Nat.le_succ _).trans hbounded,legalLog_concat hlegal hsound.1⟩,trivial⟩
    simpa [settled,taken,Pump.inFlight] using hkept
  · simp at h

theorem inv_wake (h : wake s = some t) (hs : Inv s) : Inv t := by
  rw [wake] at h
  split at h
  · next msg rx hphase hrx =>
    cases h
    exact inv_receive hs hphase rx
  · simp at h

theorem inv_step {act : Action α} (h : step s act = some t) (hs : Inv s) :
    Inv t := by
  cases act with
  | put msg =>
    cases h
    exact ⟨⟨hs.core.kept,hs.core.bounded,hs.core.legal⟩,hs.sound⟩
  | cancel ack =>
    cases h
    exact ⟨⟨hs.core.kept,hs.core.bounded,hs.core.legal⟩,hs.sound⟩
  | wake => exact inv_wake h hs
  | answer ok => exact inv_answer h hs
  | raises => exact inv_raises h hs

theorem finishDrain_queued (s : Pump α) (ack : Option ℕ) :
    (finishDrain s ack).rx = s.rx ∧ taken (finishDrain s ack).log = taken s.log := by
  cases ack with
  | none => exact ⟨rfl,rfl⟩
  | some ack =>
    rw [finishDrain]
    split
    · exact ⟨rfl,rfl⟩
    · exact ⟨rfl,by simp [taken]⟩

theorem attemptSends_queued (s : Pump α) (ack : Option ℕ) :
    (attemptSends s ack).rx = s.rx ∧ taken (attemptSends s ack).log = taken s.log := by
  rw [attemptSends]
  split
  · exact finishDrain_queued s ack
  · exact ⟨rfl,by simp [taken]⟩

theorem push_queued (s : Pump α) (payload : α) :
    (push s payload).rx = s.rx ∧ taken (push s payload).log = taken s.log := by
  rw [push]
  split
  · split
    · exact ⟨rfl,by simp [taken]⟩
    · exact ⟨rfl,rfl⟩
  · exact ⟨rfl,rfl⟩

theorem receive_queued (s : Pump α) (msg : PumpMsg α) :
    (receive s msg).rx = s.rx ∧ taken (receive s msg).log = taken s.log := by
  cases msg with
  | close => exact ⟨rfl,rfl⟩
  | barrier ack => exact attemptSends_queued s (some ack)
  | payload payload =>
    obtain ⟨hrx,hlog⟩ := attemptSends_queued (push s payload) none
    obtain ⟨hrx',hlog'⟩ := push_queued s payload
    exact ⟨hrx.trans hrx',hlog.trans hlog'⟩

theorem queued_step {act : Action α} (h : step s act = some t) :
    taken t.log++t.rx = taken s.log++s.rx++puts [act] := by
  cases act with
  | put msg =>
    cases h
    simp [puts]
  | cancel ack =>
    cases h
    simp [puts]
  | wake =>
    simp only [step,wake] at h
    split at h
    · next msg rx hphase hrx =>
      cases h
      obtain ⟨hrx',hlog⟩ := receive_queued {s with rx, log := s.log++[.took msg]} msg
      rw [hrx',hlog,hrx]
      simp [taken,puts]
    · simp at h
  | answer ok =>
    simp only [step,answer] at h
    split at h
    · next payload ack hphase =>
      cases h
      cases ok with
      | true =>
        obtain ⟨hrx,hlog⟩ := attemptSends_queued {s with log := s.log++[.delivered payload]} ack
        rw [if_pos rfl,hrx,hlog]
        simp [taken,puts]
      | false =>
        obtain ⟨hrx,hlog⟩ := finishDrain_queued
          {s with retry := payload::s.retry, log := s.log++[.refused payload]} ack
        rw [if_neg (by simp),hrx,hlog]
        simp [taken,puts]
    · simp at h
  | raises =>
    simp only [step,raises] at h
    split at h
    · cases h
      simp [taken,puts]
    · simp at h

theorem inv_start : Inv (start : Pump α) where
  core := ⟨rfl,by simp [start,Pump.inFlight],fun before e after h => by simp [start] at h⟩
  sound := fun e he => by simp [start] at he

theorem inv_run {acts : List (Action α)} (h : Run step always s acts t)
    (hs : Inv s) : Inv t :=
  h.invariant (fun _ _ _ _ hstep => inv_step hstep) hs

theorem queued_run {acts : List (Action α)} (h : Run step always s acts t) :
    taken t.log++t.rx = taken s.log++s.rx++puts acts := by
  induction h with
  | refl => simp [puts]
  | @succ s t u act acts _ hstep _ ih =>
    rw [ih,queued_step hstep,List.append_assoc]
    simp [puts,List.filterMap_cons]
    cases act <;> rfl

/-- Whatever is put, whenever the pump gets its turn and however each send ends, messages
are taken in the order they were put, each payload is settled at most once and in that
order, and every send, drop and acknowledgement is legal. -/
theorem pump_orderly {acts : List (Action α)} {s : Pump α} (h : Run step always start acts s) :
    Orderly acts s := by
  obtain ⟨⟨hkept,hbounded,hlegal⟩,-⟩ := inv_run h inv_start
  exact ⟨by simpa [start,taken] using queued_run h,hkept,hbounded,hlegal⟩

open PyText

/-- Two payloads and a barrier while the first send fails, then a link that is up. -/
def reconnect : List (Action PyStr) :=
  [.put (.payload (lit "a")),.put (.payload (lit "b")),.put (.barrier 0),.wake,.answer false,
    .wake,.answer true,.answer true,.wake]

theorem reconnect_orderly : ∃ s, Run step always start reconnect s ∧ Orderly reconnect s ∧
    settled s.log = [lit "a",lit "b"] :=
  ⟨_,run_of_exec rfl,pump_orderly (run_of_exec rfl),rfl⟩

/-- A payload and eight barriers while the link is down. -/
def downLink : List (Action PyStr) :=
  [.put (.payload (lit "a")),.wake,.answer false]++
    (List.range retryCap).flatMap fun ack => [.put (.barrier ack),.wake,.answer false]

/-- A barrier is acknowledged while its payload is neither delivered nor dropped, and the
payload is tried nine times. -/
theorem downLink_acks_held : ∃ s, Run step always start downLink s ∧
    ¬ (∀ before ack after, s.log = before++.acked ack::after → held before = []) ∧
    ¬ (∀ payload, s.log.count (.tried payload) ≤ retryCap) := by
  refine ⟨_,run_of_exec rfl,fun h => ?_,fun h => ?_⟩
  · have hheld := h [.took (.payload (lit "a")),.tried (lit "a"),.refused (lit "a"),
      .took (.barrier 0),.tried (lit "a"),.refused (lit "a")] 0 _ rfl
    exact absurd hheld (by decide)
  · exact absurd (h (lit "a")) (by decide)

end MinimaxCode.DonatePump
