import MinimaxCode.Pool
import MinimaxCode.Runs
import Mathlib.Data.Int.Notation
import Mathlib.Data.Rat.Init
import Mathlib.Order.Basic

/-!
# The circuit breaker of guarded calls

The breaker is asked before a call and told its outcome after it; calls overlap and nest in
any order. Beside the state stand the trips and the half-open periods so far, and for each
call when it was admitted. Each closing of a half-open breaker is logged with its cause.
-/

namespace MinimaxCode.CallBreaker

open Pool Runs

inductive BreakerState
  | closed
  | open
  | halfOpen
  deriving DecidableEq

inductive Outcome
  | success
  | failure
  deriving DecidableEq

structure BreakerConfig where
  windowDuration : ℚ
  minSamples : ℤ
  errorRateThreshold : ℚ
  openDuration : ℚ
  halfOpenMaxProbes : ℤ
  failureCodes : List ℤ
  enabled : Bool

def BreakerConfig.server : BreakerConfig := ⟨60,10,1/2,10,1,[429,500,502,503,504],true⟩

/-- Samples with their times, and a counter of the failures among them. -/
structure SlidingWindow where
  entries : List (ℚ × Bool)
  failures : ℤ

namespace SlidingWindow

def maxWindowEntries : ℕ := 10000

variable (w : SlidingWindow)

def popleft : SlidingWindow :=
  match w.entries with
  | [] => w
  | e::entries => ⟨entries,if e.2 then w.failures-1 else w.failures⟩

def push (isFailure : Bool) (at' : ℚ) : SlidingWindow :=
  let w := if maxWindowEntries ≤ w.entries.length then w.popleft else w
  ⟨w.entries++[(at',isFailure)],if isFailure then w.failures+1 else w.failures⟩

def evictBefore (cutoff : ℚ) : List (ℚ × Bool) → ℤ → SlidingWindow
  | [], failures => ⟨[],failures⟩
  | e::entries, failures =>
    if e.1 < cutoff then evictBefore cutoff entries (if e.2 then failures-1 else failures)
    else ⟨e::entries,failures⟩

def evict (window now : ℚ) : SlidingWindow := evictBefore (now-window) w.entries w.failures

def errorRate : ℚ := if w.entries.isEmpty then 0 else w.failures/w.entries.length

end SlidingWindow

structure CircuitBreaker where
  state : BreakerState
  window : SlidingWindow
  openedUntil : ℚ
  halfOpenProbes : ℤ
  probeClaimedAt : ℚ

namespace CircuitBreaker

def fresh : CircuitBreaker := ⟨.closed,⟨[],0⟩,0,0,0⟩

variable (cfg : BreakerConfig) (b : CircuitBreaker)

/-- `_check_open`, which reads of the state run first. -/
def checkOpen (now : ℚ) : CircuitBreaker :=
  if b.state = .open ∧ b.openedUntil ≤ now then { b with state := .halfOpen, halfOpenProbes := 0 }
  else b

/-- `max(0.0, x)`. -/
def wait (x : ℚ) : ℚ := if 0 < x then x else 0

/-- A lease that has run out is taken back first. -/
def reap (now : ℚ) : CircuitBreaker :=
  if cfg.halfOpenMaxProbes ≤ b.halfOpenProbes ∧ b.probeClaimedAt+cfg.openDuration ≤ now then
    { b with halfOpenProbes := 0 }
  else b

def tryHalfOpenProbe (now : ℚ) : Option ℚ × CircuitBreaker :=
  let b := b.reap cfg now
  if cfg.halfOpenMaxProbes ≤ b.halfOpenProbes then
    (some (wait (b.probeClaimedAt+cfg.openDuration-now)),b)
  else (none,{ b with halfOpenProbes := b.halfOpenProbes+1, probeClaimedAt := now })

/-- A `BreakerOpen` gives back how long to wait. The clock is read twice. -/
def check (now now' : ℚ) : Option ℚ × CircuitBreaker :=
  if !cfg.enabled then (none,b)
  else
    let b := b.checkOpen now
    match b.state with
    | .open => (some (wait (b.openedUntil-now')),b)
    | .halfOpen => b.tryHalfOpenProbe cfg now'
    | .closed => (none,b)

def trip (now : ℚ) : CircuitBreaker :=
  { b with openedUntil := now+cfg.openDuration, halfOpenProbes := 0, state := .open }

def close : CircuitBreaker := { b with window := ⟨[],0⟩, halfOpenProbes := 0, state := .closed }

def record (now now' : ℚ) (outcome : Outcome) : CircuitBreaker :=
  if !cfg.enabled then b
  else
    let b := { b with window := b.window.evict cfg.windowDuration now }
    let b := b.checkOpen now'
    match b.state with
    | .open => b
    | .halfOpen => if outcome = .success then b.close else b.trip cfg now
    | .closed =>
      let b := { b with window := b.window.push (outcome = .failure) now }
      if cfg.minSamples ≤ b.window.entries.length ∧ cfg.errorRateThreshold ≤ b.window.errorRate then
        b.trip cfg now
      else b

end CircuitBreaker

/-- How a guarded call ends: its block ends; a `BreakerOpen` leaves it, as from a guard
inside; another exception leaves it; a stream breaks with a status; it tells nothing. -/
inductive Ending
  | returns
  | shed
  | raises
  | streamFails (status : Option ℤ)
  | untold
  deriving DecidableEq

/-- What is recorded. A status that is no failure code is neutral. -/
def Ending.outcome (cfg : BreakerConfig) : Ending → Option Outcome
  | .returns => some .success
  | .shed => some .success
  | .raises => some .failure
  | .streamFails status => if status.any (· ∉ cfg.failureCodes) then none else some .failure
  | .untold => none

/-- When a call was admitted: after how many trips, and as a probe of which period. -/
structure Call where
  trips : ℕ
  probe : Option ℕ

structure Closing where
  period : ℕ
  probe : Option ℕ
  ending : Ending

structure State where
  breaker : CircuitBreaker
  calls : List Call
  trips : ℕ
  period : ℕ
  closings : List Closing

def start : State := ⟨.fresh,[],0,0,[]⟩

inductive Action
  | enter (now now' : ℚ)
  | exit (i : ℕ) (ending : Ending) (now now' : ℚ)
  /-- Someone reads the state. -/
  | look (now : ℚ)

section Step

variable (cfg : BreakerConfig)

/-- The state as a check or a record reads it. -/
def met (s : State) (now : ℚ) : BreakerState := (s.breaker.checkOpen now).state

/-- The half-open period that is under way or the last one, once the state is read. -/
def periodAt (s : State) (now : ℚ) : ℕ :=
  if s.breaker.state = .open ∧ met s now = .halfOpen then s.period+1 else s.period

def enter (s : State) (now now' : ℚ) : State :=
  let probe := if met s now = .halfOpen then some (periodAt s now) else none
  match s.breaker.check cfg now now' with
  | (some _,b) => { s with breaker := b, period := periodAt s now }
  | (none,b) =>
    { s with breaker := b, period := periodAt s now, calls := s.calls++[⟨s.trips,probe⟩] }

def tell (s : State) (i : ℕ) (c : Call) (ending : Ending) (now now' : ℚ) (outcome : Outcome) : State :=
  let b := s.breaker.record cfg now now' outcome
  { breaker := b
    calls := put s.calls i none
    trips := if met s now' ≠ .open ∧ b.state = .open then s.trips+1 else s.trips
    period := periodAt s now'
    closings := if met s now' = .halfOpen ∧ b.state = .closed then
        s.closings++[⟨periodAt s now',c.probe,ending⟩]
      else s.closings }

def step (s : State) : Action → Option State
  | .enter now now' => some (enter cfg s now now')
  | .exit i ending now now' => s.calls[i]?.map fun c =>
    match ending.outcome cfg with
    | some outcome => tell cfg s i c ending now now' outcome
    | none => { s with calls := put s.calls i none }
  | .look now =>
    some { s with breaker := s.breaker.checkOpen now, period := periodAt s now }

/-- Each closing of a half-open breaker was caused by the success of a probe of its period. -/
def Honest (s : State) : Prop := ∀ x ∈ s.closings, x.probe = some x.period ∧ x.ending = .returns

/-- A call that tells a success while the breaker is half open, or open past its time, was
admitted after the last trip, and no `BreakerOpen` has left it. -/
def Fresh (s : State) : Action → Prop
  | .exit i ending _ now' => ∀ c, s.calls[i]? = some c → ending.outcome cfg = some .success →
      met s now' = .halfOpen → c.trips = s.trips ∧ ending ≠ .shed
  | _ => True

end Step

section Proofs

variable {cfg : BreakerConfig} {s t : State} {b : CircuitBreaker} {now now' : ℚ}

theorem met_cases (s : State) (now : ℚ) :
    met s now = s.breaker.state ∧ periodAt s now = s.period ∨
      s.breaker.state = .open ∧ met s now = .halfOpen ∧ periodAt s now = s.period+1 := by
  by_cases h : s.breaker.state = .open ∧ s.breaker.openedUntil ≤ now
  · have hmet : met s now = .halfOpen := by rw [met,CircuitBreaker.checkOpen,if_pos h]
    exact .inr ⟨h.1,hmet,if_pos ⟨h.1,hmet⟩⟩
  · have hmet : met s now = s.breaker.state := by rw [met,CircuitBreaker.checkOpen,if_neg h]
    refine .inl ⟨hmet,if_neg ?_⟩
    rintro ⟨hopen,hhalf⟩
    rw [hmet,hopen] at hhalf
    cases hhalf

theorem reap_state : (b.reap cfg now).state = b.state := by
  rw [CircuitBreaker.reap]
  split <;> rfl

theorem tryHalfOpenProbe_state : (b.tryHalfOpenProbe cfg now).2.state = b.state := by
  rw [CircuitBreaker.tryHalfOpenProbe]
  split <;> exact reap_state

theorem check_state (henabled : cfg.enabled = true) :
    (b.check cfg now now').2.state = (b.checkOpen now).state ∧
      ((b.check cfg now now').1 = none → (b.checkOpen now).state ≠ .open) := by
  rw [CircuitBreaker.check,henabled]
  simp only [Bool.not_true,Bool.false_eq_true,if_false]
  split
  · next hopen => exact ⟨rfl,nofun⟩
  · next hhalf => exact ⟨tryHalfOpenProbe_state,fun _ => by rw [hhalf]; nofun⟩
  · next hclosed => exact ⟨rfl,fun _ => by rw [hclosed]; nofun⟩

theorem checkOpen_window (w : SlidingWindow) :
    ({ b with window := w }.checkOpen now).state = (b.checkOpen now).state := by
  rw [CircuitBreaker.checkOpen,CircuitBreaker.checkOpen]
  split <;> rfl

/-- What a record does to the state that it reads. -/
inductive Told (cfg : BreakerConfig) : BreakerState → Outcome → BreakerState → Prop
  | same (state : BreakerState) (outcome : Outcome) (h : state ≠ .halfOpen) : Told cfg state outcome state
  | succeeded : Told cfg .halfOpen .success .closed
  | failed (henabled : cfg.enabled = true) : Told cfg .halfOpen .failure .open
  | tripped (outcome : Outcome) (henabled : cfg.enabled = true) : Told cfg .closed outcome .open

theorem record_state (henabled : cfg.enabled = true) (outcome : Outcome) :
    Told cfg (b.checkOpen now').state outcome (b.record cfg now now' outcome).state := by
  rw [← checkOpen_window (b.window.evict cfg.windowDuration now),CircuitBreaker.record,henabled]
  simp only [Bool.not_true,Bool.false_eq_true,if_false]
  generalize ({ b with window := b.window.evict cfg.windowDuration now }.checkOpen now') = b'
  cases hstate : b'.state with
  | «open» =>
    dsimp only
    rw [hstate]
    exact .same _ _ nofun
  | halfOpen =>
    cases outcome with
    | success => exact .succeeded
    | failure => exact .failed henabled
  | closed =>
    dsimp only
    split
    · exact .tripped _ henabled
    · exact .same _ _ nofun

/-- What holds between the state of the breaker, the counters and the admissions. -/
structure Inv (cfg : BreakerConfig) (state : BreakerState) (calls : List Call) (trips period : ℕ) :
    Prop where
  enabled : state ≠ .closed → cfg.enabled = true
  counted : period+(if state = .open then 1 else 0) = trips
  le : ∀ c ∈ calls, c.trips ≤ trips
  probes : ∀ c ∈ calls, ∀ n, c.probe = some n → n = c.trips
  current : ∀ c ∈ calls, c.trips = trips → state ≠ .closed → state = .halfOpen ∧ c.probe = some trips

namespace Inv

variable {state : BreakerState} {calls calls' : List Call} {trips period : ℕ}

theorem subset (h : Inv cfg state calls trips period) (hsub : ∀ c ∈ calls', c ∈ calls) :
    Inv cfg state calls' trips period :=
  ⟨h.enabled,h.counted,fun c hc => h.le c (hsub c hc),fun c hc => h.probes c (hsub c hc),
    fun c hc => h.current c (hsub c hc)⟩

theorem read (h : Inv cfg s.breaker.state s.calls s.trips s.period) (now : ℚ) :
    Inv cfg (met s now) s.calls s.trips (periodAt s now) := by
  rcases met_cases s now with ⟨hmet,hperiod⟩ | ⟨hopen,hhalf,hperiod⟩
  · rw [hmet,hperiod]
    exact h
  · have hcounted := h.counted
    rw [hopen,if_pos rfl] at hcounted
    rw [hhalf,hperiod]
    refine ⟨fun _ => h.enabled (by rw [hopen]; nofun),by simpa using hcounted,h.le,h.probes,
      fun c hc heq _ => ?_⟩
    -- No call was admitted while the breaker was open.
    have hnone := (h.current c hc heq (by rw [hopen]; nofun)).1
    rw [hopen] at hnone
    cases hnone

theorem push (h : Inv cfg state calls trips period) (hstate : state ≠ .open) :
    Inv cfg state (calls++[⟨trips,if state = .halfOpen then some period else none⟩]) trips period := by
  have hcounted := h.counted
  rw [if_neg hstate,Nat.add_zero] at hcounted
  subst hcounted
  refine ⟨h.enabled,h.counted,fun c hc => ?_,fun c hc n hn => ?_,fun c hc heq hclosed => ?_⟩ <;>
    rcases List.mem_append.mp hc with hc | hc
  · exact h.le c hc
  · exact Nat.le_of_eq (congrArg Call.trips (List.mem_singleton.mp hc))
  · exact h.probes c hc n hn
  · rw [List.mem_singleton.mp hc] at hn ⊢
    split at hn <;> cases hn
    rfl
  · exact h.current c hc heq hclosed
  · have hhalf : state = .halfOpen := by
      cases state with
      | closed => exact absurd rfl hclosed
      | «open» => exact absurd rfl hstate
      | halfOpen => rfl
    rw [List.mem_singleton.mp hc]
    exact ⟨hhalf,if_pos hhalf⟩

theorem tripped (h : Inv cfg state calls trips period) (hstate : state ≠ .open)
    (henabled : cfg.enabled = true) : Inv cfg .open calls (trips+1) period := by
  have hcounted := h.counted
  rw [if_neg hstate,Nat.add_zero] at hcounted
  refine ⟨fun _ => henabled,by rw [hcounted,if_pos rfl],fun c hc => ?_,h.probes,fun c hc heq _ => ?_⟩
  · exact Nat.le_succ_of_le (h.le c hc)
  · have hle := h.le c hc
    omega

theorem closed (h : Inv cfg .halfOpen calls trips period) : Inv cfg .closed calls trips period :=
  ⟨fun hne => absurd rfl hne,h.counted,h.le,h.probes,fun _ _ _ hne => absurd rfl hne⟩

end Inv

/-- The invariant of a state. -/
def Inv.Of (cfg : BreakerConfig) (s : State) : Prop :=
  Inv cfg s.breaker.state s.calls s.trips s.period

theorem met_of_disabled (h : Inv.Of cfg s) (hdisabled : ¬cfg.enabled = true) (now : ℚ) :
    s.breaker.state = .closed ∧ met s now = .closed := by
  have hclosed : s.breaker.state = .closed := by
    by_contra hne
    exact hdisabled (h.enabled hne)
  rcases met_cases s now with ⟨hmet,-⟩ | ⟨hopen,-⟩
  · exact ⟨hclosed,hmet.trans hclosed⟩
  · rw [hclosed] at hopen
    cases hopen

theorem check_met (h : Inv.Of cfg s) (now now' : ℚ) :
    (s.breaker.check cfg now now').2.state = met s now ∧
      ((s.breaker.check cfg now now').1 = none → met s now ≠ .open) := by
  by_cases henabled : cfg.enabled = true
  · exact check_state henabled
  · obtain ⟨hclosed,hmet⟩ := met_of_disabled h henabled now
    rw [CircuitBreaker.check,if_pos (by simp [henabled]),hmet]
    exact ⟨hclosed,fun _ => by nofun⟩

theorem record_met (h : Inv.Of cfg s) (now now' : ℚ) (outcome : Outcome) :
    Told cfg (met s now') outcome (s.breaker.record cfg now now' outcome).state := by
  by_cases henabled : cfg.enabled = true
  · exact record_state henabled outcome
  · obtain ⟨hclosed,hmet⟩ := met_of_disabled h henabled now'
    rw [CircuitBreaker.record,if_pos (by simp [henabled]),hmet,hclosed]
    exact .same _ _ nofun

theorem inv_step {a : Action} (h : step cfg s a = some t) (hs : Inv.Of cfg s) : Inv.Of cfg t := by
  cases a with
  | enter now now' =>
    cases h
    have hcheck := check_met hs now now'
    have hread := hs.read now
    rw [Inv.Of,enter]
    split
    · next retryAfter b hb =>
      rw [hb] at hcheck
      rw [← hcheck.1] at hread
      exact hread
    · next b hb =>
      rw [hb] at hcheck
      have hpush := hread.push (hcheck.2 rfl)
      dsimp only
      rw [hcheck.1]
      exact hpush
  | exit i ending now now' =>
    obtain ⟨c,-,rfl⟩ := Option.map_eq_some_iff.mp h
    split
    · next outcome ho =>
      have hread := (hs.read now').subset fun c (hc : c ∈ put s.calls i none) => mem_put_none hc
      have htold := record_met hs now now' outcome
      rw [Inv.Of,tell]
      dsimp only
      generalize (s.breaker.record cfg now now' outcome).state = state at htold ⊢
      generalize met s now' = before at hread htold ⊢
      cases htold with
      | same _ _ hne =>
        rw [if_neg fun hh => hh.1 hh.2]
        exact hread
      | succeeded => exact hread.closed
      | failed henabled => exact hread.tripped nofun henabled
      | tripped _ henabled => exact hread.tripped nofun henabled
    · exact hs.subset fun c hc => mem_put_none hc
  | look now =>
    cases h
    exact hs.read now

theorem inv_start : Inv.Of cfg start := ⟨fun h => absurd rfl h,rfl,nofun,nofun,nofun⟩

theorem returns_of_success {ending : Ending} (h : ending.outcome cfg = some .success)
    (hshed : ending ≠ .shed) : ending = .returns := by
  cases ending with
  | returns => rfl
  | shed => exact absurd rfl hshed
  | raises => cases h
  | untold => cases h
  | streamFails status =>
    rw [Ending.outcome] at h
    split at h <;> cases h

theorem probe_iff {calls : List Call} {trips period : ℕ} {c : Call} {ending : Ending}
    (h : Inv cfg .halfOpen calls trips period) (hc : c ∈ calls)
    (hsuccess : ending.outcome cfg = some .success) :
    c.probe = some period ∧ ending = .returns ↔ c.trips = trips ∧ ending ≠ .shed := by
  have hcounted : period = trips := h.counted
  subst hcounted
  constructor
  · rintro ⟨hprobe,rfl⟩
    exact ⟨(h.probes c hc _ hprobe).symm,nofun⟩
  · rintro ⟨htrips,hshed⟩
    exact ⟨(h.current c hc htrips nofun).2,returns_of_success hsuccess hshed⟩

theorem fresh_exit_iff {i : ℕ} {c : Call} {ending : Ending} {outcome : Outcome}
    (hi : s.calls[i]? = some c) (ho : ending.outcome cfg = some outcome) :
    Fresh cfg s (.exit i ending now now') ↔
      (outcome = .success → met s now' = .halfOpen → c.trips = s.trips ∧ ending ≠ .shed) := by
  rw [Fresh]
  constructor
  · rintro h rfl
    exact h c hi ho
  · intro h c' hi' ho'
    rw [hi] at hi'
    cases hi'
    exact h (Option.some.inj (ho.symm.trans ho'))

theorem honest_step_iff {a : Action} (h : step cfg s a = some t) (hs : Inv.Of cfg s)
    (hhonest : Honest s) : Honest t ↔ Fresh cfg s a := by
  cases a with
  | enter now now' =>
    cases h
    refine ⟨fun _ => trivial,fun _ => ?_⟩
    rw [enter]
    split <;> exact hhonest
  | look now =>
    cases h
    exact ⟨fun _ => trivial,fun _ => hhonest⟩
  | exit i ending now now' =>
    obtain ⟨c,hi,rfl⟩ := Option.map_eq_some_iff.mp h
    have hc := List.mem_of_getElem? hi
    split
    · next outcome ho =>
      have htold := record_met hs now now' outcome
      have hread := hs.read now'
      rw [fresh_exit_iff hi ho,tell,Honest]
      dsimp only
      generalize (s.breaker.record cfg now now' outcome).state = state at htold ⊢
      generalize met s now' = before at hread htold ⊢
      cases htold with
      | same _ _ hne =>
        rw [if_neg fun hh => hne hh.1]
        exact iff_of_true hhonest fun _ hhalf => absurd hhalf hne
      | failed henabled => exact iff_of_true hhonest nofun
      | tripped _ henabled => exact iff_of_true hhonest fun _ => nofun
      | succeeded =>
        rw [if_pos ⟨rfl,rfl⟩,List.forall_mem_append,List.forall_mem_singleton,probe_iff hread hc ho]
        exact ⟨fun hall _ _ => hall.2,fun hfresh => ⟨hhonest,hfresh rfl rfl⟩⟩
    · next ho =>
      refine ⟨fun _ c' _ ho' => ?_,fun _ => hhonest⟩
      rw [ho] at ho'
      cases ho'

/-- In every state of a run the closings are honest, exactly when each success that is told
while the breaker is half open is fresh. -/
theorem honest_throughout_iff {as : List Action} {u : State}
    (h : Run (step cfg) always start as u) :
    Throughout (step cfg) Honest start as ↔ Run (step cfg) (Fresh cfg) start as u :=
  throughout_iff (fun s _ _ _ hst (hs : Inv.Of cfg s) _ _ => inv_step hst hs)
    (fun _ _ _ _ hst hs hP => honest_step_iff hst hs hP) h inv_start nofun

end Proofs

/-- The second of two calls in flight is one that fails, ten times over. -/
def tenFailures : List Action := (List.replicate 10 [.enter 0 0,.exit 1 .raises 0 0]).flatten

/-- A slow call ends while the breaker is open; the probe closes it later. -/
def slowInTime : List Action :=
  .enter 0 0::tenFailures++[.exit 0 .returns 5 5,.enter 10 10,.exit 0 .returns 11 11]

theorem honest_slowInTime : Throughout (step .server) Honest start slowInTime ↔
    Run (step .server) (Fresh .server) start slowInTime (last (step .server) start slowInTime) :=
  honest_throughout_iff (run_last (by decide +kernel))

/-- The slow call ends while a probe is out. -/
def slowTooLate : List Action :=
  .enter 0 0::tenFailures++[.enter 10 10,.exit 0 .returns 11 11]

theorem slowTooLate_not_honest :
    ¬∀ as s, Run (step .server) always start as s → Honest s := by
  intro h
  have hhonest := h slowTooLate _ (run_last (by decide +kernel))
  have hclosing : ((last (step .server) start slowTooLate).closings.map Closing.probe) = [none] := by
    decide +kernel
  obtain ⟨x,hx,hprobe⟩ := List.mem_map.mp (hclosing ▸ List.mem_singleton_self none)
  rw [(hhonest x hx).1] at hprobe
  cases hprobe

end MinimaxCode.CallBreaker
