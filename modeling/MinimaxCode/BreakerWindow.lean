import Mathlib.Algebra.Order.Field.Rat
import Mathlib.Data.List.DropRight
import Mathlib.Data.List.Induction
import Mathlib.Tactic.Linarith
import MinimaxCode.CallBreaker

/-!
# What the window of a breaker holds

The window of a breaker loses samples by age, by its capacity and when the breaker closes, and
counts the failures as it goes. It stands for a plain list: the outcomes recorded while the
breaker was closed, since it last closed, without those that are too old when the last outcome
is recorded. The window is the end of that list, under a clock that does not run backwards.
-/

namespace MinimaxCode
namespace CallBreaker

abbrev Timed (l : List (ℚ × Bool)) : Prop := l.Pairwise fun e e' => e.1 ≤ e'.1

theorem timed_append_singleton {l : List (ℚ × Bool)} {e : ℚ × Bool} :
    Timed (l++[e]) ↔ Timed l ∧ ∀ e' ∈ l, e'.1 ≤ e.1 := by
  simp [Timed,List.pairwise_append]

theorem filter_rtake {l : List (ℚ × Bool)} (hl : Timed l) (n : ℕ) (c : ℚ) :
    (l.rtake n).filter (fun e => c ≤ e.1) = (l.filter fun e => c ≤ e.1).rtake n := by
  induction l using List.reverseRecOn generalizing n with
  | nil => simp
  | append_singleton l e ih =>
    obtain ⟨hl,hlast⟩ := timed_append_singleton.mp hl
    cases n with
    | zero => simp
    | succ n =>
      by_cases he : c ≤ e.1
      · simp [List.filter_append,he,List.rtake_concat_succ,ih hl n]
      · have hnone : ∀ m, ((l.rtake m).filter fun e => c ≤ e.1) = [] := by
          refine fun m => List.filter_eq_nil_iff.mpr fun e' he' hc => he ?_
          exact (of_decide_eq_true hc).trans (hlast e' (List.mem_of_mem_drop he'))
        have hall : (l.filter fun e => c ≤ e.1) = [] := by
          have := hnone l.length
          rwa [List.rtake,Nat.sub_self,List.drop_zero] at this
        rw [List.rtake_concat_succ,List.filter_append,List.filter_append,hnone,hall]
        simp [he]

theorem tail_rtake {α : Type*} (l : List α) (n : ℕ) :
    (if n+1 ≤ (l.rtake (n+1)).length then (l.rtake (n+1)).tail else l.rtake (n+1)) = l.rtake n := by
  simp only [List.rtake,List.length_drop,List.tail_drop]
  split
  · congr 1
    omega
  · congr 1
    omega

namespace SlidingWindow

/-- The window of the entries, with its counter right. -/
def ofEntries (l : List (ℚ × Bool)) : SlidingWindow := ⟨l,l.countP Prod.snd⟩

theorem popleft_ofEntries (l : List (ℚ × Bool)) : (ofEntries l).popleft = ofEntries l.tail := by
  cases l with
  | nil => rfl
  | cons e l =>
    rcases e with ⟨t,_ | _⟩
    · simp [popleft,ofEntries]
    · simp [popleft,ofEntries]

theorem append_ofEntries (l : List (ℚ × Bool)) (isFailure : Bool) (t : ℚ) :
    (⟨l++[(t,isFailure)],if isFailure then (ofEntries l).failures+1 else (ofEntries l).failures⟩ :
      SlidingWindow) = ofEntries (l++[(t,isFailure)]) := by
  cases isFailure <;> simp [ofEntries]

theorem push_ofEntries (l : List (ℚ × Bool)) (isFailure : Bool) (t : ℚ) :
    (ofEntries (l.rtake maxWindowEntries)).push isFailure t =
      ofEntries ((l++[(t,isFailure)]).rtake maxWindowEntries) := by
  obtain ⟨n,hn⟩ : ∃ n, maxWindowEntries = n+1 := ⟨9999,rfl⟩
  have hroom : (if n+1 ≤ (ofEntries (l.rtake (n+1))).entries.length then
      (ofEntries (l.rtake (n+1))).popleft else ofEntries (l.rtake (n+1))) = ofEntries (l.rtake n) := by
    rw [← tail_rtake l n,popleft_ofEntries,ofEntries]
    split
    · rfl
    · rfl
  rw [push,hn,hroom,List.rtake_concat_succ]
  exact append_ofEntries _ isFailure t

theorem evict_ofEntries {l : List (ℚ × Bool)} (hl : Timed l) (window now : ℚ) :
    (ofEntries l).evict window now = ofEntries (l.filter fun e => now-window ≤ e.1) := by
  unfold evict
  generalize now-window = c
  induction l with
  | nil => rfl
  | cons e l ih =>
    obtain ⟨hfirst,hl⟩ := List.pairwise_cons.mp hl
    by_cases he : e.1 < c
    · have hcount : (if e.2 then (ofEntries (e::l)).failures-1 else (ofEntries (e::l)).failures) =
          (ofEntries l).failures := by
        rcases e with ⟨t,_ | _⟩ <;> simp [ofEntries]
      rw [ofEntries,evictBefore,if_pos he,List.filter_cons_of_neg (by simpa using he)]
      exact (congrArg (evictBefore c l) hcount).trans (ih hl)
    · have hall : (e::l).filter (fun e => c ≤ e.1) = e::l := by
        refine List.filter_eq_self.mpr fun e' he' => decide_eq_true ?_
        cases List.mem_cons.mp he' with
        | inl heq => exact heq ▸ not_lt.mp he
        | inr hmem => exact (not_lt.mp he).trans (hfirst e' hmem)
      rw [hall,ofEntries,evictBefore,if_neg he]

end SlidingWindow

end CallBreaker

namespace BreakerWindow

open CallBreaker Runs

/-- Beside the breaker stand the clock, when the last outcome was recorded, the samples since
the breaker last closed and the trips so far. The sample of the last outcome stands apart. -/
structure State where
  breaker : CircuitBreaker
  clock : ℚ
  asOf : ℚ
  older : List (ℚ × Bool)
  newest : List (ℚ × Bool)
  trips : ℕ

def start (now : ℚ) : State := ⟨.fresh,now,now,[],[],0⟩

/-- The clock is read twice by a check and by a record. -/
inductive Action
  | record (now now' : ℚ) (outcome : Outcome)
  | check (now now' : ℚ)
  /-- Someone reads the state. -/
  | look (now : ℚ)

section Step

variable (cfg : BreakerConfig)

/-- The trips once the breaker, which was in the first state, is in the second. -/
def tripsAfter (trips : ℕ) (read state : BreakerState) : ℕ :=
  if read ≠ .open ∧ state = .open then trips+1 else trips

def record (s : State) (now now' : ℚ) (outcome : Outcome) : State :=
  let read := (s.breaker.checkOpen now').state
  let b := s.breaker.record cfg now now' outcome
  { breaker := b
    clock := now'
    asOf := now
    older := if read = .halfOpen ∧ b.state = .closed then [] else s.older++s.newest
    newest := if read = .closed then [(now,decide (outcome = .failure))] else []
    trips := tripsAfter s.trips read b.state }

/-- Time does not run backwards. A breaker that is switched off records nothing. -/
def step (s : State) : Action → Option State
  | .record now now' outcome =>
    if s.clock ≤ now ∧ now ≤ now' then
      some (if cfg.enabled then record cfg s now now' outcome else { s with clock := now' })
    else none
  | .check now now' =>
    if s.clock ≤ now ∧ now ≤ now' then
      let b := (s.breaker.check cfg now now').2
      some { s with
        breaker := b, clock := now'
        trips := tripsAfter s.trips s.breaker.state b.state }
    else none
  | .look now =>
    if s.clock ≤ now then
      let b := s.breaker.checkOpen now
      some { s with breaker := b, clock := now, trips := tripsAfter s.trips s.breaker.state b.state }
    else none

/-- The samples that are not too old when the last outcome is recorded, and that outcome. -/
def recent (s : State) : List (ℚ × Bool) :=
  s.older.filter (fun e => s.asOf-cfg.windowDuration ≤ e.1)++s.newest

/-- The part of the samples that are failures. -/
def failureRate (l : List (ℚ × Bool)) : ℚ := if l.isEmpty then 0 else l.countP Prod.snd/l.length

/-- There are enough samples, and enough of them are failures. -/
def Breached (l : List (ℚ × Bool)) : Prop :=
  cfg.minSamples ≤ l.length ∧ cfg.errorRateThreshold ≤ failureRate l

/-- The action, from the first state to the second, is one at which the breaker has to trip:
the samples of a closed breaker breach its threshold, or the probe of a half-open one fails. -/
def Due (s t : State) : Action → Prop
  | .record _ now' outcome => cfg.enabled = true ∧
    ((s.breaker.checkOpen now').state = .closed ∧
        Breached cfg ((recent cfg t).rtake SlidingWindow.maxWindowEntries) ∨
      (s.breaker.checkOpen now').state = .halfOpen ∧ outcome = .failure)
  | _ => False

end Step

section Proofs

variable {cfg : BreakerConfig} {s t : State} {b : CircuitBreaker} {now now' : ℚ} {outcome : Outcome}

theorem errorRate_ofEntries (l : List (ℚ × Bool)) :
    (SlidingWindow.ofEntries l).errorRate = failureRate l := by
  simp [SlidingWindow.errorRate,SlidingWindow.ofEntries,failureRate]

theorem checkOpen_window (b : CircuitBreaker) (now : ℚ) : (b.checkOpen now).window = b.window := by
  rw [CircuitBreaker.checkOpen]
  split <;> rfl

/-- The window once an outcome is recorded, by the state that is read. -/
def windowAfter (read : BreakerState) (w : SlidingWindow) (now : ℚ) (outcome : Outcome) :
    SlidingWindow :=
  match read with
  | .open => w
  | .halfOpen => if outcome = .success then ⟨[],0⟩ else w
  | .closed => w.push (outcome = .failure) now

theorem record_window (henabled : cfg.enabled = true) :
    (b.record cfg now now' outcome).window =
      windowAfter (b.checkOpen now').state (b.window.evict cfg.windowDuration now) now outcome := by
  have hread : ({ b with window := b.window.evict cfg.windowDuration now }.checkOpen now').state =
      (b.checkOpen now').state := CallBreaker.checkOpen_window _
  have hwindow := checkOpen_window { b with window := b.window.evict cfg.windowDuration now } now'
  rw [CircuitBreaker.record,henabled,← hread]
  simp only [Bool.not_true,Bool.false_eq_true,if_false]
  generalize ({ b with window := b.window.evict cfg.windowDuration now }.checkOpen now') = b' at hwindow
  cases hstate : b'.state with
  | «open» => exact hwindow
  | halfOpen =>
    cases outcome with
    | success => rfl
    | failure => exact hwindow
  | closed =>
    dsimp only at hwindow ⊢
    rw [hwindow]
    split <;> rfl

theorem record_opens (henabled : cfg.enabled = true) :
    ((b.checkOpen now').state ≠ .open ∧ (b.record cfg now now' outcome).state = .open) ↔
      (b.checkOpen now').state = .closed ∧
          cfg.minSamples ≤ (b.record cfg now now' outcome).window.entries.length ∧
          cfg.errorRateThreshold ≤ (b.record cfg now now' outcome).window.errorRate ∨
        (b.checkOpen now').state = .halfOpen ∧ outcome = .failure := by
  have hread : ({ b with window := b.window.evict cfg.windowDuration now }.checkOpen now').state =
      (b.checkOpen now').state := CallBreaker.checkOpen_window _
  rw [CircuitBreaker.record,henabled,← hread]
  simp only [Bool.not_true,Bool.false_eq_true,if_false]
  generalize ({ b with window := b.window.evict cfg.windowDuration now }.checkOpen now') = b'
  cases hstate : b'.state with
  | «open» => simp
  | halfOpen => cases outcome <;> simp [CircuitBreaker.close,CircuitBreaker.trip]
  | closed =>
    dsimp only
    split
    · next h => simpa [CircuitBreaker.trip] using h
    · next h => simpa [hstate] using h

/-- The window is the end of the recent samples. -/
structure Inv (cfg : BreakerConfig) (s : State) : Prop where
  timed : Timed (s.older++s.newest)
  le : ∀ e ∈ s.older++s.newest, e.1 ≤ s.clock
  asOf : s.asOf ≤ s.clock
  window : s.breaker.window = .ofEntries ((recent cfg s).rtake SlidingWindow.maxWindowEntries)

theorem timed_recent (hs : Inv cfg s) : Timed (recent cfg s) :=
  hs.timed.sublist (List.filter_sublist.append_right _)

theorem filter_recent (h : s.asOf ≤ now) :
    ((recent cfg s).filter fun e => now-cfg.windowDuration ≤ e.1) =
      (s.older++s.newest).filter fun e => now-cfg.windowDuration ≤ e.1 := by
  have hboth : ∀ e : ℚ × Bool, (decide (now-cfg.windowDuration ≤ e.1) &&
      decide (s.asOf-cfg.windowDuration ≤ e.1)) = decide (now-cfg.windowDuration ≤ e.1) := by
    intro e
    rw [Bool.and_eq_left_iff_imp,decide_eq_true_eq,decide_eq_true_eq]
    exact ((sub_le_sub_right h _).trans ·)
  rw [recent,List.filter_append,List.filter_append,List.filter_filter]
  simp only [hboth]

theorem evict_window (hs : Inv cfg s) (hnow : s.clock ≤ now) :
    s.breaker.window.evict cfg.windowDuration now =
      .ofEntries (((s.older++s.newest).filter fun e => now-cfg.windowDuration ≤ e.1).rtake
        SlidingWindow.maxWindowEntries) := by
  have hend : Timed ((recent cfg s).rtake SlidingWindow.maxWindowEntries) :=
    (timed_recent hs).sublist (List.drop_sublist _ _)
  rw [hs.window,SlidingWindow.evict_ofEntries hend,filter_rtake (timed_recent hs),filter_recent (hs.asOf.trans hnow)]

theorem record_halfOpen (henabled : cfg.enabled = true)
    (hread : (b.checkOpen now').state = .halfOpen) :
    (b.record cfg now now' outcome).state = .closed ↔ outcome = .success := by
  have hstate : Told cfg (b.checkOpen now').state outcome (b.record cfg now now' outcome).state :=
    record_state henabled outcome
  rw [hread] at hstate
  generalize (b.record cfg now now' outcome).state = after at hstate
  cases hstate with
  | same _ _ h => exact absurd rfl h
  | succeeded => simp
  | failed => simp

theorem record_window_recent (hs : Inv cfg s) (henabled : cfg.enabled = true) (hnow : s.clock ≤ now)
    (now' : ℚ) (outcome : Outcome) : (s.breaker.record cfg now now' outcome).window =
      .ofEntries ((recent cfg (record cfg s now now' outcome)).rtake SlidingWindow.maxWindowEntries) := by
  rw [record_window henabled,evict_window hs hnow,recent,record]
  cases hread : (s.breaker.checkOpen now').state with
  | «open» => simp [windowAfter]
  | halfOpen =>
    dsimp only [windowAfter]
    simp only [true_and,record_halfOpen henabled hread]
    cases outcome with
    | success => simp [SlidingWindow.ofEntries]
    | failure => simp
  | closed =>
    rw [windowAfter,SlidingWindow.push_ofEntries]
    simp

theorem Inv.record (hs : Inv cfg s) (henabled : cfg.enabled = true) (hnow : s.clock ≤ now)
    (hnow' : now ≤ now') : Inv cfg (record cfg s now now' outcome) := by
  have hbefore : ∀ e ∈ s.older++s.newest, e.1 ≤ now := fun e he => (hs.le e he).trans hnow
  have holder : (BreakerWindow.record cfg s now now' outcome).older.Sublist (s.older++s.newest) := by
    dsimp only [BreakerWindow.record]
    split
    · exact List.nil_sublist _
    · exact .refl _
  have hnewest : ∀ e ∈ (BreakerWindow.record cfg s now now' outcome).newest, e.1 = now := by
    dsimp only [BreakerWindow.record]
    split <;> simp
  have hshort : (BreakerWindow.record cfg s now now' outcome).newest.Pairwise fun e e' => e.1 ≤ e'.1 := by
    dsimp only [BreakerWindow.record]
    split <;> simp
  refine ⟨List.pairwise_append.mpr ⟨hs.timed.sublist holder,hshort,fun e he e' he' => ?_⟩,
    fun e he => ?_,hnow',record_window_recent hs henabled hnow now' outcome⟩
  · rw [hnewest e' he']
    exact hbefore e (holder.mem he)
  · cases List.mem_append.mp he with
    | inl he => exact (hbefore e (holder.mem he)).trans hnow'
    | inr he => exact (hnewest e he).le.trans hnow'

theorem check_window (b : CircuitBreaker) : (b.check cfg now now').2.window = b.window := by
  have hprobe : ∀ b : CircuitBreaker, (b.tryHalfOpenProbe cfg now').2.window = b.window := by
    intro b
    rw [CircuitBreaker.tryHalfOpenProbe,CircuitBreaker.reap]
    split <;> split <;> rfl
  rw [CircuitBreaker.check]
  split
  · rfl
  · dsimp only
    split
    · exact checkOpen_window b now
    · exact (hprobe _).trans (checkOpen_window b now)
    · exact checkOpen_window b now

theorem Inv.frame (hs : Inv cfg s) (hclock : s.clock ≤ now) {trips : ℕ}
    (hwindow : b.window = s.breaker.window) :
    Inv cfg { s with breaker := b, clock := now, trips := trips } :=
  ⟨hs.timed,fun e he => (hs.le e he).trans hclock,hs.asOf.trans hclock,hwindow.trans hs.window⟩

theorem inv_step {a : Action} (h : step cfg s a = some t) (hs : Inv cfg s) : Inv cfg t := by
  cases a with
  | record now now' outcome =>
    obtain ⟨⟨hnow,hnow'⟩,ht⟩ := Option.ite_none_right_eq_some.mp h
    cases ht
    split
    · next henabled => exact hs.record henabled hnow hnow'
    · exact hs.frame (hnow.trans hnow') rfl
  | check now now' =>
    obtain ⟨⟨hnow,hnow'⟩,ht⟩ := Option.ite_none_right_eq_some.mp h
    cases ht
    exact hs.frame (hnow.trans hnow') (check_window _)
  | look now =>
    obtain ⟨hnow,ht⟩ := Option.ite_none_right_eq_some.mp h
    cases ht
    exact hs.frame hnow (checkOpen_window _ _)

theorem inv_start (now : ℚ) : Inv cfg (start now) where
  timed := .nil
  le := fun e he => absurd he List.not_mem_nil
  asOf := le_rfl
  window := by simp [recent,start,CircuitBreaker.fresh,SlidingWindow.ofEntries]

theorem tripsAfter_ne {trips : ℕ} {read state : BreakerState} :
    tripsAfter trips read state ≠ trips ↔ read ≠ .open ∧ state = .open := by
  rw [tripsAfter]
  split <;> simp_all

theorem checkOpen_opens : ¬(b.state ≠ .open ∧ (b.checkOpen now).state = .open) := by
  rintro ⟨hstate,hopen⟩
  rw [CircuitBreaker.checkOpen,if_neg (fun h => hstate h.1)] at hopen
  exact hstate hopen

theorem check_opens : ¬(b.state ≠ .open ∧ (b.check cfg now now').2.state = .open) := by
  by_cases henabled : cfg.enabled = true
  · rw [(check_state henabled).1]
    exact checkOpen_opens
  · rw [CircuitBreaker.check,if_pos (by simp [henabled])]
    exact fun h => h.1 h.2

theorem trips_iff_due {a : Action} (hs : Inv cfg s) (h : step cfg s a = some t) :
    t.trips ≠ s.trips ↔ Due cfg s t a := by
  cases a with
  | record now now' outcome =>
    obtain ⟨⟨hnow,hnow'⟩,ht⟩ := Option.ite_none_right_eq_some.mp h
    cases ht
    by_cases henabled : cfg.enabled = true
    · rw [if_pos henabled,Due,Breached]
      have hwindow := record_window_recent hs henabled hnow now' outcome
      refine tripsAfter_ne.trans ((record_opens henabled).trans ?_)
      generalize (recent cfg (record cfg s now now' outcome)).rtake _ = l at hwindow ⊢
      rw [hwindow,errorRate_ofEntries]
      exact (and_iff_right henabled).symm
    · rw [if_neg henabled]
      exact ⟨fun hne => absurd rfl hne,fun hdue => absurd hdue.1 henabled⟩
  | check now now' =>
    obtain ⟨-,ht⟩ := Option.ite_none_right_eq_some.mp h
    cases ht
    exact ⟨fun hne => check_opens (tripsAfter_ne.mp hne),False.elim⟩
  | look now =>
    obtain ⟨-,ht⟩ := Option.ite_none_right_eq_some.mp h
    cases ht
    exact ⟨fun hne => checkOpen_opens (tripsAfter_ne.mp hne),False.elim⟩

/-- In every run the counter is right, the window holds the most recent of the samples that
were not too old when the last outcome was recorded, and the breaker trips when it has to. -/
theorem window_refines {now : ℚ} {as : List Action}
    (h : Run (step cfg) always (start now) as s) :
    s.breaker.window.failures = s.breaker.window.entries.countP Prod.snd ∧
      s.breaker.window.entries = (recent cfg s).rtake SlidingWindow.maxWindowEntries ∧
      ∀ a t, step cfg s a = some t → (t.trips ≠ s.trips ↔ Due cfg s t a) := by
  have hs : Inv cfg s := h.invariant (fun _ _ _ _ hst => inv_step hst) (inv_start now)
  have hwindow := hs.window
  generalize (recent cfg s).rtake SlidingWindow.maxWindowEntries = l at hwindow ⊢
  rw [hwindow]
  exact ⟨rfl,rfl,fun a t => trips_iff_due hs⟩

/-- Ten failures trip the breaker, and later its state is read. -/
def tenFailures : List Action := List.replicate 10 (.record 0 0 .failure)++[.look 100]

theorem tenFailures_window :
    let s := last (step .server) (start 0) tenFailures
    s.breaker.window.failures = s.breaker.window.entries.countP Prod.snd ∧
      s.breaker.window.entries = (recent .server s).rtake SlidingWindow.maxWindowEntries ∧
      ∀ a t, step .server s a = some t → (t.trips ≠ s.trips ↔ Due .server s t a) :=
  window_refines (run_last (by decide +kernel))

/-- What is in the window can be too old by the time of a query, and a failed probe trips the
breaker on an empty window. -/
theorem failedProbe_trips : ∃ s t, Run (step .server) always (start 0) tenFailures s ∧
    (∃ e ∈ s.breaker.window.entries, e.1 < s.clock-BreakerConfig.server.windowDuration) ∧
    step .server s (.record 101 101 .failure) = some t ∧ t.trips = s.trips+1 ∧
    t.breaker.window.entries = [] := by
  refine ⟨last (step .server) (start 0) tenFailures,
    last (step .server) (start 0) (tenFailures++[.record 101 101 .failure]),
    run_last (by decide +kernel),⟨(0,true),by decide +kernel,by decide +kernel⟩,?_⟩
  refine ⟨?_,by decide +kernel,by decide +kernel⟩
  exact step_last (by decide +kernel)

end Proofs

end BreakerWindow
end MinimaxCode
