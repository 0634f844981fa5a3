import MinimaxCode.WsResume

/-!
# Resuming after a restart

A client that holds a number of an earlier process resets at most once and then connects
without a cursor, and the server replays nothing to a client without a cursor. It gets
the whole log of the new process only if it connects before anything was recorded.
-/

namespace MinimaxCode.Ws

open Runs SequencedLog

variable {C E : Type*}

/-- A new server process. All clients are disconnected, and `c` holds any number of an
earlier process. -/
structure Restarted (c : C) (s : State C E) : Prop where
  server : s.nextSeq = 0 ∧ s.history = [] ∧ s.listener = false ∧ s.clients = []
  logs : s.published = [] ∧ s.recorded = []
  conns : ∀ c i, s.conns c i = ⟨[],[],none⟩
  down : ∀ c, (s.web c).connected = false
  client : (s.web c).dispatched = [] ∧ (s.web c).resets = 0
  since : (s.web c).first = some 0 ∧ (s.web c).base = 0

/-- The client was reset at most once, it dispatched the log of the process in order and
without repetition, and all of it once everything has arrived. -/
structure Restored (c : C) (s : State C E) : Prop where
  resets : (s.web c).resets ≤ 1
  dispatched : (s.web c).dispatched <+: s.recorded
  settled : Settled c s → (s.web c).dispatched = s.recorded

section Restart

variable {c : C} {s₀ s : State C E}

theorem Restarted.logged (h : Restarted c s₀) : Logged s₀ := by
  constructor
  · rw [h.logs.2]
    exact numbered_nil
  · rw [h.logs.2,h.server.1]
    rfl
  · simp [h.logs.2,h.server.2.1,ring]

theorem Restarted.wired (h : Restarted c s₀) : Wired s₀ :=
  ⟨by simp [h.conns],by simp [h.conns],by simp [h.conns]⟩

theorem Restarted.tracked (h : Restarted c s₀) : Tracked c s₀ := by
  refine ⟨h.logged,h.wired,⟨fun hnone => ?_,fun _ => ?_⟩⟩
  · rw [h.since.1] at hnone
    cases hnone
  · have hnil := h.client.1
    have hbase := h.since.2
    exact ⟨by simp [hnil,hbase],by simp [h.logs.2],by simp [hnil],fun hne => absurd hnil hne,
      fun _ => .inr hbase,by simp [h.down]⟩

variable [DecidableEq C] {as : List (Action C E)}

theorem Restarted.resets (h : Restarted c s₀) (hrun : Run step always s₀ as s) :
    (s.web c).resets ≤ 1 := by
  have hinv : Logged s ∧ Wired s ∧ ResetOnce c s := by
    refine @Run.invariant _ _ _ _ (fun s => Logged s ∧ Wired s ∧ ResetOnce c s)
      (fun s a t _ hstep hi => ?_) _ _ _ hrun ⟨h.logged,h.wired,.inl h.client.2⟩
    exact ⟨hi.1.step hstep,hi.2.1.step hi.1 hstep,hi.2.2.step hi.2.1 hstep⟩
  cases hinv.2.2 with
  | inl hzero => omega
  | inr hone => omega

theorem Restarted.since_run (h : Restarted c s₀) (hrun : Run step always s₀ as s) :
    (s.web c).first = some 0 ∧ (s.web c).base = 0 := by
  refine @Run.invariant _ _ _ _ (fun s => (s.web c).first = some 0 ∧ (s.web c).base = 0)
    (fun s a t _ hstep hi => ?_) _ _ _ hrun h.since
  have hkeep := first_of_step hstep (by rw [hi.1]; simp)
  exact ⟨hkeep.1.trans hi.1,hkeep.2.trans hi.2⟩

/-- A client that connects before anything was recorded is restored. -/
theorem restored (h : Restarted c s₀) (hrun : Run step (Smooth c) s₀ as s) : Restored c s := by
  have hall : Run step always s₀ as s := hrun.mono fun _ _ _ => trivial
  have ht : Tracked c s := by
    refine @Run.invariant _ _ _ _ (Tracked c) (fun s a t hok hstep hi => ?_) _ _ _ hrun h.tracked
    exact hi.step hok hstep
  obtain ⟨hfirst,hbase⟩ := h.since_run hall
  have hne : (s.web c).first ≠ none := by simp [hfirst]
  refine ⟨h.resets hall,?_,fun hsettled => ?_⟩
  · have hprefix := (ht.follows.seen hne).dispatched
    rwa [hbase,List.drop_zero] at hprefix
  · have hdone := ht.settled hne hsettled
    rwa [hbase,List.drop_zero] at hdone

end Restart

/-- A restarted process, and client 0 with the number five of the earlier one. -/
def restart : State ℕ ℕ :=
  { start with web := fun c => if c = 0 then ⟨5,false,3,[],0,some 0,0⟩ else ⟨0,false,0,[],0,none,0⟩ }

theorem restarted_restart : Restarted 0 restart := by
  refine ⟨⟨rfl,rfl,rfl,rfl⟩,⟨rfl,rfl⟩,fun _ _ => rfl,fun c => ?_,⟨rfl,rfl⟩,rfl,rfl⟩
  rw [restart]
  dsimp only
  split <;> rfl

/-- The reset and the new connection come before the first event. -/
def early : List (Action ℕ ℕ) :=
  [.connect 0,.receive 0,.connect 0,.receive 0,.publish 7,.send 0 5,.receive 0]

theorem restored_early : Restored 0 (last step restart early) ∧
    ((last step restart early).web 0).dispatched = [⟨1,7⟩] := by
  have hrun : Run step (Smooth 0) restart early (last step restart early) := by
    refine run_last_cons (fun _ _ _ => rfl) rfl ?_
    refine run_last_cons trivial rfl ?_
    refine run_last_cons (fun _ _ _ => rfl) rfl ?_
    refine run_last_cons trivial rfl ?_
    refine run_last_cons (fun _ _ => ⟨by decide,fun _ _ _ => by decide⟩) rfl ?_
    refine run_last_cons trivial rfl ?_
    refine run_last_cons trivial rfl ?_
    exact run_last_nil
  exact ⟨restored restarted_restart hrun,by decide⟩

/-- Another client is there first, and an event is recorded before the reset. -/
def late : List (Action ℕ ℕ) :=
  [.connect 1,.publish 7,.connect 0,.receive 0,.connect 0,.receive 0]

theorem late_lost : ¬∀ (s₀ : State ℕ ℕ) (c : ℕ), Restarted c s₀ → ∀ as s,
    Run step always s₀ as s → s.recorded.length < historySize → Restored c s := by
  intro h
  have hrun : Run step always restart late (last step restart late) := run_last rfl
  have hlost := h restart 0 restarted_restart _ _ hrun (by decide)
  have hsettled : Settled 0 (last step restart late) := ⟨rfl,by decide,rfl,rfl,rfl⟩
  exact absurd (hlost.settled hsettled) (by decide)

end MinimaxCode.Ws
