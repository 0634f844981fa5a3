import MinimaxCode.WsFollow

/-!
# Resuming within one process

The events that a client dispatches are those that were published since its first
connection. This needs a listener at every one of them: the events published while
nobody is connected are not recorded.
-/

namespace MinimaxCode.Ws

open Runs SequencedLog

variable {C E : Type*}

/-- A process that has served nobody, and clients that have never connected. -/
def start : State C E where
  nextSeq := 0
  history := []
  listener := false
  clients := []
  conns := fun _ _ => ⟨[],[],none⟩
  web := fun _ => ⟨0,false,0,[],0,none,0⟩
  published := []
  recorded := []

/-- Once a client has connected, events are published only while there is a listener. -/
def Heard (c : C) (s : State C E) : Action C E → Prop
  | .publish _ => (s.web c).first ≠ none → s.listener = true
  | _ => True

/-- Everything that is under way to a client has arrived. -/
structure Settled (c : C) (s : State C E) : Prop where
  connected : (s.web c).connected = true
  serves : s.serves c
  replayed : (s.conn c).pending = none
  queue : (s.conn c).queue = []
  wire : (s.conn c).wire = []

/-- What was published since a client first connected is dispatched in order and without
repetition, and all of it once everything has arrived. -/
def Resumed (c : C) (s : State C E) : Prop :=
  ∀ f, (s.web c).first = some f →
    (s.web c).dispatched.map Entry.payload <+: s.published.drop f ∧
    (Settled c s → (s.web c).dispatched.map Entry.payload = s.published.drop f)

/-- Since a client first connected, every published event was recorded. -/
structure Listed (c : C) (s : State C E) : Prop where
  listed : ∀ f, (s.web c).first = some f →
    f ≤ s.published.length ∧ (s.web c).base ≤ s.recorded.length ∧
    (s.recorded.drop (s.web c).base).map Entry.payload = s.published.drop f

section Machine

variable [DecidableEq C] {c : C} {s t : State C E}

omit [DecidableEq C] in
theorem Listed.congr (h : Listed c s) (hfirst : (t.web c).first = (s.web c).first)
    (hbase : (t.web c).base = (s.web c).base) (hpublished : t.published = s.published)
    (hrecorded : t.recorded = s.recorded) : Listed c t := by
  constructor
  rw [hfirst,hbase,hpublished,hrecorded]
  exact h.listed

theorem Listed.publish (h : Listed c s) {p : E} (hok : Heard c s (.publish p)) :
    Listed c (publish s p) := by
  constructor
  intro f hf
  have hweb : (Ws.publish s p).web = s.web := by
    rw [Ws.publish]
    split <;> rfl
  rw [hweb] at hf ⊢
  obtain ⟨hle,hbase,hmap⟩ := h.listed f hf
  have hl : s.listener = true := hok (by simp [hf])
  have hpublished : (Ws.publish s p).published = s.published++[p] := by simp [Ws.publish,hl]
  have hrecorded : (Ws.publish s p).recorded = s.recorded++[⟨s.nextSeq+1,p⟩] := by
    simp [Ws.publish,hl]
  rw [hpublished,hrecorded,List.length_append,List.length_append]
  refine ⟨by omega,by omega,?_⟩
  rw [List.drop_append_of_le_length hle,List.drop_append_of_le_length hbase,List.map_append,hmap]
  rfl

theorem Listed.connect (h : Listed c s) : Listed c (connect s c) := by
  constructor
  intro f hf
  cases hfirst : (s.web c).first with
  | none =>
    have hf' : s.published.length = f := by
      simp only [Ws.connect,setClient_web,hfirst,Option.getD_none,Option.some.injEq] at hf
      exact hf
    have hbase : ((Ws.connect s c).web c).base = s.recorded.length := by
      simp [Ws.connect,hfirst]
    rw [hbase,← hf']
    refine ⟨Nat.le_refl _,Nat.le_refl _,?_⟩
    show (s.recorded.drop s.recorded.length).map _ = s.published.drop s.published.length
    rw [List.drop_length,List.drop_length,List.map_nil]
  | some g =>
    obtain rfl : g = f := by simpa [Ws.connect,hfirst] using hf
    have hbase : ((Ws.connect s c).web c).base = (s.web c).base := by simp [Ws.connect,hfirst]
    rw [hbase]
    exact h.listed g hfirst

theorem Listed.step (h : Listed c s) {a : Action C E} (hok : Heard c s a)
    (hstep : step s a = some t) : Listed c t := by
  cases stepped hstep with
  | publish p => exact h.publish hok
  | connect c' =>
    by_cases heq : c = c'
    · subst heq
      exact h.connect
    · have hweb : (Ws.connect s c').web c = s.web c := setClient_web_ne _ _ heq
      exact h.congr (by rw [hweb]) (by rw [hweb]) rfl rfl
  | receive c' f rest hc hwire =>
    by_cases heq : c = c'
    · subst heq
      exact h.congr (by simp) (by simp) rfl rfl
    · have hweb := setClient_web_ne (s.setConn c' (s.web c').conn
        { s.conns c' (s.web c').conn with wire := rest }) (handleEnvelope (s.web c') f) heq
      exact h.congr (by rw [hweb]; rfl) (by rw [hweb]; rfl) rfl rfl
  | drop c' =>
    by_cases heq : c = c'
    · subst heq
      exact h.congr (by simp) (by simp) rfl rfl
    · have hweb := setClient_web_ne s { s.web c' with connected := false } heq
      exact h.congr (by rw [hweb]) (by rw [hweb]) rfl rfl
  | _ => exact h.congr rfl rfl rfl rfl

/-- What holds between any two steps of a run. -/
structure Tracked (c : C) (s : State C E) : Prop where
  logged : Logged s
  wired : Wired s
  follows : Follows c s

theorem Tracked.step (h : Tracked c s) {a : Action C E} (hok : Smooth c s a)
    (hstep : step s a = some t) : Tracked c t :=
  ⟨h.logged.step hstep,h.wired.step h.logged hstep,h.follows.step h.logged h.wired hok hstep⟩

omit [DecidableEq C] in
theorem Tracked.settled (h : Tracked c s) (hfirst : (s.web c).first ≠ none) (hs : Settled c s) :
    (s.web c).dispatched = s.recorded.drop (s.web c).base := by
  have hf := h.follows.seen hfirst
  have hpipe : Pipe s.recorded (s.web c) (s.conn c) (s.serves c) := by
    cases hf.pipe hs.connected with
    | inr hp => exact hp
    | inl hd =>
      obtain ⟨⟨n,rest,hwire,-⟩,-⟩ := hd
      simp [hs.wire] at hwire
  have hserved := hpipe.served hs.replayed hs.serves
  rw [hs.wire,hs.queue] at hserved
  obtain ⟨u,hu⟩ := hf.dispatched
  have hrest : u = [] := by
    rw [← List.drop_drop,← hu,List.drop_left] at hserved
    exact hserved.symm
  rw [← hu,hrest,List.append_nil]

omit [DecidableEq C] in
theorem tracked_start : Tracked c (start : State C E) :=
  ⟨⟨numbered_nil,rfl,by simp [start,ring]⟩,⟨by simp [start],by simp [start],by simp [start]⟩,
    ⟨fun _ => ⟨rfl,rfl,rfl⟩,fun hne => absurd rfl hne⟩⟩

omit [DecidableEq C] in
theorem caught_start : Caught c (start : State C E) := ⟨Nat.le_refl _,fun hc => by cases hc⟩

omit [DecidableEq C] in
theorem listed_start : Listed c (start : State C E) := ⟨fun f hf => by cases hf⟩

/-- The frames and items that are still under way, the items twice. -/
def underway (k : Conn E) : ℕ := 2*k.queue.length+k.wire.length

theorem settles {n : ℕ} (ht : Tracked c s) (hcaught : Caught c s)
    (hc : (s.web c).connected = true) (hs : s.serves c) (hp : (s.conn c).pending = none)
    (hn : underway (s.conn c) ≤ n) :
    ∃ as t, Run step (fun s a => Smooth c s a ∧ Heard c s a) s as t ∧ Settled c t ∧
      t.published = s.published := by
  induction n generalizing s with
  | zero =>
    rw [underway] at hn
    have hqueue : (s.conn c).queue = [] := List.eq_nil_of_length_eq_zero (by omega)
    have hwire : (s.conn c).wire = [] := List.eq_nil_of_length_eq_zero (by omega)
    exact ⟨[],s,.refl s,⟨hc,hs,hp,hqueue,hwire⟩,rfl⟩
  | succ n ih =>
    cases hwire : (s.conn c).wire with
    | cons f rest =>
      have hstep : step s (.receive c) = some ((s.setConn c (s.web c).conn
          { s.conn c with wire := rest }).setClient c (handleEnvelope (s.web c) f)) := by
        have hwire' := hwire
        rw [State.conn] at hwire'
        simp only [step,hc,hwire']
        rfl
      have hok : Smooth c s (.receive c) := trivial
      have hconnected : (handleEnvelope (s.web c) f).connected = true := by
        cases f with
        | event e => exact hc
        | ready m => rw [(hcaught.handleEnvelope hc hwire).2 m rfl]; exact hc
      rw [underway,hwire,List.length_cons] at hn
      obtain ⟨as,t,hrun,hsettled,hpub⟩ := ih (ht.step hok hstep)
        (hcaught.step ht.wired hstep).1 (by rw [setClient_web]; exact hconnected)
        (by simpa [State.serves] using hs) (by simpa [State.conn] using hp)
        (by simp only [underway,State.conn,setClient_web,handleEnvelope_conn,setClient_conns,
          setConn_conns] at hn ⊢; omega)
      exact ⟨_,t,.succ ⟨hok,trivial⟩ hstep hrun,hsettled,hpub⟩
    | nil =>
      cases hqueue : (s.conn c).queue with
      | nil => exact ⟨[],s,.refl s,⟨hc,hs,hp,hqueue,hwire⟩,rfl⟩
      | cons e rest =>
        have hstep : step s (.send c (s.web c).conn) = some (s.setConn c (s.web c).conn
            { s.conn c with queue := rest, wire := (s.conn c).wire++[.event e] }) := by
          have hqueue' := hqueue
          rw [State.conn] at hqueue'
          simp only [step,hqueue']
          rfl
        rw [underway,hqueue,hwire,List.length_cons,List.length_nil] at hn
        have hok : Smooth c s (.send c (s.web c).conn) := trivial
        obtain ⟨as,t,hrun,hsettled,hpub⟩ := ih (ht.step hok hstep)
          (hcaught.step ht.wired hstep).1 hc hs (by simpa [State.conn] using hp)
          (by simp only [underway,State.conn,setConn_web,setConn_conns,List.length_append,
            List.length_singleton] at hn hwire ⊢; rw [hwire,List.length_nil]; omega)
        exact ⟨_,t,.succ ⟨hok,trivial⟩ hstep hrun,hsettled,hpub⟩

/-- While there is a listener for every event and the server keeps up with the client, it
resumes in every state, and from there nothing keeps the rest from arriving. -/
theorem resumed {as : List (Action C E)}
    (h : Run step (fun s a => Smooth c s a ∧ Heard c s a) start as s) :
    Resumed c s ∧ ((s.web c).connected = true → s.serves c → (s.conn c).pending = none →
      ∃ bs t, Run step (fun s a => Smooth c s a ∧ Heard c s a) s bs t ∧ Settled c t ∧
        t.published = s.published) := by
  have hinv : Tracked c s ∧ Caught c s ∧ Listed c s := by
    refine @Run.invariant _ _ _ _ (fun s => Tracked c s ∧ Caught c s ∧ Listed c s)
      (fun s a t hok hstep hi => ?_) _ _ _ h ⟨tracked_start,caught_start,listed_start⟩
    exact ⟨hi.1.step hok.1 hstep,(hi.2.1.step hi.1.wired hstep).1,hi.2.2.step hok.2 hstep⟩
  obtain ⟨ht,hcaught,hlisted⟩ := hinv
  refine ⟨fun f hf => ?_,fun hc hs hp => settles ht hcaught hc hs hp (Nat.le_refl _)⟩
  have hfirst : (s.web c).first ≠ none := by simp [hf]
  obtain ⟨-,-,hmap⟩ := hlisted.listed f hf
  refine ⟨?_,fun hsettled => ?_⟩
  · rw [← hmap]
    exact (ht.follows.seen hfirst).dispatched.map _
  · rw [← hmap,ht.settled hfirst hsettled]

end Machine

/-- Two clients; the first one misses an event while the other is connected, and gets it
from the replay. -/
def missedOne : List (Action ℕ ℕ) :=
  [.connect 0,.receive 0,.connect 1,.publish 5,.send 0 1,.receive 0,.drop 0,.cleanup 0 1,
    .publish 6,.connect 0,.replay 0 2,.receive 0,.send 0 2,.receive 0]

theorem run_missedOne :
    Run step (fun s a => Smooth 0 s a ∧ Heard 0 s a) start missedOne (last step start missedOne) := by
  -- the conditions are those of the two publications, the connections and the replay
  refine run_last_cons ⟨fun _ hne => absurd rfl hne,trivial⟩ rfl ?_
  refine run_last_cons ⟨trivial,trivial⟩ rfl ?_
  refine run_last_cons ⟨fun h => absurd h (by decide),trivial⟩ rfl ?_
  refine run_last_cons ⟨fun _ _ => ⟨by decide,fun _ _ _ => by decide⟩,fun _ => rfl⟩ rfl ?_
  refine run_last_cons ⟨trivial,trivial⟩ rfl ?_
  refine run_last_cons ⟨trivial,trivial⟩ rfl ?_
  refine run_last_cons ⟨trivial,trivial⟩ rfl ?_
  refine run_last_cons ⟨trivial,trivial⟩ rfl ?_
  refine run_last_cons ⟨fun _ _ => ⟨by decide,fun h => absurd h (by decide)⟩,fun _ => rfl⟩
    rfl ?_
  refine run_last_cons ⟨fun _ _ h => absurd h (by decide),trivial⟩ rfl ?_
  refine run_last_cons ⟨fun _ _ _ _ _ since h => ?_,trivial⟩ rfl ?_
  · obtain rfl : 1 = since := Option.some.inj h
    decide
  refine run_last_cons ⟨trivial,trivial⟩ rfl ?_
  refine run_last_cons ⟨trivial,trivial⟩ rfl ?_
  refine run_last_cons ⟨trivial,trivial⟩ rfl ?_
  exact run_last_nil

theorem resumed_missedOne :
    Resumed 0 (last step start missedOne) ∧
      (((last step start missedOne).web 0).dispatched.map Entry.payload = [5,6]) :=
  ⟨(resumed run_missedOne).1,by decide⟩

/-- Nobody is connected when the event is published. -/
def missedAlone : List (Action ℕ ℕ) :=
  [.connect 0,.drop 0,.cleanup 0 1,.publish 7,.connect 0,.receive 0]

theorem missedAlone_lost : ¬∀ (as : List (Action ℕ ℕ)) (s : State ℕ ℕ), Run step always start as s →
    s.published.length < historySize → ∀ c, Resumed c s := by
  intro h
  have hrun : Run step always (start : State ℕ ℕ) missedAlone (last step start missedAlone) :=
    run_last rfl
  have hlost := h _ _ hrun (by decide) 0 0 rfl
  have hsettled : Settled 0 (last step (start : State ℕ ℕ) missedAlone) :=
    ⟨rfl,by decide,rfl,rfl,rfl⟩
  exact absurd (hlost.2 hsettled) (by decide)

end MinimaxCode.Ws
