import MinimaxCode.HubChannel
import MinimaxCode.PyText

/-!
# The reader of the hub connection

The reader waits for a stop, a forced reconnect, an inbound item, a clock tick and the liveness
deadline at once, acts on one of those that are done and, but for the deadline, begins all of
them anew. A read that is cancelled may lose its item or end the stream, and a tick that comes
to nothing has still moved the next one by a period.
-/

namespace MinimaxCode.HubReader

open PyText Runs

/-- `WsMessage`. -/
inductive Message (T : Type)
  | text (text : T)
  | ping
  | pong
  | binary
  | close (code : Option ℤ)
  | raw

/-- `WsInbound`. -/
inductive Inbound (T : Type)
  | frameReceived (message : Message T)
  | readError (detail : PyStr)
  | streamEnd

/-- `DisconnectCause`, as far as the reader reports it. -/
inductive DisconnectCause
  | forced
  | closeFrame (code : Option ℤ)
  | writeError (detail : PyStr)
  | readError (detail : PyStr)
  | eof
  | livenessDeadline
  deriving DecidableEq

inductive ConnectedExit
  | stop
  | socketClosed (cause : DisconnectCause)
  | terminalClose (code : ℤ)
  deriving DecidableEq

def exitForCloseCode (code : Option ℤ) : ConnectedExit :=
  match code with
  | none => .socketClosed (.closeFrame none)
  | some n => if 4100 ≤ n ∧ n ≤ 4199 then .terminalClose n else .socketClosed (.closeFrame (some n))

/-- `_Interval`. Times are in milliseconds. -/
structure Interval where
  period : ℕ
  lastTick : Option ℕ

/-- `_Interval.tick`, and when its future is done. -/
def Interval.tick (i : Interval) (now : ℕ) : Interval × ℕ :=
  match i.lastTick with
  | none => ({ i with lastTick := some now },now)
  | some last =>
    if last+i.period ≤ now then ({ i with lastTick := some now },now)
    else ({ i with lastTick := some (last+i.period) },last+i.period)

def clockProbeInterval : ℕ := 5000

/-- The stream: the items that came and were not read, whether its last item has come, and whether
a cancelled read has ended the iterator. -/
structure Stream (T : Type) where
  unread : List (Inbound T)
  finished : Bool
  cut : Bool

/-- The last item of a stream. -/
def Inbound.isLast {T : Type} : Inbound T → Bool
  | .frameReceived (.close _) => true
  | .frameReceived _ => false
  | .readError _ => true
  | .streamEnd => true

/-- The texts among the items. -/
def texts {T : Type} (items : List (Inbound T)) : List T :=
  items.filterMap fun
    | .frameReceived (.text text) => some text
    | _ => none

/-- What a cancelled read does to the stream. -/
inductive Loss
  | nothing
  | item
  | iterator
  deriving DecidableEq

section Stream

variable {T : Type}

/-- What `_next_inbound` returns, and `none` where it waits. -/
def Stream.next (s : Stream T) : Option (Inbound T × Stream T) :=
  if s.cut then some (.streamEnd,s)
  else
    match s.unread with
    | [] => if s.finished then some (.streamEnd,s) else none
    | i::rest => some (i,{ s with unread := rest })

def Stream.cancelNext (s : Stream T) : Loss → Stream T
  | .nothing => s
  | .item => { s with unread := s.unread.tail }
  | .iterator => { s with cut := true }

/-- An item comes, unless the last one has. -/
def Stream.arrive (s : Stream T) (i : Inbound T) : Option (Stream T) :=
  if s.finished then none else some { s with unread := s.unread++[i], finished := i.isLast }

end Stream

/-- The arms that `asyncio.wait` finds done. -/
structure Done where
  stop : Bool
  reconnect : Bool
  stream : Bool
  clock : Bool
  deadline : Bool
  deriving DecidableEq

/-- What stands around the reader: the routing of a text with the pong it may ask for, and the
time without a frame after which the socket is dead. -/
structure Env (D P T : Type) where
  routeOrPong : D → T → D × Option P
  livenessDeadline : ℕ

/-- The reader. `clock` is when the tick of the round is done, while the arms are pending. Beside
its state stand the texts that came and that were routed, the time of the last refresh of the
clock or else of the start, and how many ticks have come to nothing since. -/
structure Reader (D P T : Type) where
  demux : D
  outbound : HubChannel.Channel P
  writerError : Option PyStr
  lastInbound : Option ℕ
  stream : Stream T
  interval : Interval
  deadline : ℕ
  now : ℕ
  clock : Option ℕ
  exit : Option ConnectedExit
  sent : List T
  routed : List T
  refreshed : ℕ
  idle : ℕ

namespace Reader

variable {D P T : Type} (env : Env D P T)

/-- The reader before its loop, with the first tick consumed. -/
def start (demux : D) (outbound : HubChannel.Channel P) (now : ℕ) : Reader D P T where
  demux := demux
  outbound := outbound
  writerError := none
  lastInbound := none
  stream := ⟨[],false,false⟩
  interval := (Interval.tick ⟨clockProbeInterval,none⟩ now).1
  deadline := now+env.livenessDeadline
  now := now
  clock := none
  exit := none
  sent := []
  routed := []
  refreshed := now
  idle := 0

def classifyStreamEnd (r : Reader D P T) (readError : Option PyStr) : DisconnectCause × Reader D P T :=
  match r.writerError with
  | some detail => (.writeError detail,{ r with writerError := none })
  | none =>
    match readError with
    | some detail => (.readError detail,r)
    | none => (.eof,r)

def streamEnds (r : Reader D P T) (readError : Option PyStr) : Reader D P T :=
  { (classifyStreamEnd r readError).2 with exit := some (.socketClosed (classifyStreamEnd r readError).1) }

/-- `route_or_pong` of a text, and the pong into the outbound channel, where there is room. -/
def routeText (r : Reader D P T) (text : T) : Reader D P T :=
  { r with
    demux := (env.routeOrPong r.demux text).1
    outbound :=
      match (env.routeOrPong r.demux text).2 with
      | none => r.outbound
      | some pong =>
        match HubChannel.trySend r.outbound pong with
        | .sent outbound => outbound
        | _ => r.outbound
    routed := r.routed++[text] }

/-- The liveness deadline begins anew, and a frame other than a close is recorded. -/
def frameReceived (r : Reader D P T) (message : Message T) : Reader D P T :=
  let r := { r with deadline := r.now+env.livenessDeadline }
  match message with
  | .close code => { r with exit := some (exitForCloseCode code) }
  | .text text => routeText env { r with lastInbound := some r.now } text
  | _ => { r with lastInbound := some r.now }

/-- The branch of an inbound item. -/
def dispatch (r : Reader D P T) : Inbound T → Reader D P T
  | .frameReceived message => frameReceived env r message
  | .readError detail => streamEnds r (some detail)
  | .streamEnd => streamEnds r none

def refreshClock (r : Reader D P T) : Reader D P T := { r with refreshed := r.now, idle := 0 }

/-- The branches of a round, in their order. -/
def branch (r : Reader D P T) (done : Done) (inbound : Option (Inbound T)) : Reader D P T :=
  if done.stop then { r with exit := some .stop }
  else if done.reconnect then { r with exit := some (.socketClosed .forced) }
  else
    match inbound with
    | some i => dispatch env r i
    | none =>
      if done.clock then refreshClock r else { r with exit := some (.socketClosed .livenessDeadline) }

/-- The beginning of a round. -/
def arm (r : Reader D P T) (now : ℕ) : Reader D P T :=
  { r with interval := (r.interval.tick now).1, clock := some (r.interval.tick now).2, now := now }

/-- The arms that are done at a time are some, and those of the clock and of the deadline are. -/
def possible (r : Reader D P T) (due now : ℕ) (done : Done) : Bool :=
  (done.stop || done.reconnect || done.stream || done.clock || done.deadline) && r.now ≤ now &&
    (!done.clock || due ≤ now) && (!done.deadline || r.deadline ≤ now)

/-- The end of a round: what is pending is cancelled, but for the deadline. -/
def wake (r : Reader D P T) (now : ℕ) (done : Done) (loss : Loss) : Option (Reader D P T) :=
  match r.clock with
  | none => none
  | some due =>
    if possible r due now done then
      let r := { r with now := now, clock := none, idle := r.idle+1 }
      if done.stream then
        r.stream.next.map fun p => branch env { r with stream := p.2 } done (some p.1)
      else some (branch env { r with stream := r.stream.cancelNext loss } done none)
    else none

end Reader

inductive Action (P T : Type)
  | inbound (item : Inbound T)
  | outbound (action : HubChannel.Action P)
  | writeFails (detail : PyStr)
  | arm (now : ℕ)
  | wake (now : ℕ) (done : Done) (loss : Loss)

section Run

variable {D P T : Type} (env : Env D P T)

/-- A step of the peer, of the writer or of the reader, which has not left its loop. -/
def step (r : Reader D P T) (a : Action P T) : Option (Reader D P T) :=
  if r.exit.isSome then none
  else
    match a with
    | .inbound item => (r.stream.arrive item).map fun stream =>
      { r with stream := stream, sent := r.sent++texts [item] }
    | .outbound action => (HubChannel.step r.outbound action).map fun outbound =>
      { r with outbound := outbound }
    | .writeFails detail => some { r with writerError := some detail }
    | .arm now => if r.clock = none ∧ r.now ≤ now then some (r.arm now) else none
    | .wake now done loss => r.wake env now done loss

end Run

/-- The end of the stream, as a cause. -/
def DisconnectCause.streamEnded : DisconnectCause → Bool
  | .writeError _ => true
  | .readError _ => true
  | .eof => true
  | _ => false

/-- Texts are routed once and in order, all of them before an exit; the stream is said to have
ended only when it has; the next refresh of the clock is due within a period, or at once. -/
structure LosesNothing {D P T : Type} (r : Reader D P T) : Prop where
  order : r.routed <+: r.sent
  complete : r.exit.isSome → r.routed = r.sent
  ended : ∀ cause, r.exit = some (.socketClosed cause) → cause.streamEnded → r.stream.finished = true
  refresh : ∀ due, r.clock = some due → due ≤ max r.now (r.refreshed+r.interval.period)

/-- A cancelled read does no harm to what is still to be read. -/
def Harmless {T : Type} (s : Stream T) : Loss → Prop
  | .nothing => True
  | .item => texts (s.unread.take 1) = []
  | .iterator => s.finished = true ∧ texts s.unread = []

/-- A round begins before any tick has come to nothing, or late enough for the next one, and ends
with an exit when no text is unread, or else without harm to the stream. -/
def Safe {D P T : Type} (r : Reader D P T) : Action P T → Prop
  | .arm now => r.idle = 0 ∨ ∀ last ∈ r.interval.lastTick, last+r.interval.period ≤ now
  | .wake _ done loss =>
    if done.stop ∨ done.reconnect then texts r.stream.unread = []
    else if done.stream then True
    else if done.clock then Harmless r.stream loss
    else texts r.stream.unread = []
  | _ => True

section Stream

variable {T : Type} {s s' : Stream T} {i : Inbound T}

theorem texts_append (a b : List (Inbound T)) : texts (a++b) = texts a++texts b := List.filterMap_append

theorem texts_cons (i : Inbound T) (rest : List (Inbound T)) : texts (i::rest) = texts [i]++texts rest :=
  texts_append [i] rest

theorem texts_tail {items : List (Inbound T)} (h : texts items = []) : texts items.tail = [] := by
  cases items with
  | nil => exact h
  | cons i rest =>
    rw [texts_cons] at h
    exact (List.append_eq_nil_iff.mp h).2

/-- Nothing comes behind the last item, and an ended iterator has no text left. -/
structure Stream.Ordered (s : Stream T) : Prop where
  last : ∀ i ∈ s.unread, i.isLast = true → s.finished = true
  order : s.unread.Pairwise fun i _ => i.isLast = false
  cut : s.cut = true → s.finished = true ∧ texts s.unread = []

theorem Stream.Ordered.arrive (h : s.Ordered) (harrives : s.arrive i = some s') :
    s'.Ordered ∧ texts s'.unread = texts s.unread++texts [i] := by
  rw [Stream.arrive] at harrives
  split at harrives
  · cases harrives
  case isFalse hopen =>
    cases harrives
    refine ⟨⟨fun j hj hlast => ?_,?_,fun hcut => absurd (h.cut hcut).1 hopen⟩,texts_append _ _⟩
    · obtain hj | hj := List.mem_append.mp hj
      · exact absurd (h.last j hj hlast) hopen
      · rw [List.mem_singleton.mp hj] at hlast
        exact hlast
    · refine List.pairwise_append.mpr ⟨h.order,List.pairwise_singleton _ _,fun j hj k _ => ?_⟩
      exact Bool.eq_false_iff.mpr fun hlast => hopen (h.last j hj hlast)

/-- What a read takes is the head of the texts, and nothing stands behind a last item. -/
theorem Stream.Ordered.next (h : s.Ordered) (hnext : s.next = some (i,s')) :
    s'.Ordered ∧ s'.finished = s.finished ∧ texts s.unread = texts [i]++texts s'.unread ∧
      (i.isLast = true → s.finished = true ∧ texts s'.unread = []) := by
  rw [Stream.next] at hnext
  split at hnext
  case isTrue hcut =>
    cases hnext
    exact ⟨h,rfl,rfl,fun _ => h.cut hcut⟩
  case isFalse hcut =>
    split at hnext
    case h_1 hnil =>
      split at hnext
      case isTrue hfinished =>
        cases hnext
        exact ⟨h,rfl,rfl,fun _ => ⟨hfinished,by rw [hnil]; rfl⟩⟩
      · cases hnext
    case h_2 j rest hunread =>
      cases hnext
      have hlast := h.last
      have horder := h.order
      rw [hunread] at hlast horder
      obtain ⟨hhead,htail⟩ := List.pairwise_cons.mp horder
      refine ⟨⟨fun k hk => hlast k (List.mem_cons_of_mem _ hk),htail,fun hc => absurd hc hcut⟩,rfl,?_,?_⟩
      · rw [hunread,texts_cons]
      · intro hi
        refine ⟨hlast i List.mem_cons_self hi,?_⟩
        cases rest with
        | nil => rfl
        | cons k rest =>
          rw [hhead k List.mem_cons_self] at hi
          cases hi

theorem texts_cancelNext {loss : Loss} (h : texts s.unread = []) : texts (s.cancelNext loss).unread = [] := by
  cases loss with
  | nothing => exact h
  | item => exact texts_tail h
  | iterator => exact h

theorem Stream.Ordered.cancelNext {loss : Loss} (h : s.Ordered) (hharmless : Harmless s loss) :
    (s.cancelNext loss).Ordered ∧ texts (s.cancelNext loss).unread = texts s.unread := by
  cases loss with
  | nothing => exact ⟨h,rfl⟩
  | item =>
    have hsplit : texts s.unread = texts (s.unread.take 1)++texts (s.unread.drop 1) := by
      rw [← texts_append,List.take_append_drop]
    rw [show texts (s.unread.take 1) = [] from hharmless,List.nil_append,List.drop_one] at hsplit
    refine ⟨⟨fun j hj => h.last j (List.mem_of_mem_tail hj),h.order.tail,fun hc => ?_⟩,hsplit.symm⟩
    exact ⟨(h.cut hc).1,texts_tail (h.cut hc).2⟩
  | iterator => exact ⟨⟨h.last,h.order,fun _ => hharmless⟩,rfl⟩

end Stream

section Branch

variable {D P T : Type} {r r' : Reader D P T} {i : Inbound T}

/-- A branch for an item routes its text, and leaves the loop for a last item only. -/
structure Dispatched (r r' : Reader D P T) (i : Inbound T) : Prop where
  stream : r'.stream = r.stream
  sent : r'.sent = r.sent
  routed : r'.routed = r.routed++texts [i]
  exit : r'.exit = r.exit ∨ i.isLast = true ∧ r'.exit.isSome
  interval : r'.interval = r.interval
  clock : r'.clock = r.clock
  now : r'.now = r.now
  refreshed : r'.refreshed = r.refreshed
  idle : r'.idle = r.idle

theorem streamEnds_spec (r : Reader D P T) (readError : Option PyStr) (hi : i.isLast = true)
    (htexts : texts [i] = []) : Dispatched r (r.streamEnds readError) i := by
  have hnil := List.append_nil r.routed
  unfold Reader.streamEnds Reader.classifyStreamEnd
  split
  · exact ⟨rfl,rfl,by rw [htexts,hnil],Or.inr ⟨hi,rfl⟩,rfl,rfl,rfl,rfl,rfl⟩
  · split
    · exact ⟨rfl,rfl,by rw [htexts,hnil],Or.inr ⟨hi,rfl⟩,rfl,rfl,rfl,rfl,rfl⟩
    · exact ⟨rfl,rfl,by rw [htexts,hnil],Or.inr ⟨hi,rfl⟩,rfl,rfl,rfl,rfl,rfl⟩

theorem dispatch_spec (env : Env D P T) (r : Reader D P T) (i : Inbound T) : Dispatched r (r.dispatch env i) i := by
  cases i with
  | frameReceived message =>
    cases message with
    | text text => exact ⟨rfl,rfl,rfl,Or.inl rfl,rfl,rfl,rfl,rfl,rfl⟩
    | close code => exact ⟨rfl,rfl,(List.append_nil _).symm,Or.inr ⟨rfl,rfl⟩,rfl,rfl,rfl,rfl,rfl⟩
    | ping => exact ⟨rfl,rfl,(List.append_nil _).symm,Or.inl rfl,rfl,rfl,rfl,rfl,rfl⟩
    | pong => exact ⟨rfl,rfl,(List.append_nil _).symm,Or.inl rfl,rfl,rfl,rfl,rfl,rfl⟩
    | binary => exact ⟨rfl,rfl,(List.append_nil _).symm,Or.inl rfl,rfl,rfl,rfl,rfl,rfl⟩
    | raw => exact ⟨rfl,rfl,(List.append_nil _).symm,Or.inl rfl,rfl,rfl,rfl,rfl,rfl⟩
  | readError detail => exact streamEnds_spec r _ rfl rfl
  | streamEnd => exact streamEnds_spec r _ rfl rfl

end Branch

section Runs

variable {D P T : Type} {env : Env D P T} {r r' : Reader D P T} {now : ℕ} {done : Done}

/-- What was sent is what was routed and what is still to be read, of which an exit leaves nothing. -/
structure Kept (r : Reader D P T) : Prop where
  texts : r.sent = r.routed++texts r.stream.unread
  ordered : r.exit = none → r.stream.Ordered
  complete : r.exit.isSome → HubReader.texts r.stream.unread = []
  ended : ∀ cause, r.exit = some (.socketClosed cause) → cause.streamEnded = true → r.stream.finished = true

/-- The interval was moved to the tick of the round, and before that no further than the last
refresh, but for the ticks that came to nothing. -/
structure OnTime (r : Reader D P T) : Prop where
  tick : ∃ last, r.interval.lastTick = some last ∧ (r.clock = none → r.idle = 0 → last ≤ r.refreshed) ∧
    ∀ due ∈ r.clock, due = last
  refresh : ∀ due ∈ r.clock, due ≤ max r.now (r.refreshed+r.interval.period)

theorem Interval.tick_spec {i : Interval} {last : ℕ} (h : i.lastTick = some last) (now : ℕ) :
    (i.tick now).1.period = i.period ∧ (i.tick now).1.lastTick = some (i.tick now).2 ∧
      (i.tick now).2 = if last+i.period ≤ now then now else last+i.period := by
  rw [Interval.tick,h]
  dsimp only
  split <;> exact ⟨rfl,rfl,rfl⟩

theorem onTime_arm (hsafe : r.idle = 0 ∨ ∀ last ∈ r.interval.lastTick, last+r.interval.period ≤ now)
    (hclock : r.clock = none) (h : OnTime r) : OnTime (r.arm now) := by
  obtain ⟨last,hlast,hrefreshed,_⟩ := h.tick
  obtain ⟨hperiod,htick,hdue⟩ := Interval.tick_spec hlast now
  refine ⟨⟨_,htick,(fun hnone => nomatch hnone),fun due hmem => (Option.some.inj hmem).symm⟩,?_⟩
  rintro due ⟨⟩
  rw [Reader.arm]
  dsimp only
  rw [hperiod,hdue]
  split
  · exact le_max_left _ _
  case isFalse hlate =>
    obtain hidle | hpast := hsafe
    · have hle := hrefreshed hclock hidle
      exact le_max_of_le_right (by omega)
    · exact absurd (hpast last hlast) hlate

theorem branch_time (env : Env D P T) (r : Reader D P T) (done : Done) (inbound : Option (Inbound T)) :
    (r.branch env done inbound).interval = r.interval ∧ (r.branch env done inbound).clock = r.clock ∧
      ((r.branch env done inbound).idle = r.idle ∨
        done.clock = true ∧ (r.branch env done inbound).refreshed = r.now) := by
  unfold Reader.branch
  split
  · exact ⟨rfl,rfl,Or.inl rfl⟩
  · split
    · exact ⟨rfl,rfl,Or.inl rfl⟩
    · split
      case h_1 i =>
        have hspec := dispatch_spec env r i
        exact ⟨hspec.interval,hspec.clock,Or.inl hspec.idle⟩
      case h_2 =>
        split
        case isTrue hclock => exact ⟨rfl,rfl,Or.inr ⟨hclock,rfl⟩⟩
        · exact ⟨rfl,rfl,Or.inl rfl⟩

/-- The reader at the end of a round, before it acts. -/
def awake (r : Reader D P T) (now : ℕ) (stream : Stream T) : Reader D P T :=
  { r with now := now, clock := none, idle := r.idle+1, stream := stream }

theorem wake_cases {loss : Loss} (h : r.wake env now done loss = some r') :
    ∃ due, r.clock = some due ∧ (done.clock = true → due ≤ now) ∧
      ((done.stream = true ∧ ∃ i stream, r.stream.next = some (i,stream) ∧
          r' = (awake r now stream).branch env done (some i)) ∨
        done.stream = false ∧ r' = (awake r now (r.stream.cancelNext loss)).branch env done none) := by
  rw [Reader.wake] at h
  split at h
  · cases h
  case h_2 due hdue =>
    split at h
    case isTrue hpossible =>
      refine ⟨due,hdue,fun hclock => ?_,?_⟩
      · simp only [Reader.possible,Bool.and_eq_true,Bool.or_eq_true,hclock,Bool.not_true,decide_eq_true_eq] at hpossible
        exact hpossible.1.2.resolve_left Bool.false_ne_true
      · dsimp only at h
        split at h
        case isTrue hstream =>
          obtain ⟨p,hnext,rfl⟩ := Option.map_eq_some_iff.mp h
          exact Or.inl ⟨hstream,p.1,p.2,hnext,rfl⟩
        case isFalse hstream =>
          cases h
          exact Or.inr ⟨Bool.eq_false_iff.mpr hstream,rfl⟩
    · cases h

theorem onTime_wake {loss : Loss} (hwake : r.wake env now done loss = some r')
    (h : OnTime r) : OnTime r' := by
  obtain ⟨due,hdue,hlate,hcases⟩ := wake_cases hwake
  obtain ⟨last,hlast,_,hsame⟩ := h.tick
  have hbranch : ∃ stream inbound, r' = (awake r now stream).branch env done inbound := by
    obtain ⟨_,i,stream,_,rfl⟩ | ⟨_,rfl⟩ := hcases
    · exact ⟨_,_,rfl⟩
    · exact ⟨_,_,rfl⟩
  obtain ⟨stream,inbound,rfl⟩ := hbranch
  obtain ⟨hinterval,hclock,hidle⟩ := branch_time env (awake r now stream) done inbound
  refine ⟨⟨last,?_,fun _ hzero => ?_,?_⟩,?_⟩
  · rw [hinterval]
    exact hlast
  · obtain hsame' | ⟨htick,hrefreshed⟩ := hidle
    · rw [hsame'] at hzero
      cases hzero
    · rw [hrefreshed,← hsame due hdue]
      exact hlate htick
  · rw [hclock]
    exact fun due hmem => nomatch hmem
  · rw [hclock]
    exact fun due hmem => nomatch hmem

theorem branch_leaves (env : Env D P T) (r : Reader D P T) (h : done.stop = true ∨ done.reconnect = true)
    (inbound : Option (Inbound T)) : ∃ e, r.branch env done inbound = { r with exit := some e } ∧
      ∀ cause, e = .socketClosed cause → cause.streamEnded = false := by
  unfold Reader.branch
  split
  · exact ⟨.stop,rfl,fun cause he => nomatch he⟩
  case isFalse hstop =>
    rw [if_pos (h.resolve_left hstop)]
    refine ⟨.socketClosed .forced,rfl,fun cause he => ?_⟩
    cases he
    rfl

theorem branch_stays (env : Env D P T) (r : Reader D P T) (h : ¬ (done.stop = true ∨ done.reconnect = true)) :
    (∀ i, r.branch env done (some i) = r.dispatch env i) ∧ r.branch env done none =
      if done.clock then r.refreshClock else { r with exit := some (.socketClosed .livenessDeadline) } := by
  obtain ⟨hstop,hreconnect⟩ := not_or.mp h
  unfold Reader.branch
  rw [if_neg hstop,if_neg hreconnect]
  exact ⟨fun i => by rw [if_neg hstop,if_neg hreconnect],rfl⟩

theorem kept_exit {e : ConnectedExit} {stream : Stream T} (h : Kept r) (hunread : texts r.stream.unread = [])
    (hstream : texts stream.unread = []) (hexit : r'.exit = some e) (hsent : r'.sent = r.sent)
    (hrouted : r'.routed = r.routed) (hr' : r'.stream = stream)
    (hcause : ∀ cause, e = .socketClosed cause → cause.streamEnded = false) : Kept r' := by
  constructor
  case texts => rw [hsent,hrouted,h.texts,hr',hunread,hstream]
  case ordered => exact fun hnone => nomatch hexit.symm.trans hnone
  case complete => exact fun _ => hr' ▸ hstream
  case ended =>
    intro cause hsocket hended
    rw [hexit] at hsocket
    rw [hcause cause (Option.some.inj hsocket)] at hended
    cases hended

theorem kept_wake {loss : Loss} (hopen : r.exit = none)
    (hsafe : Safe r (.wake now done loss : Action P T)) (hwake : r.wake env now done loss = some r')
    (h : Kept r) : Kept r' := by
  obtain ⟨_,_,_,hcases⟩ := wake_cases hwake
  have hordered := h.ordered hopen
  rw [Safe] at hsafe
  split at hsafe
  case isTrue hleaves =>
    obtain ⟨_,i,stream,hnext,rfl⟩ | ⟨_,rfl⟩ := hcases
    · obtain ⟨_,_,htexts,_⟩ := hordered.next hnext
      rw [hsafe] at htexts
      obtain ⟨e,hbranch,hcause⟩ := branch_leaves env (awake r now stream) hleaves (some i)
      rw [hbranch]
      exact kept_exit h hsafe (List.append_eq_nil_iff.mp htexts.symm).2 rfl rfl rfl rfl hcause
    · obtain ⟨e,hbranch,hcause⟩ :=
        branch_leaves env (awake r now (r.stream.cancelNext loss)) hleaves none
      rw [hbranch]
      exact kept_exit h hsafe (texts_cancelNext hsafe) rfl rfl rfl rfl hcause
  case isFalse hstays =>
    obtain ⟨_,i,stream,hnext,rfl⟩ | ⟨hpending,rfl⟩ := hcases
    · rw [(branch_stays env (awake r now stream) hstays).1]
      have hspec := dispatch_spec env (awake r now stream) i
      obtain ⟨hstream,hfinished,htexts,hlast⟩ := hordered.next hnext
      constructor
      case texts =>
        rw [hspec.sent,hspec.routed,hspec.stream]
        exact h.texts.trans (by rw [htexts,List.append_assoc]; rfl)
      case ordered => exact fun _ => hspec.stream ▸ hstream
      case complete =>
        intro hexit
        rw [hspec.stream]
        obtain hsame | ⟨hi,_⟩ := hspec.exit
        · rw [hsame] at hexit
          exact absurd (hopen ▸ hexit : (none : Option ConnectedExit).isSome) Bool.false_ne_true
        · exact (hlast hi).2
      case ended =>
        intro cause hexit _
        rw [hspec.stream]
        obtain hsame | ⟨hi,_⟩ := hspec.exit
        · rw [hsame] at hexit
          exact nomatch hopen.symm.trans hexit
        · exact hfinished.trans (hlast hi).1
    · rw [if_neg (by rw [hpending]; exact Bool.false_ne_true)] at hsafe
      rw [(branch_stays env (awake r now (r.stream.cancelNext loss)) hstays).2]
      split at hsafe
      case isTrue hclock =>
        rw [if_pos hclock]
        obtain ⟨hstream,htexts⟩ := hordered.cancelNext hsafe
        constructor
        case texts => exact h.texts.trans (congrArg _ htexts.symm)
        case ordered => exact fun _ => hstream
        case complete => exact fun hexit => absurd (hopen ▸ hexit : (none : Option ConnectedExit).isSome) Bool.false_ne_true
        case ended => exact fun cause hexit => nomatch hopen.symm.trans hexit
      case isFalse hclock =>
        rw [if_neg hclock]
        refine kept_exit h hsafe (texts_cancelNext hsafe) rfl rfl rfl rfl fun cause he => ?_
        cases he
        rfl

theorem kept_step {a : Action P T} (hsafe : Safe r a) (hstep : step env r a = some r') (h : Kept r) :
    Kept r' := by
  unfold step at hstep
  split at hstep
  · cases hstep
  case isFalse hrunning =>
    have hopen : r.exit = none := Option.not_isSome_iff_eq_none.mp hrunning
    have hnone : r.exit.isSome → False := hrunning
    cases a with
    | inbound item =>
      obtain ⟨stream,harrives,rfl⟩ := Option.map_eq_some_iff.mp hstep
      obtain ⟨hstream,htexts⟩ := (h.ordered hopen).arrive harrives
      refine ⟨?_,fun _ => hstream,fun hexit => absurd hexit hrunning,?_⟩
      · dsimp only
        rw [htexts,h.texts,List.append_assoc]
      · exact fun cause hexit => nomatch hopen.symm.trans hexit
    | outbound action =>
      obtain ⟨outbound,_,rfl⟩ := Option.map_eq_some_iff.mp hstep
      exact ⟨h.texts,h.ordered,h.complete,h.ended⟩
    | writeFails detail =>
      cases hstep
      exact ⟨h.texts,h.ordered,h.complete,h.ended⟩
    | arm now =>
      dsimp only at hstep
      split at hstep
      · cases hstep
        exact ⟨h.texts,h.ordered,h.complete,h.ended⟩
      · cases hstep
    | wake now done loss => exact kept_wake hopen hsafe hstep h

theorem onTime_step {a : Action P T} (hsafe : Safe r a) (hstep : step env r a = some r') (h : OnTime r) :
    OnTime r' := by
  unfold step at hstep
  split at hstep
  · cases hstep
  · cases a with
    | inbound item =>
      obtain ⟨stream,_,rfl⟩ := Option.map_eq_some_iff.mp hstep
      exact ⟨h.tick,h.refresh⟩
    | outbound action =>
      obtain ⟨outbound,_,rfl⟩ := Option.map_eq_some_iff.mp hstep
      exact ⟨h.tick,h.refresh⟩
    | writeFails detail =>
      cases hstep
      exact ⟨h.tick,h.refresh⟩
    | arm now =>
      dsimp only at hstep
      split at hstep
      case isTrue harm =>
        cases hstep
        exact onTime_arm hsafe harm.1 h
      · cases hstep
    | wake now done loss => exact onTime_wake hstep h

theorem kept_start (env : Env D P T) (demux : D) (outbound : HubChannel.Channel P) (now : ℕ) :
    Kept (Reader.start env demux outbound now) := by
  have hstream : Stream.Ordered (⟨[],false,false⟩ : Stream T) :=
    ⟨(fun i hi => nomatch hi),List.Pairwise.nil,(fun hcut => nomatch hcut)⟩
  exact ⟨rfl,(fun _ => hstream),(fun hexit => nomatch hexit),(fun cause hexit => nomatch hexit)⟩

theorem onTime_start (env : Env D P T) (demux : D) (outbound : HubChannel.Channel P) (now : ℕ) :
    OnTime (Reader.start env demux outbound now) :=
  ⟨⟨now,rfl,(fun _ _ => Nat.le_refl now),(fun _ hmem => nomatch hmem)⟩,(fun _ hmem => nomatch hmem)⟩

end Runs

/-- Texts that ask for no pong. -/
def quietEnv : Env Unit Unit ℕ := ⟨fun d _ => (d,none),30000⟩

def startAt (now : ℕ) : Reader Unit Unit ℕ := Reader.start quietEnv () (HubChannel.mpscChannel 4) now

def clockOnly : Done := ⟨false,false,false,true,false⟩

def streamOnly : Done := ⟨false,false,true,false,false⟩

/-- A refresh, a text and, late enough, a close. -/
def refreshTextClose : List (Action Unit ℕ) :=
  [.arm 0,.wake 5000 clockOnly .nothing,.arm 5000,.inbound (.frameReceived (.text 7)),
    .wake 5001 streamOnly .nothing,.arm 15000,.inbound (.frameReceived (.close (some 4100))),
    .wake 15001 streamOnly .nothing]

end MinimaxCode.HubReader
