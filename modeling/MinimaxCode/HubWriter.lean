import MinimaxCode.HubDemux

/-!
# The writer of the hub connection

The writer waits for a stop, a control command, a ping tick and an outbound frame at once,
and acts on one of those that have come. A frame that comes with any of the others has left
the queue, and nobody sends it.
-/

namespace MinimaxCode.HubWriter

open PyText HubDemux Runs

inductive WriterControl
  | pause
  | resume (sink : ℕ)
  deriving DecidableEq

/-- The writer, the channel it drains and the senders that wait for room in it. Beside them
stand the texts that have been accepted and those that have been handed to a socket. -/
structure Writer where
  outbound : Channel PyStr
  waiting : List PyStr
  sink : ℕ
  live : Bool
  running : Bool
  writeError : Option PyStr
  accepted : List PyStr
  handed : List (ℕ × PyStr)

inductive SendResult
  | sent
  | parked
  | networkError (message : PyStr)
  | backpressureError (message : PyStr)

/-- What a round of the writer finds done. The control channel gives no command once it is
closed; the error is what the send of the round raises. -/
structure Round where
  stop : Bool
  ctl : Option (Option WriterControl)
  ping : Bool
  out : Bool
  sendError : Option PyStr

namespace Writer

def start (capacity sink : ℕ) : Writer := ⟨⟨[],capacity,false⟩,[],sink,true,true,none,[],[]⟩

/-- A text goes into the channel. -/
def accept (w : Writer) (text : PyStr) : Writer :=
  {w with outbound := w.outbound.put text, accepted := w.accepted++[text]}

/-- `send_outbound` up to its wait for room. -/
def sendOutbound (w : Writer) (text : PyStr) : SendResult × Writer :=
  match w.outbound.trySend text with
  | .ok _ => (.sent,w.accept text)
  | .error .full => (.parked,{w with waiting := w.waiting++[text]})
  | .error .closed => (.networkError (lit "outbound channel closed"),w)

def trySendOutbound (w : Writer) (text : PyStr) : SendResult × Writer :=
  match w.outbound.trySend text with
  | .ok _ => (.sent,w.accept text)
  | .error .full => (.backpressureError (lit "outbound mpsc full"),w)
  | .error .closed => (.networkError (lit "outbound channel closed"),w)

/-- A sender that waits finds room. It does not look whether the channel is closed. -/
def unpark (w : Writer) (i : ℕ) : Option (SendResult × Writer) :=
  match w.waiting[i]? with
  | none => none
  | some text =>
    if w.outbound.isFull then none
    else some (.sent,accept {w with waiting := w.waiting.eraseIdx i} text)

def timeOut (w : Writer) (i : ℕ) : Option (SendResult × Writer) :=
  match w.waiting[i]? with
  | none => none
  | some _ => some (.backpressureError (lit "outbound mpsc full beyond bounded wait"),
      {w with waiting := w.waiting.eraseIdx i})

/-- The frame at the head of the channel is taken out; a closed channel may give none. -/
def dequeue (w : Writer) : Option PyStr × Writer :=
  (w.outbound.buffer.head?,{w with outbound := {w.outbound with buffer := w.outbound.buffer.tail}})

def control (w : Writer) : Option WriterControl → Writer
  | none => {w with running := false}
  | some .pause => {w with live := false}
  | some (.resume sink) => {w with sink, live := true, writeError := none}

/-- A send that raises leaves the writer waiting for a new socket. -/
def sending (w : Writer) (what : PyStr) : Option PyStr → Writer
  | none => w
  | some error => {w with writeError := some (what++lit " send failed: "++error), live := false}

def sendText (w : Writer) (sendError : Option PyStr) : Option PyStr → Writer
  | none => {w with running := false}
  | some text => sending {w with handed := w.handed++[(w.sink,text)]} (lit "frame") sendError

/-- One round of `run_writer`: what is done, in the order in which the writer looks. -/
def round (w : Writer) (r : Round) : Writer :=
  let (text,w) := if r.out then w.dequeue else (none,w)
  if r.stop then {w with running := false}
  else
    match r.ctl with
    | some ctl => w.control ctl
    | none =>
      if r.ping then w.sending (lit "ping") r.sendError
      else if r.out then w.sendText r.sendError text
      else w

/-- The sets of tasks that can be done together: something is done, and the tick and the
frame are waited for while there is a socket only. -/
def canRound (w : Writer) (r : Round) : Bool :=
  w.running && (r.stop || r.ctl.isSome || r.ping || r.out) && (w.live || !(r.ping || r.out)) &&
    (!r.out || !w.outbound.buffer.isEmpty || w.outbound.closed)

inductive Event
  | sendOutbound (text : PyStr)
  | trySendOutbound (text : PyStr)
  | unpark (i : ℕ)
  | timeOut (i : ℕ)
  | closeOutbound
  | round (r : Round)

def step (w : Writer) : Event → Option Writer
  | .sendOutbound text => some (w.sendOutbound text).2
  | .trySendOutbound text => some (w.trySendOutbound text).2
  | .unpark i => (w.unpark i).map Prod.snd
  | .timeOut i => (w.timeOut i).map Prod.snd
  | .closeOutbound => some {w with outbound := w.outbound.close}
  | .round r => if w.canRound r then some (w.round r) else none

variable {w t : Writer}

/-- The accepted texts are those handed to a socket, once each and in order, and behind them
those still in the channel. -/
def Intact (w : Writer) : Prop := w.accepted = w.handed.map Prod.snd++w.outbound.buffer

/-- A frame that is taken out of the channel comes alone. -/
def Keeps (w : Writer) : Event → Prop
  | .round r => r.out = true → w.outbound.buffer ≠ [] →
    r.stop = false ∧ r.ctl = none ∧ r.ping = false
  | _ => True

theorem Intact.accept (h : w.Intact) (text : PyStr) : (w.accept text).Intact := by
  rw [Intact,Writer.accept,Channel.put]
  dsimp only
  rw [h,List.append_assoc]

theorem sendOutbound_intact (h : w.Intact) (text : PyStr) : (w.sendOutbound text).2.Intact := by
  rw [sendOutbound]
  cases w.outbound.trySend text with
  | ok c => exact h.accept text
  | error e => cases e <;> exact h

theorem trySendOutbound_intact (h : w.Intact) (text : PyStr) :
    (w.trySendOutbound text).2.Intact := by
  rw [trySendOutbound]
  cases w.outbound.trySend text with
  | ok c => exact h.accept text
  | error e => cases e <;> exact h

theorem control_intact_iff (w : Writer) (ctl : Option WriterControl) :
    (w.control ctl).Intact ↔ w.Intact := by
  cases ctl with
  | none => rfl
  | some c => cases c <;> rfl

theorem sending_intact_iff (w : Writer) (what : PyStr) (sendError : Option PyStr) :
    (w.sending what sendError).Intact ↔ w.Intact := by
  cases sendError <;> rfl

theorem round_of_not_out {r : Round} (ho : r.out = false) : (w.round r).Intact ↔ w.Intact := by
  rw [round,ho]
  dsimp only
  by_cases hs : r.stop = true
  · rw [if_neg Bool.false_ne_true,if_pos hs]
    rfl
  · rw [if_neg Bool.false_ne_true,if_neg hs]
    dsimp only
    cases r.ctl with
    | some ctl => exact control_intact_iff w ctl
    | none =>
      dsimp only
      by_cases hp : r.ping = true
      · rw [if_pos hp]
        exact sending_intact_iff w _ _
      · rw [if_neg hp,if_neg Bool.false_ne_true]

theorem round_of_out {r : Round} (ho : r.out = true) {text : PyStr} {rest : List PyStr}
    (hb : w.outbound.buffer = text::rest) (h : w.Intact) :
    (w.round r).Intact ↔ r.stop = false ∧ r.ctl = none ∧ r.ping = false := by
  have hlost : ¬ w.dequeue.2.Intact := by
    intro hq
    rw [Intact,hb] at h
    rw [Intact,dequeue,hb] at hq
    have hlen := congrArg List.length (h.symm.trans hq)
    simp at hlen
  rw [round,ho]
  dsimp only
  rw [if_pos rfl]
  cases hs : r.stop with
  | true =>
    rw [if_pos rfl]
    exact ⟨fun hq => (hlost hq).elim,fun hf => absurd hf.1 (by decide)⟩
  | false =>
    rw [if_neg Bool.false_ne_true]
    cases hc : r.ctl with
    | some ctl =>
      rw [control_intact_iff]
      exact ⟨fun hq => (hlost hq).elim,fun hf => absurd hf.2.1 (Option.some_ne_none ctl)⟩
    | none =>
      dsimp only
      cases hp : r.ping with
      | true =>
        rw [if_pos rfl,sending_intact_iff]
        exact ⟨fun hq => (hlost hq).elim,fun hf => absurd hf.2.2 (by decide)⟩
      | false =>
        refine ⟨fun _ => ⟨rfl,rfl,rfl⟩,fun _ => ?_⟩
        have htext : w.dequeue.1 = some text := by rw [dequeue,hb,List.head?_cons]
        have hrest : w.dequeue.2.outbound.buffer = rest := by rw [dequeue,hb,List.tail_cons]
        rw [if_neg Bool.false_ne_true,if_pos rfl,htext,sendText,sending_intact_iff,Intact]
        dsimp only
        rw [hrest,List.map_append]
        change w.accepted = w.handed.map Prod.snd++[text]++rest
        rw [Intact,hb] at h
        rw [h,List.append_cons]

theorem round_intact_iff (h : w.Intact) (r : Round) : (w.round r).Intact ↔ w.Keeps (.round r) := by
  cases ho : r.out with
  | false =>
    rw [round_of_not_out ho]
    refine ⟨fun _ hout => ?_,fun _ => h⟩
    rw [ho] at hout
    cases hout
  | true =>
    cases hb : w.outbound.buffer with
    | nil =>
      -- the channel is closed and empty: there is no frame
      have hsame : w.dequeue.2 = w := by
        rw [dequeue,hb,List.tail_nil,← hb]
      have hround : (w.round r).Intact ↔ w.Intact := by
        rw [round,ho]
        dsimp only
        rw [if_pos rfl,hsame]
        cases r.stop with
        | true => rfl
        | false =>
          cases r.ctl with
          | some ctl => exact control_intact_iff w ctl
          | none =>
            cases r.ping with
            | true => exact sending_intact_iff w _ _
            | false =>
              dsimp only
              rw [dequeue,hb]
              rfl
      rw [hround]
      exact ⟨fun _ _ hne => absurd hb hne,fun _ => h⟩
    | cons text rest =>
      rw [round_of_out ho hb h]
      refine ⟨fun hk _ _ => hk,fun hk => hk ho ?_⟩
      rw [hb]
      exact List.cons_ne_nil text rest

theorem step_intact_iff {e : Event} (hst : w.step e = some t) (h : w.Intact) :
    t.Intact ↔ w.Keeps e := by
  cases e with
  | sendOutbound text =>
    cases hst
    exact ⟨fun _ => trivial,fun _ => sendOutbound_intact h text⟩
  | trySendOutbound text =>
    cases hst
    exact ⟨fun _ => trivial,fun _ => trySendOutbound_intact h text⟩
  | unpark i =>
    refine ⟨fun _ => trivial,fun _ => ?_⟩
    obtain ⟨⟨_,_⟩,hu,rfl⟩ := Option.map_eq_some_iff.mp hst
    rw [unpark] at hu
    split at hu
    · cases hu
    · split at hu
      · cases hu
      · cases hu
        exact Intact.accept (w := {w with waiting := w.waiting.eraseIdx i}) h _
  | timeOut i =>
    refine ⟨fun _ => trivial,fun _ => ?_⟩
    obtain ⟨⟨_,_⟩,hu,rfl⟩ := Option.map_eq_some_iff.mp hst
    rw [timeOut] at hu
    split at hu
    · cases hu
    · cases hu
      exact h
  | closeOutbound =>
    cases hst
    exact ⟨fun _ => trivial,fun _ => h⟩
  | round r =>
    rw [step] at hst
    split at hst
    · cases hst
      exact round_intact_iff h r
    · cases hst

/-- No frame is dropped throughout a run exactly when every frame that the writer takes out
of the channel comes alone. -/
theorem intact_throughout_iff {capacity sink : ℕ} {events : List Event}
    (h : Run step always (start capacity sink) events t) :
    Throughout step Intact (start capacity sink) events ↔
      Run step Keeps (start capacity sink) events t := by
  have hinv : ∀ (w : Writer) e t, always w e → w.step e = some t → True → w.Intact → t.Intact →
      True := fun _ _ _ _ _ _ _ _ => trivial
  have hstep : ∀ (w : Writer) e t, always w e → w.step e = some t → True → w.Intact →
      (t.Intact ↔ w.Keeps e) := fun _ _ _ _ hst _ hw => step_intact_iff hst hw
  exact throughout_iff hinv hstep h trivial rfl

/-- Two texts, an outage between them and a new socket. -/
def outage : List Event := [.sendOutbound (lit "one"),.sendOutbound (lit "two"),
  .round ⟨false,none,false,true,some (lit "reset")⟩,.round ⟨false,some (some (.resume 1)),false,false,none⟩,
  .round ⟨false,none,false,true,none⟩]

theorem intact_outage : Throughout step Intact (start 1024 0) outage ∧
    (last step (start 1024 0) outage).handed = [(0,lit "one"),(1,lit "two")] := by
  have hrun : Run step always (start 1024 0) outage (last step (start 1024 0) outage) :=
    run_last (by decide)
  refine ⟨(intact_throughout_iff hrun).mpr ?_,by decide⟩
  refine .succ trivial rfl (.succ trivial rfl (.succ ?_ rfl (.succ ?_ rfl (.succ ?_ rfl (.refl _)))))
  · exact fun _ _ => ⟨rfl,rfl,rfl⟩
  · intro hout
    cases hout
  · exact fun _ _ => ⟨rfl,rfl,rfl⟩

/-- A ping tick that comes with a frame drops the frame. -/
theorem tick_drops_frame : ∃ t, Run step always (start 1024 0)
      [.sendOutbound (lit "one"),.round ⟨false,none,true,true,none⟩] t ∧
    t.accepted = [lit "one"] ∧ t.handed = [] ∧ t.outbound.buffer = [] ∧ t.running = true ∧
    ¬ t.Intact :=
  ⟨last step (start 1024 0) [.sendOutbound (lit "one"),.round ⟨false,none,true,true,none⟩],
    run_last (by decide),by decide,by decide,by decide,by decide,by
      intro h
      have hlen := congrArg List.length h
      exact absurd hlen (by decide)⟩

end Writer

end MinimaxCode.HubWriter
