import MinimaxCode.Runs
import Mathlib.Data.Int.Notation

/-!
# The socket of the web client

The web client probes its agent, opens a socket and opens it again when it closes. Its
socket handlers act on the fields of the client, whichever socket they belong to. Calls,
probe answers, the reconnect timer and the events of the sockets come in any order.
-/

namespace MinimaxCode.WebClient

open Runs

inductive ClientMode
  | pending
  | http
  | mock
  deriving DecidableEq

inductive SocketPhase
  | connecting
  | opened
  | closing
  | closed
  deriving DecidableEq

/-- The socket is not closing. -/
def SocketPhase.isLive : SocketPhase → Bool
  | .connecting => true
  | .opened => true
  | _ => false

def SocketPhase.close : SocketPhase → SocketPhase
  | .closed => .closed
  | _ => .closing

/-- What waits: a start for its probe, with a mark once a stop has come since, a reprobe for
its own, or a restart between its stop and its start. -/
inductive Call
  | start (outlived : Bool)
  | reprobe
  | restart
  deriving DecidableEq

def Call.outlive : Call → Call
  | .start _ => .start true
  | call => call

/-- A stop, a start that has selected the transport, or a message that reaches the
listeners. -/
inductive Note
  | stopped
  | selected
  | dispatched (socket : ℕ)

/-- A frame: its sequence number, and for `agent.ready` the number of the next one. -/
structure Message where
  seq : Option ℤ
  ready : Option (Option ℤ)

/-- The fields of the client, the phases of the sockets it has opened, the calls that wait,
and what it has done. -/
structure Client where
  ws : Option ℕ
  wsLastSeq : ℤ
  wsReconnectAttempts : ℕ
  wsReconnectTimer : Bool
  wsOpen : Bool
  started : Bool
  mode : ClientMode
  sockets : List SocketPhase
  calls : List Call
  notes : List Note

/-- A call, the start behind a restart's stop, the answer of a probe, the timer, or an event
of a socket; where a socket may be made, whether its constructor returns. -/
inductive Action
  | start
  | stop
  | restart
  | reprobe
  | resume (call : ℕ)
  | answer (call : ℕ) (reachable constructs : Bool)
  | timer (constructs : Bool)
  | opened (socket : ℕ)
  | message (socket : ℕ) (msg : Message)
  | closed (socket : ℕ)

def scheduleReconnect (s : Client) : Client :=
  if s.started = false ∨ s.mode ≠ .http then s
  else if s.wsReconnectTimer then s
  else {s with wsReconnectAttempts := s.wsReconnectAttempts+1, wsReconnectTimer := true}

def connectWs (s : Client) (constructs : Bool) : Client :=
  match s.ws with
  | some _ => s
  | none =>
    if constructs then
      {s with ws := some s.sockets.length, sockets := s.sockets++[.connecting]}
    else scheduleReconnect s

/-- `this.ws.close()`. -/
def closeOwn (s : Client) : Client :=
  match s.ws with
  | some socket => {s with sockets := s.sockets.modify socket SocketPhase.close}
  | none => s

/-- What `handleEnvelope` does to the fields: the sequence number, and the reset of a new
epoch. -/
def handleEnvelope (s : Client) (msg : Message) : Client :=
  let s := match msg.seq with
    | some seq => if s.wsLastSeq < seq then {s with wsLastSeq := seq} else s
    | none => s
  match msg.ready with
  | some (some next) =>
    if next ≤ s.wsLastSeq ∧ s.ws.isSome then closeOwn {s with wsLastSeq := 0} else s
  | _ => s

section Client

variable (forceMock : Bool)

def init : Client :=
  ⟨none,0,0,false,false,false,if forceMock then .mock else .pending,[],[],[]⟩

def start (s : Client) : Client :=
  if s.started then s
  else if forceMock then {s with started := true, mode := .mock, notes := s.notes++[.selected]}
  else {s with started := true, calls := s.calls++[.start false]}

def stop (s : Client) : Client :=
  {closeOwn s with
    ws := none, wsReconnectTimer := false, wsOpen := false, started := false,
    mode := if forceMock then .mock else .pending,
    calls := s.calls.map Call.outlive, notes := s.notes++[.stopped]}

def reprobe (s : Client) : Client :=
  if forceMock then s else {s with calls := s.calls++[.reprobe]}

/-- Behind the probe of `start` or `reprobe`. -/
def answer (s : Client) (call : ℕ) (reachable constructs : Bool) : Option Client :=
  match s.calls[call]? with
  | some (.start outlived) =>
    let s := {s with
      calls := s.calls.eraseIdx call, mode := if reachable then .http else .mock,
      notes := if outlived then s.notes else s.notes++[.selected]}
    some (if reachable then connectWs s constructs else s)
  | some .reprobe =>
    let s := {s with calls := s.calls.eraseIdx call}
    some (if reachable then connectWs {s with mode := .http, started := true} constructs else s)
  | _ => none

def resume (s : Client) (call : ℕ) : Option Client :=
  if s.calls[call]? = some .restart then
    some (start forceMock {s with calls := s.calls.eraseIdx call})
  else none

def timer (s : Client) (constructs : Bool) : Option Client :=
  if s.wsReconnectTimer then some (connectWs {s with wsReconnectTimer := false} constructs)
  else none

/-- An open event; it may come late to a socket that is closing. -/
def onOpen (s : Client) (socket : ℕ) : Option Client :=
  let opened := {s with wsOpen := true, wsReconnectAttempts := 0}
  match s.sockets[socket]? with
  | some .connecting => some {opened with sockets := s.sockets.set socket .opened}
  | some .closing => some opened
  | _ => none

/-- A message event; it may come late to a socket that is closing. -/
def onMessage (s : Client) (socket : ℕ) (msg : Message) : Option Client :=
  let dispatched := handleEnvelope {s with notes := s.notes++[.dispatched socket]} msg
  match s.sockets[socket]? with
  | some .opened => some dispatched
  | some .closing => some dispatched
  | _ => none

def onClose (s : Client) (socket : ℕ) : Option Client :=
  match s.sockets[socket]? with
  | some .closed => none
  | none => none
  | _ => some (scheduleReconnect
      {s with wsOpen := false, ws := none, sockets := s.sockets.set socket .closed})

def step (s : Client) : Action → Option Client
  | .start => some (start forceMock s)
  | .stop => some (stop forceMock s)
  | .restart =>
    let s := stop forceMock s
    some {s with calls := s.calls++[.restart]}
  | .reprobe => some (reprobe forceMock s)
  | .resume call => resume forceMock s call
  | .answer call reachable constructs => answer s call reachable constructs
  | .timer constructs => timer s constructs
  | .opened socket => onOpen s socket
  | .message socket msg => onMessage s socket msg
  | .closed socket => onClose s socket

end Client

/-- No start that began behind the last stop has selected the transport. -/
def quiet (notes : List Note) : Bool :=
  notes.foldl (fun quiet note =>
    match note with
    | .stopped => true
    | .selected => false
    | .dispatched _ => quiet) false

/-- A socket that is not closing is the client's own, and no message is dispatched between a
stop and the selection of the next start. -/
structure OneSocket (s : Client) : Prop where
  own : ∀ (socket : ℕ) (p : SocketPhase), s.sockets[socket]? = some p → p.isLive →
    s.ws = some socket
  silent : ∀ before socket after, s.notes = before++.dispatched socket::after →
    quiet before = false

/-- The client's own socket is not closing. -/
def ownLive (s : Client) : Bool :=
  match s.ws with
  | some socket => s.sockets[socket]?.any SocketPhase.isLive
  | none => false

/-- No socket closes while another one is the client's own and not closing, and between a
stop and the selection of the next start only a start that began there finds the agent and a
socket that is closing has no message. -/
def undisturbed (s : Client) : Action → Bool
  | .closed socket => !ownLive s || s.ws == some socket
  | .answer call reachable _ =>
    !(quiet s.notes && reachable) || s.calls[call]? == some (.start false)
  | .message socket _ => !quiet s.notes || s.sockets[socket]? == some .opened
  | _ => true

@[simp] theorem quiet_selected (notes : List Note) : quiet (notes++[.selected]) = false := by
  simp [quiet]

@[simp] theorem quiet_dispatched (notes : List Note) (socket : ℕ) :
    quiet (notes++[.dispatched socket]) = quiet notes := by
  simp [quiet]

/-- No message is dispatched in a quiet time. -/
def Silent (notes : List Note) : Prop :=
  ∀ before socket after, notes = before++.dispatched socket::after → quiet before = false

theorem silent_concat {notes : List Note} {note : Note} (h : Silent notes)
    (hnote : ∀ socket, note = .dispatched socket → quiet notes = false) :
    Silent (notes++[note]) := by
  intro before socket after heq
  obtain rfl | ⟨rest,last,rfl⟩ := after.eq_nil_or_concat
  · obtain ⟨rfl,hlast⟩ := List.append_inj' heq rfl
    exact hnote socket (List.singleton_inj.mp hlast)
  · have hsplit : notes++[note] = (before++.dispatched socket::rest)++[last] := by simpa using heq
    exact h before socket rest (List.append_inj' hsplit rfl).1

/-- A socket that is not closing is the client's own, and in a quiet time there is no
socket, no timer and no transport. -/
structure Inv (s : Client) : Prop where
  own : ∀ (socket : ℕ) (p : SocketPhase), s.sockets[socket]? = some p → p.isLive →
    s.ws = some socket
  idle : quiet s.notes = true → s.mode ≠ .http ∧ s.wsReconnectTimer = false ∧ s.ws = none
  silent : Silent s.notes

variable {s t : Client} {constructs forceMock : Bool} {socket : ℕ}

theorem inv_scheduleReconnect (hs : Inv s) : Inv (scheduleReconnect s) := by
  rw [scheduleReconnect]
  split
  · exact hs
  · next hmode =>
    split
    · exact hs
    · refine ⟨hs.own,fun hquiet => absurd (.inr (hs.idle hquiet).1) hmode,hs.silent⟩

theorem inv_connectWs (hs : Inv s)
    (hloud : quiet s.notes = false) : Inv (connectWs s constructs) := by
  rw [connectWs]
  split
  · exact hs
  · next hws =>
    split
    · refine ⟨fun socket p hp hlive => ?_,fun hquiet => ?_,hs.silent⟩
      · rw [List.getElem?_append] at hp
        split at hp
        · have := hs.own socket p hp hlive
          rw [hws] at this
          simp at this
        · next hge =>
          have hlt : socket-s.sockets.length < 1 := by
            simpa using (List.getElem?_eq_some_iff.mp hp).1
          show some s.sockets.length = some socket
          congr 1
          omega
      · rw [show quiet s.notes = true from hquiet] at hloud
        simp at hloud
    · exact inv_scheduleReconnect hs

theorem isLive_close (p : SocketPhase) : p.close.isLive = false := by
  cases p <;> rfl

theorem live_closeOwn {p : SocketPhase}
    (hp : (closeOwn s).sockets[socket]? = some p) (hlive : p.isLive) :
    s.sockets[socket]? = some p ∧ s.ws ≠ some socket := by
  rw [closeOwn] at hp
  split at hp
  · next own hown =>
    rw [List.getElem?_modify] at hp
    obtain ⟨before,hbefore,rfl⟩ := Option.map_eq_some_iff.mp hp
    by_cases heq : own = socket
    · rw [if_pos heq,isLive_close] at hlive
      simp at hlive
    · rw [if_neg heq]
      exact ⟨hbefore,fun h => heq (Option.some.inj (hown.symm.trans h))⟩
  · next hnone => exact ⟨hp,by simp [hnone]⟩

theorem closeOwn_ws (s : Client) : (closeOwn s).ws = s.ws := by
  rw [closeOwn]
  split <;> rfl

theorem closeOwn_fields (s : Client) : (closeOwn s).mode = s.mode ∧
    (closeOwn s).wsReconnectTimer = s.wsReconnectTimer ∧ (closeOwn s).notes = s.notes := by
  rw [closeOwn]
  split <;> exact ⟨rfl,rfl,rfl⟩

theorem inv_closeOwn (hs : Inv s) : Inv (closeOwn s) := by
  obtain ⟨hmode,htimer,hnotes⟩ := closeOwn_fields s
  refine ⟨fun socket p hp hlive => ?_,?_,by rw [hnotes]; exact hs.silent⟩
  · rw [closeOwn_ws]
    exact hs.own socket p (live_closeOwn hp hlive).1 hlive
  · rw [hnotes,hmode,htimer,closeOwn_ws]
    exact hs.idle

theorem inv_stop (hs : Inv s) : Inv (stop forceMock s) where
  own := by
    intro socket p hp hlive
    obtain ⟨hbefore,hother⟩ := live_closeOwn hp hlive
    exact absurd (hs.own socket p hbefore hlive) hother
  idle := by
    intro _
    refine ⟨?_,rfl,rfl⟩
    cases forceMock <;> simp [stop]
  silent := silent_concat hs.silent fun socket h => by simp at h

theorem inv_start (hs : Inv s) : Inv (start forceMock s) := by
  rw [start]
  split
  · exact hs
  · split
    · refine ⟨hs.own,fun hquiet => ?_,silent_concat hs.silent fun socket h => by simp at h⟩
      simp at hquiet
    · exact ⟨hs.own,hs.idle,hs.silent⟩

theorem inv_answer {call : ℕ} {reachable : Bool}
    (h : answer s call reachable constructs = some t) (hs : Inv s)
    (hok : undisturbed s (.answer call reachable constructs)) : Inv t := by
  simp only [undisturbed,Bool.or_eq_true,Bool.not_eq_true',Bool.and_eq_false_iff,
    beq_iff_eq] at hok
  rw [answer] at h
  split at h
  · next outlived hcall =>
    obtain rfl := Option.some.inj h
    have hsilent : Silent (if outlived then s.notes else s.notes++[.selected]) := by
      split
      · exact hs.silent
      · exact silent_concat hs.silent fun socket h => by simp at h
    cases reachable with
    | true =>
      refine inv_connectWs ⟨hs.own,fun hquiet => ?_,hsilent⟩ ?_
      all_goals
        have hloud : quiet (if outlived then s.notes else s.notes++[.selected]) = false := by
          obtain (hloud | hnever) | hfresh := hok
          · cases outlived <;> simp [hloud]
          · simp at hnever
          · rw [hcall] at hfresh
            obtain rfl : outlived = false := by simpa using hfresh
            simp
      · exact absurd (hloud.symm.trans hquiet) (by simp)
      · exact hloud
    | false =>
      refine ⟨hs.own,fun hquiet => ?_,hsilent⟩
      cases outlived with
      | true =>
        obtain ⟨-,htimer,hws⟩ := hs.idle hquiet
        exact ⟨by simp,htimer,hws⟩
      | false => simp at hquiet
  · next hcall =>
    obtain rfl := Option.some.inj h
    cases reachable with
    | true =>
      have hloud : quiet s.notes = false := by
        obtain (hloud | hnever) | hfresh := hok
        · exact hloud
        · simp at hnever
        · rw [hcall] at hfresh
          simp at hfresh
      refine inv_connectWs ⟨hs.own,fun hquiet => ?_,hs.silent⟩ hloud
      exact absurd (hloud.symm.trans hquiet) (by simp)
    | false => exact ⟨hs.own,hs.idle,hs.silent⟩
  · simp at h

theorem inv_timer (h : timer s constructs = some t)
    (hs : Inv s) : Inv t := by
  rw [timer] at h
  split at h
  · next htimer =>
    obtain rfl := Option.some.inj h
    have hloud : quiet s.notes = false := by
      by_contra hquiet
      rw [Bool.not_eq_false] at hquiet
      rw [(hs.idle hquiet).2.1] at htimer
      simp at htimer
    refine inv_connectWs ⟨hs.own,fun hquiet => ?_,hs.silent⟩ hloud
    obtain ⟨hmode,-,hws⟩ := hs.idle hquiet
    exact ⟨hmode,rfl,hws⟩
  · simp at h

theorem getElem?_set_some {sockets : List SocketPhase} {i j : ℕ} {a p : SocketPhase}
    (h : (sockets.set i a)[j]? = some p) : (i = j ∧ p = a) ∨ sockets[j]? = some p := by
  rw [List.getElem?_set] at h
  split at h
  · next heq =>
    split at h
    · exact .inl ⟨heq,(Option.some.inj h).symm⟩
    · simp at h
  · exact .inr h

theorem inv_onOpen (h : onOpen s socket = some t) (hs : Inv s) :
    Inv t := by
  simp only [onOpen] at h
  split at h
  · next hphase =>
    obtain rfl := Option.some.inj h
    refine ⟨fun i p hp hlive => ?_,hs.idle,hs.silent⟩
    obtain ⟨rfl,-⟩ | hold := getElem?_set_some hp
    · exact hs.own socket .connecting hphase rfl
    · exact hs.own i p hold hlive
  · obtain rfl := Option.some.inj h
    exact ⟨hs.own,hs.idle,hs.silent⟩
  · simp at h

theorem inv_handleEnvelope (hs : Inv s) (msg : Message) :
    Inv (handleEnvelope s msg) := by
  have hseq : ∀ seq : ℤ, Inv {s with wsLastSeq := seq} := fun _ => ⟨hs.own,hs.idle,hs.silent⟩
  have hfirst : Inv (match msg.seq with
      | some seq => if s.wsLastSeq < seq then {s with wsLastSeq := seq} else s
      | none => s) := by
    split
    · split
      · exact hseq _
      · exact hs
    · exact hs
  rw [handleEnvelope]
  generalize (match msg.seq with
      | some seq => if s.wsLastSeq < seq then {s with wsLastSeq := seq} else s
      | none => s) = u at hfirst
  split
  · split
    · exact inv_closeOwn ⟨hfirst.own,hfirst.idle,hfirst.silent⟩
    · exact hfirst
  · exact hfirst

theorem inv_onMessage {msg : Message}
    (h : onMessage s socket msg = some t) (hs : Inv s)
    (hok : undisturbed s (.message socket msg)) : Inv t := by
  have hloud : quiet s.notes = false := by
    by_contra hquiet
    rw [Bool.not_eq_false] at hquiet
    have hopened : s.sockets[socket]? = some .opened := by simpa [undisturbed,hquiet] using hok
    have hws := hs.own socket .opened hopened rfl
    rw [(hs.idle hquiet).2.2] at hws
    simp at hws
  have hdispatched : Inv {s with notes := s.notes++[.dispatched socket]} := by
    refine ⟨hs.own,fun hquiet => ?_,silent_concat hs.silent fun _ _ => hloud⟩
    rw [quiet_dispatched,hloud] at hquiet
    simp at hquiet
  simp only [onMessage] at h
  split at h
  · obtain rfl := Option.some.inj h
    exact inv_handleEnvelope hdispatched msg
  · obtain rfl := Option.some.inj h
    exact inv_handleEnvelope hdispatched msg
  · simp at h

theorem inv_onClose (h : onClose s socket = some t) (hs : Inv s)
    (hok : undisturbed s (.closed socket)) : Inv t := by
  rw [onClose] at h
  split at h
  · simp at h
  · simp at h
  · obtain rfl := Option.some.inj h
    apply inv_scheduleReconnect
    refine ⟨fun i p hp hlive => ?_,fun hquiet => ?_,hs.silent⟩
    · obtain ⟨rfl,rfl⟩ | hold := getElem?_set_some hp
      · simp [SocketPhase.isLive] at hlive
      · -- the live socket is the client's own, so the one that closes is it
        have hws := hs.own i p hold hlive
        have hown : ownLive s = true := by simp [ownLive,hws,hold,hlive]
        have heq : i = socket := by simpa [undisturbed,hown,hws] using hok
        rw [heq,List.getElem?_set_self'] at hp
        obtain ⟨_,_,rfl⟩ := Option.map_eq_some_iff.mp hp
        simp [SocketPhase.isLive] at hlive
    · obtain ⟨hmode,htimer,-⟩ := hs.idle hquiet
      exact ⟨hmode,htimer,rfl⟩

theorem inv_step {act : Action}
    (h : step forceMock s act = some t) (hs : Inv s) (hok : undisturbed s act) : Inv t := by
  cases act with
  | start =>
    obtain rfl := Option.some.inj h
    exact inv_start hs
  | stop =>
    obtain rfl := Option.some.inj h
    exact inv_stop hs
  | restart =>
    obtain rfl := Option.some.inj h
    have hstop := @inv_stop s forceMock hs
    exact ⟨hstop.own,hstop.idle,hstop.silent⟩
  | reprobe =>
    obtain rfl := Option.some.inj h
    rw [reprobe]
    split
    · exact hs
    · exact ⟨hs.own,hs.idle,hs.silent⟩
  | resume call =>
    simp only [step,resume] at h
    split at h
    · obtain rfl := Option.some.inj h
      exact inv_start ⟨hs.own,hs.idle,hs.silent⟩
    · simp at h
  | answer call reachable constructs => exact inv_answer h hs hok
  | timer constructs => exact inv_timer h hs
  | opened socket => exact inv_onOpen h hs
  | message socket msg => exact inv_onMessage h hs hok
  | closed socket => exact inv_onClose h hs hok

theorem inv_init (forceMock : Bool) : Inv (init forceMock) where
  own := by simp [init]
  idle := by simp [init,quiet]
  silent := by intro before socket after h; simp [init] at h

/-- A run that nothing disturbs has one socket in each state. -/
theorem oneSocket_of_undisturbed {forceMock : Bool} {acts : List Action} {s : Client}
    (h : Run (step forceMock) (fun s act => undisturbed s act = true) (init forceMock) acts s) :
    OneSocket s := by
  have hs : Inv s := h.invariant (fun _ _ _ hok hstep hs => inv_step hstep hs hok)
    (inv_init forceMock)
  exact ⟨hs.own,hs.silent⟩

/-- A restart of a client whose socket is open; its old socket closes before the probe
answers. -/
def quickClose : List Action :=
  [.start,.answer 0 true true,.opened 0,.restart,.closed 0,.resume 0,.answer 0 true true,
    .opened 1,.message 1 ⟨some 1,none⟩]

theorem quickClose_oneSocket : ∃ s,
    Run (step false) (fun s act => undisturbed s act = true) (init false) quickClose s ∧
      OneSocket s ∧ s.sockets = [.closed,.opened] := by
  have h : ∃ s, Run (step false) (fun s act => undisturbed s act = true) (init false) quickClose s ∧
      s.sockets = [.closed,.opened] :=
    ⟨_,.succ rfl rfl <| .succ rfl rfl <| .succ rfl rfl <| .succ rfl rfl <| .succ rfl rfl <|
      .succ rfl rfl <| .succ rfl rfl <| .succ rfl rfl <| .succ rfl rfl <| .refl _,rfl⟩
  obtain ⟨s,hrun,hsockets⟩ := h
  exact ⟨s,hrun,oneSocket_of_undisturbed hrun,hsockets⟩

/-- The same restart; the old socket closes once the new one is open. -/
def lateClose : List Action :=
  [.start,.answer 0 true true,.opened 0,.restart,.resume 0,.answer 0 true true,.opened 1,
    .closed 0,.timer true,.opened 2]

/-- Two sockets are open, and each would dispatch what it gets. -/
theorem lateClose_two_sockets : ∃ s,
    Run (step false) always (init false) lateClose s ∧
      s.sockets = [.closed,.opened,.opened] ∧ ¬ OneSocket s := by
  refine ⟨_,run_of_exec rfl,rfl,fun h => ?_⟩
  exact absurd (h.own 1 .opened rfl rfl) (by decide)

end MinimaxCode.WebClient
