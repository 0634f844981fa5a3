import MinimaxCode.OrderedDict
import MinimaxCode.JsonText
import MinimaxCode.Runs

/-!
# The demultiplexer of the hub connection

Frames that come in go to the waiter, session or progress stream they name. A waiter is
parked under the id of its request, and a second map says which sessions the waiters of
calls belong to. Registering under an id that is taken replaces the waiter, which nobody
resolves then.
-/

namespace MinimaxCode.HubDemux

open PyText PyJson OrderedDict Runs

/-- A bounded queue and the flag that closes it for senders. -/
structure Channel (T : Type) where
  buffer : List T
  capacity : ℕ
  closed : Bool

inductive SendError
  | closed
  | full

namespace Channel

variable {T : Type}

/-- `asyncio.Queue.full`; a capacity of zero is no bound. -/
def isFull (c : Channel T) : Bool := decide (0 < c.capacity ∧ c.capacity ≤ c.buffer.length)

def put (c : Channel T) (value : T) : Channel T := {c with buffer := c.buffer++[value]}

def trySend (c : Channel T) (value : T) : Except SendError (Channel T) :=
  if c.closed then .error .closed else if c.isFull then .error .full else .ok (c.put value)

def close (c : Channel T) : Channel T := {c with closed := true}

end Channel

abbrev Fields := List (PyStr × Json)

/-- What a waiter is resolved with: a response, one that failed its validation, or an error
of the client. -/
inductive Resolution (R : Type)
  | response (r : R)
  | serdeError (message : PyStr)
  | clientError (message : PyStr)

/-- A call of one of the two ways to register a waiter; only calls have a session. -/
structure Registration where
  requestId : PyStr
  waiter : ℕ
  session : Option PyStr
  deriving DecidableEq

/-- The two maps of the waiters. Beside them stand all registrations so far and what the
waiters have been resolved with. -/
structure Waiters (R : Type) where
  waiters : List (PyStr × ℕ)
  callSessions : List (PyStr × PyStr)
  registered : List Registration
  resolved : List (ℕ × Resolution R)

namespace Waiters

variable {R : Type}

def empty : Waiters R := ⟨[],[],[],[]⟩

def registerResponseWaiter (s : Waiters R) (requestId : PyStr) (waiter : ℕ) : Waiters R :=
  { s with
    waiters := assign s.waiters requestId waiter
    registered := s.registered++[⟨requestId,waiter,none⟩] }

def registerCallResponseWaiter (s : Waiters R) (requestId sessionId : PyStr) (waiter : ℕ) :
    Waiters R :=
  { s with
    callSessions := assign s.callSessions requestId sessionId
    waiters := assign s.waiters requestId waiter
    registered := s.registered++[⟨requestId,waiter,some sessionId⟩] }

/-- `_fulfill`: a waiter that is done already takes no second result. -/
def fulfill (s : Waiters R) (waiter : ℕ) (result : Resolution R) : Bool × Waiters R :=
  if waiter ∈ keys s.resolved then (false,s)
  else (true,{s with resolved := s.resolved++[(waiter,result)]})

def takeResponseWaiter (s : Waiters R) (requestId : PyStr) : Option ℕ × Waiters R :=
  (lookup s.waiters requestId,
    {s with callSessions := remove s.callSessions requestId, waiters := remove s.waiters requestId})

/-- A waiter is taken and resolved, when there is one. -/
def settle (s : Waiters R) (requestId : PyStr) (result : Resolution R) : Bool × Waiters R :=
  match s.takeResponseWaiter requestId with
  | (some waiter,s) => s.fulfill waiter result
  | (none,s) => (false,s)

def failCallsForSession (s : Waiters R) (sessionId : PyStr) (result : Resolution R) :
    ℕ × Waiters R :=
  (keys (s.callSessions.filter fun rs => rs.2 = sessionId)).foldl
    (fun ns requestId =>
      ((if (ns.2.settle requestId result).1 then ns.1+1 else ns.1),
        (ns.2.settle requestId result).2))
    (0,s)

/-- One round of the loop of `drain_waiters_with`. -/
def drainOne (result : Resolution R) (s : Waiters R) (key : PyStr) : Waiters R :=
  match lookup s.waiters key with
  | some waiter =>
    (fulfill {s with waiters := remove s.waiters key, callSessions := remove s.callSessions key}
      waiter result).2
  | none => s

def drainWaitersWith (s : Waiters R) (result : Resolution R) : Waiters R :=
  (keys s.waiters).foldl (drainOne result) s

end Waiters

structure InboundFrame where
  isRequest : Bool
  value : Fields

inductive RouteOutcome
  | response
  | session
  | progress
  | unknownSession
  | unknownProgress
  | notification
  | unrouted
  | inboxFull
  | sessionDropped
  | progressFull
  | progressDropped
  deriving DecidableEq

/-- The decoders of frames, the rejection of a request whose inbox is full, and `str` of a
float. -/
structure Codec (R F : Type) where
  responseFromWire : Fields → Except PyStr R
  progressFromWire : Fields → Option F
  overloaded : Fields → PyStr → Option PyStr
  floatText : PyFloat → PyStr

/-- Sinks are numbers; the channels that they send to stand beside the maps. -/
structure Demux (R F : Type) where
  sessions : List (PyStr × ℕ)
  waiters : Waiters R
  progress : List (PyStr × ℕ)
  subscribers : List (Channel Fields)
  outbound : Option (Channel PyStr)
  inboxes : List (ℕ × Channel InboundFrame)
  progressChannels : List (ℕ × Channel F)

namespace Demux

variable {R F : Type}

def new (outbound : Option (Channel PyStr)) : Demux R F := ⟨[],.empty,[],[],outbound,[],[]⟩

/-- The ids are strings that are not empty. -/
def opaqueId (s : PyStr) : Option PyStr := if s = [] then none else some s

def matchRequestId (codec : Codec R F) : Json → Option PyStr
  | .str s => opaqueId s
  | .int n => opaqueId (intText n)
  | .float x => opaqueId (codec.floatText x)
  | _ => none

def routeResponse (codec : Codec R F) (s : Demux R F) (frame : Fields) :
    RouteOutcome × Demux R F :=
  match (get frame (lit "id")).bind (matchRequestId codec) with
  | none => (.unrouted,s)
  | some requestId =>
    match s.waiters.takeResponseWaiter requestId with
    | (none,waiters) => (.unrouted,{s with waiters})
    | (some waiter,waiters) =>
      match codec.responseFromWire frame with
      | .ok r => (.response,{s with waiters := (waiters.fulfill waiter (.response r)).2})
      | .error e => (.response,{s with waiters := (waiters.fulfill waiter (.serdeError e)).2})

/-- A frame that is decoded goes to the channel of its call. -/
def forwardProgress (s : Demux R F) (toolCallId : PyStr) (sink : ℕ) (frame : F) :
    RouteOutcome × Demux R F :=
  match lookup s.progressChannels sink with
  | none => (.progress,s)
  | some channel =>
    match channel.trySend frame with
    | .ok channel =>
      (.progress,{s with progressChannels := assign s.progressChannels sink channel})
    | .error .full => (.progressFull,s)
    | .error .closed => (.progressDropped,{s with progress := remove s.progress toolCallId})

def routeProgress (codec : Codec R F) (s : Demux R F) (frame : Fields) :
    RouteOutcome × Demux R F :=
  match get frame (lit "params") with
  | some (.obj params) =>
    match get params (lit "tool_call_id") with
    | some (.str callId) =>
      match opaqueId callId with
      | none => (.unrouted,s)
      | some toolCallId =>
        match lookup s.progress toolCallId with
        | none => (.unknownProgress,s)
        | some sink =>
          match codec.progressFromWire params with
          | none => (.unrouted,s)
          | some frame => s.forwardProgress toolCallId sink frame
    | _ => (.unrouted,s)
  | _ => (.unrouted,s)

/-- A request is answered on the outbound channel, when there is one and it has room. -/
def rejectInboxFull (codec : Codec R F) (s : Demux R F) (sessionId : PyStr) (frame : InboundFrame) :
    Demux R F :=
  if frame.isRequest then
    match s.outbound, codec.overloaded frame.value sessionId with
    | some channel, some text =>
      match channel.trySend text with
      | .ok channel => {s with outbound := some channel}
      | .error _ => s
    | _, _ => s
  else s

def deliver (codec : Codec R F) (s : Demux R F) (sessionId : PyStr) (sink : ℕ)
    (frame : InboundFrame) : RouteOutcome × Demux R F :=
  match lookup s.inboxes sink with
  | none => (.session,s)
  | some channel =>
    match channel.trySend frame with
    | .ok channel => (.session,{s with inboxes := assign s.inboxes sink channel})
    | .error .full => (.inboxFull,s.rejectInboxFull codec sessionId frame)
    | .error .closed => (.sessionDropped,{s with sessions := remove s.sessions sessionId})

def routeSession (codec : Codec R F) (s : Demux R F) (frame : Fields) :
    RouteOutcome × Demux R F :=
  match get frame (lit "session_id") with
  | some (.str sid) =>
    match opaqueId sid with
    | none => (.unrouted,s)
    | some sessionId =>
      match lookup s.sessions sessionId with
      | none => (.unknownSession,s)
      | some sink => s.deliver codec sessionId sink ⟨has frame (lit "id"),frame⟩
  | _ => (.unrouted,s)

/-- A subscriber whose queue is full misses the frame. -/
def notify (s : Demux R F) (frame : Fields) : Demux R F :=
  {s with subscribers := s.subscribers.map fun c => if c.isFull then c else c.put frame}

def isProgress (frame : Fields) : Bool :=
  match get frame (lit "method") with
  | some (.str m) => decide (m = lit "tool_call_progress")
  | _ => false

def route (codec : Codec R F) (s : Demux R F) (frame : Fields) : RouteOutcome × Demux R F :=
  if has frame (lit "result") || has frame (lit "error") then s.routeResponse codec frame
  else if isProgress frame then s.routeProgress codec frame
  else if has frame (lit "session_id") then s.routeSession codec frame
  else if has frame (lit "method") then (.notification,s.notify frame)
  else (.unrouted,s)

def notificationCapacity : ℕ := 64

def subscribeNotifications (s : Demux R F) : Demux R F :=
  {s with subscribers := s.subscribers++[⟨[],notificationCapacity,false⟩]}

/-- The sink of a new channel is bound to the session; the old binding is returned. -/
def registerSessionInbox (s : Demux R F) (sessionId : PyStr) (sink capacity : ℕ) :
    Option ℕ × Demux R F :=
  (lookup s.sessions sessionId,
    { s with
      sessions := assign s.sessions sessionId sink
      inboxes := if sink ∈ keys s.inboxes then s.inboxes
        else assign s.inboxes sink ⟨[],capacity,false⟩ })

def unregisterSessionInbox (s : Demux R F) (sessionId : PyStr) : Option ℕ × Demux R F :=
  (lookup s.sessions sessionId,{s with sessions := remove s.sessions sessionId})

/-- A call that has a progress stream keeps it. -/
def tryRegisterProgressWaiter (s : Demux R F) (toolCallId : PyStr) (sink capacity : ℕ) :
    Bool × Demux R F :=
  if toolCallId ∈ keys s.progress then (false,s)
  else (true,
    { s with
      progress := assign s.progress toolCallId sink
      progressChannels := if sink ∈ keys s.progressChannels then s.progressChannels
        else assign s.progressChannels sink ⟨[],capacity,false⟩ })

def unregisterProgressWaiter (s : Demux R F) (toolCallId : PyStr) : Option ℕ × Demux R F :=
  (lookup s.progress toolCallId,{s with progress := remove s.progress toolCallId})

def drainProgress (s : Demux R F) : Demux R F :=
  { s with
    progress := []
    progressChannels := s.progressChannels.map fun kc =>
      if kc.1 ∈ s.progress.map Prod.snd then (kc.1,kc.2.close) else kc }

/-- The operations on a demultiplexer. -/
inductive Op
  | registerResponseWaiter (requestId : PyStr) (waiter : ℕ)
  | registerCallResponseWaiter (requestId sessionId : PyStr) (waiter : ℕ)
  | route (frame : Fields)
  | failCallsForSession (sessionId message : PyStr)
  | drainWaitersWith (message : PyStr)
  | subscribeNotifications
  | registerSessionInbox (sessionId : PyStr) (sink capacity : ℕ)
  | unregisterSessionInbox (sessionId : PyStr)
  | tryRegisterProgressWaiter (toolCallId : PyStr) (sink capacity : ℕ)
  | unregisterProgressWaiter (toolCallId : PyStr)
  | drainProgress

def step (codec : Codec R F) (s : Demux R F) : Op → Option (Demux R F)
  | .registerResponseWaiter requestId waiter =>
    some {s with waiters := s.waiters.registerResponseWaiter requestId waiter}
  | .registerCallResponseWaiter requestId sessionId waiter =>
    some {s with waiters := s.waiters.registerCallResponseWaiter requestId sessionId waiter}
  | .route frame => some (s.route codec frame).2
  | .failCallsForSession sessionId message =>
    some {s with waiters := (s.waiters.failCallsForSession sessionId (.clientError message)).2}
  | .drainWaitersWith message =>
    some {s with waiters := s.waiters.drainWaitersWith (.clientError message)}
  | .subscribeNotifications => some s.subscribeNotifications
  | .registerSessionInbox sessionId sink capacity =>
    some (s.registerSessionInbox sessionId sink capacity).2
  | .unregisterSessionInbox sessionId => some (s.unregisterSessionInbox sessionId).2
  | .tryRegisterProgressWaiter toolCallId sink capacity =>
    some (s.tryRegisterProgressWaiter toolCallId sink capacity).2
  | .unregisterProgressWaiter toolCallId => some (s.unregisterProgressWaiter toolCallId).2
  | .drainProgress => some s.drainProgress

end Demux

namespace Waiters

variable {R : Type} {s : Waiters R} {requestId sessionId : PyStr} {w : ℕ} {result : Resolution R}

/-- The waiter can still be found in the table. -/
def Reachable (s : Waiters R) (w : ℕ) : Prop := ∃ requestId, lookup s.waiters requestId = some w

def timesResolved (s : Waiters R) (w : ℕ) : ℕ := (keys s.resolved).count w

/-- The last registration under an id. -/
def latest (s : Waiters R) (requestId : PyStr) : Option Registration :=
  (s.registered.filter fun r => r.requestId = requestId).getLast?

/-- No waiter is lost or resolved twice, and the session of an id is the one that its waiter
was registered with. -/
structure Disciplined (s : Waiters R) : Prop where
  accounted : ∀ r ∈ s.registered, s.Reachable r.waiter ∨ s.timesResolved r.waiter = 1
  once : ∀ w, s.timesResolved w ≤ 1
  sessions : ∀ requestId sessionId, lookup s.callSessions requestId = some sessionId →
    ∃ w, lookup s.waiters requestId = some w ∧
      s.latest requestId = some ⟨requestId,w,some sessionId⟩

/-- What every operation keeps. -/
structure Sound (s : Waiters R) : Prop where
  known : ∀ requestId w, lookup s.waiters requestId = some w → ∃ r ∈ s.registered, r.waiter = w
  once : (keys s.resolved).Nodup

theorem Sound.timesResolved_eq_one (h : s.Sound) : s.timesResolved w = 1 ↔ w ∈ keys s.resolved := by
  constructor
  · intro hc
    exact List.count_pos_iff.mp (by rw [← timesResolved,hc]; exact Nat.one_pos)
  · exact List.count_eq_one_of_mem h.once

theorem Sound.timesResolved_le_one (h : s.Sound) (w : ℕ) : s.timesResolved w ≤ 1 :=
  List.nodup_iff_count_le_one.mp h.once w

theorem fulfill_spec (h : (keys s.resolved).Nodup) (w : ℕ) (result : Resolution R) :
    (s.fulfill w result).2.waiters = s.waiters ∧
      (s.fulfill w result).2.callSessions = s.callSessions ∧
      (s.fulfill w result).2.registered = s.registered ∧
      (keys (s.fulfill w result).2.resolved).Nodup ∧
      ∀ w', w' ∈ keys (s.fulfill w result).2.resolved ↔ w' = w ∨ w' ∈ keys s.resolved := by
  rw [fulfill]
  split
  · next hdone =>
    refine ⟨rfl,rfl,rfl,h,fun w' => ⟨.inr,?_⟩⟩
    rintro (rfl | hw')
    · exact hdone
    · exact hw'
  · next hnew =>
    refine ⟨rfl,rfl,rfl,?_,fun w' => ?_⟩
    · rw [keys,List.map_append,List.nodup_append]
      refine ⟨h,List.nodup_singleton w,fun a ha b hb hab => ?_⟩
      rw [List.map_singleton,List.mem_singleton] at hb
      rw [hab.trans hb] at ha
      exact hnew ha
    · rw [keys,List.map_append,List.mem_append,List.map_singleton,List.mem_singleton]
      exact or_comm

theorem settle_keeps (h : s.Sound) (hd : s.Disciplined) (requestId : PyStr) (result : Resolution R) :
    (s.settle requestId result).2.Sound ∧ (s.settle requestId result).2.Disciplined := by
  have hother : ∀ id w, lookup (remove s.waiters requestId) id = some w →
      requestId ≠ id ∧ lookup s.waiters id = some w := by
    intro id w hw
    rw [lookup_remove] at hw
    split at hw
    · cases hw
    · next hne => exact ⟨hne,hw⟩
  have hsessions : ∀ id sid, lookup (remove s.callSessions requestId) id = some sid →
      ∃ w, lookup (remove s.waiters requestId) id = some w ∧
        s.latest id = some ⟨id,w,some sid⟩ := by
    intro id sid hsid
    rw [lookup_remove] at hsid
    split at hsid
    · cases hsid
    · next hne =>
      obtain ⟨w,hw,hlatest⟩ := hd.sessions id sid hsid
      exact ⟨w,by rwa [lookup_remove,if_neg hne],hlatest⟩
  cases hw : lookup s.waiters requestId with
  | none =>
    have heq : (s.settle requestId result).2 = (s.takeResponseWaiter requestId).2 := by
      rw [settle,takeResponseWaiter,hw]
    rw [heq]
    have hsound : (s.takeResponseWaiter requestId).2.Sound :=
      ⟨fun id w hid => h.known id w (hother id w hid).2,h.once⟩
    refine ⟨hsound,fun r hr => ?_,hsound.timesResolved_le_one,hsessions⟩
    refine (hd.accounted r hr).imp_left ?_
    rintro ⟨id,hid⟩
    refine ⟨id,?_⟩
    change lookup (remove s.waiters requestId) id = some r.waiter
    rw [lookup_remove,if_neg]
    · exact hid
    · rintro rfl
      rw [hw] at hid
      cases hid
  | some w =>
    obtain ⟨hwaiters,hcalls,hregistered,hnodup,hresolved⟩ :=
      fulfill_spec (s := (s.takeResponseWaiter requestId).2) h.once w result
    have heq : (s.settle requestId result).2 =
        ((s.takeResponseWaiter requestId).2.fulfill w result).2 := by
      rw [settle,takeResponseWaiter,hw]
    rw [heq]
    generalize ((s.takeResponseWaiter requestId).2.fulfill w result).2 = t at *
    have hsound : t.Sound := by
      refine ⟨fun id w' hid => ?_,hnodup⟩
      rw [hwaiters] at hid
      rw [hregistered]
      exact h.known id w' (hother id w' hid).2
    refine ⟨hsound,fun r hr => ?_,hsound.timesResolved_le_one,fun id sid hsid => ?_⟩
    · rw [hregistered] at hr
      rw [hsound.timesResolved_eq_one,hresolved]
      rcases hd.accounted r hr with ⟨id,hid⟩ | hone
      · by_cases hne : requestId = id
        · subst hne
          rw [hw] at hid
          exact .inr (.inl (Option.some.inj hid).symm)
        · refine .inl ⟨id,?_⟩
          rw [hwaiters]
          change lookup (remove s.waiters requestId) id = some r.waiter
          rw [lookup_remove,if_neg hne,hid]
      · exact .inr (.inr (h.timesResolved_eq_one.mp hone))
    · rw [hcalls] at hsid
      rw [hwaiters,latest,hregistered]
      exact hsessions id sid hsid

theorem failCallsForSession_keeps (h : s.Sound) (hd : s.Disciplined) (sessionId : PyStr)
    (result : Resolution R) : (s.failCallsForSession sessionId result).2.Sound ∧
      (s.failCallsForSession sessionId result).2.Disciplined := by
  have hloop : ∀ (ids : List PyStr) (ns : ℕ × Waiters R), ns.2.Sound → ns.2.Disciplined →
      let t := (ids.foldl (fun ns requestId =>
        ((if (ns.2.settle requestId result).1 then ns.1+1 else ns.1),
          (ns.2.settle requestId result).2)) ns).2
      t.Sound ∧ t.Disciplined := by
    intro ids
    induction ids with
    | nil => exact fun ns h hd => ⟨h,hd⟩
    | cons id ids ih =>
      intro ns h hd
      obtain ⟨h',hd'⟩ := settle_keeps h hd id result
      exact ih _ h' hd'
  exact hloop _ (0,s) h hd

theorem drainWaitersWith_keeps (h : s.Sound) (hd : s.Disciplined) (result : Resolution R) :
    (s.drainWaitersWith result).Sound ∧ (s.drainWaitersWith result).Disciplined := by
  have hloop : ∀ (ids : List PyStr) (s : Waiters R), s.Sound → s.Disciplined →
      (ids.foldl (drainOne result) s).Sound ∧ (ids.foldl (drainOne result) s).Disciplined := by
    intro ids
    induction ids with
    | nil => exact fun s h hd => ⟨h,hd⟩
    | cons id ids ih =>
      intro s h hd
      have hone : drainOne result s id = s ∨ drainOne result s id = (s.settle id result).2 := by
        rw [drainOne,settle,takeResponseWaiter]
        cases lookup s.waiters id with
        | none => exact .inl rfl
        | some w => exact .inr rfl
      rw [List.foldl_cons]
      rcases hone with heq | heq
      · rw [heq]
        exact ih s h hd
      · rw [heq]
        obtain ⟨h',hd'⟩ := settle_keeps h hd id result
        exact ih _ h' hd'
  exact hloop _ s h hd

/-- The state after a registration, whichever way the sessions change. -/
def register (s : Waiters R) (callSessions : List (PyStr × PyStr)) (r : Registration) : Waiters R :=
  ⟨assign s.waiters r.requestId r.waiter,callSessions,s.registered++[r],s.resolved⟩

/-- No waiter that is waiting still is lost when another one takes its place. -/
def Spares (s : Waiters R) (requestId : PyStr) (waiter : ℕ) : Prop :=
  ∀ w, lookup s.waiters requestId = some w →
    w = waiter ∨ w ∈ keys s.resolved ∨ ∃ other, requestId ≠ other ∧ lookup s.waiters other = some w

variable {callSessions : List (PyStr × PyStr)} {r : Registration}

theorem latest_register (id : PyStr) : (s.register callSessions r).latest id =
    if r.requestId = id then some r else s.latest id := by
  rw [latest,register,List.filter_append]
  by_cases h : r.requestId = id
  · simp [h]
  · simp [h,latest]

theorem Sound.register (h : s.Sound) : (s.register callSessions r).Sound := by
  refine ⟨fun id w hw => ?_,h.once⟩
  dsimp only [Waiters.register] at hw ⊢
  rw [lookup_assign] at hw
  split at hw
  · exact ⟨r,by simp,Option.some.inj hw⟩
  · obtain ⟨r',hr',hwr⟩ := h.known id w hw
    exact ⟨r',List.mem_append_left _ hr',hwr⟩

theorem Sound.registerResponseWaiter (h : s.Sound) (requestId : PyStr) (w : ℕ) :
    (s.registerResponseWaiter requestId w).Sound :=
  h.register (r := ⟨requestId,w,none⟩)

theorem Sound.registerCallResponseWaiter (h : s.Sound) (requestId sessionId : PyStr) (w : ℕ) :
    (s.registerCallResponseWaiter requestId sessionId w).Sound :=
  h.register (r := ⟨requestId,w,some sessionId⟩)

theorem accounted_register_iff (h : s.Sound) (hd : s.Disciplined) :
    (∀ r' ∈ (s.register callSessions r).registered, (s.register callSessions r).Reachable r'.waiter ∨
      (s.register callSessions r).timesResolved r'.waiter = 1) ↔ s.Spares r.requestId r.waiter := by
  have hlookup : ∀ id, lookup (s.register callSessions r).waiters id =
      if r.requestId = id then some r.waiter else lookup s.waiters id :=
    fun id => lookup_assign _ _ _ _
  have honce : ∀ w, (s.register callSessions r).timesResolved w = 1 ↔ w ∈ keys s.resolved :=
    fun w => (Sound.register h).timesResolved_eq_one
  constructor
  · intro hall w hw
    obtain ⟨r',hr',rfl⟩ := h.known r.requestId w hw
    rcases hall r' (List.mem_append_left _ hr') with ⟨id,hid⟩ | hone
    · rw [hlookup] at hid
      split at hid
      · exact .inl (Option.some.inj hid).symm
      · next hne => exact .inr (.inr ⟨id,hne,hid⟩)
    · exact .inr (.inl ((honce _).mp hone))
  · intro hspares r' hr'
    rw [honce]
    have hself : (s.register callSessions r).Reachable r.waiter :=
      ⟨r.requestId,by rw [hlookup,if_pos rfl]⟩
    rcases List.mem_append.mp hr' with hr' | hr'
    · rcases hd.accounted r' hr' with ⟨id,hid⟩ | hone
      · by_cases hne : r.requestId = id
        · subst hne
          rcases hspares _ hid with heq | hdone | ⟨other,hother,hlook⟩
          · exact .inl (heq ▸ hself)
          · exact .inr hdone
          · exact .inl ⟨other,by rw [hlookup,if_neg hother,hlook]⟩
        · exact .inl ⟨id,by rw [hlookup,if_neg hne,hid]⟩
      · exact .inr (h.timesResolved_eq_one.mp hone)
    · rw [List.mem_singleton.mp hr']
      exact .inl hself

theorem disciplined_registerResponseWaiter_iff (h : s.Sound) (hd : s.Disciplined) :
    (s.registerResponseWaiter requestId w).Disciplined ↔
      s.Spares requestId w ∧ requestId ∉ keys s.callSessions := by
  have heq : s.registerResponseWaiter requestId w =
      s.register s.callSessions ⟨requestId,w,none⟩ := rfl
  have hsound : (s.register s.callSessions ⟨requestId,w,none⟩).Sound := h.register
  rw [heq]
  constructor
  · intro ht
    refine ⟨(accounted_register_iff h hd).mp ht.accounted,fun hmem => ?_⟩
    obtain ⟨sid,hsid⟩ := Option.isSome_iff_exists.mp (isSome_lookup_iff.mpr hmem)
    obtain ⟨w',-,hlatest⟩ := ht.sessions requestId sid hsid
    rw [latest_register,if_pos rfl] at hlatest
    cases hlatest
  · rintro ⟨hspares,hfree⟩
    refine ⟨(accounted_register_iff h hd).mpr hspares,hsound.timesResolved_le_one,
      fun id sid hsid => ?_⟩
    have hne : requestId ≠ id := by
      rintro rfl
      exact hfree (isSome_lookup_iff.mp (Option.isSome_of_eq_some hsid))
    obtain ⟨w',hw',hlatest⟩ := hd.sessions id sid hsid
    refine ⟨w',?_,by rw [latest_register,if_neg hne,hlatest]⟩
    rw [register,lookup_assign,if_neg hne,hw']

theorem disciplined_registerCallResponseWaiter_iff (h : s.Sound) (hd : s.Disciplined) :
    (s.registerCallResponseWaiter requestId sessionId w).Disciplined ↔ s.Spares requestId w := by
  have heq : s.registerCallResponseWaiter requestId sessionId w =
      s.register (assign s.callSessions requestId sessionId) ⟨requestId,w,some sessionId⟩ := rfl
  have hsound : (s.register (assign s.callSessions requestId sessionId)
    ⟨requestId,w,some sessionId⟩).Sound := h.register
  rw [heq]
  refine ⟨fun ht => (accounted_register_iff h hd).mp ht.accounted,fun hspares => ?_⟩
  refine ⟨(accounted_register_iff h hd).mpr hspares,hsound.timesResolved_le_one,
    fun id sid hsid => ?_⟩
  rw [latest_register]
  rw [register] at hsid ⊢
  rw [lookup_assign] at hsid ⊢
  split at hsid
  · next hid =>
    subst hid
    cases hsid
    exact ⟨w,by rw [if_pos rfl],by rw [if_pos rfl]⟩
  · next hne =>
    obtain ⟨w',hw',hlatest⟩ := hd.sessions id sid hsid
    exact ⟨w',by rw [if_neg hne,hw'],by rw [if_neg hne,hlatest]⟩

end Waiters

namespace Demux

variable {R F : Type} {codec : Codec R F} {s t : Demux R F}

theorem routeResponse_waiters (codec : Codec R F) (s : Demux R F) (frame : Fields) :
    (s.routeResponse codec frame).2.waiters = s.waiters ∨ ∃ requestId result,
      (s.routeResponse codec frame).2.waiters = (s.waiters.settle requestId result).2 := by
  rw [routeResponse]
  cases (get frame (lit "id")).bind (matchRequestId codec) with
  | none => exact .inl rfl
  | some requestId =>
    right
    refine ⟨requestId,
      match codec.responseFromWire frame with
      | .ok r => .response r
      | .error e => .serdeError e,?_⟩
    simp only [Waiters.settle,Waiters.takeResponseWaiter]
    cases lookup s.waiters.waiters requestId with
    | none => rfl
    | some w => cases codec.responseFromWire frame <;> rfl

theorem forwardProgress_waiters (toolCallId : PyStr) (sink : ℕ) (frame : F) :
    (s.forwardProgress toolCallId sink frame).2.waiters = s.waiters := by
  rw [forwardProgress]
  cases lookup s.progressChannels sink with
  | none => rfl
  | some channel =>
    dsimp only
    cases channel.trySend frame with
    | ok channel => rfl
    | error e => cases e <;> rfl

theorem routeProgress_waiters (frame : Fields) :
    (s.routeProgress codec frame).2.waiters = s.waiters := by
  rw [routeProgress]
  split
  · split
    · split
      · rfl
      · split
        · rfl
        · split
          · rfl
          · exact forwardProgress_waiters _ _ _
    · rfl
  · rfl

theorem deliver_waiters (sessionId : PyStr) (sink : ℕ) (frame : InboundFrame) :
    (s.deliver codec sessionId sink frame).2.waiters = s.waiters := by
  rw [deliver]
  cases lookup s.inboxes sink with
  | none => rfl
  | some channel =>
    dsimp only
    cases channel.trySend frame with
    | ok channel => rfl
    | error e =>
      cases e with
      | closed => rfl
      | full =>
        dsimp only
        rw [rejectInboxFull]
        split
        · split
          · split <;> rfl
          · rfl
        · rfl

theorem routeSession_waiters (frame : Fields) :
    (s.routeSession codec frame).2.waiters = s.waiters := by
  rw [routeSession]
  split
  · split
    · rfl
    · split
      · rfl
      · exact deliver_waiters _ _ _
  · rfl

theorem route_waiters (codec : Codec R F) (s : Demux R F) (frame : Fields) :
    (s.route codec frame).2.waiters = s.waiters ∨
      ∃ requestId result, (s.route codec frame).2.waiters = (s.waiters.settle requestId result).2 := by
  rw [route]
  split
  · exact routeResponse_waiters codec s frame
  · split
    · exact .inl (routeProgress_waiters frame)
    · split
      · exact .inl (routeSession_waiters frame)
      · split
        · exact .inl rfl
        · exact .inl rfl

/-- A registration takes no place whose waiter would be lost; a waiter that is not one of a
call takes no place that has a session. -/
def Keeps (s : Demux R F) : Op → Prop
  | .registerResponseWaiter requestId waiter =>
    s.waiters.Spares requestId waiter ∧ requestId ∉ keys s.waiters.callSessions
  | .registerCallResponseWaiter requestId _ waiter => s.waiters.Spares requestId waiter
  | _ => True

/-- What every operation keeps, and the discipline, of the tables of a demultiplexer. -/
def Sound (s : Demux R F) : Prop := s.waiters.Sound

def Disciplined (s : Demux R F) : Prop := s.waiters.Disciplined

theorem step_spec {op : Op} (hst : step codec s op = some t) (h : s.Sound) (hd : s.Disciplined) :
    t.Sound ∧ (t.Disciplined ↔ s.Keeps op) := by
  cases op with
  | registerResponseWaiter requestId w =>
    cases hst
    exact ⟨Waiters.Sound.registerResponseWaiter h requestId w,
      Waiters.disciplined_registerResponseWaiter_iff h hd⟩
  | registerCallResponseWaiter requestId sessionId w =>
    cases hst
    exact ⟨Waiters.Sound.registerCallResponseWaiter h requestId sessionId w,
      Waiters.disciplined_registerCallResponseWaiter_iff h hd⟩
  | route frame =>
    cases hst
    rw [Sound,Disciplined]
    rcases route_waiters codec s frame with heq | ⟨requestId,result,heq⟩
    · rw [heq]
      exact ⟨h,fun _ => trivial,fun _ => hd⟩
    · rw [heq]
      obtain ⟨h',hd'⟩ := Waiters.settle_keeps h hd requestId result
      exact ⟨h',fun _ => trivial,fun _ => hd'⟩
  | failCallsForSession sessionId message =>
    cases hst
    obtain ⟨h',hd'⟩ := Waiters.failCallsForSession_keeps h hd sessionId (.clientError message)
    exact ⟨h',fun _ => trivial,fun _ => hd'⟩
  | drainWaitersWith message =>
    cases hst
    obtain ⟨h',hd'⟩ := Waiters.drainWaitersWith_keeps h hd (.clientError message)
    exact ⟨h',fun _ => trivial,fun _ => hd'⟩
  | tryRegisterProgressWaiter toolCallId sink capacity =>
    cases hst
    have heq : (s.tryRegisterProgressWaiter toolCallId sink capacity).2.waiters = s.waiters := by
      rw [tryRegisterProgressWaiter]
      split <;> rfl
    rw [Sound,Disciplined,heq]
    exact ⟨h,fun _ => trivial,fun _ => hd⟩
  | subscribeNotifications | registerSessionInbox _ _ _ | unregisterSessionInbox _
  | unregisterProgressWaiter _ | drainProgress =>
    cases hst
    exact ⟨h,fun _ => trivial,fun _ => hd⟩

theorem step_isSome (codec : Codec R F) (s : Demux R F) (op : Op) : (step codec s op).isSome := by
  cases op <;> rfl

/-- The discipline holds throughout a run exactly when every registration in it finds its
place free. -/
theorem disciplined_throughout_iff (codec : Codec R F) (outbound : Option (Channel PyStr))
    (ops : List Op) : Throughout (step codec) Disciplined (new outbound) ops ↔
      ∃ t, Run (step codec) Keeps (new outbound) ops t := by
  obtain ⟨u,hu⟩ := exists_run (step_isSome codec) (new outbound : Demux R F) ops
  have hsound : (new outbound : Demux R F).Sound := by
    refine ⟨fun id w hw => ?_,List.nodup_nil⟩
    cases hw
  have hd : (new outbound : Demux R F).Disciplined := by
    refine ⟨fun r hr => ?_,fun w => Nat.zero_le 1,fun id sid hsid => ?_⟩
    · cases hr
    · cases hsid
  have hinv : ∀ (s : Demux R F) op t, always s op → step codec s op = some t → s.Sound →
      s.Disciplined → t.Disciplined → t.Sound := fun s op t _ hst h hd _ => (step_spec hst h hd).1
  have hstep : ∀ (s : Demux R F) op t, always s op → step codec s op = some t → s.Sound →
      s.Disciplined → (t.Disciplined ↔ s.Keeps op) := fun s op t _ hst h hd => (step_spec hst h hd).2
  rw [throughout_iff hinv hstep hu hsound hd]
  refine ⟨fun h => ⟨u,h⟩,?_⟩
  rintro ⟨t,ht⟩
  have hexec := exec_of_run ht
  rw [exec_of_run hu] at hexec
  cases hexec
  exact ht

/-- Frames that are kept as they are. -/
def plainCodec : Codec Fields Fields := ⟨.ok,some,fun _ _ => none,fun _ => []⟩

/-- Two calls under one id: the waiter of the first is neither parked nor resolved. -/
theorem reused_id_strands : ∃ t,
    Run (step plainCodec) always (new none) [.registerCallResponseWaiter (lit "c1") (lit "s1") 0,
      .registerCallResponseWaiter (lit "c1") (lit "s2") 1,.drainWaitersWith (lit "lost")] t ∧
    ¬ t.waiters.Reachable 0 ∧ t.waiters.timesResolved 0 = 0 ∧ ¬ t.Disciplined := by
  generalize ht : last (step plainCodec) (new none)
    [.registerCallResponseWaiter (lit "c1") (lit "s1") 0,
      .registerCallResponseWaiter (lit "c1") (lit "s2") 1,.drainWaitersWith (lit "lost")] = t
  have hwaiters : t.waiters.waiters = [] := by rw [← ht]; rfl
  have hresolved : t.waiters.timesResolved 0 = 0 := by rw [← ht]; rfl
  have hregistered : ⟨lit "c1",0,some (lit "s1")⟩ ∈ t.waiters.registered := by
    rw [← ht]
    exact .head _
  have hlost : ¬ t.waiters.Reachable 0 := by
    rintro ⟨id,hid⟩
    rw [hwaiters] at hid
    cases hid
  refine ⟨t,by rw [← ht]; exact run_last (by rfl),hlost,hresolved,fun h => ?_⟩
  rcases h.accounted _ hregistered with hreach | hone
  · exact hlost hreach
  · rw [hresolved] at hone
    cases hone

end Demux

end MinimaxCode.HubDemux
