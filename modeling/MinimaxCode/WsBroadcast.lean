import MinimaxCode.Runs
import MinimaxCode.SequencedLog

/-!
# Broadcast over WebSockets

The server stamps every event with a sequence number, keeps the last events in a ring
and fans them out to the queues of its clients. A client reconnects with the highest
number it has seen and the server replays what came after it. Connecting takes two
steps on the server, between which other tasks run: registering the client with its
first frame, and the replay.
-/

namespace MinimaxCode.Ws

open Runs SequencedLog

variable {C E : Type*}

/-- `deque(maxlen=512)`. -/
def historySize : ℕ := 512

def maxQueueDepth : ℕ := 256

inductive Frame (E : Type*)
  | ready (nextSeq : ℕ)
  | event (e : Entry E)

/-- A connection: the sender queue, the frames sent and not yet received, and the cursor
of a replay that has not run yet. -/
structure Conn (E : Type*) where
  queue : List (Entry E)
  wire : List (Frame E)
  pending : Option ℕ

/-- A web client. Its connections are numbered, and `conn` is the last of them. What it
dispatched, its epoch resets, and the numbers of events published and recorded before
its first connection are kept for the statements. -/
structure Client (E : Type*) where
  lastSeq : ℕ
  connected : Bool
  conn : ℕ
  dispatched : List (Entry E)
  resets : ℕ
  first : Option ℕ
  base : ℕ

/-- The manager of the server process with its registered connections, the connections
and the clients; and all events that were published and that were recorded. -/
structure State (C E : Type*) where
  nextSeq : ℕ
  history : List (Entry E)
  listener : Bool
  clients : List (C × ℕ)
  conns : C → ℕ → Conn E
  web : C → Client E
  published : List E
  recorded : List (Entry E)

inductive Action (C E : Type*)
  | publish (p : E)
  | connect (c : C)
  | replay (c : C) (i : ℕ)
  | send (c : C) (i : ℕ)
  | receive (c : C)
  | drop (c : C)
  | cleanup (c : C) (i : ℕ)

/-- `_enqueue`: a full queue drops its oldest item. -/
def enqueue (queue : List (Entry E)) (e : Entry E) : List (Entry E) :=
  if queue.length < maxQueueDepth then queue++[e] else queue.tail++[e]

/-- The first frame resets the client. -/
def Doomed (w : Client E) (k : Conn E) : Prop := ∃ n rest, k.wire = .ready n::rest ∧ n ≤ w.lastSeq

section Machine

variable [DecidableEq C]

/-- The current connection of a client. -/
def State.conn (s : State C E) (c : C) : Conn E := s.conns c (s.web c).conn

/-- The server serves the current connection of a client. -/
def State.serves (s : State C E) (c : C) : Prop := (c,(s.web c).conn) ∈ s.clients

instance (s : State C E) (c : C) : Decidable (s.serves c) :=
  inferInstanceAs (Decidable ((c,(s.web c).conn) ∈ s.clients))

def State.setConn (s : State C E) (c : C) (i : ℕ) (k : Conn E) : State C E :=
  { s with conns := fun c' i' => if c' = c ∧ i' = i then k else s.conns c' i' }

def State.setClient (s : State C E) (c : C) (w : Client E) : State C E :=
  { s with web := fun c' => if c' = c then w else s.web c' }

/-- `_on_event`; without a listener the event is gone. -/
def publish (s : State C E) (p : E) : State C E :=
  let s : State C E := { s with published := s.published++[p] }
  if s.listener then
    let e : Entry E := ⟨s.nextSeq+1,p⟩
    { s with
      nextSeq := s.nextSeq+1
      history := pushRing historySize s.history e
      recorded := s.recorded++[e]
      conns := fun c i =>
        if (c,i) ∈ s.clients then { s.conns c i with queue := enqueue (s.conns c i).queue e }
        else s.conns c i }
  else s

/-- `connectWs`, and `on_connect` up to the `agent.ready` frame. -/
def connect (s : State C E) (c : C) : State C E :=
  let w := s.web c
  let i := w.conn+1
  let s := s.setConn c i ⟨[],[.ready (s.nextSeq+1)],if 0 < w.lastSeq then some w.lastSeq else none⟩
  let s := s.setClient c
    { w with
      connected := true
      conn := i
      first := some (w.first.getD s.published.length)
      base := if w.first.isSome then w.base else s.recorded.length }
  { s with clients := s.clients++[(c,i)], listener := true }

/-- The replay at the end of `on_connect`. -/
def replay (s : State C E) (c : C) (i : ℕ) (since : ℕ) : State C E :=
  let k := s.conns c i
  s.setConn c i
    { k with
      pending := none
      queue := if (c,i) ∈ s.clients then (after since s.history).foldl enqueue k.queue else k.queue }

/-- `handleEnvelope` for one frame. -/
def handleEnvelope (w : Client E) : Frame E → Client E
  | .event e =>
    { w with
      lastSeq := if w.lastSeq < e.seq then e.seq else w.lastSeq
      dispatched := w.dispatched++[e] }
  | .ready n =>
    if n ≤ w.lastSeq then { w with lastSeq := 0, connected := false, resets := w.resets+1 } else w

/-- `_cleanup_disconnect`. -/
def cleanup (s : State C E) (c : C) (i : ℕ) : State C E :=
  let clients := s.clients.filter fun k => k ≠ (c,i)
  let s := s.setConn c i { s.conns c i with queue := [] }
  { s with clients := clients, listener := s.listener && !clients.isEmpty }

def step (s : State C E) : Action C E → Option (State C E)
  | .publish p => some (publish s p)
  | .connect c => if (s.web c).connected then none else some (connect s c)
  | .replay c i =>
    match (s.conns c i).pending with
    | none => none
    | some since => some (replay s c i since)
  | .send c i =>
    match (s.conns c i).queue with
    | [] => none
    | e::rest =>
      let k := s.conns c i
      some (s.setConn c i { k with queue := rest, wire := k.wire++[.event e] })
  | .receive c =>
    let w := s.web c
    let k := s.conns c w.conn
    match w.connected,k.wire with
    | true,f::rest =>
      some ((s.setConn c w.conn { k with wire := rest }).setClient c (handleEnvelope w f))
    | _,_ => none
  | .drop c =>
    let w := s.web c
    if w.connected then some (s.setClient c { w with connected := false }) else none
  | .cleanup c i => if (c,i) ∈ s.clients then some (cleanup s c i) else none

variable {s t : State C E}

@[simp] theorem setConn_web (s : State C E) (c : C) (i : ℕ) (k : Conn E) :
    (s.setConn c i k).web = s.web := rfl

@[simp] theorem setConn_clients (s : State C E) (c : C) (i : ℕ) (k : Conn E) :
    (s.setConn c i k).clients = s.clients := rfl

@[simp] theorem setConn_recorded (s : State C E) (c : C) (i : ℕ) (k : Conn E) :
    (s.setConn c i k).recorded = s.recorded := rfl

@[simp] theorem setClient_clients (s : State C E) (c : C) (w : Client E) :
    (s.setClient c w).clients = s.clients := rfl

@[simp] theorem setClient_recorded (s : State C E) (c : C) (w : Client E) :
    (s.setClient c w).recorded = s.recorded := rfl

@[simp] theorem setClient_conns (s : State C E) (c : C) (w : Client E) :
    (s.setClient c w).conns = s.conns := rfl

@[simp] theorem setClient_web (s : State C E) (c : C) (w : Client E) :
    (s.setClient c w).web c = w := if_pos rfl

theorem setClient_web_ne (s : State C E) {c c' : C} (w : Client E) (h : c' ≠ c) :
    (s.setClient c w).web c' = s.web c' := if_neg h

@[simp] theorem setConn_conns (s : State C E) (c : C) (i : ℕ) (k : Conn E) :
    (s.setConn c i k).conns c i = k := if_pos ⟨rfl,rfl⟩

theorem setConn_conns_ne (s : State C E) {c c' : C} {i i' : ℕ} (k : Conn E)
    (h : ¬(c' = c ∧ i' = i)) : (s.setConn c i k).conns c' i' = s.conns c' i' := if_neg h

@[simp] theorem handleEnvelope_conn (w : Client E) (f : Frame E) :
    (handleEnvelope w f).conn = w.conn := by
  cases f with
  | ready n => rw [handleEnvelope]; split <;> rfl
  | event e => rfl

@[simp] theorem handleEnvelope_first (w : Client E) (f : Frame E) :
    (handleEnvelope w f).first = w.first := by
  cases f with
  | ready n => rw [handleEnvelope]; split <;> rfl
  | event e => rfl

@[simp] theorem handleEnvelope_base (w : Client E) (f : Frame E) :
    (handleEnvelope w f).base = w.base := by
  cases f with
  | ready n => rw [handleEnvelope]; split <;> rfl
  | event e => rfl

/-- What each action does where it is enabled. -/
inductive Stepped (s : State C E) : Action C E → State C E → Prop
  | publish (p : E) : Stepped s (.publish p) (publish s p)
  | connect (c : C) (hc : (s.web c).connected = false) : Stepped s (.connect c) (connect s c)
  | replay (c : C) (i since : ℕ) (hpending : (s.conns c i).pending = some since) :
      Stepped s (.replay c i) (replay s c i since)
  | send (c : C) (i : ℕ) (e : Entry E) (rest : List (Entry E))
      (hqueue : (s.conns c i).queue = e::rest) :
      Stepped s (.send c i) (s.setConn c i
        { s.conns c i with queue := rest, wire := (s.conns c i).wire++[.event e] })
  | receive (c : C) (f : Frame E) (rest : List (Frame E)) (hc : (s.web c).connected = true)
      (hwire : (s.conns c (s.web c).conn).wire = f::rest) :
      Stepped s (.receive c) ((s.setConn c (s.web c).conn
        { s.conns c (s.web c).conn with wire := rest }).setClient c (handleEnvelope (s.web c) f))
  | drop (c : C) (hc : (s.web c).connected = true) :
      Stepped s (.drop c) (s.setClient c { s.web c with connected := false })
  | cleanup (c : C) (i : ℕ) (hi : (c,i) ∈ s.clients) : Stepped s (.cleanup c i) (cleanup s c i)

theorem stepped {a : Action C E} (h : step s a = some t) : Stepped s a t := by
  cases a with
  | publish p =>
    cases h
    exact .publish p
  | connect c =>
    obtain ⟨hc,rfl⟩ : (s.web c).connected = false ∧ connect s c = t := by simpa [step] using h
    exact .connect c hc
  | replay c i =>
    cases hpending : (s.conns c i).pending with
    | none => simp [step,hpending] at h
    | some since =>
      obtain rfl : replay s c i since = t := by simpa [step,hpending] using h
      exact .replay c i since hpending
  | send c i =>
    cases hqueue : (s.conns c i).queue with
    | nil => simp [step,hqueue] at h
    | cons e rest =>
      simp only [step,hqueue,Option.some.injEq] at h
      exact h ▸ .send c i e rest hqueue
  | receive c =>
    cases hc : (s.web c).connected with
    | false => simp [step,hc] at h
    | true =>
      cases hwire : (s.conns c (s.web c).conn).wire with
      | nil => simp [step,hc,hwire] at h
      | cons f rest =>
        simp only [step,hc,hwire,Option.some.injEq] at h
        exact h ▸ .receive c f rest hc hwire
  | drop c =>
    obtain ⟨hc,rfl⟩ : (s.web c).connected = true ∧
        s.setClient c { s.web c with connected := false } = t := by
      simpa [step] using h
    exact .drop c hc
  | cleanup c i =>
    obtain ⟨hi,rfl⟩ : (c,i) ∈ s.clients ∧ cleanup s c i = t := by simpa [step] using h
    exact .cleanup c i hi

theorem first_of_step {a : Action C E} {c : C} (h : step s a = some t)
    (hfirst : (s.web c).first ≠ none) :
    (t.web c).first = (s.web c).first ∧ (t.web c).base = (s.web c).base := by
  cases stepped h with
  | publish p =>
    rw [publish]
    split <;> exact ⟨rfl,rfl⟩
  | connect c' =>
    by_cases heq : c = c'
    · subst heq
      obtain ⟨f,hf⟩ := Option.ne_none_iff_exists'.mp hfirst
      simp [connect,hf]
    · have hweb : (connect s c').web c = s.web c := setClient_web_ne _ _ heq
      rw [hweb]
      exact ⟨rfl,rfl⟩
  | receive c' f rest hc hwire =>
    by_cases heq : c = c'
    · subst heq
      simp
    · rw [setClient_web_ne _ _ heq]
      exact ⟨rfl,rfl⟩
  | drop c' =>
    by_cases heq : c = c'
    · subst heq
      simp
    · rw [setClient_web_ne _ _ heq]
      exact ⟨rfl,rfl⟩
  | _ => exact ⟨rfl,rfl⟩

end Machine

/-- The ring holds the last of the recorded events, which are numbered from one. -/
structure Logged (s : State C E) : Prop where
  numbered : Numbered s.recorded
  seq : s.nextSeq = s.recorded.length
  history : s.history = ring historySize s.recorded

theorem Logged.publish [DecidableEq C] {s : State C E} (h : Logged s) (p : E) :
    Logged (publish s p) := by
  cases hl : s.listener with
  | false =>
    have heq : Ws.publish s p = { s with published := s.published++[p] } := by
      simp [Ws.publish,hl]
    rw [heq]
    exact ⟨h.numbered,h.seq,h.history⟩
  | true =>
    have hrecorded : (Ws.publish s p).recorded = s.recorded++[⟨s.nextSeq+1,p⟩] := by
      simp [Ws.publish,hl]
    have hseq : (Ws.publish s p).nextSeq = s.nextSeq+1 := by simp [Ws.publish,hl]
    have hhistory : (Ws.publish s p).history =
        pushRing historySize s.history ⟨s.nextSeq+1,p⟩ := by
      simp [Ws.publish,hl]
    refine ⟨?_,?_,?_⟩
    · rw [hrecorded,h.seq]
      exact h.numbered.append p
    · rw [hrecorded,hseq,h.seq,List.length_append,List.length_singleton]
    · rw [hrecorded,hhistory,ring_append,h.history]

theorem Logged.step [DecidableEq C] {s t : State C E} (h : Logged s) {a : Action C E}
    (hstep : step s a = some t) : Logged t := by
  cases stepped hstep with
  | publish p => exact h.publish p
  | _ => exact ⟨h.numbered,h.seq,h.history⟩

end MinimaxCode.Ws
