import MinimaxCode.RemoteDecode
import MinimaxCode.Runs
import MinimaxCode.WireRoundTrip

/-!
# The stream of a remote call

`_request_stream` races the response of a call against the next frame of its progress
stream. The response wins: once it is there, the next turn of the generator yields the one
terminal and drops a frame that came along. A progress stream that closes leaves the
generator waiting for the response; one that raises, or a request that raises, ends it.
-/

namespace MinimaxCode.RemoteCall

open PyText PyJson RecordFields ToolProtocol Runs

/-- What `progress.__anext__()` gives: a frame, the end of the stream, or an exception. -/
inductive Progress
  | frame (f : ToolCallProgressFrame)
  | ended
  | fails

/-- What the request gives: a response, a tool error, or an exception. -/
inductive RequestResult
  | response (resp : JsonRpcResponse)
  | error (e : ToolError)
  | fails

def Progress.isFailure : Progress → Bool
  | .fails => true
  | _ => false

def RequestResult.isFailure : RequestResult → Bool
  | .fails => true
  | _ => false

/-- `ToolProgress.Custom`. -/
structure ToolProgress where
  subkind : PyStr
  payload : Json

def progressFromFrame (frame : ToolCallProgressFrame) : ToolProgress := ⟨frame.kind,frame.body⟩

inductive Item (Card : Type)
  | progress (p : ToolProgress)
  | terminal (t : Terminal Card)

/-- Where the generator is: at a `yield` of a frame or not started, in `asyncio.wait`, at
`await req_task`, at the `yield` of the terminal, or behind its end. -/
inductive Phase
  | idle
  | racing
  | awaiting
  | answered
  | returned
  | raised
  deriving DecidableEq

structure Stream (Card : Type) where
  request : Option RequestResult
  frame : Option Progress
  phase : Phase
  items : List (Item Card)

/-- An awaitable completes, the generator gets its turn, or its consumer asks for an item. -/
inductive Event
  | progress (p : Progress)
  | request (r : RequestResult)
  | turn
  | pull

section Machine

variable (py : Python) {Card : Type} (rt : Runtime Card) (toolId : ToolId) {s t : Stream Card}
  {evs : List Event}

/-- `_terminal_item` of a request that does not raise. -/
def terminalItem : RequestResult → Option (Except Uncaught (Terminal Card))
  | .response resp => some (terminalFromResponse py rt toolId resp)
  | .error e => some (.ok (.error e))
  | .fails => none

/-- The generator has found the request done. -/
def finish (s : Stream Card) (r : RequestResult) : Stream Card :=
  match terminalItem py rt toolId r with
  | some (.ok t) => {s with phase := .answered, items := s.items++[.terminal t]}
  | _ => {s with phase := .raised}

/-- The generator looks at what is done. -/
def turn (s : Stream Card) : Option (Stream Card) :=
  match s.phase,s.request,s.frame with
  | .racing,some r,_ => some (finish py rt toolId s r)
  | .racing,none,some (.frame f) =>
    some {s with phase := .idle, frame := none, items := s.items++[.progress (progressFromFrame f)]}
  | .racing,none,some .ended => some {s with phase := .awaiting, frame := none}
  | .racing,none,some .fails => some {s with phase := .raised, frame := none}
  | .awaiting,some r,_ => some (finish py rt toolId s r)
  | _,_,_ => none

/-- An item is asked for: the generator goes on behind its `yield`. -/
def pull (s : Stream Card) : Option (Stream Card) :=
  match s.phase with
  | .idle => some {s with phase := .racing}
  | .answered => some {s with phase := .returned}
  | _ => none

def step (s : Stream Card) : Event → Option (Stream Card)
  | .progress p => if s.phase = .racing ∧ s.frame.isNone then some {s with frame := some p} else none
  | .request r => if s.request.isNone ∧ s.phase ≠ .raised then some {s with request := some r} else none
  | .turn => turn py rt toolId s
  | .pull => pull s

def start : Stream Card := ⟨none,none,.idle,[]⟩

/-- The terminal of a response or a tool error. -/
def promised (r : RequestResult) : List (Item Card) :=
  match terminalItem py rt toolId r with
  | some (.ok t) => [.terminal t]
  | _ => []

/-- What a stream owes behind the frame that is waiting for a turn: each frame whose turn
comes before the response, and one terminal once there is a turn behind the response. -/
def owed : Option ToolCallProgressFrame → List Event → List (Item Card)
  | _,[] => []
  | _,.progress (.frame f)::evs => owed (some f) evs
  | _,.progress _::evs => owed none evs
  | some f,.turn::evs => .progress (progressFromFrame f)::owed none evs
  | none,.turn::evs => owed none evs
  | waiting,.pull::evs => owed waiting evs
  | _,.request r::evs => if evs.any (· matches .turn) then promised py rt toolId r else []

/-- The progress stream raises and the generator takes it up before the response, or the
request raises and the generator takes that up. -/
def breaks : Bool → List Event → Bool
  | _,[] => false
  | _,.progress p::evs => breaks p.isFailure evs
  | failed,.turn::evs => failed || breaks false evs
  | failed,.pull::evs => breaks failed evs
  | _,.request r::evs => r.isFailure && evs.any (· matches .turn)

/-- The stream has yielded what it owes, it has not raised, and while a response is there
and it has not answered, its next turn or item is there. -/
structure Shaped (evs : List Event) (s : Stream Card) : Prop where
  items : s.items = owed py rt toolId none evs
  sound : s.phase ≠ .raised
  live : s.request.isSome → s.phase = .returned ∨
    (step py rt toolId s .turn).isSome ∨ (step py rt toolId s .pull).isSome

def waiting : Option Progress → Option ToolCallProgressFrame
  | some (.frame f) => some f
  | _ => none

/-- What a state still owes over the events to come. -/
def owedFrom (s : Stream Card) (evs : List Event) : List (Item Card) :=
  match s.phase with
  | .idle | .racing | .awaiting => match s.request with
    | none => owed py rt toolId (waiting s.frame) evs
    | some r => if evs.any (· matches .turn) then promised py rt toolId r else []
  | _ => []

/-- Whether a state breaks over the events to come. -/
def breaksFrom (s : Stream Card) (evs : List Event) : Bool :=
  match s.phase with
  | .idle | .racing | .awaiting => match s.request with
    | none => breaks (s.frame.any Progress.isFailure) evs
    | some r => r.isFailure && evs.any (· matches .turn)
  | .raised => true
  | _ => false

theorem finish_cases (s : Stream Card) (r : RequestResult) :
    (r = .fails ∧ finish py rt toolId s r = {s with phase := .raised}) ∨
      (r ≠ .fails ∧ finish py rt toolId s r =
        {s with phase := .answered, items := s.items++promised py rt toolId r}) := by
  cases r with
  | fails => exact .inl ⟨rfl,rfl⟩
  | error e => exact .inr ⟨by simp,rfl⟩
  | response resp =>
    obtain ⟨t,ht⟩ := terminalFromResponse_total py rt toolId resp
    exact .inr ⟨by simp,by simp [finish,promised,terminalItem,ht]⟩

theorem step_cases {ev : Event} (h : step py rt toolId s ev = some t) :
    (∃ p, ev = .progress p ∧ s.phase = .racing ∧ s.frame = none ∧ t = {s with frame := some p}) ∨
    (∃ r, ev = .request r ∧ s.phase ≠ .raised ∧ s.request = none ∧ t = {s with request := some r}) ∨
    (∃ r, ev = .turn ∧ (s.phase = .racing ∨ s.phase = .awaiting) ∧ s.request = some r ∧
      t = finish py rt toolId s r) ∨
    (∃ f, ev = .turn ∧ s.phase = .racing ∧ s.request = none ∧ s.frame = some (.frame f) ∧
      t = {s with phase := .idle, frame := none, items := s.items++[.progress (progressFromFrame f)]}) ∨
    (ev = .turn ∧ s.phase = .racing ∧ s.request = none ∧ s.frame = some .ended ∧
      t = {s with phase := .awaiting, frame := none}) ∨
    (ev = .turn ∧ s.phase = .racing ∧ s.request = none ∧ s.frame = some .fails ∧
      t = {s with phase := .raised, frame := none}) ∨
    (ev = .pull ∧ s.phase = .idle ∧ t = {s with phase := .racing}) ∨
    (ev = .pull ∧ s.phase = .answered ∧ t = {s with phase := .returned}) := by
  cases ev with
  | progress p =>
    simp only [step] at h
    split at h
    · next hc => exact .inl ⟨p,rfl,hc.1,Option.isNone_iff_eq_none.mp hc.2,(Option.some.inj h).symm⟩
    · simp at h
  | request r =>
    simp only [step] at h
    split at h
    · next hc =>
      exact .inr (.inl ⟨r,rfl,hc.2,Option.isNone_iff_eq_none.mp hc.1,(Option.some.inj h).symm⟩)
    · simp at h
  | turn =>
    simp only [step,turn] at h
    split at h
    · next _ r hphase hrequest =>
      exact .inr (.inr (.inl ⟨r,rfl,.inl hphase,hrequest,(Option.some.inj h).symm⟩))
    · next f hphase hrequest hframe =>
      exact .inr (.inr (.inr (.inl ⟨f,rfl,hphase,hrequest,hframe,(Option.some.inj h).symm⟩)))
    · next hphase hrequest hframe =>
      exact .inr (.inr (.inr (.inr (.inl ⟨rfl,hphase,hrequest,hframe,(Option.some.inj h).symm⟩))))
    · next hphase hrequest hframe =>
      exact .inr (.inr (.inr (.inr (.inr (.inl
        ⟨rfl,hphase,hrequest,hframe,(Option.some.inj h).symm⟩)))))
    · next _ r hphase hrequest =>
      exact .inr (.inr (.inl ⟨r,rfl,.inr hphase,hrequest,(Option.some.inj h).symm⟩))
    · simp at h
  | pull =>
    simp only [step,pull] at h
    split at h
    · next hphase =>
      exact .inr (.inr (.inr (.inr (.inr (.inr (.inl ⟨rfl,hphase,(Option.some.inj h).symm⟩))))))
    · next hphase =>
      exact .inr (.inr (.inr (.inr (.inr (.inr (.inr ⟨rfl,hphase,(Option.some.inj h).symm⟩))))))
    · simp at h

theorem breaksFrom_step {ev : Event}
    (h : step py rt toolId s ev = some t) :
    breaksFrom s (ev::evs) = breaksFrom t evs := by
  obtain ⟨p,rfl,hphase,hframe,rfl⟩ | ⟨r,rfl,hphase,hrequest,rfl⟩ | ⟨r,rfl,hphase,hrequest,rfl⟩ |
    ⟨f,rfl,hphase,hrequest,hframe,rfl⟩ | ⟨rfl,hphase,hrequest,hframe,rfl⟩ |
    ⟨rfl,hphase,hrequest,hframe,rfl⟩ | ⟨rfl,hphase,rfl⟩ | ⟨rfl,hphase,rfl⟩ :=
      step_cases py rt toolId h
  · cases hrequest : s.request <;> cases p <;>
      simp [breaksFrom,hphase,hrequest,breaks,Progress.isFailure]
  · cases hp : s.phase with
    | raised => exact absurd hp hphase
    | _ => simp [breaksFrom,hp,hrequest,breaks]
  · have hturn : breaksFrom s (.turn::evs) = r.isFailure := by
      obtain hphase | hphase := hphase <;> simp [breaksFrom,hphase,hrequest]
    rw [hturn]
    obtain ⟨rfl,hfinish⟩ | ⟨hr,hfinish⟩ := finish_cases py rt toolId s r
    · simp [hfinish,breaksFrom,RequestResult.isFailure]
    · cases r with
      | fails => exact absurd rfl hr
      | _ => simp [hfinish,breaksFrom,RequestResult.isFailure]
  · simp [breaksFrom,hphase,hrequest,hframe,Progress.isFailure,breaks]
  · simp [breaksFrom,hphase,hrequest,hframe,Progress.isFailure,breaks]
  · simp [breaksFrom,hphase,hrequest,hframe,Progress.isFailure,breaks]
  · cases hrequest : s.request <;> simp [breaksFrom,hphase,hrequest,breaks]
  · simp [breaksFrom,hphase]

theorem owedFrom_step {ev : Event}
    (h : step py rt toolId s ev = some t) (hsound : breaksFrom s (ev::evs) = false) :
    s.items++owedFrom py rt toolId s (ev::evs) = t.items++owedFrom py rt toolId t evs := by
  obtain ⟨p,rfl,hphase,hframe,rfl⟩ | ⟨r,rfl,hphase,hrequest,rfl⟩ | ⟨r,rfl,hphase,hrequest,rfl⟩ |
    ⟨f,rfl,hphase,hrequest,hframe,rfl⟩ | ⟨rfl,hphase,hrequest,hframe,rfl⟩ |
    ⟨rfl,hphase,hrequest,hframe,rfl⟩ | ⟨rfl,hphase,rfl⟩ | ⟨rfl,hphase,rfl⟩ :=
      step_cases py rt toolId h
  · cases hrequest : s.request <;> cases p <;>
      simp [owedFrom,hphase,hrequest,owed,waiting]
  · cases hp : s.phase with
    | raised => exact absurd hp hphase
    | _ => simp [owedFrom,hp,hrequest,owed]
  · have hturn : owedFrom py rt toolId s (.turn::evs) = promised py rt toolId r := by
      obtain hphase | hphase := hphase <;> simp [owedFrom,hphase,hrequest]
    rw [hturn]
    obtain ⟨rfl,hfinish⟩ | ⟨hr,hfinish⟩ := finish_cases py rt toolId s r
    · rw [breaksFrom_step py rt toolId h,hfinish] at hsound
      simp [breaksFrom] at hsound
    · simp [hfinish,owedFrom]
  · simp [owedFrom,hphase,hrequest,hframe,waiting,owed]
  · simp [owedFrom,hphase,hrequest,hframe,waiting,owed]
  · simp [breaksFrom,hphase,hrequest,hframe,Progress.isFailure,breaks] at hsound
  · cases hrequest : s.request <;> cases hframe : waiting s.frame <;>
      simp [owedFrom,hphase,hrequest,hframe,owed]
  · simp [owedFrom,hphase]

theorem breaksFrom_run
    (h : Run (step py rt toolId) always s evs t) : breaksFrom s evs = breaksFrom t [] := by
  induction h with
  | refl => rfl
  | succ _ hstep _ ih => rw [breaksFrom_step py rt toolId hstep,ih]

theorem owedFrom_run
    (h : Run (step py rt toolId) always s evs t) (hsound : breaksFrom s evs = false) :
    s.items++owedFrom py rt toolId s evs = t.items++owedFrom py rt toolId t [] := by
  induction h with
  | refl => rfl
  | succ _ hstep _ ih =>
    rw [owedFrom_step py rt toolId hstep hsound]
    exact ih (by rwa [← breaksFrom_step py rt toolId hstep])

theorem breaksFrom_nil (s : Stream Card) : breaksFrom s [] = true ↔ s.phase = .raised := by
  cases hphase : s.phase <;> cases hrequest : s.request <;>
    simp [breaksFrom,hphase,hrequest,breaks]

theorem owedFrom_nil (s : Stream Card) : owedFrom py rt toolId s [] = [] := by
  cases hphase : s.phase <;> cases hrequest : s.request <;>
    simp [owedFrom,hphase,hrequest,owed]

theorem live_of_sound (h : s.phase ≠ .raised) (hrequest : s.request.isSome) :
    s.phase = .returned ∨ (step py rt toolId s .turn).isSome ∨
      (step py rt toolId s .pull).isSome := by
  obtain ⟨r,hr⟩ := Option.isSome_iff_exists.mp hrequest
  cases hphase : s.phase with
  | idle => simp [step,pull,hphase]
  | racing => simp [step,turn,hphase,hr]
  | awaiting => simp [step,turn,hphase,hr]
  | answered => simp [step,pull,hphase]
  | returned => simp
  | raised => exact absurd hphase h

/-- In every run the stream has the promised shape exactly when the generator has taken up
neither a failure of the progress stream before the response nor a request that raises. -/
theorem stream_shaped_iff {evs : List Event} {s : Stream Card}
    (h : Run (step py rt toolId) always start evs s) :
    Shaped py rt toolId evs s ↔ breaks false evs = false := by
  have hbreaks : breaks false evs = breaksFrom s [] := breaksFrom_run py rt toolId h
  have howed := owedFrom_run py rt toolId h
  rw [owedFrom_nil,List.append_nil] at howed
  constructor
  · rintro ⟨-,hsound,-⟩
    rw [hbreaks,← Bool.not_eq_true,breaksFrom_nil]
    exact hsound
  · intro hcalm
    have hsound : s.phase ≠ .raised := by
      rw [hbreaks] at hcalm
      intro hraised
      rw [(breaksFrom_nil s).mpr hraised] at hcalm
      exact absurd hcalm (by simp)
    exact ⟨(howed hcalm).symm,hsound,live_of_sound py rt toolId hsound⟩

end Machine

/-- An interpreter and a runtime that no tool error asks. -/
def plainPython : Python := ⟨fun _ => [],fun _ => none,fun _ => .error .typeError⟩

def plainRuntime : Runtime Unit := ⟨fun _ => [],fun _ => none⟩

def echoTool : ToolId := ToolProtocol.echoTool

def logFrame : ToolCallProgressFrame := ⟨lit "call-1",lit "log",.str (lit "half"),none⟩

/-- A frame, then a timeout. -/
def timedOut : List Event :=
  [.pull,.progress (.frame logFrame),.turn,.pull,
    .request (.error (.new .timeout (.str (lit "slow")))),.turn,.pull]

theorem timedOut_shaped : ∃ s : Stream Unit,
    Run (step plainPython plainRuntime echoTool) always start timedOut s ∧
      Shaped plainPython plainRuntime echoTool timedOut s :=
  ⟨_,run_of_exec rfl,(stream_shaped_iff plainPython plainRuntime echoTool (run_of_exec rfl)).mpr rfl⟩

/-- A progress stream that raises ends the generator without a terminal, while the response
may still come. -/
theorem failed_progress_unanswered : ∃ s : Stream Unit,
    Run (step plainPython plainRuntime echoTool) always start [.pull,.progress .fails,.turn] s ∧
      s.items = [] ∧
      ¬ Shaped plainPython plainRuntime echoTool [.pull,.progress .fails,.turn] s :=
  ⟨_,run_of_exec rfl,rfl,fun h => h.sound rfl⟩

end MinimaxCode.RemoteCall
