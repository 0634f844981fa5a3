import MinimaxCode.AgentHistory

/-!
# Cancelling a turn

`AgentCore.run` from one place where it can be suspended to the next. The flag that
`cancel` sets is looked at when an iteration starts, when a chunk arrives, before each
preparation of a tool call and behind the tool messages; a turn ends in one of four ways.
-/

namespace MinimaxCode.AgentTurn

open PyText PyJson Agent Runs

inductive AbortReason
  | interrupted | maxIterations
  deriving DecidableEq

/-- The lifecycle events that end a turn. -/
inductive Terminal
  | done
  | abort (reason : AbortReason)
  | error
  deriving DecidableEq

/-- A request to the model or to a tool that is sent. -/
inductive Call
  | model
  | tool (name : PyStr)
  deriving DecidableEq

/-- What `AgentRunResult` says about the end of the turn. -/
structure RunResult where
  finalText : PyStr
  iterations : ℕ
  cancelled : Bool
  truncated : Bool

/-- Where a turn is suspended. -/
inductive Phase
  /-- The history is fetched, the message persisted, the start announced. -/
  | setup
  /-- Behind the check of an iteration, or waiting for another attempt. -/
  | opening (i attempt : ℕ)
  | streaming (i attempt : ℕ) (chunks : List StreamChunk)
  | answered (i : ℕ) (m : AssistantMessage)
  | preparing (i : ℕ) (prepared : List PreparedToolCall) (rest : List ToolCall)
  /-- A preparation waits for consent, a hook or the breaker. -/
  | consulting (i : ℕ) (prepared : List PreparedToolCall) (c : ToolCall) (rest : List ToolCall)
  | executing (i : ℕ) (waiting : List PreparedToolCall) (running : ℕ)
  | persisting (i : ℕ)
  /-- Interjections and the hook behind an iteration. -/
  | draining (i : ℕ)
  | completing (i : ℕ) (text : PyStr)
  | exhausted
  /-- The limit message is persisted and emitted. -/
  | limited
  | aborting (i : ℕ)
  | failing
  | returned (r : RunResult)
  | raised

@[simp] def Phase.over : Phase → Bool
  | .returned _ | .raised => true
  | _ => false

structure Turn where
  flag : Bool
  phase : Phase
  events : List Terminal
  calls : List Call

inductive Action
  | cancel
  | check
  | openStream
  | chunk (c : StreamChunk)
  | endStream
  | retry
  | llmError
  | answer (uuids : ℕ → PyStr)
  | turnOf
  | prepare (env : CallEnv)
  | gather
  | dispatch (k : ℕ)
  | finish
  | gathered
  | persisted
  | close
  | leave
  | raises

/-- A turn behind `reset_cancel`. -/
def start : Turn := ⟨false,.setup,[],[]⟩

def Turn.goto (s : Turn) (p : Phase) : Turn := { s with phase := p }

def Turn.call (s : Turn) (c : Call) (p : Phase) : Turn :=
  { s with phase := p, calls := s.calls++[c] }

def Turn.fire (s : Turn) (e : Terminal) (p : Phase) : Turn :=
  { s with phase := p, events := s.events++[e] }

@[simp] theorem goto_flag (s : Turn) (p : Phase) : (s.goto p).flag = s.flag := rfl
@[simp] theorem goto_phase (s : Turn) (p : Phase) : (s.goto p).phase = p := rfl
@[simp] theorem goto_events (s : Turn) (p : Phase) : (s.goto p).events = s.events := rfl
@[simp] theorem goto_calls (s : Turn) (p : Phase) : (s.goto p).calls = s.calls := rfl
@[simp] theorem call_flag (s : Turn) (c : Call) (p : Phase) : (s.call c p).flag = s.flag := rfl
@[simp] theorem call_phase (s : Turn) (c : Call) (p : Phase) : (s.call c p).phase = p := rfl
@[simp] theorem call_events (s : Turn) (c : Call) (p : Phase) : (s.call c p).events = s.events := rfl
@[simp] theorem fire_flag (s : Turn) (e : Terminal) (p : Phase) : (s.fire e p).flag = s.flag := rfl
@[simp] theorem fire_phase (s : Turn) (e : Terminal) (p : Phase) : (s.fire e p).phase = p := rfl
@[simp] theorem fire_events (s : Turn) (e : Terminal) (p : Phase) :
    (s.fire e p).events = s.events++[e] := rfl
@[simp] theorem fire_calls (s : Turn) (e : Terminal) (p : Phase) : (s.fire e p).calls = s.calls := rfl

section Turn

variable (host : Host) (maxAttempts : ℕ)

/-- The head of the loop. -/
def enter (flag : Bool) (i : ℕ) : Phase :=
  if i < host.maxIterations then if flag then .aborting i else .opening i 0
  else .exhausted

/-- The end of `_stream_turn`. -/
def assemble (i : ℕ) (chunks : List StreamChunk) : Phase :=
  match assembleChunks host.intOfStr chunks with
  | none => .raised
  | some r => .answered i r.message

def afterAnswer (i : ℕ) (m : AssistantMessage) : List ToolCall → Phase
  | [] => .completing i m.content
  | calls => .preparing i [] calls

def afterPrepare (i : ℕ) (prepared : List PreparedToolCall) (rest : List ToolCall) :
    Option PreparedToolCall → Phase
  | none => .raised
  | some p => .preparing i (prepared++[p]) rest

/-- The step of a turn. An exception can escape wherever the turn is suspended. -/
def step (s : Turn) (a : Action) : Option Turn :=
  match a,s.phase with
  | .cancel,p => if p.over then none else some { s with flag := true }
  | .raises,p => if p.over then none else some (s.goto .raised)
  | .check,.setup => some (s.goto (enter host s.flag 0))
  | .check,.draining i => some (s.goto (enter host s.flag (i+1)))
  | .openStream,.opening i n => some (s.call .model (.streaming i n []))
  | .chunk c,.streaming i n chunks =>
    some (s.goto (if s.flag then assemble host i chunks else .streaming i n (chunks++[c])))
  | .endStream,.streaming i _ chunks => some (s.goto (assemble host i chunks))
  | .retry,.streaming i n _ => if n+1 < maxAttempts then some (s.goto (.opening i (n+1))) else none
  | .llmError,.opening _ _ => some (s.goto .failing)
  | .llmError,.streaming _ _ _ => some (s.goto .failing)
  | .answer uuids,.answered i m =>
    some (s.goto (afterAnswer i m (extractToolCalls uuids m)))
  | .turnOf,.preparing i prepared (c::rest) =>
    some (s.goto (if s.flag then .preparing i (prepared++[cancelPrepared c]) rest
      else .consulting i prepared c rest))
  | .prepare env,.consulting i prepared c rest =>
    some (s.goto (afterPrepare i prepared rest (prepareToolCall host env c)))
  | .gather,.preparing i prepared [] =>
    some (s.goto (.executing i (prepared.filter fun p => p.shortCircuit.isNone) 0))
  | .dispatch k,.executing i waiting running =>
    match waiting[k]? with
    | none => none
    | some p => some (s.call (.tool p.name) (.executing i (waiting.eraseIdx k) (running+1)))
  | .finish,.executing i waiting (running+1) => some (s.goto (.executing i waiting running))
  | .gathered,.executing i [] 0 => some (s.goto (.persisting i))
  | .persisted,.persisting i => some (s.goto (if s.flag then .aborting i else .draining i))
  | .close,.completing i text => some (s.fire .done (.returned ⟨text,i+1,false,false⟩))
  | .close,.exhausted => some (s.fire (.abort .maxIterations) .limited)
  | .close,.aborting i => some (s.fire (.abort .interrupted) (.returned ⟨[],i+1,true,false⟩))
  | .close,.failing => some (s.fire .error .raised)
  | .leave,.limited => some (s.goto (.returned ⟨limitText host,host.maxIterations,false,true⟩))
  | _,_ => none

/-- The turn has returned a cancelled result, with the abort event and no other. -/
def Interrupted (s : Turn) : Prop :=
  s.events = [.abort .interrupted] ∧ ∃ r, s.phase = .returned r ∧ r.cancelled = true

/-- The events that a turn has emitted in a phase. -/
def Emitted (events : List Terminal) : Phase → Prop
  | .returned r => events = [.abort .interrupted] ↔ r.cancelled = true
  | .raised => events ≠ [.abort .interrupted]
  | .limited => events = [.abort .maxIterations]
  | _ => events = []

/-- The answer has calls to run. -/
def asksForTools (m : AssistantMessage) : Bool := m.toolCalls.any fun c => !isBlank c.name

/-- A turn that is cancelled in this phase ends with the abort event when nothing fails. -/
def heeds : Phase → Bool
  | .setup => 0 < host.maxIterations
  | .streaming _ _ chunks =>
    (assembleChunks host.intOfStr chunks).any fun r => asksForTools r.message
  | .answered _ m => asksForTools m
  | .preparing _ _ _ | .consulting _ _ _ _ | .executing _ _ _ | .persisting _ | .aborting _ => true
  | .draining i => i+1 < host.maxIterations
  | .opening _ _ | .completing _ _ | .exhausted | .limited | .failing | .raised => false
  | .returned r => r.cancelled

/-- The step fails: an exception escapes, or the stream breaks off. -/
def fails (s : Turn) : Action → Bool
  | .raises | .retry | .llmError => true
  | .prepare env =>
    match s.phase with
    | .consulting _ _ c _ => (prepareToolCall host env c).isNone
    | _ => false
  | _ => false

/-- How many more steps a cancelled turn can take. -/
def remaining : Phase → ℕ
  | .opening _ n => 7+2*(maxAttempts-n)
  | .streaming _ n chunks => 6+2*(maxAttempts-n)+
      ((assembleChunks host.intOfStr chunks).elim 0 fun r => 4*r.message.toolCalls.length)
  | .answered _ m => 5+4*m.toolCalls.length
  | .preparing _ prepared rest => 4+2*prepared.length+4*rest.length
  | .consulting _ prepared _ rest => 7+2*prepared.length+4*rest.length
  | .executing _ waiting running => 3+2*waiting.length+running
  | .setup | .draining _ => 3
  | .persisting _ | .exhausted => 2
  | .completing _ _ | .limited | .aborting _ | .failing => 1
  | .returned _ | .raised => 0

end Turn

section Proofs

variable {host : Host} {maxAttempts : ℕ} {a : Action} {s t : Turn} {as : List Action}

theorem extractToolCalls_nil_iff (uuids : ℕ → PyStr) (m : AssistantMessage) :
    extractToolCalls uuids m = [] ↔ asksForTools m = false := by
  have hname : ∀ i (hi : i < m.toolCalls.length),
      (withId uuids m.toolCalls[i] i).name = m.toolCalls[i].name := fun i hi => withId_name _ _ _
  rw [extractToolCalls,List.filter_eq_nil_iff,asksForTools,List.any_eq_false]
  constructor
  · intro h c hc
    obtain ⟨i,hi,rfl⟩ := List.mem_iff_getElem.mp hc
    have hm : withId uuids m.toolCalls[i] i ∈ (identify uuids m).toolCalls :=
      List.mem_mapIdx.mpr ⟨i,hi,rfl⟩
    simpa only [hname i hi] using h _ hm
  · intro h c hc
    obtain ⟨i,hi,rfl⟩ := List.mem_mapIdx.mp hc
    simpa only [hname i hi] using h _ (List.getElem_mem hi)

theorem heeds_enter (i : ℕ) : heeds host (enter host true i) = decide (i < host.maxIterations) := by
  rw [enter]
  split <;> simp_all [heeds]

theorem heeds_assemble (i : ℕ) (chunks : List StreamChunk) : heeds host (assemble host i chunks) =
    (assembleChunks host.intOfStr chunks).any fun r => asksForTools r.message := by
  rw [assemble]
  cases assembleChunks host.intOfStr chunks <;> rfl

theorem heeds_afterAnswer (uuids : ℕ → PyStr) (i : ℕ) (m : AssistantMessage) :
    heeds host (afterAnswer i m (extractToolCalls uuids m)) = asksForTools m := by
  have hnil := extractToolCalls_nil_iff uuids m
  cases hcalls : extractToolCalls uuids m with
  | nil => exact (hnil.mp hcalls).symm
  | cons c calls =>
    rw [hcalls] at hnil
    simpa [afterAnswer,heeds] using hnil

theorem heeds_afterPrepare (i : ℕ) (prepared : List PreparedToolCall) (rest : List ToolCall)
    (p : Option PreparedToolCall) : heeds host (afterPrepare i prepared rest p) = p.isSome := by
  cases p <;> rfl

theorem emitted_enter (flag : Bool) (i : ℕ) : Emitted [] (enter host flag i) := by
  rw [enter]
  split_ifs <;> rfl

theorem emitted_assemble (i : ℕ) (chunks : List StreamChunk) : Emitted [] (assemble host i chunks) := by
  rw [assemble]
  cases assembleChunks host.intOfStr chunks with
  | none => simp [Emitted]
  | some r => rfl

theorem emitted_afterAnswer (i : ℕ) (m : AssistantMessage) (calls : List ToolCall) :
    Emitted [] (afterAnswer i m calls) := by
  cases calls <;> rfl

theorem emitted_afterPrepare (i : ℕ) (prepared : List PreparedToolCall) (rest : List ToolCall)
    (p : Option PreparedToolCall) : Emitted [] (afterPrepare i prepared rest p) := by
  cases p with
  | none => simp [Emitted,afterPrepare]
  | some p => rfl

theorem emitted_raised {events : List Terminal} {p : Phase} (h : Emitted events p)
    (hover : ¬ p.over = true) : Emitted events .raised := by
  cases p <;> simp_all [Emitted]

theorem length_extractToolCalls_le (uuids : ℕ → PyStr) (m : AssistantMessage) :
    (extractToolCalls uuids m).length ≤ m.toolCalls.length := by
  have hle := List.length_filter_le (fun c : ToolCall => !isBlank c.name) (identify uuids m).toolCalls
  simpa [extractToolCalls,identify] using hle

theorem remaining_enter (i : ℕ) : remaining host maxAttempts (enter host true i) ≤ 2 := by
  rw [enter]
  split <;> simp [remaining]

theorem remaining_assemble (i : ℕ) (chunks : List StreamChunk) :
    remaining host maxAttempts (assemble host i chunks) ≤
      5+((assembleChunks host.intOfStr chunks).elim 0 fun r => 4*r.message.toolCalls.length) := by
  rw [assemble]
  cases assembleChunks host.intOfStr chunks <;> simp [remaining]

theorem remaining_afterAnswer (i : ℕ) (m : AssistantMessage) (calls : List ToolCall) :
    remaining host maxAttempts (afterAnswer i m calls) ≤ 4+4*calls.length := by
  cases calls <;> simp [remaining,afterAnswer]

theorem remaining_afterPrepare (i : ℕ) (prepared : List PreparedToolCall) (rest : List ToolCall)
    (p : Option PreparedToolCall) : remaining host maxAttempts (afterPrepare i prepared rest p) ≤
      6+2*prepared.length+4*rest.length := by
  cases p with
  | none => simp [remaining,afterPrepare]
  | some p =>
    simp only [remaining,afterPrepare,List.length_append,List.length_singleton]
    omega

/-- What `step` can do, one case for each of its branches. -/
inductive Move (host : Host) (maxAttempts : ℕ) (s : Turn) : Action → Turn → Prop
  | cancel (hopen : ¬ s.phase.over = true) : Move host maxAttempts s .cancel { s with flag := true }
  | raises (hopen : ¬ s.phase.over = true) : Move host maxAttempts s .raises (s.goto .raised)
  | begin (hs : s.phase = .setup) : Move host maxAttempts s .check (s.goto (enter host s.flag 0))
  | again {i : ℕ} (hs : s.phase = .draining i) :
      Move host maxAttempts s .check (s.goto (enter host s.flag (i+1)))
  | openStream {i n : ℕ} (hs : s.phase = .opening i n) :
      Move host maxAttempts s .openStream (s.call .model (.streaming i n []))
  | chunk {c : StreamChunk} {i n : ℕ} {chunks : List StreamChunk}
      (hs : s.phase = .streaming i n chunks) : Move host maxAttempts s (.chunk c)
        (s.goto (if s.flag then assemble host i chunks else .streaming i n (chunks++[c])))
  | endStream {i n : ℕ} {chunks : List StreamChunk} (hs : s.phase = .streaming i n chunks) :
      Move host maxAttempts s .endStream (s.goto (assemble host i chunks))
  | retry {i n : ℕ} {chunks : List StreamChunk} (hs : s.phase = .streaming i n chunks)
      (hn : n+1 < maxAttempts) : Move host maxAttempts s .retry (s.goto (.opening i (n+1)))
  | openError {i n : ℕ} (hs : s.phase = .opening i n) :
      Move host maxAttempts s .llmError (s.goto .failing)
  | streamError {i n : ℕ} {chunks : List StreamChunk} (hs : s.phase = .streaming i n chunks) :
      Move host maxAttempts s .llmError (s.goto .failing)
  | answer {uuids : ℕ → PyStr} {i : ℕ} {m : AssistantMessage} (hs : s.phase = .answered i m) :
      Move host maxAttempts s (.answer uuids)
        (s.goto (afterAnswer i m (extractToolCalls uuids m)))
  | turnOf {i : ℕ} {prepared : List PreparedToolCall} {c : ToolCall} {rest : List ToolCall}
      (hs : s.phase = .preparing i prepared (c::rest)) : Move host maxAttempts s .turnOf
        (s.goto (if s.flag then .preparing i (prepared++[cancelPrepared c]) rest
          else .consulting i prepared c rest))
  | prepare {env : CallEnv} {i : ℕ} {prepared : List PreparedToolCall} {c : ToolCall}
      {rest : List ToolCall} (hs : s.phase = .consulting i prepared c rest) :
      Move host maxAttempts s (.prepare env)
        (s.goto (afterPrepare i prepared rest (prepareToolCall host env c)))
  | gather {i : ℕ} {prepared : List PreparedToolCall} (hs : s.phase = .preparing i prepared []) :
      Move host maxAttempts s .gather
        (s.goto (.executing i (prepared.filter fun p => p.shortCircuit.isNone) 0))
  | dispatch {k i running : ℕ} {waiting : List PreparedToolCall} {p : PreparedToolCall}
      (hs : s.phase = .executing i waiting running) (hp : waiting[k]? = some p) :
      Move host maxAttempts s (.dispatch k)
        (s.call (.tool p.name) (.executing i (waiting.eraseIdx k) (running+1)))
  | finish {i running : ℕ} {waiting : List PreparedToolCall}
      (hs : s.phase = .executing i waiting (running+1)) :
      Move host maxAttempts s .finish (s.goto (.executing i waiting running))
  | gathered {i : ℕ} (hs : s.phase = .executing i [] 0) :
      Move host maxAttempts s .gathered (s.goto (.persisting i))
  | persisted {i : ℕ} (hs : s.phase = .persisting i) : Move host maxAttempts s .persisted
      (s.goto (if s.flag then .aborting i else .draining i))
  | complete {i : ℕ} {text : PyStr} (hs : s.phase = .completing i text) :
      Move host maxAttempts s .close (s.fire .done (.returned ⟨text,i+1,false,false⟩))
  | exhaust (hs : s.phase = .exhausted) :
      Move host maxAttempts s .close (s.fire (.abort .maxIterations) .limited)
  | abort {i : ℕ} (hs : s.phase = .aborting i) : Move host maxAttempts s .close
      (s.fire (.abort .interrupted) (.returned ⟨[],i+1,true,false⟩))
  | fail (hs : s.phase = .failing) : Move host maxAttempts s .close (s.fire .error .raised)
  | leave (hs : s.phase = .limited) : Move host maxAttempts s .leave
      (s.goto (.returned ⟨limitText host,host.maxIterations,false,true⟩))

theorem move_of_step (h : step host maxAttempts s a = some t) :
    Move host maxAttempts s a t := by
  revert h
  fun_cases step host maxAttempts s a <;> rintro ⟨⟩
  case case2 hopen => exact .cancel hopen
  case case4 hopen => exact .raises hopen
  case case5 hs => exact .begin hs
  case case6 hs => exact .again hs
  case case7 hs => exact .openStream hs
  case case8 hs => exact .chunk hs
  case case9 hs => exact .endStream hs
  case case10 hs hn => exact .retry hs hn
  case case12 hs => exact .openError hs
  case case13 hs => exact .streamError hs
  case case14 hs => exact .answer hs
  case case15 hs => exact .turnOf hs
  case case16 hs => exact .prepare hs
  case case17 hs => exact .gather hs
  case case19 hs _ hp => exact .dispatch hs hp
  case case20 hs => exact .finish hs
  case case21 hs => exact .gathered hs
  case case22 hs => exact .persisted hs
  case case23 hs => exact .complete hs
  case case24 hs => exact .exhaust hs
  case case25 hs => exact .abort hs
  case case26 hs => exact .fail hs
  case case27 hs => exact .leave hs

theorem flagged_step (h : step host maxAttempts s a = some t)
    (hflag : s.flag = true) :
    t.flag = true ∧ heeds host t.phase = (heeds host s.phase && !fails host s a) := by
  cases move_of_step h with
  | begin hs =>
    refine ⟨hflag,?_⟩
    rw [goto_phase,hflag,heeds_enter,hs]
    simp [heeds,fails]
  | again hs =>
    refine ⟨hflag,?_⟩
    rw [goto_phase,hflag,heeds_enter,hs]
    simp [heeds,fails]
  | openStream hs =>
    -- a stream opened under the flag gives no calls
    refine ⟨hflag,?_⟩
    rw [call_phase,hs]
    rfl
  | chunk hs =>
    refine ⟨hflag,?_⟩
    rw [goto_phase,if_pos hflag,heeds_assemble,hs]
    simp [heeds,fails]
  | endStream hs =>
    refine ⟨hflag,?_⟩
    rw [goto_phase,heeds_assemble,hs]
    simp [heeds,fails]
  | answer hs =>
    refine ⟨hflag,?_⟩
    rw [goto_phase,heeds_afterAnswer,hs]
    simp [heeds,fails]
  | prepare hs =>
    refine ⟨hflag,?_⟩
    rw [goto_phase,heeds_afterPrepare,hs]
    simp [heeds,fails,hs]
  | _ => simp_all [heeds,fails]

theorem emitted_step (h : step host maxAttempts s a = some t)
    (hs : Emitted s.events s.phase) : Emitted t.events t.phase := by
  cases move_of_step h with
  | cancel => exact hs
  | raises hopen => exact emitted_raised hs hopen
  | begin hphase =>
    rw [hphase] at hs
    exact hs ▸ emitted_enter _ _
  | again hphase =>
    rw [hphase] at hs
    exact hs ▸ emitted_enter _ _
  | chunk hphase =>
    rw [hphase] at hs
    rw [goto_events,goto_phase]
    split
    · exact hs ▸ emitted_assemble _ _
    · exact hs
  | endStream hphase =>
    rw [hphase] at hs
    exact hs ▸ emitted_assemble _ _
  | answer hphase =>
    rw [hphase] at hs
    exact hs ▸ emitted_afterAnswer _ _ _
  | turnOf hphase =>
    rw [hphase] at hs
    rw [goto_events,goto_phase]
    split <;> exact hs
  | prepare hphase =>
    rw [hphase] at hs
    exact hs ▸ emitted_afterPrepare _ _ _ _
  | persisted hphase =>
    rw [hphase] at hs
    rw [goto_events,goto_phase]
    split <;> exact hs
  | _ => simp_all [Emitted]

theorem emitted_run (h : Run (step host maxAttempts) always start as s) :
    Emitted s.events s.phase :=
  have hstart : Emitted start.events start.phase := rfl
  @Run.invariant _ _ _ _ (fun s => Emitted s.events s.phase)
    (fun _ _ _ _ hst hs => emitted_step hst hs) _ _ _ h hstart

theorem interrupted_iff (hs : Emitted s.events s.phase) (hover : s.phase.over = true) :
    Interrupted s ↔ heeds host s.phase = true := by
  rw [Interrupted]
  cases hphase : s.phase with
  | returned r =>
    rw [hphase] at hs
    constructor
    · rintro ⟨_,r',hr',hcancelled⟩
      cases hr'
      exact hcancelled
    · intro hcancelled
      exact ⟨hs.mpr hcancelled,r,rfl,hcancelled⟩
  | raised => simp [heeds]
  | _ => simp [hphase] at hover

theorem flagged_run (h : Run (step host maxAttempts) always s as t)
    (hflag : s.flag = true) : heeds host t.phase = true ↔ heeds host s.phase = true ∧
      Run (step host maxAttempts) (fun s a => fails host s a = false) s as t := by
  induction h with
  | refl s => exact ⟨fun hs => ⟨hs,.refl s⟩,fun hs => hs.1⟩
  | @succ s u t a as _ hstep _ ih =>
    obtain ⟨huflag,hu⟩ := flagged_step hstep hflag
    rw [ih huflag,hu,Bool.and_eq_true,Bool.not_eq_true']
    constructor
    · rintro ⟨⟨hs,hok⟩,hrun⟩
      exact ⟨hs,.succ hok hstep hrun⟩
    · rintro ⟨hs,hrun⟩
      cases hrun with
      | succ hok hstep' hrun =>
        cases hstep.symm.trans hstep'
        exact ⟨⟨hs,hok⟩,hrun⟩

theorem step_cancel (h : step host maxAttempts s .cancel = some t) :
    t = { s with flag := true } := by
  cases move_of_step h
  rfl

/-- A turn that is cancelled before it is over returns a cancelled result and emits
the abort event alone exactly when the phase heeds the cancellation and nothing fails. -/
theorem cancel_interrupts_iff {before after : List Action} {s t u : Turn}
    (hbefore : Run (step host maxAttempts) always start before s)
    (hcancel : step host maxAttempts s .cancel = some t)
    (hafter : Run (step host maxAttempts) always t after u) (hover : u.phase.over = true) :
    Interrupted u ↔ heeds host s.phase = true ∧
      Run (step host maxAttempts) (fun s a => fails host s a = false) t after u := by
  have hemitted : Emitted u.events u.phase :=
    emitted_run (hbefore.trans (.succ trivial hcancel hafter))
  have hflag : t.flag = true ∧ t.phase = s.phase := by
    rw [step_cancel hcancel]
    exact ⟨rfl,rfl⟩
  rw [interrupted_iff hemitted hover,flagged_run hafter hflag.1,hflag.2]

theorem remaining_step (h : step host maxAttempts s a = some t)
    (hflag : s.flag = true) (ha : a ≠ .cancel) :
    remaining host maxAttempts t.phase < remaining host maxAttempts s.phase := by
  cases move_of_step h with
  | cancel => exact absurd rfl ha
  | raises hopen => cases hphase : s.phase <;> simp_all [remaining]
  | begin hs =>
    have hle := @remaining_enter host maxAttempts 0
    rw [goto_phase,hflag,hs]
    exact Nat.lt_succ_of_le hle
  | @again i hs =>
    have hle := @remaining_enter host maxAttempts (i+1)
    rw [goto_phase,hflag,hs]
    exact Nat.lt_succ_of_le hle
  | @openStream i n hs =>
    rw [call_phase,hs]
    change 6+2*(maxAttempts-n)+0 < 7+2*(maxAttempts-n)
    omega
  | @chunk _ i n chunks hs =>
    have hle := @remaining_assemble host maxAttempts i chunks
    rw [goto_phase,if_pos hflag,hs]
    refine Nat.lt_of_le_of_lt hle ?_
    simp only [remaining]
    omega
  | @endStream i n chunks hs =>
    have hle := @remaining_assemble host maxAttempts i chunks
    rw [goto_phase,hs]
    refine Nat.lt_of_le_of_lt hle ?_
    simp only [remaining]
    omega
  | @answer uuids i m hs =>
    have hle := @remaining_afterAnswer host maxAttempts i m (extractToolCalls uuids m)
    have hcalls := length_extractToolCalls_le uuids m
    rw [goto_phase,hs]
    refine Nat.lt_of_le_of_lt hle ?_
    simp only [remaining]
    omega
  | @prepare env i prepared c rest hs =>
    have hle := @remaining_afterPrepare host maxAttempts i prepared rest (prepareToolCall host env c)
    rw [goto_phase,hs]
    refine Nat.lt_of_le_of_lt hle ?_
    simp only [remaining]
    omega
  | @gather i prepared hs =>
    have hle := List.length_filter_le (fun p : PreparedToolCall => p.shortCircuit.isNone) prepared
    rw [goto_phase,hs]
    simp only [remaining,List.length_nil]
    omega
  | @dispatch k i running waiting p hs hp =>
    have hk := (List.getElem?_eq_some_iff.mp hp).1
    rw [call_phase,hs]
    simp only [remaining,List.length_eraseIdx_of_lt hk]
    omega
  | _ =>
    simp_all [remaining]
    try omega

/-- A cancelled turn takes only so many more steps. -/
theorem cancelled_turn_ends {u : Turn}
    (h : Run (step host maxAttempts) (fun _ a => a ≠ .cancel) t as u) (hflag : t.flag = true) :
    as.length+remaining host maxAttempts u.phase ≤ remaining host maxAttempts t.phase := by
  induction h with
  | refl s => simp
  | @succ s u t a as hne hstep _ ih =>
    have hlt := remaining_step hstep hflag hne
    have hle := ih (flagged_step hstep hflag).1
    rw [List.length_cons]
    omega

end Proofs

/-- A chunk with one call, and one with text. -/
def callChunk : StreamChunk :=
  ⟨[],[[(lit "index",.int 0),(lit "id",.str (lit "call_1")),
    (lit "function",.obj [(lit "name",.str (lit "read_file"))])]],none,[]⟩

def textChunk : StreamChunk := ⟨lit "The first step is",[],none,[]⟩

/-- A stream with the first chunk. -/
def opened (c : StreamChunk) : List Action := [.check,.openStream,.chunk c]

def afterCall : List Action :=
  [.chunk textChunk,.answer fun _ => [],.turnOf,.gather,.gathered,.persisted,.close]

theorem cancelled_call_interrupted : Interrupted (last (step plainHost 3) start
    (opened callChunk++.cancel::afterCall)) := by
  have hbefore : Run (step plainHost 3) always start (opened callChunk)
      (last (step plainHost 3) start (opened callChunk)) := run_last (by rfl)
  have hcancel : step plainHost 3 (last (step plainHost 3) start (opened callChunk)) .cancel =
      some (last (step plainHost 3) start (opened callChunk++[.cancel])) := rfl
  have hafter : Run (step plainHost 3) always
      (last (step plainHost 3) start (opened callChunk++[.cancel])) afterCall
      (last (step plainHost 3) start (opened callChunk++.cancel::afterCall)) := by
    exact run_of_exec rfl
  have hgood : ∀ a ∈ afterCall, ∀ s, fails plainHost s a = false := by
    intro a ha s
    simp only [afterCall,List.mem_cons,List.not_mem_nil,or_false] at ha
    rcases ha with rfl | rfl | rfl | rfl | rfl | rfl | rfl <;> rfl
  refine (cancel_interrupts_iff hbefore hcancel hafter rfl).mpr ⟨rfl,?_⟩
  exact (hafter.of_forall hgood).mono fun s a h => h s

theorem cancelled_call_ends :
    afterCall.length+remaining plainHost 3 (last (step plainHost 3) start
      (opened callChunk++.cancel::afterCall)).phase ≤
    remaining plainHost 3 (last (step plainHost 3) start (opened callChunk++[.cancel])).phase := by
  have hafter : Run (step plainHost 3) always
      (last (step plainHost 3) start (opened callChunk++[.cancel])) afterCall
      (last (step plainHost 3) start (opened callChunk++.cancel::afterCall)) := run_of_exec rfl
  refine cancelled_turn_ends (hafter.of_forall fun a ha => ?_) rfl
  rintro rfl
  simp [afterCall] at ha

/-- Text that a cancellation cuts off is returned and reported as the answer. -/
theorem partial_text_reported : ∃ s t u,
    Run (step plainHost 3) always start (opened textChunk) s ∧ s.events = [] ∧
    step plainHost 3 s .cancel = some t ∧
    Run (step plainHost 3) always t [.chunk textChunk,.answer fun _ => [],.close] u ∧
    u.phase = .returned ⟨lit "The first step is",1,false,false⟩ ∧ u.events = [.done] ∧
    ¬ Interrupted u := by
  refine ⟨_,_,_,run_of_exec rfl,rfl,rfl,run_of_exec rfl,rfl,rfl,?_⟩
  rintro ⟨hevents,_⟩
  cases hevents

end MinimaxCode.AgentTurn
