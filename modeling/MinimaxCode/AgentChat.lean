import MinimaxCode.AgentTurn

/-!
# Cancelling a chat

`handle_agent_chat` registers its core, fires the session hooks and runs blocks of a turn
through `_run_with_auto_continue`; each block clears the flag. `handle_agent_cancel` takes
the registered core out of the registry, sets its flag and acknowledges.
-/

namespace MinimaxCode.AgentChat

open PyText PyJson Agent Runs
open AgentTurn (Turn Phase)

/-- What is fixed for a chat. -/
structure Config where
  host : Host
  maxAttempts : ℕ
  autoContinue : Bool
  maxBlocks : ℕ

inductive Stage
  | unregistered
  /-- Registered, with the session hooks running. -/
  | starting
  | running (blocks : ℕ)
  | over
  deriving DecidableEq

structure Chat where
  registered : Bool
  acknowledged : Bool
  stage : Stage
  turn : Turn

inductive Action
  /-- `handle_agent_cancel` for the session of the chat. -/
  | cancel
  | register
  /-- Another chat of the session replaces or removes the entry. -/
  | displace
  | begin
  | turn (a : AgentTurn.Action)

def start : Chat := ⟨false,false,.unregistered,AgentTurn.start⟩

section Chat

variable (cfg : Config)

/-- The budget of a block is spent and another block is allowed. -/
def continues (blocks : ℕ) : Bool := cfg.autoContinue && decide (blocks < cfg.maxBlocks)

/-- The next block, behind `reset_cancel`. -/
def Chat.block (s : Chat) (blocks : ℕ) : Chat :=
  { s with stage := .running blocks, turn := { AgentTurn.start with calls := s.turn.calls } }

/-- The chat is done and takes its entry out of the registry. -/
def Chat.stop (s : Chat) : Chat := { s with registered := false, stage := .over }

/-- `_run_with_auto_continue` behind a step of its turn: no suspension lies between the
return of a block and the start of the next. -/
def settle (s : Chat) (blocks : ℕ) : Chat :=
  match s.turn.phase with
  | .returned r =>
    if continues cfg blocks && r.truncated && !r.cancelled then s.block (blocks+1) else s.stop
  | .raised => s.stop
  | _ => s

def step (s : Chat) : Action → Option Chat
  | .cancel =>
    if s.registered then
      some { s with registered := false, acknowledged := true, turn := { s.turn with flag := true } }
    else some s
  | .displace => if s.registered then some { s with registered := false } else none
  | .register => if s.stage = .unregistered then some { s with registered := true, stage := .starting }
    else none
  | .begin => if s.stage = .starting then some (s.block 1) else none
  | .turn .cancel => none
  | .turn a =>
    match s.stage with
    | .running blocks =>
      match AgentTurn.step cfg.host cfg.maxAttempts s.turn a with
      | none => none
      | some t => some (settle cfg { s with turn := t } blocks)
    | _ => none

def rejected (p : PreparedToolCall) : Bool := p.shortCircuit.isSome

/-- Under the flag nothing is called any more from this phase of a block. -/
def quietPhase (more : Bool) : Phase → Bool
  | .setup => decide (0 < cfg.host.maxIterations) || !more
  | .draining i => decide (i+1 < cfg.host.maxIterations) || !more
  | .opening _ _ => false
  | .preparing _ prepared _ | .consulting _ prepared _ _ => prepared.all rejected
  | .executing _ waiting _ => waiting.isEmpty
  | .exhausted | .limited => !more
  | .returned r => !(more && r.truncated && !r.cancelled)
  | .streaming _ _ _ | .answered _ _ | .persisting _ | .completing _ _ | .aborting _ | .failing
  | .raised => true

def quiet (s : Chat) : Bool :=
  match s.stage with
  | .unregistered | .starting => false
  | .running blocks => quietPhase cfg (continues cfg blocks) s.turn.phase
  | .over => true

/-- A preparation in progress ends with a rejection, or raises. -/
def rejects (s : Turn) (env : CallEnv) : Bool :=
  match s.phase with
  | .consulting _ _ c _ => (prepareToolCall cfg.host env c).all rejected
  | _ => true

/-- A cancellation is acknowledged where nothing is about to be called, and behind it no
stream is opened again and no preparation in progress lets its call through. -/
def keeps (s : Chat) : Action → Bool
  | .cancel => !s.registered || quiet cfg s
  | .turn .retry => !s.acknowledged
  | .turn (.prepare env) => !s.acknowledged || rejects cfg s.turn env
  | _ => true

/-- An acknowledged cancellation holds. -/
structure Stopped (s : Chat) : Prop where
  acknowledged : s.acknowledged = true
  flag : s.turn.flag = true
  quiet : quiet cfg s = true

end Chat

section Proofs

variable {cfg : Config}

theorem quietPhase_enter (more : Bool) (i : ℕ) :
    quietPhase cfg more (AgentTurn.enter cfg.host true i) =
      (decide (i < cfg.host.maxIterations) || !more) := by
  rw [AgentTurn.enter]
  split <;> simp_all [quietPhase]

theorem quietPhase_assemble (more : Bool) (i : ℕ) (chunks : List StreamChunk) :
    quietPhase cfg more (AgentTurn.assemble cfg.host i chunks) = true := by
  rw [AgentTurn.assemble]
  cases assembleChunks cfg.host.intOfStr chunks <;> rfl

theorem quietPhase_afterAnswer (more : Bool) (i : ℕ) (m : AssistantMessage) (calls : List ToolCall) :
    quietPhase cfg more (AgentTurn.afterAnswer i m calls) = true := by
  cases calls <;> rfl

theorem quietPhase_afterPrepare {more : Bool} {i : ℕ} {prepared : List PreparedToolCall}
    {rest : List ToolCall} {p : Option PreparedToolCall} (hprepared : prepared.all rejected = true)
    (hp : p.all rejected = true) :
    quietPhase cfg more (AgentTurn.afterPrepare i prepared rest p) = true := by
  cases p with
  | none => rfl
  | some p => simpa [quietPhase,AgentTurn.afterPrepare] using ⟨by simpa using hprepared,by simpa using hp⟩

/-- What `keeps` asks of a step of the turn. -/
def allowed (cfg : Config) (s : Turn) : AgentTurn.Action → Bool
  | .retry => false
  | .prepare env => rejects cfg s env
  | _ => true

theorem quiet_turn {more : Bool} {s t : Turn} {a : AgentTurn.Action}
    (h : AgentTurn.step cfg.host cfg.maxAttempts s a = some t) (hflag : s.flag = true)
    (hquiet : quietPhase cfg more s.phase = true) (hallowed : allowed cfg s a = true) :
    t.flag = true ∧ quietPhase cfg more t.phase = true ∧ t.calls = s.calls := by
  cases AgentTurn.move_of_step h with
  | begin hs =>
    rw [hs] at hquiet
    refine ⟨hflag,?_,rfl⟩
    rw [AgentTurn.goto_phase,hflag,quietPhase_enter]
    exact hquiet
  | again hs =>
    rw [hs] at hquiet
    refine ⟨hflag,?_,rfl⟩
    rw [AgentTurn.goto_phase,hflag,quietPhase_enter]
    exact hquiet
  | openStream hs =>
    rw [hs] at hquiet
    cases hquiet
  | @chunk c i n chunks hs =>
    refine ⟨hflag,?_,rfl⟩
    rw [AgentTurn.goto_phase,if_pos hflag]
    exact quietPhase_assemble more i chunks
  | @endStream i n chunks hs => exact ⟨hflag,quietPhase_assemble more i chunks,rfl⟩
  | retry => cases hallowed
  | @answer uuids i m hs => exact ⟨hflag,quietPhase_afterAnswer more i m _,rfl⟩
  | @prepare env i prepared c rest hs =>
    rw [hs] at hquiet
    simp only [allowed,rejects,hs] at hallowed
    exact ⟨hflag,quietPhase_afterPrepare hquiet hallowed,rfl⟩
  | @turnOf i prepared c rest hs =>
    rw [hs] at hquiet
    refine ⟨hflag,?_,rfl⟩
    have hall : prepared.all rejected = true := hquiet
    rw [AgentTurn.goto_phase,if_pos hflag]
    simp [quietPhase,hall,rejected,cancelPrepared]
  | @gather i prepared hs =>
    rw [hs] at hquiet
    refine ⟨hflag,?_,rfl⟩
    have hnone : prepared.filter (fun p => p.shortCircuit.isNone) = [] := by
      rw [List.filter_eq_nil_iff]
      intro p hp
      have hrejected := List.all_eq_true.mp hquiet p hp
      simpa [rejected,Option.isSome_iff_ne_none] using hrejected
    rw [AgentTurn.goto_phase,hnone]
    rfl
  | @dispatch k i running waiting p hs hp =>
    -- no prepared call is waiting
    rw [hs] at hquiet
    rw [List.isEmpty_iff.mp hquiet] at hp
    cases hp
  | _ => simp_all [quietPhase]

theorem calls_settle (s : Chat) (blocks : ℕ) : (settle cfg s blocks).turn.calls = s.turn.calls := by
  rw [settle]
  split
  · split <;> rfl
  · rfl
  · rfl

theorem stopped_settle {s : Chat} {blocks : ℕ} (hstage : s.stage = .running blocks)
    (hs : Stopped cfg s) : Stopped cfg (settle cfg s blocks) := by
  have hquiet := hs.quiet
  rw [quiet,hstage] at hquiet
  rw [settle]
  split
  · next r hr =>
    rw [hr] at hquiet
    rw [if_neg (by simpa only [quietPhase,Bool.not_eq_true,Bool.not_eq_true'] using hquiet)]
    exact ⟨hs.acknowledged,hs.flag,rfl⟩
  · exact ⟨hs.acknowledged,hs.flag,rfl⟩
  · exact hs

theorem stopped_step {s t : Chat} {a : Action} (h : step cfg s a = some t)
    (hkeeps : keeps cfg s a = true) (hs : Stopped cfg s) :
    Stopped cfg t ∧ t.turn.calls = s.turn.calls := by
  revert h
  fun_cases step cfg s a <;> rintro ⟨⟩
  case case1 => exact ⟨⟨rfl,rfl,hs.quiet⟩,rfl⟩
  case case2 => exact ⟨hs,rfl⟩
  case case3 => exact ⟨⟨hs.acknowledged,hs.flag,hs.quiet⟩,rfl⟩
  case case5 hstage | case7 hstage =>
    have hquiet := hs.quiet
    simp [quiet,hstage] at hquiet
  case case11 a hcancel blocks hstage t hturn =>
    have hquiet := hs.quiet
    rw [quiet,hstage] at hquiet
    have hallowed : allowed cfg s.turn a = true := by
      cases a <;> simp_all [allowed,keeps,hs.acknowledged]
    obtain ⟨hflag,hquiet',hcalls⟩ := quiet_turn hturn hs.flag hquiet hallowed
    have hstopped : Stopped cfg { s with turn := t } := by
      refine ⟨hs.acknowledged,hflag,?_⟩
      rw [quiet]
      simpa only [hstage] using hquiet'
    exact ⟨stopped_settle hstage hstopped,by rw [calls_settle]; exact hcalls⟩

theorem stopped_run {s t : Chat} {as : List Action}
    (h : Run (step cfg) (fun s a => keeps cfg s a = true) s as t) (hs : Stopped cfg s) :
    t.turn.calls = s.turn.calls := by
  induction h with
  | refl s => rfl
  | succ hkeeps hstep _ ih =>
    obtain ⟨hstopped,hcalls⟩ := stopped_step hstep hkeeps hs
    rw [ih hstopped,hcalls]

/-- In every run whose steps keep cancellations, no call is sent behind an acknowledged
one, neither to the model nor to a tool. -/
theorem cancel_not_lost {before after : List Action} {s u : Chat}
    (hbefore : exec (step cfg) start before = some s) (hregistered : s.registered = true)
    (hrun : Run (step cfg) (fun s a => keeps cfg s a = true) start (before++.cancel::after) u) :
    u.turn.calls = s.turn.calls := by
  obtain ⟨s',hs',hrest⟩ := hrun.split
  cases hbefore.symm.trans (exec_of_run hs')
  cases hrest with
  | succ hkeeps hstep hafter =>
    simp only [step,if_pos hregistered,Option.some.injEq] at hstep
    subst hstep
    have hquiet : quiet cfg s = true := by simpa [keeps,hregistered] using hkeeps
    have hstopped : Stopped cfg { s with
        registered := false, acknowledged := true, turn := { s.turn with flag := true } } :=
      ⟨rfl,rfl,hquiet⟩
    have hcalls := stopped_run hafter hstopped
    exact hcalls

end Proofs

def plainConfig : Config := ⟨plainHost,3,true,5⟩

/-- A stream with its first chunk. -/
def streaming : List Action :=
  [.register,.begin,.turn .check,.turn .openStream,.turn (.chunk AgentTurn.textChunk)]

/-- The stream ends behind the cancellation, with its text for an answer. -/
def streamEnds : List Action := [.turn .endStream,.turn (.answer fun _ => []),.turn .close]

theorem cancel_kept_in_stream :
    (last (step plainConfig) start (streaming++.cancel::streamEnds)).turn.calls =
      (last (step plainConfig) start streaming).turn.calls := by
  have hrun : Run (step plainConfig) (fun s a => keeps plainConfig s a = true) start
      (streaming++.cancel::streamEnds) (last (step plainConfig) start (streaming++.cancel::streamEnds)) :=
    run_of_checked rfl
  exact cancel_not_lost rfl rfl hrun

/-- A cancellation that is acknowledged while the session hooks run is wiped by the start
of the first block, which calls the model. -/
theorem cancel_lost_at_start : ∃ s t u, exec (step plainConfig) start [.register] = some s ∧
    s.registered = true ∧ step plainConfig s .cancel = some t ∧ t.acknowledged = true ∧
    Run (step plainConfig) always t [.begin,.turn .check,.turn .openStream] u ∧
    s.turn.calls = [] ∧ u.turn.calls = [.model] :=
  ⟨_,_,_,rfl,rfl,rfl,rfl,run_of_exec rfl,rfl,rfl⟩

end MinimaxCode.AgentChat
