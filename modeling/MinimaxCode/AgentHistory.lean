import MinimaxCode.OptionMaps
import MinimaxCode.Runs
import MinimaxCode.ToolCallStream

/-!
# The history of an agent run

One iteration of `AgentCore.run` streams an answer, appends the assistant message,
runs its tool calls and appends a tool message for each. What the surroundings do
(chunks, cancellation, permission, hooks, breakers, tools, interjections) is an input
of the iteration. An exception that escapes ends the run with what was appended before
it. Compaction shortens the list that goes to the model and appends nothing.
-/

namespace MinimaxCode.Agent

open PyText PyJson Runs OptionMaps

structure ToolResult where
  success : Bool
  output : Json
  error : Option PyStr
  metadata : List (PyStr × Json)

def ToolResult.toDict (r : ToolResult) : Json :=
  .obj ([(lit "success",.bool r.success),(lit "output",r.output)]++
    (r.error.map fun e => (lit "error",Json.str e)).toList++
    if r.metadata.isEmpty then [] else [(lit "metadata",.obj r.metadata)])

/-- `ToolResult.fail`. -/
def failed (error : PyStr) (output : Json) (metadata : List (PyStr × Json)) : ToolResult :=
  ⟨false,output,some error,metadata⟩

/-- How the dispatch of a tool ends: with a result, given by its JSON text unless it has
none, or with something that is not an `Exception`. -/
inductive Dispatch
  | returns (content : Option PyStr)
  | escapes

/-- What a call meets on its way: whether the run was cancelled when its turn came, the
permission rule, the user's answer, a blocking hook, an open breaker with its waiting
time, and the dispatch. -/
structure CallEnv where
  cancelled : Bool
  rule : Option PyStr
  consents : Bool
  hookBlock : Option PyStr
  circuitOpen : Option PyStr
  dispatch : Dispatch

/-- What is fixed for a run: the parsers, whether there is a permission gater, and the
iteration limit. -/
structure Host where
  floats : FloatText
  loads : PyStr → LoadsOutcome
  intOfStr : PyStr → Option ℤ
  gater : Bool
  maxIterations : ℕ

inductive ParsedArgs
  | args (v : Json)
  | malformed (message : PyStr)
  | raises

structure PreparedToolCall where
  name : PyStr
  args : Json
  shortCircuit : Option ToolResult

/-- A result as the tool message shows it: a rejection, or what the dispatch returned. -/
inductive CallOutcome
  | rejected (r : ToolResult)
  | dispatched (content : Option PyStr)

def writeTools : List PyStr := [lit "write_file",lit "edit_file"]

def isDict : Json → Bool
  | .obj _ => true
  | _ => false

/-- An element that `dict` takes for a key and a value. -/
def isPair : Json → Bool
  | .arr [.arr _,_] => false
  | .arr [.obj _,_] => false
  | .arr [_,_] => true
  | .str s => s.length == 2
  | .obj fields => fields.length == 2
  | _ => false

/-- `dict(args)` does not raise. -/
def dictAccepts : Json → Bool
  | .obj _ => true
  | .arr xs => xs.all isPair
  | .str s => s.isEmpty
  | _ => false

section Call

variable (host : Host)

/-- The arguments of a call: only a `JSONDecodeError` is caught. -/
def parseArgs (s : PyStr) : ParsedArgs :=
  if isBlank s then .args (.obj [])
  else match host.loads s with
    | .value v => .args v
    | .decodeError m => .malformed m
    | .valueError _ => .raises
    | .raises => .raises

def toolText (name : PyStr) (s : String) : PyStr := lit "tool '"++name++lit s

def malformedResult (name exc : PyStr) : ToolResult :=
  failed (toolText name "' got malformed JSON args: "++exc++lit ". This usually means the arguments were truncated by the output-token limit — retry with a smaller payload (e.g. write the file in smaller chunks with append/edit steps) or ask the user to raise MINIMAX_CODE_MAX_OUTPUT_TOKENS.")
    .null []

def deniedResult (name : PyStr) (args : Json) : ToolResult :=
  failed (toolText name "' denied by permission policy (action=deny)")
    (.obj [(lit "permission",.str (lit "deny")),(lit "tool",.str name),(lit "args",args)])
    [(lit "permission",.str (lit "deny"))]

def userDeniedResult (name : PyStr) (args : Json) : ToolResult :=
  failed (toolText name "' denied by user")
    (.obj [(lit "permission",.str (lit "user_deny")),(lit "tool",.str name),(lit "args",args)])
    [(lit "permission",.str (lit "user_deny"))]

def hookBlockedResult (name reason : PyStr) (args : Json) : ToolResult :=
  failed (if reason = [] then toolText name "' blocked by pre_tool_use hook" else reason)
    (.obj [(lit "hook",.str (lit "pre_tool_use")),(lit "tool",.str name),(lit "args",args)])
    [(lit "permission",.str (lit "hook_block"))]

def circuitOpenResult (name retryAfter : PyStr) : ToolResult :=
  failed (toolText name "' circuit open after repeated failures (retry in "++retryAfter++lit "s)")
    .null []

def cancelledResult (name : PyStr) : ToolResult := failed (toolText name "' cancelled") .null []

/-- The user is asked for consent. -/
def asks (env : CallEnv) : Bool := env.rule == some (lit "ask") && host.gater

/-- `_prepare_tool_call`; nothing where it raises. -/
def prepareToolCall (env : CallEnv) (c : ToolCall) : Option PreparedToolCall :=
  match parseArgs host c.arguments with
  | .raises => none
  | .malformed m => some ⟨c.name,.obj [],some (malformedResult c.name m)⟩
  | .args args =>
    if env.rule = some (lit "deny") then some ⟨c.name,args,some (deniedResult c.name args)⟩
    else if asks host env && !dictAccepts args then none
    else if asks host env && !env.consents then
      some ⟨c.name,args,some (userDeniedResult c.name args)⟩
    else match env.hookBlock with
      | some reason => some ⟨c.name,args,some (hookBlockedResult c.name reason args)⟩
      | none =>
        match env.circuitOpen with
        | some retryAfter => some ⟨c.name,args,some (circuitOpenResult c.name retryAfter)⟩
        | none => some ⟨c.name,args,none⟩

def cancelPrepared (c : ToolCall) : PreparedToolCall :=
  ⟨c.name,.obj [],some (cancelledResult c.name)⟩

/-- `_execute_tool_call`; nothing where it raises, as the lookup of the write lock does
on arguments that are no dictionary. -/
def executeToolCall (env : CallEnv) (p : PreparedToolCall) : Option CallOutcome :=
  match p.shortCircuit with
  | some r => some (.rejected r)
  | none =>
    if p.name ∈ writeTools ∧ isDict p.args = false then none
    else match env.dispatch with
      | .returns content => some (.dispatched content)
      | .escapes => none

/-- The preparation of a call whose turn has come. -/
def prepareInTurn (e : CallEnv × ToolCall) : Option (CallEnv × PreparedToolCall) :=
  (if e.1.cancelled then some (cancelPrepared e.2) else prepareToolCall host e.1 e.2).map
    fun p => (e.1,p)

/-- `_run_tool_batch`: all calls are prepared in order and then executed. -/
def runToolBatch (envs : ℕ → CallEnv) (calls : List ToolCall) : Option (List CallOutcome) :=
  ((calls.mapIdx fun i c => (envs i,c)).mapM (prepareInTurn host)).bind fun prepared =>
    prepared.mapM fun e => executeToolCall e.1 e.2

/-- The text of a tool message; nothing where `json.dumps` raises. -/
def CallOutcome.content : CallOutcome → Option PyStr
  | .rejected r => some (dumps host.floats false r.toDict)
  | .dispatched content => content

end Call

inductive Entry
  | user (content : Json)
  | assistant (m : AssistantMessage)
  | tool (id name content : PyStr)

/-- The messages appended in a session, as they stand in memory and as they were given
to be persisted, and the iteration of a running turn. -/
structure State where
  appended : List Entry
  persisted : List Entry
  iteration : Option ℕ

/-- What one iteration meets. No stream stands for an LLM call that raises; the flags
tell whether the run is cancelled when they are looked at. -/
structure Iteration where
  cancelledBefore : Bool
  stream : Option (List StreamChunk)
  uuids : ℕ → PyStr
  calls : ℕ → CallEnv
  cancelledAfter : Bool
  interjections : List PyStr

inductive Action
  | begin (content : Json)
  | iterate (input : Iteration)
  | exhaust

def start : State := ⟨[],[],none⟩

def State.append (s : State) (entries : List Entry) : State :=
  { s with appended := s.appended++entries, persisted := s.persisted++entries }

/-- The turn is over. -/
def State.stop (s : State) : State := { s with iteration := none }

section Run

variable (host : Host)

/-- The tool messages of a batch, up to the first that cannot be built, and whether
there is one. -/
def toolMessages : List (ToolCall × CallOutcome) → List Entry × Bool
  | [] => ([],false)
  | (c,o)::rest =>
    match o.content host with
    | none => ([],true)
    | some content =>
      (.tool c.id c.name content::(toolMessages rest).1,(toolMessages rest).2)

/-- The part of an iteration behind the answer of the model. The message is persisted
before its calls get their identifiers. -/
def answerCalls (s : State) (i : ℕ) (input : Iteration) (m : AssistantMessage) : State :=
  let s : State :=
    { s with
      appended := s.appended++[.assistant (identify input.uuids m)]
      persisted := s.persisted++[.assistant m] }
  let calls := extractToolCalls input.uuids m
  if calls.isEmpty then s.stop
  else match runToolBatch host input.calls calls with
    | none => s.stop
    | some outcomes =>
      let tools := toolMessages host (calls.zip outcomes)
      let s := s.append tools.1
      if tools.2 || input.cancelledAfter then s.stop
      else { s.append (input.interjections.map fun t => .user (.str t)) with iteration := some (i+1) }

def limitText : PyStr :=
  lit "I stopped after reaching the "++natText host.maxIterations++
    lit "-iteration limit before producing a final answer."

def step (s : State) : Action → Option State
  | .begin content =>
    match s.iteration with
    | none => some { s.append [.user content] with iteration := some 0 }
    | some _ => none
  | .iterate input =>
    match s.iteration with
    | none => none
    | some i =>
      if i < host.maxIterations then
        if input.cancelledBefore then some s.stop
        else match input.stream.bind (assembleChunks host.intOfStr) with
          | none => some s.stop
          | some r => some (answerCalls host s i input r.message)
      else none
  | .exhaust =>
    match s.iteration with
    | none => none
    | some i =>
      if i < host.maxIterations then none
      else some (s.append [.assistant ⟨limitText host,[]⟩]).stop

end Run

/-- The identifiers of the tool messages up to the next message of another kind. -/
def answers : List Entry → List PyStr
  | .tool id _ _::rest => id::answers rest
  | _ => []

/-- Each call is answered by exactly one tool message, in the order of the calls. -/
structure Answered (calls : List ToolCall) (rest : List Entry) : Prop where
  once : ∀ c ∈ calls, (answers rest).count c.id = 1
  order : (calls.map ToolCall.id).Sublist (answers rest)

/-- The calls of every assistant message are answered before any other assistant or
user message. -/
def Paired (log : List Entry) : Prop :=
  ∀ before m rest, log = before++.assistant m::rest → Answered m.toolCalls rest

section Condition

variable (host : Host)

/-- Nothing escapes from the call: its arguments parse or are malformed, they are fit for
the consent request and the write lock where these look at them, and the dispatch
returns a result that can be written as JSON. -/
def CallSound (env : CallEnv) (c : ToolCall) : Prop :=
  env.cancelled = true ∨
  match parseArgs host c.arguments with
  | .raises => False
  | .malformed _ => True
  | .args args =>
    env.rule = some (lit "deny") ∨
    (asks host env = true → dictAccepts args = true) ∧
    (asks host env = true ∧ env.consents = false ∨ env.hookBlock ≠ none ∨ env.circuitOpen ≠ none ∨
      (c.name ∈ writeTools → isDict args = true) ∧
      ∃ content, env.dispatch = .returns (some content))

/-- The calls of an answer have names and distinct identifiers, and nothing escapes. -/
def AnswerSound (input : Iteration) (m : AssistantMessage) : Prop :=
  (∀ c ∈ m.toolCalls, isBlank c.name = false) ∧
  ((identify input.uuids m).toolCalls.map ToolCall.id).Nodup ∧
  ∀ i c, (identify input.uuids m).toolCalls[i]? = some c → CallSound host (input.calls i) c

/-- Every answer that comes in is sound. -/
def Sound : Action → Prop
  | .iterate input => input.cancelledBefore = false →
    ∀ r, input.stream.bind (assembleChunks host.intOfStr) = some r →
      AnswerSound host input r.message
  | _ => True

/-- The model gives every call an identifier. -/
def Identified : Action → Prop
  | .iterate input => ∀ r, input.stream.bind (assembleChunks host.intOfStr) = some r →
    ∀ c ∈ r.message.toolCalls, isBlank c.id = false
  | _ => True

end Condition

theorem answers_append_of_nil {ext : List Entry} (h : answers ext = []) (log : List Entry) :
    answers (log++ext) = answers log := by
  induction log with
  | nil => exact h
  | cons e log ih =>
    cases e with
    | user c => rfl
    | assistant m => rfl
    | tool id name content => simp only [List.cons_append,answers,ih]

theorem paired_append {log ext : List Entry} (hext : answers ext = []) :
    Paired (log++ext) ↔ Paired log ∧ Paired ext := by
  constructor
  · intro h
    constructor
    · intro before m rest heq
      have hm := h before m (rest++ext) (by rw [heq]; simp)
      constructor
      · simpa [answers_append_of_nil hext] using hm.once
      · simpa [answers_append_of_nil hext] using hm.order
    · intro before m rest heq
      exact h (log++before) m rest (by rw [heq]; simp)
  · rintro ⟨hlog,hext'⟩ before m rest heq
    cases List.append_eq_append_iff.mp heq with
    | inl hcase =>
      obtain ⟨mid,hb,he⟩ := hcase
      exact hext' mid m rest he
    | inr hcase =>
      obtain ⟨mid,hl,he⟩ := hcase
      cases mid with
      | nil => exact hext' [] m rest he.symm
      | cons e mid =>
        rw [List.cons_append,List.cons.injEq] at he
        have hm := hlog before m mid (by rw [hl,← he.1])
        rw [he.2]
        constructor
        · simpa [answers_append_of_nil hext] using hm.once
        · simpa [answers_append_of_nil hext] using hm.order

theorem paired_cons {m : AssistantMessage} {rest : List Entry}
    (hrest : ∀ m', Entry.assistant m' ∉ rest) :
    Paired (.assistant m::rest) ↔ Answered m.toolCalls rest := by
  constructor
  · intro h
    exact h [] m rest rfl
  · intro h before m' rest' heq
    cases before with
    | nil =>
      rw [List.nil_append,List.cons.injEq] at heq
      cases heq.1
      exact heq.2 ▸ h
    | cons e before =>
      rw [List.cons_append,List.cons.injEq] at heq
      have hm : Entry.assistant m' ∈ rest := by
        rw [heq.2]
        simp
      exact absurd hm (hrest m')

theorem paired_of_no_assistant {log : List Entry} (h : ∀ m, Entry.assistant m ∉ log) : Paired log := by
  intro before m rest heq
  have hm : Entry.assistant m ∈ log := by
    rw [heq]
    simp
  exact absurd hm (h m)

section Calls

variable (host : Host)

def callOutcome (e : CallEnv × ToolCall) : Option CallOutcome :=
  (prepareInTurn host e).bind fun e => executeToolCall e.1 e.2

theorem executeToolCall_iff (env : CallEnv) (name : PyStr) (args : Json) :
    (∃ o, executeToolCall env ⟨name,args,none⟩ = some o ∧ (o.content host).isSome) ↔
      (name ∈ writeTools → isDict args = true) ∧
      ∃ content, env.dispatch = .returns (some content) := by
  unfold executeToolCall
  by_cases hlock : name ∈ writeTools ∧ isDict args = false
  · simp [hlock]
  · have hdict : name ∈ writeTools → isDict args = true := by simpa using hlock
    cases hd : env.dispatch with
    | escapes => simp
    | returns content => simpa [hlock,CallOutcome.content,Option.isSome_iff_exists] using fun _ _ => hdict

theorem executeToolCall_rejected (env : CallEnv) (name : PyStr) (args : Json) (r : ToolResult) :
    executeToolCall env ⟨name,args,some r⟩ = some (.rejected r) := rfl

theorem rejected_content (r : ToolResult) : ((CallOutcome.rejected r).content host).isSome := rfl

theorem callSound_iff (env : CallEnv) (c : ToolCall) :
    CallSound host env c ↔ ∃ o, callOutcome host (env,c) = some o ∧ (o.content host).isSome := by
  unfold CallSound callOutcome prepareInTurn
  cases hcan : env.cancelled with
  | true => simp [cancelPrepared,executeToolCall_rejected,rejected_content]
  | false =>
    simp only [Bool.false_eq_true,if_false,false_or,prepareToolCall]
    cases hargs : parseArgs host c.arguments with
    | raises => simp
    | malformed m => simp [executeToolCall_rejected,rejected_content]
    | args args =>
      have hexecute := executeToolCall_iff host env c.name args
      by_cases hdeny : env.rule = some (lit "deny")
      · simp [hdeny,executeToolCall_rejected,rejected_content]
      · cases hasks : asks host env with
        | false =>
          cases hhook : env.hookBlock with
          | some reason => simp [hdeny,executeToolCall_rejected,rejected_content]
          | none =>
            cases hopen : env.circuitOpen with
            | some retry => simp [hdeny,executeToolCall_rejected,rejected_content]
            | none => simpa [hdeny] using hexecute.symm
        | true =>
          cases hdict : dictAccepts args with
          | false => simp [hdeny,hdict]
          | true =>
            cases hcon : env.consents with
            | false => simp [hdeny,hdict,executeToolCall_rejected,rejected_content]
            | true =>
              cases hhook : env.hookBlock with
              | some reason => simp [hdeny,hdict,executeToolCall_rejected,rejected_content]
              | none =>
                cases hopen : env.circuitOpen with
                | some retry => simp [hdeny,hdict,executeToolCall_rejected,rejected_content]
                | none => simpa [hdeny,hdict] using hexecute.symm

theorem runToolBatch_eq (envs : ℕ → CallEnv) (calls : List ToolCall) :
    runToolBatch host envs calls = (calls.mapIdx fun i c => (envs i,c)).mapM (callOutcome host) :=
  mapM_bind_mapM (prepareInTurn host) (fun e => executeToolCall e.1 e.2) _

/-- The tool messages of an iteration. -/
def toolEntries (input : Iteration) (m : AssistantMessage) : List Entry :=
  match runToolBatch host input.calls (extractToolCalls input.uuids m) with
  | none => []
  | some outcomes => (toolMessages host ((extractToolCalls input.uuids m).zip outcomes)).1

theorem answers_toolMessages (ps : List (ToolCall × CallOutcome)) :
    answers (toolMessages host ps).1 <+: ps.map (fun p => p.1.id) ∧
    (answers (toolMessages host ps).1 = ps.map (fun p => p.1.id) ↔
      ∀ p ∈ ps, (p.2.content host).isSome) := by
  induction ps with
  | nil => simp [toolMessages,answers]
  | cons p ps ih =>
    obtain ⟨c,o⟩ := p
    cases ho : o.content host with
    | none => simp [toolMessages,ho,answers]
    | some content => simpa [toolMessages,ho,answers] using ih

theorem toolMessages_tools (ps : List (ToolCall × CallOutcome)) :
    ∀ e ∈ (toolMessages host ps).1, ∃ id name content, e = .tool id name content := by
  induction ps with
  | nil => simp [toolMessages]
  | cons p ps ih =>
    obtain ⟨c,o⟩ := p
    cases ho : o.content host with
    | none => simp [toolMessages,ho]
    | some content =>
      simp only [toolMessages,ho,List.forall_mem_cons]
      exact ⟨⟨_,_,_,rfl⟩,ih⟩

theorem answers_toolEntries (input : Iteration) (m : AssistantMessage) :
    answers (toolEntries host input m) <+: (extractToolCalls input.uuids m).map ToolCall.id ∧
    (answers (toolEntries host input m) = (extractToolCalls input.uuids m).map ToolCall.id ↔
      ∀ i c, (extractToolCalls input.uuids m)[i]? = some c → CallSound host (input.calls i) c) := by
  unfold toolEntries
  generalize extractToolCalls input.uuids m = calls
  have hbatch := runToolBatch_eq host input.calls calls
  cases hrun : runToolBatch host input.calls calls with
  | none =>
    rw [hrun] at hbatch
    obtain ⟨e,he,hnone⟩ := mapM_eq_none hbatch.symm
    obtain ⟨i,hi,rfl⟩ := List.mem_mapIdx.mp he
    have hne : calls.map ToolCall.id ≠ [] := by
      intro hnil
      rw [List.map_eq_nil_iff.mp hnil] at hi
      simp at hi
    constructor
    · simp [answers]
    · constructor
      · intro h
        exact absurd h.symm hne
      · intro h
        obtain ⟨o,ho,_⟩ := (callSound_iff host _ _).mp (h i calls[i] (List.getElem?_eq_getElem hi))
        rw [hnone] at ho
        cases ho
  | some outcomes =>
    rw [hrun] at hbatch
    have hall := mapM_eq_some hbatch.symm
    have hlen : calls.length = outcomes.length := by simpa using hall.length_eq
    have hids : (calls.zip outcomes).map (fun p => p.1.id) = calls.map ToolCall.id := by
      have hfst := List.map_fst_zip (le_of_eq hlen)
      conv_rhs => rw [← hfst]
      rw [List.map_map]
      rfl
    have hcall : ∀ i (hi : i < calls.length) (ho : i < outcomes.length),
        callOutcome host (input.calls i,calls[i]) = some outcomes[i] := by
      intro i hi ho
      simpa using hall.get (i:=i) (by simpa using hi) ho
    have hanswers := answers_toolMessages host (calls.zip outcomes)
    rw [hids] at hanswers
    refine ⟨hanswers.1,hanswers.2.trans ?_⟩
    constructor
    · intro h i c hc
      obtain ⟨hi,rfl⟩ := List.getElem?_eq_some_iff.mp hc
      have ho : i < outcomes.length := hlen ▸ hi
      have hzip : (calls[i],outcomes[i]) ∈ calls.zip outcomes := by
        apply List.mem_iff_getElem.mpr
        exact ⟨i,by simp [hi,ho],List.getElem_zip⟩
      exact (callSound_iff host _ _).mpr ⟨outcomes[i],hcall i hi ho,h _ hzip⟩
    · intro h p hp
      obtain ⟨i,hi,rfl⟩ := List.mem_iff_getElem.mp hp
      rw [List.length_zip,lt_min_iff] at hi
      have hsound := h i calls[i] (List.getElem?_eq_getElem hi.1)
      obtain ⟨o,hcallo,ho⟩ := (callSound_iff host _ _).mp hsound
      rw [hcall i hi.1 hi.2,Option.some.injEq] at hcallo
      rw [List.getElem_zip,hcallo]
      exact ho

theorem answered_iff (input : Iteration) (m : AssistantMessage) :
    Answered (identify input.uuids m).toolCalls (toolEntries host input m) ↔
      AnswerSound host input m := by
  obtain ⟨hpre,hall⟩ := answers_toolEntries host input m
  have hnamed := @extractToolCalls_eq_iff input.uuids m
  have hsub : (extractToolCalls input.uuids m).Sublist (identify input.uuids m).toolCalls :=
    List.filter_sublist
  constructor
  · intro h
    have hle₁ := h.order.length_le
    have hle₂ := hpre.length_le
    have hle₃ := hsub.length_le
    rw [List.length_map] at hle₁ hle₂
    have heq := hsub.eq_of_length (by omega)
    have hids := hpre.eq_of_length (by rw [List.length_map]; omega)
    have horder := h.order.eq_of_length (by rw [List.length_map,hids,List.length_map,heq])
    refine ⟨hnamed.mp heq,?_,heq ▸ hall.mp hids⟩
    rw [List.nodup_iff_count_le_one]
    intro id
    by_cases hid : id ∈ (identify input.uuids m).toolCalls.map ToolCall.id
    · obtain ⟨c,hc,rfl⟩ := List.mem_map.mp hid
      rw [horder,h.once c hc]
    · rw [List.count_eq_zero_of_not_mem hid]
      exact Nat.zero_le 1
  · rintro ⟨hnames,hnodup,hsound⟩
    have heq := hnamed.mpr hnames
    have hids := hall.mpr (heq.symm ▸ hsound)
    rw [heq] at hids
    constructor
    · intro c hc
      rw [hids]
      exact List.count_eq_one_of_mem hnodup (List.mem_map_of_mem hc)
    · rw [hids]

theorem identify_of_ids {uuids : ℕ → PyStr} {m : AssistantMessage}
    (h : ∀ c ∈ m.toolCalls, isBlank c.id = false) : identify uuids m = m := by
  have hcalls : (m.toolCalls.mapIdx fun i c => withId uuids c i) = m.toolCalls := by
    apply List.ext_getElem
    · simp
    · intro i hi hi'
      have hid := h m.toolCalls[i] (List.getElem_mem hi')
      simp [withId,hid]
  rw [identify,hcalls]

theorem answers_users {users : List Entry} (h : ∀ e ∈ users, ∃ c, e = .user c) : answers users = [] := by
  cases users with
  | nil => rfl
  | cons e users =>
    obtain ⟨c,rfl⟩ := h e List.mem_cons_self
    rfl

theorem answerCalls_entries (s : State) (i : ℕ) (input : Iteration) (m : AssistantMessage) :
    ∃ users : List Entry, (∀ e ∈ users, ∃ c, e = .user c) ∧
      (answerCalls host s i input m).appended =
        s.appended++.assistant (identify input.uuids m)::(toolEntries host input m++users) ∧
      (answerCalls host s i input m).persisted =
        s.persisted++.assistant m::(toolEntries host input m++users) := by
  unfold answerCalls toolEntries
  cases hcalls : extractToolCalls input.uuids m with
  | nil => exact ⟨[],by simp,by simp [State.stop,runToolBatch,toolMessages]⟩
  | cons c cs =>
    simp only [List.isEmpty_cons,Bool.false_eq_true,if_false]
    cases hrun : runToolBatch host input.calls (c::cs) with
    | none => exact ⟨[],by simp,by simp [State.stop]⟩
    | some outcomes =>
      by_cases hstop : ((toolMessages host ((c::cs).zip outcomes)).2 || input.cancelledAfter) = true
      · exact ⟨[],by simp,by simp [hstop,State.stop,State.append]⟩
      · refine ⟨input.interjections.map fun t => .user (.str t),?_,?_⟩
        · intro e he
          obtain ⟨t,_,rfl⟩ := List.mem_map.mp he
          exact ⟨_,rfl⟩
        · simp [hstop,State.append]

theorem paired_answer {log users : List Entry} {m' : AssistantMessage} {input : Iteration}
    {m : AssistantMessage} (hlog : Paired log) (husers : ∀ e ∈ users, ∃ c, e = .user c) :
    Paired (log++.assistant m'::(toolEntries host input m++users)) ↔
      Answered m'.toolCalls (toolEntries host input m) := by
  have hno : ∀ m'', Entry.assistant m'' ∉ toolEntries host input m++users := by
    intro m'' hm
    cases List.mem_append.mp hm with
    | inl hm =>
      unfold toolEntries at hm
      split at hm
      · simp at hm
      · obtain ⟨id,name,content,heq⟩ := toolMessages_tools host _ _ hm
        cases heq
    | inr hm =>
      obtain ⟨c,heq⟩ := husers _ hm
      cases heq
  have hanswers := answers_append_of_nil (answers_users husers) (toolEntries host input m)
  rw [paired_append rfl,paired_cons hno]
  constructor
  · intro h
    exact ⟨hanswers ▸ h.2.once,hanswers ▸ h.2.order⟩
  · intro h
    exact ⟨hlog,hanswers.symm ▸ h.once,hanswers.symm ▸ h.order⟩

theorem step_cases {s t : State} {a : Action} (h : step host s a = some t) :
    (t.appended = s.appended ∧ t.persisted = s.persisted ∧ Sound host a) ∨
    (∃ e, answers [e] = [] ∧ Paired [e] ∧ t.appended = s.appended++[e] ∧
      t.persisted = s.persisted++[e] ∧ Sound host a) ∨
    (∃ i input r, a = .iterate input ∧ input.cancelledBefore = false ∧
      input.stream.bind (assembleChunks host.intOfStr) = some r ∧
      t = answerCalls host s i input r.message) := by
  cases a with
  | begin content =>
    simp only [step] at h
    split at h
    · cases h
      exact .inr (.inl ⟨.user content,rfl,paired_of_no_assistant (by simp),rfl,rfl,trivial⟩)
    · simp at h
  | exhaust =>
    simp only [step] at h
    split at h
    · simp at h
    · split at h
      · simp at h
      · cases h
        have hpaired : Paired [.assistant ⟨limitText host,[]⟩] :=
          (paired_cons (by simp)).mpr ⟨by simp,by simp⟩
        exact .inr (.inl ⟨_,rfl,hpaired,rfl,rfl,trivial⟩)
  | iterate input =>
    simp only [step] at h
    split at h
    · simp at h
    · next i hi =>
      split at h
      · split at h
        · next hc =>
          cases h
          exact .inl ⟨rfl,rfl,fun hf => absurd hc (by simp [hf])⟩
        · next hc =>
          cases hr : input.stream.bind (assembleChunks host.intOfStr) with
          | none =>
            rw [hr] at h
            cases h
            exact .inl ⟨rfl,rfl,fun _ r hr' => by simp [hr] at hr'⟩
          | some r =>
            rw [hr] at h
            cases h
            exact .inr (.inr ⟨i,input,r,rfl,by simpa using hc,hr,rfl⟩)
      · simp at h

theorem step_paired_iff {s t : State} {a : Action} (h : step host s a = some t)
    (hs : Paired s.appended) : Paired t.appended ↔ Sound host a := by
  rcases step_cases host h with ⟨happ,_,hsound⟩ | ⟨e,he,hpe,happ,_,hsound⟩ | ⟨i,input,r,rfl,hc,hr,rfl⟩
  · rw [happ]
    exact ⟨fun _ => hsound,fun _ => hs⟩
  · rw [happ,paired_append he]
    exact ⟨fun _ => hsound,fun _ => ⟨hs,hpe⟩⟩
  · obtain ⟨users,husers,happ,_⟩ := answerCalls_entries host s i input r.message
    rw [happ,paired_answer host hs husers,answered_iff]
    constructor
    · intro hsound _ r' hr'
      rw [hr] at hr'
      cases hr'
      exact hsound
    · intro hsound
      exact hsound hc r hr

theorem step_persisted {s t : State} {a : Action} (h : step host s a = some t)
    (hs : Paired s.persisted) (hsound : Sound host a) (hid : Identified host a) :
    Paired t.persisted := by
  rcases step_cases host h with ⟨_,hper,_⟩ | ⟨e,he,hpe,_,hper,_⟩ | ⟨i,input,r,rfl,hc,hr,rfl⟩
  · rwa [hper]
  · rw [hper,paired_append he]
    exact ⟨hs,hpe⟩
  · obtain ⟨users,husers,_,hper⟩ := answerCalls_entries host s i input r.message
    rw [hper,paired_answer host hs husers]
    have hanswered := (answered_iff host input r.message).mpr (hsound hc r hr)
    rwa [identify_of_ids (hid r hr)] at hanswered

/-- In every run whose answers are sound, the calls of every appended assistant message
are answered; and in what was persisted too, when the model gives the identifiers. -/
theorem calls_answered {s : State} {as : List Action} (h : Run (step host) (fun _ => Sound host) start as s) :
    Paired s.appended ∧
      (Run (step host) (fun _ a => Sound host a ∧ Identified host a) start as s → Paired s.persisted) := by
  have hstart : Paired [] := paired_of_no_assistant (by simp)
  constructor
  · have hstep : ∀ s a t, Sound host a → step host s a = some t → Paired s.appended →
        Paired t.appended := fun s a t hok hst hs => (step_paired_iff host hst hs).mpr hok
    exact @Run.invariant _ _ _ _ (fun s => Paired s.appended) hstep _ _ _ h hstart
  · intro h'
    have hstep : ∀ s a t, Sound host a ∧ Identified host a → step host s a = some t →
        Paired s.persisted → Paired t.persisted :=
      fun s a t hok hst hs => step_persisted host hst hs hok.1 hok.2
    exact @Run.invariant _ _ _ _ (fun s => Paired s.persisted) hstep _ _ _ h' hstart

end Calls

def plainHost : Host where
  floats := plainFloats
  loads s := match loads plainFloats s with
    | some v => .value v
    | none => .decodeError (lit "Expecting value: line 1 column 1 (char 0)")
  intOfStr _ := none
  gater := false
  maxIterations := 200

def plainEnv : CallEnv where
  cancelled := false
  rule := none
  consents := false
  hookBlock := none
  circuitOpen := none
  dispatch := .returns (some (lit "null"))

/-- An iteration whose answer is one call with the identifier `call_1`. -/
def oneCall (name : PyStr) : Iteration where
  cancelledBefore := false
  stream := some [⟨[],[[(lit "index",.int 0),(lit "id",.str (lit "call_1")),
    (lit "function",.obj [(lit "name",.str name)])]],some (lit "tool_calls"),[]⟩]
  uuids _ := []
  calls _ := plainEnv
  cancelledAfter := false
  interjections := []

def oneCallRun (name : PyStr) : List Action := [.begin (.str (lit "hi")),.iterate (oneCall name)]

/-- The response to one call. -/
def oneCallResponse (name : PyStr) : LLMResponse where
  message := ⟨[],[⟨lit "call_1",.str (lit "function"),name,[]⟩]⟩
  usage := []
  finishReason := lit "tool_calls"

theorem sound_oneCall : Sound plainHost (.iterate (oneCall (lit "read_file"))) := by
  intro _ r hr
  have hresponse : (oneCall (lit "read_file")).stream.bind (assembleChunks plainHost.intOfStr) =
      some (oneCallResponse (lit "read_file")) := rfl
  rw [hresponse] at hr
  cases hr
  have hcalls : (identify (oneCall (lit "read_file")).uuids
      (oneCallResponse (lit "read_file")).message).toolCalls =
      (oneCallResponse (lit "read_file")).message.toolCalls := rfl
  refine ⟨?_,?_,?_⟩
  · intro c hc
    rw [List.mem_singleton.mp hc]
    decide
  · rw [hcalls]
    exact List.nodup_singleton _
  · intro i c hc
    rw [hcalls] at hc
    have hargs : parseArgs plainHost c.arguments = .args (.obj []) := by
      rw [List.mem_singleton.mp (List.mem_of_getElem? hc)]
      rfl
    right
    rw [hargs]
    exact .inr ⟨fun _ => rfl,.inr (.inr (.inr ⟨fun _ => rfl,_,rfl⟩))⟩

theorem calls_answered_plain :
    Paired (last (step plainHost) start (oneCallRun (lit "read_file"))).appended := by
  refine (calls_answered plainHost ((run_last (by rfl)).of_forall ?_)).1
  intro a ha
  cases ha with
  | head => trivial
  | tail _ ha =>
    rw [List.mem_singleton.mp ha]
    exact sound_oneCall

/-- A call with an identifier and no name stays in the message and is never answered. -/
theorem call_without_name_unanswered :
    Run (step plainHost) always start (oneCallRun []) (last (step plainHost) start (oneCallRun [])) ∧
    ¬ Paired (last (step plainHost) start (oneCallRun [])).appended := by
  refine ⟨run_last (by rfl),?_⟩
  intro h
  have hanswered := h [.user (.str (lit "hi"))]
    ⟨[],[⟨lit "call_1",.str (lit "function"),[],[]⟩]⟩ [] rfl
  have honce := hanswered.once _ (List.mem_singleton_self _)
  simp [answers] at honce

end MinimaxCode.Agent
