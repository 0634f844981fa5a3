import MinimaxCode.ToolRegistration

/-!
# Session events and turn hooks

Events are tagged with their type and turn hooks with their phase. An unknown event, outcome of a
tool call or phase of a session is read as unknown; an unknown outcome of a turn or phase of a
hook is an error.
-/

namespace MinimaxCode.ToolProtocol

open PyText PyJson RecordFields

inductive TurnHookOutcome
  | completed
  | cancelled
  | error

def TurnHookOutcome.value : TurnHookOutcome → PyStr
  | .completed => lit "completed"
  | .cancelled => lit "cancelled"
  | .error => lit "error"

def TurnHookOutcome.toWire (o : TurnHookOutcome) : Json := .str o.value

def defaultSessionRelationship : PyStr := lit "primary"
def defaultSchemaVersion : PyStr := lit "1.0"

structure BeforeTurnPayload where
  turnNumber : ℤ
  modelId : PyStr
  yoloMode : Bool
  conversationMessageCount : ℤ
  sessionRelationship : PyStr
  schemaVersion : PyStr

structure AfterTurnPayload where
  turnNumber : ℤ
  outcome : TurnHookOutcome
  durationMs : ℤ
  toolCallCount : ℤ
  modelId : PyStr
  writtenRepoPaths : List PyStr
  cancellationCategory : Option PyStr
  cancellationContext : Json

inductive TurnHookRequest
  | before (payload : BeforeTurnPayload)
  | after (payload : AfterTurnPayload)

def BeforeTurnPayload.entries (p : BeforeTurnPayload) : List (PyStr × Option Json) := [
  (lit "turn_number",some (.int p.turnNumber)),
  (lit "model_id",some (.str p.modelId)),
  (lit "yolo_mode",some (.bool p.yoloMode)),
  (lit "conversation_message_count",some (.int p.conversationMessageCount)),
  (lit "session_relationship",some (.str p.sessionRelationship)),
  (lit "schema_version",some (.str p.schemaVersion))]

def AfterTurnPayload.entries (p : AfterTurnPayload) : List (PyStr × Option Json) := [
  (lit "turn_number",some (.int p.turnNumber)),
  (lit "outcome",some p.outcome.toWire),
  (lit "duration_ms",some (.int p.durationMs)),
  (lit "tool_call_count",some (.int p.toolCallCount)),
  (lit "model_id",some (.str p.modelId)),
  (lit "written_repo_paths",some (.arr (p.writtenRepoPaths.map Json.str))),
  (lit "cancellation_category",p.cancellationCategory.map Json.str),
  (lit "cancellation_context",notNone p.cancellationContext)]

/-- The phase comes after the fields of the payload. -/
def TurnHookRequest.toWire : TurnHookRequest → Json
  | .before payload => object (payload.entries++[(lit "phase",some (.str (lit "before")))])
  | .after payload => object (payload.entries++[(lit "phase",some (.str (lit "after")))])

section Hooks

variable (py : Python)

/-- The constructor of a strict enumeration of strings, called with `str(v)`. -/
def TurnHookOutcome.fromWire (v : Json) : Except WireError TurnHookOutcome :=
  match memberOf [.completed,.cancelled,.error] TurnHookOutcome.value (.str (pyStr py v)) with
  | some o => .ok o
  | none => .error (.valueError
      (py.repr (.str (pyStr py v))++lit " is not a valid TurnHookOutcome"))

/-- `str(data.get(key, default))`. -/
def strOr (data : Fields) (key default : PyStr) : PyStr :=
  pyStr py ((get data key).getD (.str default))

def BeforeTurnPayload.fromWire (data : Fields) : Except WireError BeforeTurnPayload := do
  let turnNumber ← pyInt py (← item data (lit "turn_number"))
  let modelId ← item data (lit "model_id")
  let messages ← pyInt py ((get data (lit "conversation_message_count")).getD (.int 0))
  return {
    turnNumber
    modelId := pyStr py modelId
    yoloMode := flag data (lit "yolo_mode")
    conversationMessageCount := messages
    sessionRelationship := strOr py data (lit "session_relationship") defaultSessionRelationship
    schemaVersion := strOr py data (lit "schema_version") defaultSchemaVersion}

def AfterTurnPayload.fromWire (data : Fields) : Except WireError AfterTurnPayload := do
  let turnNumber ← pyInt py (← item data (lit "turn_number"))
  let outcome ← TurnHookOutcome.fromWire py (← item data (lit "outcome"))
  let durationMs ← pyInt py (← item data (lit "duration_ms"))
  let toolCallCount ← pyInt py (← item data (lit "tool_call_count"))
  let modelId ← item data (lit "model_id")
  let paths ← readOr [] pyList (get data (lit "written_repo_paths"))
  let category ← unlessNone (fun v => .ok (pyStr py v)) (getOrNone data (lit "cancellation_category"))
  return {
    turnNumber,outcome,durationMs,toolCallCount
    modelId := pyStr py modelId
    writtenRepoPaths := paths.map (pyStr py)
    cancellationCategory := category
    cancellationContext := getOrNone data (lit "cancellation_context")}

def TurnHookRequest.fromWire (data : Json) : Except WireError TurnHookRequest := do
  let data ← dict data
  let phase := pyStr py (← item data (lit "phase"))
  if phase = lit "before" then return .before (← BeforeTurnPayload.fromWire py data)
  else if phase = lit "after" then return .after (← AfterTurnPayload.fromWire py data)
  else .error (.valueError (lit "unknown TurnHookRequest phase: "++py.repr (.str phase)))

end Hooks

inductive ToolCallOutcome
  | success
  | error
  | cancelled
  | unknown

inductive SessionPhase
  | idle
  | sampling
  | toolExecution
  | permissionPrompt
  | unknown

def ToolCallOutcome.value : ToolCallOutcome → PyStr
  | .success => lit "success"
  | .error => lit "error"
  | .cancelled => lit "cancelled"
  | .unknown => lit "unknown"

def SessionPhase.value : SessionPhase → PyStr
  | .idle => lit "idle"
  | .sampling => lit "sampling"
  | .toolExecution => lit "tool_execution"
  | .permissionPrompt => lit "permission_prompt"
  | .unknown => lit "unknown"

def ToolCallOutcome.toWire (o : ToolCallOutcome) : Json := .str o.value
def SessionPhase.toWire (p : SessionPhase) : Json := .str p.value

inductive SessionEvent
  | turnStarted (turnNumber : ℤ) (modelId : PyStr) (yoloMode : Bool)
  | turnEnded (turnNumber : ℤ) (outcome : TurnHookOutcome) (durationMs toolCallCount : ℤ)
      (modelId : PyStr)
  | toolCallStarted (toolCallId toolName : PyStr) (turnNumber : ℤ)
  | toolCallCompleted (toolCallId toolName : PyStr) (durationMs : ℤ) (outcome : ToolCallOutcome)
  | phaseChanged (phase : SessionPhase)
  | unknown

def SessionEvent.toWire : SessionEvent → Json
  | .turnStarted turnNumber modelId yoloMode => object [
      (lit "event_type",some (.str (lit "turn_started"))),
      (lit "turn_number",some (.int turnNumber)),
      (lit "model_id",some (.str modelId)),
      (lit "yolo_mode",some (.bool yoloMode))]
  | .turnEnded turnNumber outcome durationMs toolCallCount modelId => object [
      (lit "event_type",some (.str (lit "turn_ended"))),
      (lit "turn_number",some (.int turnNumber)),
      (lit "outcome",some outcome.toWire),
      (lit "duration_ms",some (.int durationMs)),
      (lit "tool_call_count",some (.int toolCallCount)),
      (lit "model_id",some (.str modelId))]
  | .toolCallStarted toolCallId toolName turnNumber => object [
      (lit "event_type",some (.str (lit "tool_call_started"))),
      (lit "tool_call_id",some (.str toolCallId)),
      (lit "tool_name",some (.str toolName)),
      (lit "turn_number",some (.int turnNumber))]
  | .toolCallCompleted toolCallId toolName durationMs outcome => object [
      (lit "event_type",some (.str (lit "tool_call_completed"))),
      (lit "tool_call_id",some (.str toolCallId)),
      (lit "tool_name",some (.str toolName)),
      (lit "duration_ms",some (.int durationMs)),
      (lit "outcome",some outcome.toWire)]
  | .phaseChanged phase => object [
      (lit "event_type",some (.str (lit "phase_changed"))),
      (lit "phase",some phase.toWire)]
  | .unknown => object [(lit "event_type",some (.str (lit "unknown")))]

section Events

variable (py : Python)

/-- The constructors of the tolerant enumerations, called with `str(v)`. -/
def ToolCallOutcome.fromWire (v : Json) : ToolCallOutcome :=
  (memberOf [.success,.error,.cancelled,.unknown] ToolCallOutcome.value
    (.str (pyStr py v))).getD .unknown

def SessionPhase.fromWire (v : Json) : SessionPhase :=
  (memberOf [.idle,.sampling,.toolExecution,.permissionPrompt,.unknown] SessionPhase.value
    (.str (pyStr py v))).getD .unknown

def turnStartedFromWire (data : Fields) : Except WireError SessionEvent := do
  let turnNumber ← pyInt py (← item data (lit "turn_number"))
  let modelId ← item data (lit "model_id")
  return .turnStarted turnNumber (pyStr py modelId) (flag data (lit "yolo_mode"))

def turnEndedFromWire (data : Fields) : Except WireError SessionEvent := do
  let turnNumber ← pyInt py (← item data (lit "turn_number"))
  let outcome ← TurnHookOutcome.fromWire py (← item data (lit "outcome"))
  let durationMs ← pyInt py (← item data (lit "duration_ms"))
  let toolCallCount ← pyInt py (← item data (lit "tool_call_count"))
  let modelId ← item data (lit "model_id")
  return .turnEnded turnNumber outcome durationMs toolCallCount (pyStr py modelId)

def toolCallStartedFromWire (data : Fields) : Except WireError SessionEvent := do
  let toolCallId ← item data (lit "tool_call_id")
  let toolName ← item data (lit "tool_name")
  let turnNumber ← pyInt py (← item data (lit "turn_number"))
  return .toolCallStarted (pyStr py toolCallId) (pyStr py toolName) turnNumber

def toolCallCompletedFromWire (data : Fields) : Except WireError SessionEvent := do
  let toolCallId ← item data (lit "tool_call_id")
  let toolName ← item data (lit "tool_name")
  let durationMs ← pyInt py (← item data (lit "duration_ms"))
  let outcome ← item data (lit "outcome")
  return .toolCallCompleted (pyStr py toolCallId) (pyStr py toolName) durationMs
    (ToolCallOutcome.fromWire py outcome)

def phaseChangedFromWire (data : Fields) : Except WireError SessionEvent := do
  return .phaseChanged (SessionPhase.fromWire py (← item data (lit "phase")))

def eventTypeHandlers : List (PyStr × (Fields → Except WireError SessionEvent)) := [
  (lit "turn_started",turnStartedFromWire py),
  (lit "turn_ended",turnEndedFromWire py),
  (lit "tool_call_started",toolCallStartedFromWire py),
  (lit "tool_call_completed",toolCallCompletedFromWire py),
  (lit "phase_changed",phaseChangedFromWire py)]

def SessionEvent.fromWire (data : Json) : Except WireError SessionEvent := do
  let data ← dict data
  let tag := pyStr py (← item data (lit "event_type"))
  match (eventTypeHandlers py).lookup tag with
  | none => return .unknown
  | some handler => handler data

end Events

section RoundTrips

variable (py : Python)

@[simp] theorem TurnHookOutcome.fromWire_toWire (o : TurnHookOutcome) :
    fromWire py o.toWire = .ok o := by
  cases o <;> rfl

@[simp] theorem ToolCallOutcome.fromWire_toWire (o : ToolCallOutcome) :
    fromWire py o.toWire = o := by
  cases o <;> rfl

@[simp] theorem SessionPhase.fromWire_toWire (p : SessionPhase) : fromWire py p.toWire = p := by
  cases p <;> rfl

theorem TurnHookRequest.fromWire_toWire (r : TurnHookRequest) :
    TurnHookRequest.fromWire py r.toWire = .ok r := by
  cases r with
  | before payload =>
    simp [TurnHookRequest.fromWire,TurnHookRequest.toWire,BeforeTurnPayload.entries,
      BeforeTurnPayload.fromWire,item,flag,strOr]
  | after payload =>
    have hpaths : (payload.writtenRepoPaths.map Json.str).map (pyStr py) =
        payload.writtenRepoPaths := by
      simp [Function.comp_def]
    simp [TurnHookRequest.fromWire,TurnHookRequest.toWire,AfterTurnPayload.entries,
      AfterTurnPayload.fromWire,item,getOrNone,readOr,hpaths]

theorem SessionEvent.fromWire_toWire (e : SessionEvent) :
    SessionEvent.fromWire py e.toWire = .ok e := by
  cases e <;> simp [SessionEvent.fromWire,SessionEvent.toWire,eventTypeHandlers,List.lookup_cons,
    turnStartedFromWire,turnEndedFromWire,toolCallStartedFromWire,toolCallCompletedFromWire,
    phaseChangedFromWire,item,flag]

end RoundTrips

end MinimaxCode.ToolProtocol
