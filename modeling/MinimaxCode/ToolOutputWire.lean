import MinimaxCode.WireIds

/-!
# The wire outputs and frames of tool calls

An output is a text, a JSON value or a list of blocks, under its kind. The frames of a call carry
its arguments, its result and its progress. Fields without a value are left out.
-/

namespace MinimaxCode.ToolProtocol

open PyText PyJson RecordFields

/-- A block of an MCP output. The media type and the text of a resource are taken as they are. -/
inductive McpBlock
  | text (text : PyStr)
  | image (mimeType data : PyStr)
  | resource (uri : PyStr) (mimeType text : Json)

inductive ToolOutputWire
  | text (text : PyStr)
  | json (json : Json)
  | mcp (blocks : List McpBlock)

def McpBlock.toWire : McpBlock → Json
  | .text s => object [(lit "type",some (.str (lit "text"))),(lit "text",some (.str s))]
  | .image mimeType data => object [
      (lit "type",some (.str (lit "image"))),
      (lit "mime_type",some (.str mimeType)),
      (lit "data",some (.str data))]
  | .resource uri mimeType content => object [
      (lit "type",some (.str (lit "resource"))),
      (lit "uri",some (.str uri)),
      (lit "mime_type",notNone mimeType),
      (lit "text",notNone content)]

def ToolOutputWire.toWire : ToolOutputWire → Json
  | .text s => object [(lit "kind",some (.str (lit "text"))),(lit "value",some (.str s))]
  | .json v => object [(lit "kind",some (.str (lit "json"))),(lit "value",some v)]
  | .mcp blocks => object [
      (lit "kind",some (.str (lit "mcp"))),
      (lit "value",some (object [(lit "blocks",some (.arr (blocks.map McpBlock.toWire)))]))]

section Reading

variable (py : Python)

/-- `v == text`. -/
def isText (text : String) : Json → Bool
  | .str s => s = lit text
  | _ => false

/-- `mcp_block_from_wire`. -/
def McpBlock.fromWire (data : Json) : Except WireError McpBlock := do
  let data ← dict data
  let type ← item data (lit "type")
  if isText "text" type then
    return .text (pyStr py (← item data (lit "text")))
  else if isText "image" type then
    let mimeType ← item data (lit "mime_type")
    let bytes ← item data (lit "data")
    return .image (pyStr py mimeType) (pyStr py bytes)
  else if isText "resource" type then
    let uri ← item data (lit "uri")
    return .resource (pyStr py uri) (getOrNone data (lit "mime_type")) (getOrNone data (lit "text"))
  else .error (.valueError (lit "unknown McpBlock type "++py.repr type))

/-- `Mcp.from_value`. -/
def blocksFromValue (value : Json) : Except WireError (List McpBlock) := do
  let value ← dict value
  let blocks ← pyList (← item value (lit "blocks"))
  blocks.mapM (McpBlock.fromWire py)

def ToolOutputWire.fromWire (data : Json) : Except WireError ToolOutputWire := do
  let data ← dict data
  let kind ← item data (lit "kind")
  let value ← item data (lit "value")
  if isText "text" kind then return .text (pyStr py value)
  else if isText "json" kind then return .json value
  else if isText "mcp" kind then return .mcp (← blocksFromValue py value)
  else .error (.valueError (lit "unknown ToolOutputWire kind "++py.repr kind))

end Reading

/-- The ids of a frame are read with `str` alone. -/
structure ToolCallParams where
  toolCallId : PyStr
  toolId : PyStr
  arguments : Json
  deadlineMs : Option ℤ
  behaviorVersion : Option PyStr
  cwd : Option PyStr
  traceContext : Option PyStr

structure ToolCallResult where
  toolCallId : PyStr
  output : ToolOutputWire
  followUps : List Json
  reminders : List Json
  chatCompletionOutput : Json

structure ToolCallProgressFrame where
  toolCallId : PyStr
  kind : PyStr
  body : Json
  droppedCount : Option ℤ

def ToolCallParams.toWire (p : ToolCallParams) : Json := object [
  (lit "tool_call_id",some (.str p.toolCallId)),
  (lit "tool_id",some (.str p.toolId)),
  (lit "arguments",some p.arguments),
  (lit "deadline_ms",p.deadlineMs.map .int),
  (lit "behavior_version",p.behaviorVersion.map .str),
  (lit "cwd",p.cwd.map .str),
  (lit "trace_context",p.traceContext.map .str)]

def ToolCallResult.toWire (r : ToolCallResult) : Json := object [
  (lit "tool_call_id",some (.str r.toolCallId)),
  (lit "output",some r.output.toWire),
  (lit "follow_ups",notEmpty r.followUps),
  (lit "reminders",notEmpty r.reminders),
  (lit "chat_completion_output",notNone r.chatCompletionOutput)]

def ToolCallProgressFrame.toWire (p : ToolCallProgressFrame) : Json := object [
  (lit "tool_call_id",some (.str p.toolCallId)),
  (lit "kind",some (.str p.kind)),
  (lit "body",some p.body),
  (lit "dropped_count",p.droppedCount.map .int)]

section Reading

variable (py : Python)

def optInt (data : Fields) (key : PyStr) : Except WireError (Option ℤ) :=
  unlessNone (pyInt py) (getOrNone data key)

def optStr (data : Fields) (key : PyStr) : Except WireError (Option PyStr) :=
  unlessNone (fun v => .ok (pyStr py v)) (getOrNone data key)

def ToolCallParams.fromWire (data : Json) : Except WireError ToolCallParams := do
  let data ← dict data
  let toolCallId ← item data (lit "tool_call_id")
  let toolId ← item data (lit "tool_id")
  let arguments ← item data (lit "arguments")
  let deadlineMs ← optInt py data (lit "deadline_ms")
  let behaviorVersion ← optStr py data (lit "behavior_version")
  let cwd ← optStr py data (lit "cwd")
  let traceContext ← optStr py data (lit "trace_context")
  return ⟨pyStr py toolCallId,pyStr py toolId,arguments,deadlineMs,behaviorVersion,cwd,traceContext⟩

/-- `list(data.get(key, []))`. -/
def listOrEmpty (data : Fields) (key : PyStr) : Except WireError (List Json) :=
  readOr [] pyList (get data key)

def ToolCallResult.fromWire (data : Json) : Except WireError ToolCallResult := do
  let data ← dict data
  let toolCallId ← item data (lit "tool_call_id")
  let output ← ToolOutputWire.fromWire py (← item data (lit "output"))
  let followUps ← listOrEmpty data (lit "follow_ups")
  let reminders ← listOrEmpty data (lit "reminders")
  return ⟨pyStr py toolCallId,output,followUps,reminders,
    getOrNone data (lit "chat_completion_output")⟩

def ToolCallProgressFrame.fromWire (data : Json) : Except WireError ToolCallProgressFrame := do
  let data ← dict data
  let toolCallId ← item data (lit "tool_call_id")
  let kind ← item data (lit "kind")
  let body ← item data (lit "body")
  let droppedCount ← optInt py data (lit "dropped_count")
  return ⟨pyStr py toolCallId,pyStr py kind,body,droppedCount⟩

end Reading

section RoundTrips

variable (py : Python)

theorem McpBlock.fromWire_toWire (b : McpBlock) : McpBlock.fromWire py b.toWire = .ok b := by
  cases b <;> simp [McpBlock.fromWire,McpBlock.toWire,item,getOrNone,isText]

@[simp] theorem ToolOutputWire.fromWire_toWire (o : ToolOutputWire) :
    ToolOutputWire.fromWire py o.toWire = .ok o := by
  cases o with
  | mcp blocks =>
    have hblocks : (blocks.map McpBlock.toWire).mapM (McpBlock.fromWire py) = .ok blocks :=
      mapM_encode fun b _ => McpBlock.fromWire_toWire py b
    simp [ToolOutputWire.fromWire,ToolOutputWire.toWire,blocksFromValue,item,isText,hblocks]
  | _ => simp [ToolOutputWire.fromWire,ToolOutputWire.toWire,item,isText]

theorem ToolCallParams.fromWire_toWire (p : ToolCallParams) :
    ToolCallParams.fromWire py p.toWire = .ok p := by
  simp [ToolCallParams.fromWire,ToolCallParams.toWire,item,getOrNone,optInt,optStr]

theorem ToolCallResult.fromWire_toWire (r : ToolCallResult) :
    ToolCallResult.fromWire py r.toWire = .ok r := by
  simp [ToolCallResult.fromWire,ToolCallResult.toWire,item,getOrNone,listOrEmpty]

theorem ToolCallProgressFrame.fromWire_toWire (p : ToolCallProgressFrame) :
    ToolCallProgressFrame.fromWire py p.toWire = .ok p := by
  simp [ToolCallProgressFrame.fromWire,ToolCallProgressFrame.toWire,item,getOrNone,optInt]

end RoundTrips

end MinimaxCode.ToolProtocol
