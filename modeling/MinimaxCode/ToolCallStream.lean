import MinimaxCode.JsonText

/-!
# Tool calls from a chunk stream

The chunks of a model's answer carry pieces of tool calls, addressed by index. The
pieces are merged into slots, the slots that look like calls go into the assistant
message, and the calls to run are extracted from the message.
-/

namespace MinimaxCode.Agent

open PyText PyJson

structure StreamChunk where
  delta : PyStr
  toolCallDeltas : List (List (PyStr × Json))
  finishReason : Option PyStr
  usage : List (PyStr × Json)

/-- An entry of the accumulator. The identifier and the type are whatever the deltas
held. -/
structure Slot where
  id : Json
  type : Json
  name : PyStr
  arguments : PyStr

structure ToolCall where
  id : PyStr
  type : Json
  name : PyStr
  arguments : PyStr

/-- An assistant message. No tool calls stand for a message without the key. -/
structure AssistantMessage where
  content : PyStr
  toolCalls : List ToolCall

structure LLMResponse where
  message : AssistantMessage
  usage : List (PyStr × Json)
  finishReason : PyStr

def blankSlot : Slot := ⟨.str [],.str (lit "function"),[],[]⟩

section Merge

variable (intOfStr : PyStr → Option ℤ)

/-- `int(delta.get("index", 0))`, and zero on a `TypeError` or `ValueError`. An infinity
raises an `OverflowError`. -/
def deltaIndex (delta : List (PyStr × Json)) : Option ℤ :=
  match (get delta (lit "index")).getD (.int 0) with
  | .int n => some n
  | .bool b => some b.toInt
  | .float (.finite bits) => some bits.truncate
  | .float (.inf _) => none
  | .str s => some ((intOfStr s).getD 0)
  | _ => some 0

/-- The position an index addresses; a negative one counts from the end. -/
def position (acc : List Slot) (index : ℤ) : Option ℕ :=
  if 0 ≤ index then some index.toNat
  else if -index ≤ acc.length then some (acc.length+index).toNat
  else none

/-- `delta.get("function") or {}`, which must be a dictionary. -/
def functionDelta (delta : List (PyStr × Json)) : Option (List (PyStr × Json)) :=
  match get delta (lit "function") with
  | some (.obj fields) => some fields
  | some v => if truthy v then none else some []
  | none => some []

/-- A value that is set when it is truthy. -/
def setTruthy (old : Json) : Option Json → Json
  | some v => if truthy v then v else old
  | none => old

/-- The text of a field that holds a string. -/
def textField (fields : List (PyStr × Json)) (key : PyStr) : PyStr :=
  match get fields key with
  | some (.str s) => s
  | _ => []

def mergeSlot (delta fn : List (PyStr × Json)) (slot : Slot) : Slot where
  id := setTruthy slot.id (get delta (lit "id"))
  type := setTruthy slot.type (get delta (lit "type"))
  name := slot.name++textField fn (lit "name")
  arguments := slot.arguments++textField fn (lit "arguments")

/-- `_merge_tool_call_delta`; nothing where it raises. -/
def mergeToolCallDelta (acc : List Slot) (delta : List (PyStr × Json)) : Option (List Slot) :=
  (deltaIndex intOfStr delta).bind fun index =>
    let acc := acc++List.replicate ((index+1).toNat-acc.length) blankSlot
    (position acc index).bind fun i =>
      (functionDelta delta).map fun fn => acc.modify i (mergeSlot delta fn)

/-- The call of a slot. `strip` raises on an identifier that is no string. -/
def Slot.toolCall (slot : Slot) : Option ToolCall :=
  match slot.id with
  | .str id => some ⟨id,slot.type,slot.name,slot.arguments⟩
  | _ => none

/-- The ghost-slot filter: a call is kept for its identifier or its name. -/
def ToolCall.kept (c : ToolCall) : Bool := !isBlank c.id || !isBlank c.name

/-- `_assemble_chunks`; nothing where it raises. -/
def assembleChunks (chunks : List StreamChunk) : Option LLMResponse :=
  ((chunks.flatMap StreamChunk.toolCallDeltas).foldlM (mergeToolCallDelta intOfStr) []).bind fun slots =>
    (slots.mapM Slot.toolCall).map fun calls =>
      { message := ⟨chunks.flatMap StreamChunk.delta,calls.filter ToolCall.kept⟩
        usage := (chunks.map StreamChunk.usage).foldl (fun old new => if new = [] then old else new) []
        finishReason := (chunks.filterMap StreamChunk.finishReason).foldl
          (fun old new => if new = [] then old else new) (lit "stop") }

end Merge

/-- A generated identifier. -/
def generatedId (hex : PyStr) : PyStr := lit "toolu_"++hex

/-- A call to run gets an identifier when it has none. -/
def withId (uuids : ℕ → PyStr) (c : ToolCall) (i : ℕ) : ToolCall :=
  if isBlank c.name then c else if isBlank c.id then { c with id := generatedId (uuids i) } else c

/-- The message after `_extract_tool_calls`, which writes generated identifiers back. -/
def identify (uuids : ℕ → PyStr) (m : AssistantMessage) : AssistantMessage :=
  { m with toolCalls := m.toolCalls.mapIdx fun i c => withId uuids c i }

/-- `_extract_tool_calls`: calls without a name are skipped. -/
def extractToolCalls (uuids : ℕ → PyStr) (m : AssistantMessage) : List ToolCall :=
  (identify uuids m).toolCalls.filter fun c => !isBlank c.name

theorem withId_name (uuids : ℕ → PyStr) (c : ToolCall) (i : ℕ) : (withId uuids c i).name = c.name := by
  unfold withId
  split
  · rfl
  · split <;> rfl

theorem extractToolCalls_eq_iff {uuids : ℕ → PyStr} {m : AssistantMessage} :
    extractToolCalls uuids m = (identify uuids m).toolCalls ↔
      ∀ c ∈ m.toolCalls, isBlank c.name = false := by
  rw [extractToolCalls,List.filter_eq_self]
  constructor
  · intro h c hc
    obtain ⟨i,hi,rfl⟩ := List.mem_iff_getElem.mp hc
    have hm : withId uuids m.toolCalls[i] i ∈ (identify uuids m).toolCalls :=
      List.mem_mapIdx.mpr ⟨i,hi,rfl⟩
    simpa [withId_name] using h _ hm
  · intro h c hc
    obtain ⟨i,hi,rfl⟩ := List.mem_mapIdx.mp hc
    simp [withId_name,h _ (List.getElem_mem hi)]

end MinimaxCode.Agent
