import Mathlib.Data.List.Basic
import MinimaxCode.ChatMessages

/-!
# Messages in the form of Anthropic

`_extract_system_prompt` takes the first system prompt out of a history, and
`_convert_messages` writes the other messages as blocks. The results of tool calls are
collected and go into one user message; a call without a name is left out, and so is a
result whose call was not written.
-/

namespace MinimaxCode.AnthropicMessages

open PyText PyJson ChatMessages

/-- What the conversion takes from its surroundings: `str` of a value that is not a text,
`json.loads`, and the random identifiers. -/
structure Host where
  str : Json → PyStr
  loads : PyStr → LoadsOutcome
  uuids : ℕ → PyStr

/-- A content block. `other` is a block of a user message that is passed on. -/
inductive Block
  | text (t : PyStr)
  | image (mediaType data : Json)
  | toolUse (id name : PyStr) (input : Json)
  | toolResult (id content : PyStr)
  | other (v : Json)

inductive Speaker
  | user
  | assistant
  deriving DecidableEq

structure Converted where
  speaker : Speaker
  blocks : List Block

section Source

variable (host : Host)

/-- `str(v)`. -/
def strOf : Json → PyStr
  | .str s => s
  | v => host.str v

def systemText (m : ChatMessage) : PyStr :=
  let content := m.content.getD (.str [])
  if truthy content then strOf host content else []

/-- The loop of `_extract_system_prompt` with the prompt found so far. -/
def extractFrom (system : PyStr) : List ChatMessage → PyStr × List ChatMessage
  | [] => (system,[])
  | m::rest =>
    if m.role = .system ∧ system = [] then extractFrom (systemText host m) rest
    else ((extractFrom system rest).1,m::(extractFrom system rest).2)

def extractSystemPrompt (messages : List ChatMessage) : PyStr × List ChatMessage :=
  extractFrom host [] messages

/-- A block of a user's list. An image without data raises. -/
def convertBlock : Json → Option Block
  | .obj fields =>
    match get fields (lit "type") with
    | some (.str t) =>
      if t = lit "image" then
        (get fields (lit "data")).map
          (.image ((get fields (lit "media_type")).getD (.str (lit "image/png"))))
      else some (.other (.obj fields))
    | _ => some (.other (.obj fields))
  | v => some (.other v)

/-- The blocks of a user message. Iterating over a dictionary gives its keys; over a number it
raises. -/
def userBlocks (content : Option Json) : Option (List Block) :=
  match content.getD (.str []) with
  | .str s => some [.text s]
  | .arr xs => xs.mapM convertBlock
  | .obj fields => some (fields.map fun kv => .other (.str kv.1))
  | _ => none

/-- The name of a call. A null name of the function raises when it is stripped. -/
def callName (c : CallDict) : Option PyStr :=
  match c.name with
  | some (x::name) => some (x::name)
  | _ =>
    match c.function with
    | none => some []
    | some f => f.name.getD (some [])

def callArguments (c : CallDict) : Json :=
  match c.function.bind FunctionDict.arguments with
  | none => c.arguments.getD (.str (lit "{}"))
  | some .null => c.arguments.getD (.str (lit "{}"))
  | some v => v

/-- The input of a call. Only a `JSONDecodeError` is caught. -/
def callInput : Json → Option Json
  | .str s =>
    if isBlank s then some (.obj [])
    else match host.loads s with
      | .value v => some v
      | .decodeError _ => some (.obj [])
      | .valueError _ => none
      | .raises => none
  | v => some v

/-- The messages written so far, the tool results that wait for the next message, the
identifiers of the calls written, and how many identifiers were made. -/
structure Conversion where
  result : List Converted
  pendingToolResults : List (PyStr × PyStr)
  emittedToolIds : List PyStr
  made : ℕ

def Conversion.start : Conversion := ⟨[],[],[],0⟩

def resultsMessage (results : List (PyStr × PyStr)) : Converted :=
  ⟨.user,results.map fun r => .toolResult r.1 r.2⟩

def Conversion.flushToolResults (s : Conversion) : Conversion :=
  if s.pendingToolResults.isEmpty then s
  else { s with result := s.result++[resultsMessage s.pendingToolResults], pendingToolResults := [] }

def Conversion.push (s : Conversion) (m : Converted) : Conversion := { s with result := s.result++[m] }

/-- `f"toolu_{uuid.uuid4().hex[:24]}"`. -/
def madeId (n : ℕ) : PyStr := lit "toolu_"++host.uuids n

def convertCall (s : Conversion) (blocks : List Block) (c : CallDict) : Option (List Block × Conversion) :=
  match callName c with
  | none => none
  | some name =>
    if isBlank name then some (blocks,s)
    else (callInput host (callArguments c)).map fun input =>
      if isBlank c.ident then
        (blocks++[.toolUse (madeId host s.made) name input],
          { s with emittedToolIds := madeId host s.made::s.emittedToolIds, made := s.made+1 })
      else
        (blocks++[.toolUse c.ident name input],{ s with emittedToolIds := c.ident::s.emittedToolIds })

def convertCalls (s : Conversion) (blocks : List Block) : List CallDict → Option (List Block × Conversion)
  | [] => some (blocks,s)
  | c::rest => (convertCall host s blocks c).bind fun r => convertCalls r.2 r.1 rest

/-- The text block of an assistant message. -/
def assistantText (content : Option Json) : List Block :=
  match content with
  | none => []
  | some v => if truthy v then [.text (strOf host v)] else []

def convertAssistant (s : Conversion) (m : ChatMessage) : Option Conversion :=
  (convertCalls host s (assistantText host m.content) m.toolCalls).map fun r =>
    r.2.push ⟨.assistant,if r.1.isEmpty then [.text []] else r.1⟩

def addToolResult (s : Conversion) (id : PyStr) (m : ChatMessage) : Conversion :=
  if id ∈ s.emittedToolIds then
    { s with pendingToolResults := s.pendingToolResults++[(id,strOf host (m.content.getD (.str [])))] }
  else s

def convertTool (s : Conversion) (m : ChatMessage) : Conversion :=
  if isBlank m.answeredId then addToolResult host { s with made := s.made+1 } (madeId host s.made) m
  else addToolResult host s m.answeredId m

def convertMessage (s : Conversion) (m : ChatMessage) : Option Conversion :=
  match m.role with
  | .tool => some (convertTool host s m)
  | .user => (userBlocks m.content).map fun blocks => s.flushToolResults.push ⟨.user,blocks⟩
  | .assistant => convertAssistant host s.flushToolResults m
  | .system => some (s.flushToolResults.push ⟨.user,[.text (strOf host (m.content.getD (.str [])))]⟩)
  | .other _ => some s.flushToolResults

def convertFrom : Conversion → List ChatMessage → Option Conversion
  | s, [] => some s
  | s, m::rest => (convertMessage host s m).bind fun s' => convertFrom s' rest

/-- `_convert_messages`, unless it raises. -/
def convertMessages (messages : List ChatMessage) : Option (List Converted) :=
  (convertFrom host .start messages).map fun s => s.flushToolResults.result

end Source

/-- The identifier under `key` in a passed block of the given kind. -/
def blockId (kind key : String) : Json → Option PyStr
  | .obj fields =>
    match get fields (lit "type") with
    | some (.str t) =>
      if t = lit kind then
        match get fields (lit key) with
        | some (.str id) => some id
        | _ => some []
      else none
    | _ => none
  | _ => none

def Block.useId : Block → Option PyStr
  | .toolUse id _ _ => some id
  | .other v => blockId "tool_use" "id" v
  | _ => none

def Block.resultId : Block → Option PyStr
  | .toolResult id _ => some id
  | .other v => blockId "tool_result" "tool_use_id" v
  | _ => none

def Converted.useIds (m : Converted) : List PyStr := m.blocks.filterMap Block.useId

def Converted.resultIds (m : Converted) : List PyStr := m.blocks.filterMap Block.resultId

/-- The message answers the uses of the message before it, each exactly once, and nothing else. -/
structure Answers (ids : List PyStr) (m : Converted) : Prop where
  once : ∀ id ∈ ids, m.speaker = .user ∧ m.resultIds.count id = 1
  only : ∀ id ∈ m.resultIds, id ∈ ids

/-- Behind a message that used `ids` the messages answer each other and end with the uses
`last`. -/
def PairedBetween : List PyStr → List Converted → List PyStr → Prop
  | ids, [], last => ids = last
  | ids, m::rest, last => Answers ids m ∧ PairedBetween m.useIds rest last

/-- Each use of a tool is answered once in the next message, and there is no other result. -/
def ResultsPaired (out : List Converted) : Prop := PairedBetween [] out []

/-- The texts of a part of a user's list. -/
def partTexts : Json → List PyStr
  | .str s => [s]
  | .obj fields =>
    match get fields (lit "type"),get fields (lit "text") with
    | some (.str t),some (.str s) => if t = lit "text" then [s] else []
    | _,_ => []
  | _ => []

def Block.texts : Block → List PyStr
  | .text t => [t]
  | .toolResult _ content => [content]
  | .other v => partTexts v
  | _ => []

/-- The texts that are not empty. -/
def proper (texts : List PyStr) : List PyStr := texts.filter fun t => !t.isEmpty

def Converted.texts (m : Converted) : List PyStr := proper (m.blocks.flatMap Block.texts)

/-- The texts of a message. A list counts as its parts in a user message and as the one text that
`str` makes of it elsewhere. -/
def messageTexts (host : Host) (m : ChatMessage) : List PyStr :=
  let content := m.content.getD (.str [])
  proper <| match m.role with
  | .user =>
    match content with
    | .str s => [s]
    | .arr xs => xs.flatMap partTexts
    | _ => []
  | .assistant => if truthy content then [strOf host content] else []
  | .other _ => []
  | _ => [strOf host content]

/-- The call has a name that is not blank. -/
def isNamed (c : CallDict) : Bool :=
  match callName c with
  | some name => !isBlank name
  | none => false

/-- The identifiers of the named calls of an assistant message. -/
def namedIds (m : ChatMessage) : List PyStr :=
  if m.role = .assistant then (m.toolCalls.filter isNamed).map CallDict.ident else []

/-- The identifiers of the tool messages before the next assistant or user message. -/
def answers : List ChatMessage → List PyStr
  | [] => []
  | m::rest =>
    match m.role with
    | .tool => m.answeredId::answers rest
    | .user => []
    | .assistant => []
    | _ => answers rest

/-- The identifiers of the tool messages at the front. -/
def toolRun : List ChatMessage → List PyStr
  | [] => []
  | m::rest => if m.role = .tool then m.answeredId::toolRun rest else []

/-- Each call of an assistant message is answered by one tool message before the next assistant or
user message. -/
def AnsweredOnce : List ChatMessage → Prop
  | [] => True
  | m::rest => (∀ id ∈ m.callIds, (answers rest).count id = 1) ∧ AnsweredOnce rest

/-- The results of the named calls follow their assistant message at once. -/
def Direct : List ChatMessage → Prop
  | [] => True
  | m::rest => (∀ id ∈ namedIds m, id ∈ toolRun rest) ∧ Direct rest

/-- A tool message with the identifier of a named call that was made before stands in the run of
tool messages behind it. -/
def OwnFrom (earlier current : List PyStr) : List ChatMessage → Prop
  | [] => True
  | m::rest =>
    match m.role with
    | .tool => (m.answeredId ∈ earlier → m.answeredId ∈ current) ∧ OwnFrom earlier current rest
    | _ => OwnFrom (namedIds m++earlier) (namedIds m) rest

/-- The contents of user messages are texts or lists, without tool blocks of their own and with data
in each image, and the names and arguments of the calls can be read. -/
structure Readable (host : Host) (m : ChatMessage) : Prop where
  content : m.role = .user → ∀ v, m.content = some v →
    (∃ s, v = .str s) ∨ ∃ parts, v = .arr parts ∧ ∀ part ∈ parts, (convertBlock part).isSome ∧
      blockId "tool_use" "id" part = none ∧ blockId "tool_result" "tool_use_id" part = none
  names : m.role = .assistant → ∀ c ∈ m.toolCalls, (callName c).isSome
  inputs : m.role = .assistant → ∀ c ∈ m.toolCalls, isNamed c = true →
    (callInput host (callArguments c)).isSome

/-- The identifiers of the named calls are not blank, and no identifier of a call is among those
that are made up. -/
structure Identified (host : Host) (m : ChatMessage) : Prop where
  given : ∀ id ∈ namedIds m, isBlank id = false
  fresh : ∀ id ∈ namedIds m, ∀ n, id ≠ madeId host n

/-- The texts that a history is to leave in its messages: those of each message that is not a tool
message, and those of a run of tool messages together, where a result counts when the assistant
message behind which it stands has a named call for it. -/
def ownTexts (host : Host) (named : List PyStr) (run : List PyStr) : List ChatMessage → List (List PyStr)
  | [] => [run]
  | m::rest =>
    match m.role with
    | .tool =>
      if m.answeredId ∈ named then ownTexts host named (run++messageTexts host m) rest
      else ownTexts host named run rest
    | _ => run::messageTexts host m::ownTexts host (namedIds m) [] rest

/-- The texts of a list of messages, without the messages that have none. -/
def inhabited (texts : List (List PyStr)) : List (List PyStr) := texts.filter fun ts => !ts.isEmpty

/-- The history without its system prompt: the first system message with a text is taken out, and
system messages without a text before it. -/
structure Lifted (host : Host) (history : List ChatMessage) (system : PyStr) (rest : List ChatMessage) :
    Prop where
  none_left : system = [] → (∀ m ∈ history, m.role = .system → systemText host m = []) ∧
    rest = history.filter fun m => !m.isSystem
  lifted : system ≠ [] → ∃ before m after, history = before++m::after ∧ m.role = .system ∧
    systemText host m = system ∧ (∀ b ∈ before, b.role = .system → systemText host b = []) ∧
    rest = (before.filter fun m => !m.isSystem)++after

variable {host : Host} {m : ChatMessage} {xs : List ChatMessage} {s s' : Conversion}

theorem extractFrom_of_ne {system : PyStr} (h : system ≠ []) (xs : List ChatMessage) :
    extractFrom host system xs = (system,xs) := by
  induction xs with
  | nil => rfl
  | cons m rest ih => rw [extractFrom,if_neg (fun hc => h hc.2),ih]

theorem lifted_extract (host : Host) (history : List ChatMessage) :
    Lifted host history (extractSystemPrompt host history).1 (extractSystemPrompt host history).2 := by
  rw [extractSystemPrompt]
  induction history with
  | nil => exact ⟨fun _ => ⟨by simp,rfl⟩,fun h => absurd rfl h⟩
  | cons m rest ih =>
    by_cases hm : m.role = .system
    · rw [extractFrom,if_pos ⟨hm,rfl⟩]
      by_cases htext : systemText host m = []
      · rw [htext]
        refine ⟨fun hnil => ?_,fun hne => ?_⟩
        · obtain ⟨hempty,hrest⟩ := ih.none_left hnil
          refine ⟨?_,?_⟩
          · intro b hb hrole
            cases hb with
            | head => exact htext
            | tail _ hb => exact hempty b hb hrole
          · rw [hrest,List.filter_cons_of_neg (by simp [hm])]
        · obtain ⟨before,p,after,heq,hrole,hsystem,hbefore,hrest⟩ := ih.lifted hne
          refine ⟨m::before,p,after,by rw [heq]; rfl,hrole,hsystem,?_,?_⟩
          · intro b hb hb'
            cases hb with
            | head => exact htext
            | tail _ hb => exact hbefore b hb hb'
          · rw [hrest,List.filter_cons_of_neg (by simp [hm])]
      · rw [extractFrom_of_ne htext]
        exact ⟨fun hnil => absurd hnil htext,fun _ => ⟨[],m,rest,rfl,hm,rfl,by simp,rfl⟩⟩
    · have hkept : m.isSystem = false := beq_false_of_ne hm
      rw [extractFrom,if_neg (fun hc => hm hc.1)]
      refine ⟨fun hnil => ?_,fun hne => ?_⟩
      · obtain ⟨hempty,hrest⟩ := ih.none_left hnil
        refine ⟨?_,?_⟩
        · intro b hb hrole
          cases hb with
          | head => exact absurd hrole hm
          | tail _ hb => exact hempty b hb hrole
        · simp [hrest,hkept]
      · obtain ⟨before,p,after,heq,hrole,hsystem,hbefore,hrest⟩ := ih.lifted hne
        refine ⟨m::before,p,after,by rw [heq]; rfl,hrole,hsystem,?_,?_⟩
        · intro b hb hb'
          cases hb with
          | head => exact absurd hb' hm
          | tail _ hb => exact hbefore b hb hb'
        · simp [hrest,hkept]

theorem answers_cons_system (h : m.role = .system) : answers (m::xs) = answers xs := by
  rw [answers,h]

theorem answers_extractFrom (system : PyStr) (xs : List ChatMessage) :
    answers (extractFrom host system xs).2 = answers xs := by
  induction xs generalizing system with
  | nil => rfl
  | cons m rest ih =>
    rw [extractFrom]
    split
    · next h => rw [ih,answers_cons_system h.1]
    · rw [answers,answers,ih]

theorem answeredOnce_extractFrom {system : PyStr} (h : AnsweredOnce xs) :
    AnsweredOnce (extractFrom host system xs).2 := by
  induction xs generalizing system with
  | nil => exact h
  | cons m rest ih =>
    rw [AnsweredOnce] at h
    rw [extractFrom]
    split
    · exact ih h.2
    · rw [AnsweredOnce,answers_extractFrom]
      exact ⟨h.1,ih h.2⟩

theorem namedIds_eq_nil (h : m.role ≠ .assistant) : namedIds m = [] := if_neg h

theorem proper_append (xs ys : List PyStr) : proper (xs++ys) = proper xs++proper ys :=
  List.filter_append ..

theorem inhabited_append (xs ys : List (List PyStr)) : inhabited (xs++ys) = inhabited xs++inhabited ys :=
  List.filter_append ..

theorem inhabited_cons (ts : List PyStr) (xs : List (List PyStr)) :
    inhabited (ts::xs) = inhabited [ts]++inhabited xs :=
  inhabited_append [ts] xs

theorem convertBlock_spec {part : Json} {b : Block} (h : convertBlock part = some b)
    (huse : blockId "tool_use" "id" part = none)
    (hresult : blockId "tool_result" "tool_use_id" part = none) :
    b.useId = none ∧ b.resultId = none ∧ b.texts = partTexts part := by
  cases part with
  | obj fields =>
    rw [convertBlock] at h
    cases htype : get fields (lit "type") with
    | none =>
      simp only [htype,Option.some.injEq] at h
      subst h
      exact ⟨huse,hresult,rfl⟩
    | some v =>
      cases v with
      | str t =>
        simp only [htype] at h
        split at h
        · next himage =>
          obtain ⟨d,-,rfl⟩ := Option.map_eq_some_iff.mp h
          refine ⟨rfl,rfl,?_⟩
          rw [partTexts,htype,himage]
          cases get fields (lit "text") with
          | none => rfl
          | some v => cases v <;> rfl
        · cases h
          exact ⟨huse,hresult,rfl⟩
      | _ =>
        simp only [htype,Option.some.injEq] at h
        subst h
        exact ⟨huse,hresult,rfl⟩
  | _ =>
    cases h
    exact ⟨huse,hresult,rfl⟩

theorem mapM_convertBlock {parts : List Json} (h : ∀ part ∈ parts, (convertBlock part).isSome ∧
    blockId "tool_use" "id" part = none ∧ blockId "tool_result" "tool_use_id" part = none) :
    ∃ blocks, parts.mapM convertBlock = some blocks ∧ blocks.filterMap Block.useId = [] ∧
      blocks.filterMap Block.resultId = [] ∧ blocks.flatMap Block.texts = parts.flatMap partTexts := by
  induction parts with
  | nil => exact ⟨[],rfl,rfl,rfl,rfl⟩
  | cons part rest ih =>
    obtain ⟨hsome,huse,hresult⟩ := h part List.mem_cons_self
    obtain ⟨b,hb⟩ := Option.isSome_iff_exists.mp hsome
    obtain ⟨huse',hresult',htexts⟩ := convertBlock_spec hb huse hresult
    obtain ⟨blocks,hblocks,huses,hresults,hrest⟩ := ih fun p hp => h p (List.mem_cons_of_mem _ hp)
    refine ⟨b::blocks,?_,?_,?_,?_⟩
    · simp [List.mapM_cons,hb,hblocks]
    · rw [List.filterMap_cons_none huse',huses]
    · rw [List.filterMap_cons_none hresult',hresults]
    · rw [List.flatMap_cons,List.flatMap_cons,htexts,hrest]

theorem convertCalls_spec {calls : List CallDict} (hnames : ∀ c ∈ calls, (callName c).isSome)
    (hinputs : ∀ c ∈ calls, isNamed c = true → (callInput host (callArguments c)).isSome)
    (hids : ∀ id ∈ (calls.filter isNamed).map CallDict.ident, isBlank id = false) (s : Conversion)
    (blocks : List Block) :
    ∃ uses, convertCalls host s blocks calls = some (blocks++uses,{ s with
        emittedToolIds := ((calls.filter isNamed).map CallDict.ident).reverse++s.emittedToolIds }) ∧
      uses.filterMap Block.useId = (calls.filter isNamed).map CallDict.ident ∧
      uses.filterMap Block.resultId = [] ∧ uses.flatMap Block.texts = [] := by
  induction calls generalizing s blocks with
  | nil => exact ⟨[],by rw [convertCalls,List.append_nil]; rfl,rfl,rfl,rfl⟩
  | cons c rest ih =>
    have hmore := fun hids' => ih (fun c' hc => hnames c' (List.mem_cons_of_mem _ hc))
      (fun c' hc => hinputs c' (List.mem_cons_of_mem _ hc)) hids'
    obtain ⟨name,hname⟩ := Option.isSome_iff_exists.mp (hnames c List.mem_cons_self)
    have hnamed : isNamed c = !isBlank name := by rw [isNamed,hname]
    cases hblank : isBlank name with
    | true =>
      have hskip : isNamed c = false := by rw [hnamed,hblank]; rfl
      rw [List.filter_cons_of_neg (by simp [hskip])] at hids ⊢
      have hcall : convertCall host s blocks c = some (blocks,s) := by
        rw [convertCall,hname]
        exact if_pos hblank
      rw [convertCalls,hcall,Option.bind_some]
      exact hmore hids s blocks
    | false =>
      have htake : isNamed c = true := by rw [hnamed,hblank]; rfl
      rw [List.filter_cons_of_pos htake,List.map_cons] at hids ⊢
      obtain ⟨input,hinput⟩ := Option.isSome_iff_exists.mp (hinputs c List.mem_cons_self htake)
      have hid := hids c.ident List.mem_cons_self
      have hcall : convertCall host s blocks c = some (blocks++[.toolUse c.ident name input],
          { s with emittedToolIds := c.ident::s.emittedToolIds }) := by
        rw [convertCall,hname]
        simp only [hblank,hinput,hid,Bool.false_eq_true,if_false,Option.map_some]
      obtain ⟨uses,hcalls,huses,hresults,htexts⟩ :=
        hmore (fun id hmem => hids id (List.mem_cons_of_mem _ hmem))
          { s with emittedToolIds := c.ident::s.emittedToolIds } (blocks++[.toolUse c.ident name input])
      refine ⟨.toolUse c.ident name input::uses,?_,?_,?_,?_⟩
      · rw [convertCalls,hcall,Option.bind_some,hcalls]
        simp
      · show c.ident::uses.filterMap Block.useId = _
        rw [huses]
      · show uses.filterMap Block.resultId = []
        exact hresults
      · rw [List.flatMap_cons,htexts]
        rfl

theorem pairedBetween_append {ids last : List PyStr} {out more : List Converted} :
    PairedBetween ids (out++more) last ↔ ∃ mid, PairedBetween ids out mid ∧ PairedBetween mid more last := by
  induction out generalizing ids with
  | nil => simp [PairedBetween]
  | cons c rest ih =>
    simp only [List.cons_append,PairedBetween,ih]
    constructor
    · rintro ⟨hc,mid,hrest,hmore⟩
      exact ⟨mid,⟨hc,hrest⟩,hmore⟩
    · rintro ⟨mid,⟨hc,hrest⟩,hmore⟩
      exact ⟨hc,mid,hrest,hmore⟩

theorem pairedBetween_singleton {c : Converted} (h : c.resultIds = []) : PairedBetween [] [c] c.useIds := by
  refine ⟨⟨by simp,?_⟩,rfl⟩
  rw [h]
  simp

theorem flushToolResults_eq (s : Conversion) : s.flushToolResults = { s with
    result := s.result++if s.pendingToolResults.isEmpty then [] else [resultsMessage s.pendingToolResults]
    pendingToolResults := [] } := by
  obtain ⟨result,pending,emitted,made⟩ := s
  rw [Conversion.flushToolResults]
  cases pending with
  | nil => simp
  | cons r rest => simp

/-- What a message other than a tool message adds behind the collected results. -/
structure Written (host : Host) (m : ChatMessage) (written : List Converted) : Prop where
  paired : PairedBetween [] written (namedIds m)
  texts : inhabited (written.map Converted.texts) = inhabited [messageTexts host m]

theorem written_of_blocks {blocks : List Block} {speaker : Speaker}
    (huses : blocks.filterMap Block.useId = namedIds m) (hresults : blocks.filterMap Block.resultId = [])
    (htexts : proper (blocks.flatMap Block.texts) = messageTexts host m) :
    Written host m [⟨speaker,blocks⟩] where
  paired := by
    rw [← huses]
    exact pairedBetween_singleton hresults
  texts := by
    rw [← htexts]
    rfl

theorem written_user (hm : m.role = .user) (hread : Readable host m) :
    ∃ blocks, userBlocks m.content = some blocks ∧ Written host m [⟨.user,blocks⟩] := by
  have hnone : namedIds m = [] := namedIds_eq_nil (by rw [hm]; exact Role.noConfusion)
  have htexts : messageTexts host m = proper (match m.content.getD (.str []) with
      | .str s => [s]
      | .arr xs => xs.flatMap partTexts
      | _ => []) := by
    rw [messageTexts,hm]
  rw [userBlocks]
  cases hcontent : m.content with
  | none =>
    rw [hcontent] at htexts
    exact ⟨[.text []],rfl,written_of_blocks hnone.symm rfl htexts.symm⟩
  | some v =>
    rw [hcontent] at htexts
    obtain ⟨s,rfl⟩ | ⟨parts,rfl,hparts⟩ := hread.content hm v hcontent
    · exact ⟨[.text s],rfl,written_of_blocks hnone.symm rfl htexts.symm⟩
    · obtain ⟨blocks,hblocks,huses,hresults,hflat⟩ := mapM_convertBlock hparts
      refine ⟨blocks,hblocks,written_of_blocks (huses.trans hnone.symm) hresults ?_⟩
      rw [hflat]
      exact htexts.symm

theorem assistantText_spec (host : Host) (hm : m.role = .assistant) :
    (assistantText host m.content).filterMap Block.useId = [] ∧
      (assistantText host m.content).filterMap Block.resultId = [] ∧
      proper ((assistantText host m.content).flatMap Block.texts) = messageTexts host m := by
  rw [messageTexts,hm]
  cases m.content with
  | none => exact ⟨rfl,rfl,rfl⟩
  | some v =>
    simp only [assistantText,Option.getD_some]
    cases truthy v with
    | false => exact ⟨rfl,rfl,rfl⟩
    | true => exact ⟨rfl,rfl,rfl⟩

theorem convertAssistant_spec (hm : m.role = .assistant) (hread : Readable host m)
    (hids : Identified host m) (s : Conversion) :
    ∃ written, convertAssistant host s m = some { s with
        result := s.result++written, emittedToolIds := (namedIds m).reverse++s.emittedToolIds } ∧
      Written host m written := by
  have hnamed : namedIds m = (m.toolCalls.filter isNamed).map CallDict.ident := if_pos hm
  have hgiven := hids.given
  rw [hnamed] at hgiven
  obtain ⟨huses',hresults',htexts'⟩ := assistantText_spec host hm
  obtain ⟨uses,hcalls,huses,hresults,htexts⟩ :=
    convertCalls_spec (hread.names hm) (hread.inputs hm) hgiven s (assistantText host m.content)
  rw [convertAssistant,hcalls,hnamed,Option.map_some]
  refine ⟨_,rfl,?_⟩
  have huses_all : (assistantText host m.content++uses).filterMap Block.useId = namedIds m := by
    rw [List.filterMap_append,huses',huses,hnamed]
    rfl
  have hresults_all : (assistantText host m.content++uses).filterMap Block.resultId = [] := by
    rw [List.filterMap_append,hresults',hresults]
    rfl
  have htexts_all : proper ((assistantText host m.content++uses).flatMap Block.texts) = messageTexts host m := by
    rw [List.flatMap_append,htexts,List.append_nil]
    exact htexts'
  split
  · next hnil =>
    -- the placeholder has no text and no use, as the empty list
    have hnil : assistantText host m.content++uses = [] := List.isEmpty_iff.mp hnil
    rw [hnil] at huses_all htexts_all
    exact written_of_blocks huses_all rfl htexts_all
  · exact written_of_blocks huses_all hresults_all htexts_all

theorem convertMessage_of_not_tool (hm : m.role ≠ .tool) (hread : Readable host m)
    (hids : Identified host m) (s : Conversion) :
    ∃ written, convertMessage host s m = some { s.flushToolResults with
        result := s.flushToolResults.result++written
        emittedToolIds := (namedIds m).reverse++s.flushToolResults.emittedToolIds } ∧
      Written host m written := by
  rw [convertMessage]
  cases hrole : m.role with
  | tool => exact absurd hrole hm
  | user =>
    have hnone : namedIds m = [] := namedIds_eq_nil (by rw [hrole]; exact Role.noConfusion)
    obtain ⟨blocks,hblocks,hwritten⟩ := written_user hrole hread
    rw [hnone]
    exact ⟨_,by rw [hblocks]; rfl,hwritten⟩
  | assistant => exact convertAssistant_spec hrole hread hids s.flushToolResults
  | system =>
    have hnone : namedIds m = [] := namedIds_eq_nil (by rw [hrole]; exact Role.noConfusion)
    have htexts : messageTexts host m = proper [strOf host (m.content.getD (.str []))] := by
      rw [messageTexts,hrole]
    have hwritten : Written host m [⟨.user,[.text (strOf host (m.content.getD (.str [])))]⟩] :=
      written_of_blocks hnone.symm rfl htexts.symm
    exact ⟨_,by rw [hnone]; rfl,hwritten⟩
  | other name =>
    have hnone : namedIds m = [] := namedIds_eq_nil (by rw [hrole]; exact Role.noConfusion)
    have htexts : messageTexts host m = [] := by
      rw [messageTexts,hrole]
      rfl
    refine ⟨[],by rw [hnone,List.append_nil]; rfl,?_,?_⟩
    · rw [hnone]
      rfl
    · rw [htexts]
      rfl

/-- The identifiers of the waiting results. -/
def Conversion.waiting (s : Conversion) : List PyStr := s.pendingToolResults.map Prod.fst

/-- The texts of the waiting results. -/
def Conversion.waitingTexts (s : Conversion) : List PyStr := proper (s.pendingToolResults.map Prod.snd)

/-- The state of the conversion in front of `xs`: `earlier` are the identifiers of the named calls so
far, and `current` those of the message that the tool messages here stand behind. -/
structure Good (host : Host) (s : Conversion) (earlier current : List PyStr) (xs : List ChatMessage) :
    Prop where
  emitted : ∀ id, id ∈ s.emittedToolIds ↔ id ∈ earlier
  known : ∀ id ∈ current, id ∈ earlier
  given : ∀ id ∈ earlier, isBlank id = false
  fresh : ∀ id ∈ earlier, ∀ n, id ≠ madeId host n
  paired : PairedBetween [] s.result current
  once : ∀ id ∈ current, s.waiting.count id+(toolRun xs).count id = 1
  only : ∀ id ∈ s.waiting, id ∈ current

theorem texts_resultsMessage (results : List (PyStr × PyStr)) :
    (resultsMessage results).texts = proper (results.map Prod.snd) := by
  rw [Converted.texts,resultsMessage,List.flatMap_map]
  congr 1
  induction results with
  | nil => rfl
  | cons r rest ih => rw [List.flatMap_cons,ih]; rfl

theorem useIds_resultsMessage (results : List (PyStr × PyStr)) : (resultsMessage results).useIds = [] := by
  rw [Converted.useIds,resultsMessage,List.filterMap_map]
  exact List.filterMap_eq_nil_iff.mpr fun _ _ => rfl

theorem resultIds_resultsMessage (results : List (PyStr × PyStr)) :
    (resultsMessage results).resultIds = results.map Prod.fst := by
  rw [Converted.resultIds,resultsMessage,List.filterMap_map]
  exact List.filterMap_eq_map ▸ rfl

theorem Good.flush {earlier current : List PyStr} (h : Good host s earlier current xs) (hrun : toolRun xs = []) :
    PairedBetween [] s.flushToolResults.result [] ∧
      inhabited (s.flushToolResults.result.map Converted.texts) =
        inhabited (s.result.map Converted.texts)++inhabited [s.waitingTexts] := by
  have honce := h.once
  rw [hrun] at honce
  rw [flushToolResults_eq]
  cases hpending : s.pendingToolResults with
  | nil =>
    have hcurrent : current = [] := by
      refine List.eq_nil_iff_forall_not_mem.mpr fun id hid => ?_
      have hcount := honce id hid
      rw [Conversion.waiting,hpending] at hcount
      simp at hcount
    have hpaired := h.paired
    rw [hcurrent] at hpaired
    refine ⟨by simpa using hpaired,?_⟩
    rw [Conversion.waitingTexts,hpending]
    simp [inhabited,proper]
  | cons r rest =>
    simp only [List.isEmpty_cons,Bool.false_eq_true,if_false]
    refine ⟨pairedBetween_append.mpr ⟨current,h.paired,⟨fun id hid => ⟨rfl,?_⟩,fun id hid => ?_⟩,?_⟩,?_⟩
    · rw [resultIds_resultsMessage,← hpending]
      have hcount := honce id hid
      rw [List.count_nil,Nat.add_zero] at hcount
      exact hcount
    · rw [resultIds_resultsMessage,← hpending] at hid
      exact h.only id hid
    · rw [useIds_resultsMessage]
      rfl
    · rw [List.map_append,inhabited_append,List.map_singleton,texts_resultsMessage,Conversion.waitingTexts,
        hpending]

theorem toolRun_of_not_tool (h : m.role ≠ .tool) : toolRun (m::xs) = [] := if_neg h

theorem toolRun_begins_answers (xs : List ChatMessage) : toolRun xs <+: answers xs := by
  induction xs with
  | nil => exact List.prefix_rfl
  | cons m rest ih =>
    by_cases hm : m.role = .tool
    · rw [toolRun,if_pos hm,answers,hm]
      exact List.prefix_cons_inj _ |>.mpr ih
    · rw [toolRun_of_not_tool hm]
      exact List.nil_prefix

theorem mem_callIds_of_mem_namedIds {id : PyStr} (h : id ∈ namedIds m) : id ∈ m.callIds := by
  by_cases hm : m.role = .assistant
  · rw [namedIds,if_pos hm] at h
    rw [ChatMessage.callIds,if_pos hm]
    obtain ⟨c,hc,rfl⟩ := List.mem_map.mp h
    exact List.mem_map_of_mem (List.mem_of_mem_filter hc)
  · rw [namedIds_eq_nil hm] at h
    cases h

theorem count_toolRun (honce : AnsweredOnce (m::xs)) (hdirect : Direct (m::xs)) {id : PyStr}
    (hid : id ∈ namedIds m) : (toolRun xs).count id = 1 := by
  have hanswers := honce.1 id (mem_callIds_of_mem_namedIds hid)
  have hle := (toolRun_begins_answers xs).sublist.count_le id
  have hpos := List.count_pos_iff.mpr (hdirect.1 id hid)
  omega

variable {earlier current : List PyStr}

theorem Good.skip (h : Good host s earlier current (m::xs)) (hm : m.role = .tool)
    (hid : m.answeredId ∉ current) (n : ℕ) : Good host { s with made := n } earlier current xs where
  emitted := h.emitted
  known := h.known
  given := h.given
  fresh := h.fresh
  paired := h.paired
  once id hmem := by
    have hcount := h.once id hmem
    have hne : m.answeredId ≠ id := by
      rintro rfl
      exact hid hmem
    rwa [toolRun,if_pos hm,List.count_cons_of_ne hne] at hcount
  only := h.only

theorem Good.tool (h : Good host s earlier current (m::xs)) (hm : m.role = .tool)
    (hown : m.answeredId ∈ earlier → m.answeredId ∈ current) :
    Good host (convertTool host s m) earlier current xs ∧ (convertTool host s m).result = s.result ∧
      (convertTool host s m).waitingTexts =
        if m.answeredId ∈ current then s.waitingTexts++messageTexts host m else s.waitingTexts := by
  rw [convertTool]
  cases hblank : isBlank m.answeredId with
  | true =>
    have hcurrent : m.answeredId ∉ current := by
      intro hmem
      have hgiven := h.given _ (h.known _ hmem)
      rw [hblank] at hgiven
      cases hgiven
    have hmade : madeId host s.made ∉ s.emittedToolIds := by
      intro hmem
      exact h.fresh _ ((h.emitted _).mp hmem) s.made rfl
    rw [if_pos rfl,addToolResult,if_neg hmade,if_neg hcurrent]
    exact ⟨h.skip hm hcurrent _,rfl,rfl⟩
  | false =>
    rw [if_neg Bool.false_ne_true,addToolResult]
    by_cases hearlier : m.answeredId ∈ earlier
    · have hcurrent := hown hearlier
      rw [if_pos ((h.emitted _).mpr hearlier),if_pos hcurrent]
      have hcount : ∀ id, (toolRun (m::xs)).count id = [m.answeredId].count id+(toolRun xs).count id := by
        intro id
        rw [toolRun,if_pos hm,← List.count_append,List.singleton_append]
      refine ⟨⟨h.emitted,h.known,h.given,h.fresh,h.paired,fun id hid => ?_,fun id hid => ?_⟩,rfl,?_⟩
      · have honce := h.once id hid
        rw [hcount] at honce
        rw [Conversion.waiting,List.map_append,List.count_append,Nat.add_assoc]
        exact honce
      · rw [Conversion.waiting,List.map_append,List.mem_append] at hid
        obtain hid | hid := hid
        · exact h.only id hid
        · rw [List.map_singleton,List.mem_singleton] at hid
          rw [hid]
          exact hcurrent
      · have htexts : messageTexts host m = proper [strOf host (m.content.getD (.str []))] := by
          rw [messageTexts,hm]
        rw [Conversion.waitingTexts,List.map_append,proper_append,htexts]
        rfl
    · have hcurrent : m.answeredId ∉ current := fun hmem => hearlier (h.known _ hmem)
      rw [if_neg fun hmem => hearlier ((h.emitted _).mp hmem),if_neg hcurrent]
      exact ⟨h.skip hm hcurrent _,rfl,rfl⟩

/-- Another message closes the run and opens its own. -/
theorem Good.next (h : Good host s earlier current (m::xs)) (hm : m.role ≠ .tool)
    (hread : Readable host m) (hids : Identified host m) (honce : AnsweredOnce (m::xs))
    (hdirect : Direct (m::xs)) :
    ∃ s', convertMessage host s m = some s' ∧ Good host s' (namedIds m++earlier) (namedIds m) xs ∧
      s'.waitingTexts = [] ∧ inhabited (s'.result.map Converted.texts) =
        inhabited (s.result.map Converted.texts)++inhabited [s.waitingTexts]++
          inhabited [messageTexts host m] := by
  obtain ⟨hpaired,htexts⟩ := h.flush (toolRun_of_not_tool hm)
  obtain ⟨written,hconvert,hwritten⟩ := convertMessage_of_not_tool hm hread hids s
  have hpending : s.flushToolResults.pendingToolResults = [] := by rw [flushToolResults_eq]
  have hemitted : s.flushToolResults.emittedToolIds = s.emittedToolIds := by rw [flushToolResults_eq]
  refine ⟨_,hconvert,⟨fun id => ?_,fun id => List.mem_append_left _,fun id hid => ?_,fun id hid => ?_,?_,
    fun id hid => ?_,fun id hid => ?_⟩,?_,?_⟩
  · rw [List.mem_append,List.mem_append,List.mem_reverse,hemitted,h.emitted]
  · exact (List.mem_append.mp hid).elim (hids.given id) (h.given id)
  · exact (List.mem_append.mp hid).elim (hids.fresh id) (h.fresh id)
  · exact pairedBetween_append.mpr ⟨[],hpaired,hwritten.paired⟩
  · rw [Conversion.waiting,hpending,List.map_nil,List.count_nil,Nat.zero_add]
    exact count_toolRun honce hdirect hid
  · rw [Conversion.waiting,hpending] at hid
    cases hid
  · rw [Conversion.waitingTexts,hpending]
    rfl
  · rw [List.map_append,inhabited_append,htexts,hwritten.texts]

theorem ownFrom_of_not_tool (hm : m.role ≠ .tool) (h : OwnFrom earlier current (m::xs)) :
    OwnFrom (namedIds m++earlier) (namedIds m) xs := by
  rw [OwnFrom] at h
  cases hrole : m.role with
  | tool => exact absurd hrole hm
  | _ =>
    rw [hrole] at h
    exact h

theorem ownTexts_of_not_tool (hm : m.role ≠ .tool) (run : List PyStr) :
    ownTexts host current run (m::xs) = run::messageTexts host m::ownTexts host (namedIds m) [] xs := by
  rw [ownTexts]
  cases hrole : m.role with
  | tool => exact absurd hrole hm
  | _ => rfl

theorem convertFrom_spec (h : Good host s earlier current xs) (honce : AnsweredOnce xs)
    (hdirect : Direct xs) (hown : OwnFrom earlier current xs) (hread : ∀ m ∈ xs, Readable host m)
    (hids : ∀ m ∈ xs, Identified host m) :
    ∃ s', convertFrom host s xs = some s' ∧ ResultsPaired s'.flushToolResults.result ∧
      inhabited (s'.flushToolResults.result.map Converted.texts) =
        inhabited (s.result.map Converted.texts)++inhabited (ownTexts host current s.waitingTexts xs) := by
  induction xs generalizing s earlier current with
  | nil => exact ⟨s,rfl,h.flush rfl⟩
  | cons m rest ih =>
    have hreads : ∀ b ∈ rest, Readable host b := fun b hb => hread b (List.mem_cons_of_mem _ hb)
    have hidss : ∀ b ∈ rest, Identified host b := fun b hb => hids b (List.mem_cons_of_mem _ hb)
    by_cases hm : m.role = .tool
    · rw [OwnFrom,hm] at hown
      obtain ⟨hgood,hresult,htexts⟩ := h.tool hm hown.1
      obtain ⟨s',hrun,hpaired,hall⟩ := ih hgood honce.2 hdirect.2 hown.2 hreads hidss
      have hstep : convertMessage host s m = some (convertTool host s m) := by rw [convertMessage,hm]
      refine ⟨s',by rw [convertFrom,hstep]; exact hrun,hpaired,?_⟩
      rw [hall,hresult,htexts,ownTexts,hm]
      dsimp only
      split <;> rfl
    · obtain ⟨s₁,hstep,hgood,hwaiting,htexts⟩ :=
        h.next hm (hread m List.mem_cons_self) (hids m List.mem_cons_self) honce hdirect
      obtain ⟨s',hrun,hpaired,hall⟩ :=
        ih hgood honce.2 hdirect.2 (ownFrom_of_not_tool hm hown) hreads hidss
      refine ⟨s',by rw [convertFrom,hstep]; exact hrun,hpaired,?_⟩
      rw [hall,hwaiting,htexts,ownTexts_of_not_tool hm,
        inhabited_cons s.waitingTexts (messageTexts host m::ownTexts host (namedIds m) [] rest),
        inhabited_cons (messageTexts host m) (ownTexts host (namedIds m) [] rest),List.append_assoc,
        List.append_assoc]

theorem mem_of_mem_extractFrom {system : PyStr} (h : m ∈ (extractFrom host system xs).2) : m ∈ xs := by
  induction xs generalizing system with
  | nil => cases h
  | cons a rest ih =>
    rw [extractFrom] at h
    split at h
    · exact List.mem_cons_of_mem _ (ih h)
    · cases h with
      | head => exact List.mem_cons_self
      | tail _ h => exact List.mem_cons_of_mem _ (ih h)

/-- When the results of the named calls follow their message and no other tool message has their
identifiers, the conversion pairs each use with one result and leaves each text where it belongs.
The results of nameless calls and messages of other roles are left out. -/
theorem conversion_paired (host : Host) {history : List ChatMessage} (honce : AnsweredOnce history)
    (hread : ∀ m ∈ history, Readable host m) (hids : ∀ m ∈ history, Identified host m)
    (hdirect : Direct (extractSystemPrompt host history).2)
    (hown : OwnFrom [] [] (extractSystemPrompt host history).2) :
    Lifted host history (extractSystemPrompt host history).1 (extractSystemPrompt host history).2 ∧
      ∃ out, convertMessages host (extractSystemPrompt host history).2 = some out ∧ ResultsPaired out ∧
        inhabited (out.map Converted.texts) =
          inhabited (ownTexts host [] [] (extractSystemPrompt host history).2) := by
  refine ⟨lifted_extract host history,?_⟩
  have hstart : Good host .start [] [] (extractSystemPrompt host history).2 :=
    ⟨by simp [Conversion.start],by simp,by simp,by simp,rfl,by simp,by simp [Conversion.waiting,Conversion.start]⟩
  obtain ⟨s,hrun,hpaired,htexts⟩ := convertFrom_spec hstart (answeredOnce_extractFrom honce) hdirect hown
    (fun m hm => hread m (mem_of_mem_extractFrom hm)) fun m hm => hids m (mem_of_mem_extractFrom hm)
  exact ⟨_,by rw [convertMessages,hrun]; rfl,hpaired,htexts⟩

/-- Surroundings in which nothing but texts occurs. -/
def textHost : Host := ⟨fun _ => [],fun _ => .raises,fun _ => []⟩

def readHistory : List ChatMessage :=
  [⟨.system,some (.str (lit "Be brief")),[],none⟩,⟨.user,some (.str (lit "Read it")),[],none⟩,
    ⟨.assistant,none,[⟨some (lit "c1"),some (lit "read"),none,some (.str [])⟩],none⟩,
    ⟨.tool,some (.str (lit "text")),[],some (lit "c1")⟩]

theorem conversion_paired_read : ∃ out,
    convertMessages textHost (extractSystemPrompt textHost readHistory).2 = some out ∧ ResultsPaired out := by
  have honce : AnsweredOnce readHistory := by
    simp [readHistory,AnsweredOnce,ChatMessage.callIds,CallDict.ident,answers,ChatMessage.answeredId]
  have hread : ∀ m ∈ readHistory, Readable textHost m := by
    intro m hm
    simp only [readHistory,List.mem_cons,List.not_mem_nil,or_false] at hm
    obtain rfl | rfl | rfl | rfl := hm
    · exact ⟨Role.noConfusion,Role.noConfusion,Role.noConfusion⟩
    · exact ⟨fun _ v hv => .inl ⟨_,(Option.some.inj hv).symm⟩,Role.noConfusion,Role.noConfusion⟩
    · exact ⟨Role.noConfusion,fun _ => by decide,fun _ => by decide⟩
    · exact ⟨Role.noConfusion,Role.noConfusion,Role.noConfusion⟩
  have hids : ∀ m ∈ readHistory, Identified textHost m := by
    have hgiven : ∀ m ∈ readHistory, ∀ id ∈ namedIds m, isBlank id = false ∧ id ≠ madeId textHost 0 := by
      decide
    exact fun m hm => ⟨fun id hid => (hgiven m hm id hid).1,fun id hid _ => (hgiven m hm id hid).2⟩
  have hdirect : Direct (extractSystemPrompt textHost readHistory).2 :=
    ⟨by decide,by decide,by decide,trivial⟩
  have hown : OwnFrom [] [] (extractSystemPrompt textHost readHistory).2 := ⟨by decide,trivial⟩
  obtain ⟨-,out,hout,hpaired,-⟩ := conversion_paired textHost honce hread hids hdirect hown
  exact ⟨out,hout,hpaired⟩

def namelessHistory : List ChatMessage :=
  [⟨.user,some (.str (lit "Run it")),[],none⟩,
    ⟨.assistant,none,[⟨some (lit "c1"),none,some ⟨some (some []),none⟩,none⟩],none⟩,
    ⟨.tool,some (.str (lit "failed")),[],some (lit "c1")⟩]

/-- The result of a nameless call is in no message. -/
theorem nameless_result_dropped : AnsweredOnce namelessHistory ∧
    (extractSystemPrompt textHost namelessHistory).1 = [] ∧ ∃ out,
      convertMessages textHost (extractSystemPrompt textHost namelessHistory).2 = some out ∧
        ∀ m ∈ out, lit "failed" ∉ m.texts := by
  refine ⟨?_,rfl,[⟨.user,[.text (lit "Run it")]⟩,⟨.assistant,[.text []]⟩],rfl,by decide⟩
  simp [namelessHistory,AnsweredOnce,ChatMessage.callIds,CallDict.ident,answers,ChatMessage.answeredId]

end MinimaxCode.AnthropicMessages
