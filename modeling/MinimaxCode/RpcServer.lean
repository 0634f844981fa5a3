import MinimaxCode.JsonText
import MinimaxCode.Runs

/-!
# The JSON-RPC server

One line is parsed, validated, dispatched and answered. A handler is a tree of its
interactions with the context: replying, pushing, and ending by a return or an
exception. Whatever is raised and not caught leaves `_handle_line` and ends the
server loop.
-/

namespace MinimaxCode.Rpc

open PyText PyJson

def parseError : ℤ := -32700
def invalidRequest : ℤ := -32600
def methodNotFound : ℤ := -32601
def internalError : ℤ := -32603

/-- The library code around the server. `Value` is what handlers return and attach to
errors. `validId` is the validation of an id as `str | int`, `textOf` is `str`,
`dumps` says whether a value can be serialised and encoded, and `maxData` is the data
of the size error. -/
structure Runtime where
  Value : Type
  isNone : Value → Bool
  dumps : Value → Bool
  maxMessageBytes : ℕ
  maxData : Value
  maxData_dumps : isNone maxData = false ∧ dumps maxData = true
  loads : PyStr → LoadsOutcome
  loads_message : ∀ s m, loads s = .decodeError m ∨ loads s = .valueError m → encodes m = true
  validId : Json → Option Json
  validId_int : ∀ n, validId (.int n) = some (.int n)
  textOf : Json → PyStr
  textOf_str : ∀ s, textOf (.str s) = s

structure RPCError (V : Type) where
  code : ℤ
  message : PyStr
  data : Option V

/-- `Response`: both bodies are optional fields of one model. -/
structure Response (V : Type) where
  id : Json
  result : Option V
  error : Option (RPCError V)

section Encoding

variable (rt : Runtime)

/-- Validating a response: the id must be a string or an integer, and the message of an
error must be encodable text. -/
def mkResponse (id : Json) (result : Option rt.Value) (error : Option (RPCError rt.Value)) :
    Option (Response rt.Value) :=
  match rt.validId id with
  | none => none
  | some id =>
    if error.all fun e => encodes e.message then some ⟨id,result,error⟩ else none

/-- `to_bytes`: serialise without the fields that are `None`. -/
def toBytes (r : Response rt.Value) : Option (Response rt.Value) :=
  let result := r.result.filter fun v => !rt.isNone v
  let error := r.error.map fun e => { e with data := e.data.filter fun v => !rt.isNone v }
  if result.all rt.dumps ∧ (error.bind RPCError.data).all rt.dumps then some ⟨r.id,result,error⟩
  else none

/-- A response line for the id, or nothing when validation or encoding raises. -/
def respond (id : Json) (result : Option rt.Value) (error : Option (RPCError rt.Value)) :
    Option (Response rt.Value) :=
  (mkResponse rt id result error).bind (toBytes rt)

def errorResponse (id : Json) (code : ℤ) (message : PyStr) (data : Option rt.Value) :
    Option (Response rt.Value) :=
  respond rt id none (some ⟨code,message,data⟩)

end Encoding

/-- A handler's interactions. After each attempt it learns whether that raised. -/
inductive Handler (V : Type)
  | reply (result : V) (next : Bool → Handler V)
  | replyError (error : RPCError V) (next : Bool → Handler V)
  | push (payload : V) (next : Bool → Handler V)
  | ret (result : V)
  | raiseHandlerError (error : RPCError V)
  | raise
  | raiseBase

/-- How a handler ends. A base exception is one that `except Exception` lets pass. -/
inductive Ending (V : Type)
  | ret (result : V)
  | handlerError (error : RPCError V)
  | exception
  | baseException

section Server

variable (rt : Runtime)

/-- A reply of a handler. -/
inductive Reply (V : Type)
  | result (v : V)
  | error (e : RPCError V)

/-- The line a reply is sent as. -/
def Reply.line (id : Json) : Reply rt.Value → Option (Response rt.Value)
  | .result v => respond rt id (some v) none
  | .error e => respond rt id none (some e)

/-- Run a handler in its context: the replies that went out, and how it ended. A
context without an id raises on every reply. -/
def Handler.run (id : Option Json) : Handler rt.Value → List (Reply rt.Value) × Ending rt.Value
  | .reply v next =>
    match id.bind fun id => (Reply.result v).line rt id with
    | some _ => let (replies,ending) := (next true).run id; (.result v::replies,ending)
    | none => (next false).run id
  | .replyError e next =>
    match id.bind fun id => (Reply.error e).line rt id with
    | some _ => let (replies,ending) := (next true).run id; (.error e::replies,ending)
    | none => (next false).run id
  | .push payload next => (next (rt.dumps payload)).run id
  | .ret v => ([],.ret v)
  | .raiseHandlerError e => ([],.handlerError e)
  | .raise => ([],.exception)
  | .raiseBase => ([],.baseException)

/-- The registered handlers. -/
structure Handlers where
  requests : PyStr → Option (Json → Handler rt.Value)
  notifications : PyStr → Option (Json → Handler rt.Value)

/-- The responses a line causes, and whether an exception escapes. -/
structure Outcome where
  sent : List (Response rt.Value)
  escapes : Bool

/-- Send a response, or let the exception of building it escape. -/
def send (sent : List (Response rt.Value)) : Option (Response rt.Value) → Outcome rt
  | some r => ⟨sent++[r],false⟩
  | none => ⟨sent,true⟩

/-- The request branch behind the lookup of the handler. -/
def answer (id : Json) (handler : Handler rt.Value) : Outcome rt :=
  let (replies,ending) := handler.run rt (some id)
  let sent := replies.filterMap (Reply.line rt id)
  match ending with
  | .ret v =>
    if replies.isEmpty then
      match (Reply.result v).line rt id with
      | some r => ⟨[r],false⟩
      | none => send rt [] (errorResponse rt id internalError (lit "internal error") none)
    else ⟨sent,false⟩
  | .handlerError e => send rt sent (errorResponse rt id e.code e.message e.data)
  | .exception => send rt sent (errorResponse rt id internalError (lit "internal error") none)
  | .baseException => ⟨sent,true⟩

/-- What a line is, as far as `_handle_line` looks. -/
inductive Line
  | tooLarge
  | malformed (message : PyStr)
  | crash
  | notObject
  | event
  | noMethod (id : Json)
  | notification (method : PyStr) (params : Json)
  | request (id : Json) (method : PyStr) (params : Json)

/-- `parse_envelope` and the tests on the parsed object. -/
def classify (line : PyStr) : Line :=
  if line.length > rt.maxMessageBytes then .tooLarge
  else if strip line = [] then .malformed (lit "empty line")
  else match rt.loads (strip line) with
    | .decodeError m => .malformed (lit "invalid JSON: "++m)
    | .valueError m => .malformed m
    | .raises => .crash
    | .value (.obj fields) =>
      if has fields (lit "event") && !has fields (lit "method") && !has fields (lit "id") then .event
      else match get fields (lit "method") with
        | none => .noMethod ((get fields (lit "id")).getD (.int 0))
        | some method =>
          let params := (get fields (lit "params")).getD .null
          match (get fields (lit "id")).getD .null with
          | .null => .notification (rt.textOf method) params
          | id => .request id (rt.textOf method) params
    | .value _ => .notObject

def handleLine (hs : Handlers rt) (line : PyStr) : Outcome rt :=
  match classify rt line with
  | .tooLarge => send rt [] (errorResponse rt (.int 0) parseError (lit "message too large")
      (some rt.maxData))
  | .malformed m => send rt [] (errorResponse rt (.int 0) parseError m none)
  | .crash => ⟨[],true⟩
  | .notObject =>
    send rt [] (errorResponse rt (.int 0) invalidRequest (lit "envelope must be a JSON object") none)
  | .event => ⟨[],false⟩
  | .noMethod id => send rt [] (errorResponse rt id invalidRequest (lit "missing 'method'") none)
  | .notification method params =>
    match (hs.notifications method).or (hs.requests method) with
    | none => ⟨[],false⟩
    | some handler =>
      match ((handler params).run rt none).2 with
      | .baseException => ⟨[],true⟩
      | _ => ⟨[],false⟩
  | .request id method params =>
    match hs.requests method with
    | none => send rt [] (errorResponse rt id methodNotFound (lit "unknown method: "++method) none)
    | some handler => answer rt id (handler params)

end Server

section Discipline

variable (rt : Runtime) {d : Option rt.Value} {id : Json} {m : PyStr} {r : Response rt.Value}

/-- A response line carries a result or an error, and not both. -/
def CarriesOne {V : Type} (r : Response V) : Prop := r.result.isSome ≠ r.error.isSome

/-- One answer, with one of result and error, and no exception escaping. -/
def Answered (o : Outcome rt) : Prop :=
  o.escapes = false ∧ o.sent.length = 1 ∧ ∀ r ∈ o.sent, CarriesOne r

/-- No exception escapes, a notification or an inbound event is not answered, and
anything else is answered once. -/
def Disciplined (hs : Handlers rt) (line : PyStr) : Prop :=
  match classify rt line with
  | .event => (handleLine rt hs line).escapes = false ∧ (handleLine rt hs line).sent = []
  | .notification _ _ => (handleLine rt hs line).escapes = false ∧ (handleLine rt hs line).sent = []
  | _ => Answered rt (handleLine rt hs line)

/-- The data of an error can be sent: there is none, it is `None`, or it serialises. -/
def DataSends (d : Option rt.Value) : Prop := ∀ v, d = some v → rt.isNone v = false → rt.dumps v = true

/-- The handlers a request is answered correctly for: one that returns a value and has
not replied, one that replies once and returns, and one that raises before replying,
in each case with something to send. -/
def SoundHandler (id : Json) (handler : Handler rt.Value) : Prop :=
  match handler.run rt (some id) with
  | ([],.ret v) => rt.isNone v = false
  | ([.result v],.ret _) => rt.isNone v = false
  | ([.error _],.ret _) => True
  | ([],.handlerError e) => encodes e.message = true ∧ DataSends rt e.data
  | ([],.exception) => True
  | _ => False

/-- The lines that are answered correctly. -/
def SoundLine (hs : Handlers rt) (line : PyStr) : Prop :=
  match classify rt line with
  | .crash => False
  | .noMethod id => rt.validId id ≠ none
  | .notification method params =>
    ∀ handler, (hs.notifications method).or (hs.requests method) = some handler →
      ((handler params).run rt none).2 ≠ .baseException
  | .request id method params => rt.validId id ≠ none ∧
    match hs.requests method with
    | none => encodes method = true
    | some handler => SoundHandler rt id (handler params)
  | _ => True

theorem errorResponse_isSome_iff {code : ℤ} :
    (errorResponse rt id code m d).isSome ↔
      rt.validId id ≠ none ∧ encodes m = true ∧ DataSends rt d := by
  unfold errorResponse respond mkResponse
  cases hid : rt.validId id with
  | none => simp
  | some id' =>
    cases hm : encodes m with
    | false => simp [hm]
    | true =>
      cases d with
      | none => simp [hm,toBytes,DataSends]
      | some v => cases hv : rt.isNone v <;> simp [hm,toBytes,DataSends,hv]

theorem carriesOne_errorResponse {code : ℤ} (h : errorResponse rt id code m d = some r) : CarriesOne r := by
  obtain ⟨r',hr',hr⟩ := Option.bind_eq_some_iff.mp h
  have herr : r'.result = none ∧ r'.error.isSome := by
    unfold mkResponse at hr'
    split at hr'
    · simp at hr'
    · simp only [Option.ite_none_right_eq_some,Option.some.injEq] at hr'
      obtain ⟨_,rfl⟩ := hr'
      simp
  simp only [toBytes,Option.ite_none_right_eq_some,Option.some.injEq] at hr
  obtain ⟨_,rfl⟩ := hr
  simp [CarriesOne,herr.1,herr.2]

theorem line_result_isSome_iff {v : rt.Value} :
    ((Reply.result v).line rt id).isSome ↔ rt.validId id ≠ none ∧ (rt.isNone v ∨ rt.dumps v) := by
  unfold Reply.line respond mkResponse
  cases hid : rt.validId id with
  | none => simp
  | some id' => cases hv : rt.isNone v <;> simp [toBytes,hv]

theorem carriesOne_line_result {v : rt.Value}
    (h : (Reply.result v).line rt id = some r) : CarriesOne r ↔ rt.isNone v = false := by
  unfold Reply.line respond mkResponse at h
  cases hid : rt.validId id with
  | none => simp [hid] at h
  | some id' =>
    cases hv : rt.isNone v with
    | true =>
      simp [hid,hv,toBytes] at h
      simp [← h,CarriesOne,Option.filter,hv]
    | false =>
      simp [hid,hv,toBytes] at h
      simp [← h.2,CarriesOne,Option.filter,hv]

theorem not_answered_escape {sent : List (Response rt.Value)} : ¬ Answered rt ⟨sent,true⟩ := by
  simp [Answered]

theorem answered_singleton : Answered rt ⟨[r],false⟩ ↔ CarriesOne r := by
  simp [Answered]

theorem answered_send_error {code : ℤ} :
    Answered rt (send rt [] (errorResponse rt id code m d)) ↔
      rt.validId id ≠ none ∧ encodes m = true ∧ DataSends rt d := by
  rw [← errorResponse_isSome_iff]
  cases h : errorResponse rt id code m d with
  | none => simp [send,not_answered_escape]
  | some r =>
    have hr := carriesOne_errorResponse rt h
    simp [send,answered_singleton,hr]

theorem run_of_invalid_id (hid : rt.validId id = none) (handler : Handler rt.Value) :
    (handler.run rt (some id)).1 = [] := by
  have hline : ∀ b : Reply rt.Value, b.line rt id = none := by
    intro b
    cases b <;> simp [Reply.line,respond,mkResponse,hid]
  induction handler with
  | reply v next ih => simpa [Handler.run,hline] using ih false
  | replyError e next ih => simpa [Handler.run,hline] using ih false
  | push p next ih => exact ih _
  | ret v => rfl
  | raiseHandlerError e => rfl
  | raise => rfl
  | raiseBase => rfl

theorem line_of_mem_run (handler : Handler rt.Value) :
    ∀ b ∈ (handler.run rt (some id)).1, ∃ r, b.line rt id = some r := by
  induction handler with
  | reply v next ih =>
    simp only [Handler.run,Option.bind_some]
    cases hr : (Reply.result v).line rt id with
    | none => exact ih false
    | some r =>
      intro b hb
      rcases List.mem_cons.mp hb with rfl | hb
      · exact ⟨r,hr⟩
      · exact ih true b hb
  | replyError e next ih =>
    simp only [Handler.run,Option.bind_some]
    cases hr : (Reply.error e).line rt id with
    | none => exact ih false
    | some r =>
      intro b hb
      rcases List.mem_cons.mp hb with rfl | hb
      · exact ⟨r,hr⟩
      · exact ih true b hb
  | push p next ih => exact ih _
  | ret v => simp [Handler.run]
  | raiseHandlerError e => simp [Handler.run]
  | raise => simp [Handler.run]
  | raiseBase => simp [Handler.run]

theorem length_sent {replies : List (Reply rt.Value)}
    (h : ∀ b ∈ replies, ∃ r, b.line rt id = some r) :
    (replies.filterMap (Reply.line rt id)).length = replies.length := by
  induction replies with
  | nil => rfl
  | cons b bs ih =>
    obtain ⟨r,hr⟩ := h b List.mem_cons_self
    rw [List.filterMap_cons_some hr,List.length_cons,List.length_cons,
      ih fun c hc => h c (List.mem_cons_of_mem b hc)]

theorem not_answered_send {sent : List (Response rt.Value)} (hs : sent ≠ [])
    (r : Option (Response rt.Value)) : ¬ Answered rt (send rt sent r) := by
  cases r with
  | none => exact not_answered_escape rt
  | some r =>
    rintro ⟨_,hlen,_⟩
    have hpos := List.length_pos_iff.mpr hs
    simp only [send,List.length_append,List.length_singleton] at hlen
    omega

theorem answered_answer_iff {handler : Handler rt.Value} :
    Answered rt (answer rt id handler) ↔ rt.validId id ≠ none ∧ SoundHandler rt id handler := by
  have hinternal : encodes (lit "internal error") = true := by decide
  have hnodata : DataSends rt (none : Option rt.Value) := by simp [DataSends]
  have hlines := @line_of_mem_run rt id handler
  have hinvalid := fun hid => @run_of_invalid_id rt id hid handler
  unfold answer SoundHandler
  cases hrun : handler.run rt (some id) with
  | mk replies ending =>
    rw [hrun] at hlines hinvalid
    have hlen := length_sent rt hlines
    simp only
    cases replies with
    | nil =>
      cases ending with
      | ret v =>
        have hsome := @line_result_isSome_iff rt id v
        simp only [List.isEmpty_nil,if_true]
        cases hv : (Reply.result v).line rt id with
        | none =>
          rw [hv] at hsome
          simp only [answered_send_error,hinternal,hnodata,and_true]
          cases hid : rt.validId id <;> cases hnone : rt.isNone v <;> simp_all
        | some r =>
          rw [hv] at hsome
          simp only [answered_singleton,carriesOne_line_result rt hv]
          simp_all
      | handlerError e => exact answered_send_error rt
      | exception =>
        simp only [List.filterMap_nil,answered_send_error,hinternal,hnodata,and_true]
      | baseException => simp [not_answered_escape]
    | cons b bs =>
      have hid : rt.validId id ≠ none := fun hn => by simpa using hinvalid hn
      have hsent : (b::bs).filterMap (Reply.line rt id) ≠ [] := by
        intro hn
        simp [hn] at hlen
      cases ending with
      | handlerError e => cases b <;> cases bs <;> simp [not_answered_send rt hsent]
      | exception => cases b <;> cases bs <;> simp [not_answered_send rt hsent]
      | baseException => cases b <;> cases bs <;> simp [not_answered_escape]
      | ret v =>
        simp only [List.isEmpty_cons,Bool.false_eq_true,if_false]
        cases bs with
        | cons c cs =>
          have htwo : ¬ Answered rt ⟨(b::c::cs).filterMap (Reply.line rt id),false⟩ := by
            rintro ⟨_,hone,_⟩
            simp only [hlen,List.length_cons] at hone
            omega
          cases b <;> simp [htwo]
        | nil =>
          obtain ⟨r,hr⟩ := hlines b List.mem_cons_self
          rw [List.filterMap_cons_some hr,List.filterMap_nil,answered_singleton]
          cases b with
          | result v =>
            rw [carriesOne_line_result rt hr]
            simp [hid]
          | error e => simp [hid,carriesOne_errorResponse rt hr]

theorem encodes_of_malformed {line : PyStr} (h : classify rt line = .malformed m) :
    encodes m = true := by
  unfold classify at h
  split at h
  · simp at h
  · split at h
    · cases h
      decide
    · cases hl : rt.loads (strip line) with
      | decodeError e =>
        simp only [hl,Line.malformed.injEq] at h
        rw [← h,encodes_append,rt.loads_message _ _ (.inl hl)]
        decide
      | valueError e =>
        simp only [hl,Line.malformed.injEq] at h
        rw [← h,rt.loads_message _ _ (.inr hl)]
      | raises => simp [hl] at h
      | value v =>
        cases v with
        | obj fields =>
          simp only [hl] at h
          repeat' split at h
          all_goals simp at h
        | null => simp [hl] at h
        | bool b => simp [hl] at h
        | int n => simp [hl] at h
        | float b => simp [hl] at h
        | str s => simp [hl] at h
        | arr xs => simp [hl] at h

/-- A line is handled with discipline exactly when it is sound. -/
theorem disciplined_iff (hs : Handlers rt) (line : PyStr) :
    Disciplined rt hs line ↔ SoundLine rt hs line := by
  have hzero : rt.validId (.int 0) ≠ none := by simp [rt.validId_int]
  have hnodata : DataSends rt (none : Option rt.Value) := by simp [DataSends]
  unfold Disciplined SoundLine handleLine
  cases hc : classify rt line with
  | tooLarge =>
    have hdata : DataSends rt (some rt.maxData) := by
      rintro v hv _
      rw [← Option.some.inj hv]
      exact rt.maxData_dumps.2
    simpa [answered_send_error,hzero] using hdata
  | malformed m => simp [answered_send_error,hzero,hnodata,encodes_of_malformed rt hc]
  | crash => simp [not_answered_escape]
  | notObject => simp [answered_send_error,hzero,hnodata]
  | event => simp
  | noMethod id =>
    have htext : encodes (lit "missing 'method'") = true := by decide
    simp [answered_send_error,hnodata,htext]
  | notification method params =>
    cases hh : (hs.notifications method).or (hs.requests method) with
    | none => simp [hh]
    | some handler =>
      simp only [hh,Option.some.injEq,forall_eq']
      cases ((handler params).run rt none).2 <;> simp
  | request id method params =>
    cases hh : hs.requests method with
    | none =>
      have htext : encodes (lit "unknown method: ") = true := by decide
      simp [hh,answered_send_error,hnodata,encodes_append,htext]
    | some handler => simp [hh,answered_answer_iff]

end Discipline

/-- `{"id": [], "method": "nope"}`. -/
def listIdMessage : Json :=
  .obj [(lit "id",.arr []),(lit "method",.str (lit "nope"))]

/-- `{"id": 1, "method": "none"}`. -/
def noneResultMessage : Json :=
  .obj [(lit "id",.int 1),(lit "method",.str (lit "none"))]

def listIdLine : PyStr := dumps plainFloats true listIdMessage
def noneResultLine : PyStr := dumps plainFloats true noneResultMessage

/-- A runtime whose values are `None` and numbers. -/
def plainRuntime : Runtime where
  Value := Option ℕ
  isNone := Option.isNone
  dumps _ := true
  maxMessageBytes := 8388608
  maxData := some 8388608
  maxData_dumps := ⟨rfl,rfl⟩
  loads s := match loads plainFloats s with
    | some v => .value v
    | none => .decodeError (lit "Expecting value: line 1 column 1 (char 0)")
  loads_message s m h := by
    cases hs : loads plainFloats s with
    | some v => simp [hs] at h
    | none =>
      have hm : lit "Expecting value: line 1 column 1 (char 0)" = m := by simpa [hs] using h
      rw [← hm,encodes_lit]
  validId
    | .int n => some (.int n)
    | .bool b => some (.int b.toNat)
    | .str s => if encodes s then some (.str s) else none
    | _ => none
  validId_int _ := rfl
  textOf
    | .str s => s
    | _ => lit "None"
  textOf_str _ := rfl

/-- One handler, `none`, which returns `None`. -/
def plainHandlers : Handlers plainRuntime where
  requests method := if method = lit "none" then some fun _ => .ret none else none
  notifications _ := none

theorem classify_listIdLine :
    classify plainRuntime listIdLine = .request (.arr []) (lit "nope") .null := by
  have hsize : ¬ listIdLine.length > plainRuntime.maxMessageBytes := by decide +kernel
  have hstrip : strip listIdLine = listIdLine := by decide +kernel
  have hne : listIdLine ≠ [] := by decide +kernel
  have hloads : loads plainFloats listIdLine = some listIdMessage :=
    loads_dumps plainFloats true listIdMessage (by decide +kernel) fun _ => by decide +kernel
  have hvalue : plainRuntime.loads listIdLine = .value listIdMessage := by
    simp [plainRuntime,hloads]
  rw [classify,if_neg hsize,hstrip,if_neg hne,hvalue]
  rfl

theorem classify_noneResultLine :
    classify plainRuntime noneResultLine = .request (.int 1) (lit "none") .null := by
  have hsize : ¬ noneResultLine.length > plainRuntime.maxMessageBytes := by decide +kernel
  have hstrip : strip noneResultLine = noneResultLine := by decide +kernel
  have hne : noneResultLine ≠ [] := by decide +kernel
  have hloads : loads plainFloats noneResultLine = some noneResultMessage :=
    loads_dumps plainFloats true noneResultMessage (by decide +kernel) fun _ => by decide +kernel
  have hvalue : plainRuntime.loads noneResultLine = .value noneResultMessage := by
    simp [plainRuntime,hloads]
  rw [classify,if_neg hsize,hstrip,if_neg hne,hvalue]
  rfl

/-- An unknown method with a list as its id ends the server, and the answer to a handler that
returns `None` carries neither result nor error. -/
theorem undisciplined_lines :
    (handleLine plainRuntime plainHandlers listIdLine).escapes = true ∧
    ¬ Disciplined plainRuntime plainHandlers listIdLine ∧
    (∃ r, (handleLine plainRuntime plainHandlers noneResultLine).sent = [r] ∧ ¬ CarriesOne r) ∧
    ¬ Disciplined plainRuntime plainHandlers noneResultLine := by
  have hescapes : (handleLine plainRuntime plainHandlers listIdLine).escapes = true := by
    rw [handleLine,classify_listIdLine]
    rfl
  have hanswer : handleLine plainRuntime plainHandlers noneResultLine =
      ⟨[⟨.int 1,none,none⟩],false⟩ := by
    rw [handleLine,classify_noneResultLine]
    rfl
  refine ⟨hescapes,?_,⟨⟨.int 1,none,none⟩,by rw [hanswer],by simp [CarriesOne]⟩,?_⟩
  · simp [Disciplined,classify_listIdLine,Answered,hescapes]
  · simp only [Disciplined,classify_noneResultLine,hanswer,answered_singleton]
    simp [CarriesOne]

end MinimaxCode.Rpc
