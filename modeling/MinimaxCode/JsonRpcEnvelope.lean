import MinimaxCode.WireIds

/-!
# JSON-RPC envelopes

Requests, notifications and responses with the session and the sequence number of the hub. A
payload is any JSON value. A response has a result or an error; a result that is null counts as
no result when a response is read.
-/

namespace MinimaxCode.ToolProtocol

open PyText PyJson RecordFields

structure JsonRpcVersion where

def JsonRpcVersion.VERSION : PyStr := lit "2.0"

def JsonRpcVersion.toWire (_ : JsonRpcVersion) : Json := .str VERSION

def JsonRpcVersion.fromWire : Json → Except WireError JsonRpcVersion
  | .str s => if s = VERSION then .ok ⟨⟩ else .error (.version (.str s))
  | v => .error (.version v)

/-- An `int` that a signed word of 64 bits holds. -/
structure JsonRpcIdNumber where
  value : ℤ
  bounded : -2^63 ≤ value ∧ value ≤ 2^63-1

inductive JsonRpcId
  | string (value : PyStr)
  | number (n : JsonRpcIdNumber)

def JsonRpcId.toWire : JsonRpcId → Json
  | .string value => .str value
  | .number n => .int n.value

def JsonRpcIdNumber.new (n : ℤ) : Except WireError JsonRpcIdNumber :=
  if h : -2^63 ≤ n ∧ n ≤ 2^63-1 then .ok ⟨n,h⟩
  else .error (.valueError (lit "JsonRpcIdNumber expects i64, got out-of-range "++intText n))

/-- `jsonrpc_id_from_wire`. -/
def JsonRpcId.fromWire : Json → Except WireError JsonRpcId
  | .str s => .ok (.string s)
  | .int n => (JsonRpcIdNumber.new n).map .number
  | v => .error (.valueError (lit "JsonRpcId must be string or number, got "++typeName v))

structure JsonRpcRequest where
  jsonrpc : JsonRpcVersion
  id : JsonRpcId
  method : PyStr
  params : Json
  sessionId : Option SessionId

structure JsonRpcNotification where
  jsonrpc : JsonRpcVersion
  method : PyStr
  params : Json
  sessionId : Option SessionId
  seq : Option FrameSeq

/-- The data of an error is `None` when it is left out. -/
structure JsonRpcError where
  code : ℤ
  message : PyStr
  data : Json

inductive ResponseOutcome
  | result (value : Json)
  | error (error : JsonRpcError)

structure JsonRpcResponse where
  jsonrpc : JsonRpcVersion
  id : JsonRpcId
  outcome : ResponseOutcome
  sessionId : Option SessionId

def JsonRpcRequest.toWire (r : JsonRpcRequest) : Json := object [
  (lit "jsonrpc",some r.jsonrpc.toWire),
  (lit "id",some r.id.toWire),
  (lit "session_id",r.sessionId.map OpaqueId.toWire),
  (lit "method",some (.str r.method)),
  (lit "params",some r.params)]

def JsonRpcNotification.toWire (n : JsonRpcNotification) : Json := object [
  (lit "jsonrpc",some n.jsonrpc.toWire),
  (lit "session_id",n.sessionId.map OpaqueId.toWire),
  (lit "seq",n.seq.map FrameSeq.toWire),
  (lit "method",some (.str n.method)),
  (lit "params",some n.params)]

def JsonRpcError.toWire (e : JsonRpcError) : Json := object [
  (lit "code",some (.int e.code)),
  (lit "message",some (.str e.message)),
  (lit "data",notNone e.data)]

def ResponseOutcome.field : ResponseOutcome → PyStr × Option Json
  | .result value => (lit "result",some value)
  | .error e => (lit "error",some e.toWire)

def JsonRpcResponse.toWire (r : JsonRpcResponse) : Json := object [
  (lit "jsonrpc",some r.jsonrpc.toWire),
  (lit "id",some r.id.toWire),
  (lit "session_id",r.sessionId.map OpaqueId.toWire),
  r.outcome.field]

section Reading

variable (py : Python)

def JsonRpcRequest.fromWire (data : Json) : Except WireError JsonRpcRequest := do
  let data ← dict data
  let jsonrpc ← JsonRpcVersion.fromWire (← item data (lit "jsonrpc"))
  let id ← JsonRpcId.fromWire (← item data (lit "id"))
  let method ← item data (lit "method")
  let params ← item data (lit "params")
  let sessionId ← unlessNone (OpaqueId.fromWire py .session) (getOrNone data (lit "session_id"))
  return ⟨jsonrpc,id,pyStr py method,params,sessionId⟩

def JsonRpcNotification.fromWire (data : Json) : Except WireError JsonRpcNotification := do
  let data ← dict data
  let jsonrpc ← JsonRpcVersion.fromWire (← item data (lit "jsonrpc"))
  let method ← item data (lit "method")
  let params ← item data (lit "params")
  let sessionId ← unlessNone (OpaqueId.fromWire py .session) (getOrNone data (lit "session_id"))
  let seq ← unlessNone FrameSeq.fromWire (getOrNone data (lit "seq"))
  return ⟨jsonrpc,pyStr py method,params,sessionId,seq⟩

def JsonRpcError.fromWire (data : Json) : Except WireError JsonRpcError := do
  let data ← dict data
  let code ← pyInt py (← item data (lit "code"))
  let message ← item data (lit "message")
  return ⟨code,pyStr py message,getOrNone data (lit "data")⟩

/-- Of a result and an error that are not `None` there is exactly one. -/
def ResponseOutcome.fromWire (result error : Json) : Except WireError ResponseOutcome :=
  if !result.isNull && !error.isNull then
    .error (.valueError (lit "JSON-RPC response must contain `result` XOR `error`, got both"))
  else if result.isNull && error.isNull then
    .error (.valueError (lit "JSON-RPC response must contain `result` or `error`"))
  else if !result.isNull then .ok (.result result)
  else (JsonRpcError.fromWire py error).map .error

def JsonRpcResponse.fromWire (data : Json) : Except WireError JsonRpcResponse := do
  let data ← dict data
  let jsonrpc ← JsonRpcVersion.fromWire (← item data (lit "jsonrpc"))
  let id ← JsonRpcId.fromWire (← item data (lit "id"))
  let outcome ← ResponseOutcome.fromWire py (getOrNone data (lit "result"))
    (getOrNone data (lit "error"))
  let sessionId ← unlessNone (OpaqueId.fromWire py .session) (getOrNone data (lit "session_id"))
  return ⟨jsonrpc,id,outcome,sessionId⟩

end Reading

section RoundTrips

variable (py : Python)

@[simp] theorem JsonRpcVersion.fromWire_toWire (v : JsonRpcVersion) : fromWire v.toWire = .ok v := rfl

@[simp] theorem JsonRpcId.fromWire_toWire (id : JsonRpcId) : fromWire id.toWire = .ok id := by
  cases id with
  | string value => rfl
  | number n =>
    have hnew : JsonRpcIdNumber.new n.value = .ok n := dif_pos n.bounded
    simp [fromWire,toWire,hnew,Except.map]

theorem JsonRpcRequest.fromWire_toWire (r : JsonRpcRequest) :
    JsonRpcRequest.fromWire py r.toWire = .ok r := by
  simp [JsonRpcRequest.fromWire,JsonRpcRequest.toWire,item,getOrNone]

theorem JsonRpcNotification.fromWire_toWire (n : JsonRpcNotification) :
    JsonRpcNotification.fromWire py n.toWire = .ok n := by
  simp [JsonRpcNotification.fromWire,JsonRpcNotification.toWire,item,getOrNone]

theorem JsonRpcError.fromWire_toWire (e : JsonRpcError) :
    JsonRpcError.fromWire py e.toWire = .ok e := by
  simp [JsonRpcError.fromWire,JsonRpcError.toWire,item,getOrNone]

/-- The error that reading an outcome raises: a result that is null counts as none. -/
def ResponseOutcome.refusal : ResponseOutcome → Option WireError
  | .result .null =>
    some (.valueError (lit "JSON-RPC response must contain `result` or `error`"))
  | _ => none

/-- The two fields a reader sees of an outcome. -/
def ResponseOutcome.sides : ResponseOutcome → Json × Json
  | .result value => (value,.null)
  | .error e => (.null,e.toWire)

theorem ResponseOutcome.fromWire_sides (o : ResponseOutcome) :
    fromWire py o.sides.1 o.sides.2 = answer o o.refusal := by
  cases o with
  | result value => cases value <;> rfl
  | error e =>
    have hnull : e.toWire.isNull = false := rfl
    simp [fromWire,sides,refusal,answer,hnull,JsonRpcError.fromWire_toWire,Except.map]

theorem JsonRpcResponse.fromWire_toWire (r : JsonRpcResponse) :
    JsonRpcResponse.fromWire py r.toWire = answer r r.outcome.refusal := by
  obtain ⟨jsonrpc,id,outcome,sessionId⟩ := r
  have hsides := ResponseOutcome.fromWire_sides py outcome
  rw [← map_answer (fun outcome => JsonRpcResponse.mk jsonrpc id outcome sessionId),← hsides]
  cases outcome with
  | result value =>
    simp [JsonRpcResponse.fromWire,JsonRpcResponse.toWire,ResponseOutcome.field,
      ResponseOutcome.sides,item,getOrNone]
    cases ResponseOutcome.fromWire py value .null <;> rfl
  | error e =>
    simp [JsonRpcResponse.fromWire,JsonRpcResponse.toWire,ResponseOutcome.field,
      ResponseOutcome.sides,item,getOrNone]
    cases ResponseOutcome.fromWire py .null e.toWire <;> rfl

end RoundTrips

end MinimaxCode.ToolProtocol
