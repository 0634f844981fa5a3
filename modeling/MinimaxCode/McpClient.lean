import Mathlib.Data.List.Infix
import MinimaxCode.JsonText
import MinimaxCode.Runs

/-!
# The client of an MCP server

A request puts a future under its id into a table, sends its message and waits. The reader
takes the messages of the server in their order, resolves the future that a response names
and hands notifications to a handler. Requests, time limits, cancellations and `close` run
between its steps.
-/

namespace MinimaxCode.McpClient

open PyText PyJson Runs

/-- `int` of a text and `str` of a value. -/
structure Codec where
  intOfStr : PyStr → Option ℤ
  str : Json → PyStr

/-- `key in msg`, which raises on numbers, truth values and null. -/
def containsKey (key : PyStr) : Json → Option Bool
  | .obj fields => some (has fields key)
  | .arr xs => some (xs.any fun
      | .str s => s == key
      | _ => false)
  | .str s => some (decide (key <:+: s))
  | _ => none

section Messages

variable (codec : Codec)

/-- `int(v)`. -/
def pyInt : Json → Option ℤ
  | .int n => some n
  | .bool b => some (if b then 1 else 0)
  | .float (.finite bits) => some bits.truncate
  | .str s => codec.intOfStr s
  | _ => none

/-- What a response brings for its future; an error that is neither empty nor a dictionary raises. -/
inductive Answer
  | result (v : Json)
  | serverError (text : PyStr)
  | malformed

def serverErrorText (err : List (PyStr × Json)) : PyStr :=
  lit "server error "++codec.str ((get err (lit "code")).getD .null)++lit ": "++
    codec.str ((get err (lit "message")).getD .null)

def answerOf (msg : List (PyStr × Json)) : Answer :=
  let result := Answer.result ((get msg (lit "result")).getD .null)
  match get msg (lit "error") with
  | none => result
  | some error =>
    if truthy error then
      match error with
      | .obj err => .serverError (serverErrorText codec err)
      | _ => .malformed
    else result

/-- Where the reader sends a message. -/
inductive Inbound
  | raises
  | response (id : ℤ) (raw : Json) (answer : Answer)
  | notification
  | ignored

def responseOf : Json → Inbound
  | .obj fields =>
    match get fields (lit "id") with
    | none => .raises
    | some raw =>
      match pyInt codec raw with
      | none => .raises
      | some id => .response id raw (answerOf codec fields)
  | _ => .raises

def readMessage (msg : Json) : Inbound :=
  match containsKey (lit "id") msg,containsKey (lit "result") msg,containsKey (lit "error") msg,
    containsKey (lit "method") msg with
  | some id,some result,some error,some method =>
    if id && (result || error) then responseOf codec msg
    else if method then .notification else .ignored
  | _,_,_,_ => .raises

end Messages

/-- How a request ends, or what its future is resolved with. A result and an error of the server keep
the id of their message. -/
inductive Outcome
  | result (raw v : Json)
  | serverError (raw : Json) (text : PyStr)
  | clientClosed
  | transportClosed
  | sendFailed
  | timeout
  | cancelled
  | raised

inductive FutureState
  | undone
  | done (o : Outcome)
  | cancelled

inductive Stage
  | sending
  | waiting
  | ended (o : Outcome)

structure Request where
  id : ℕ
  future : FutureState
  stage : Stage

/-- Why the reader ended. -/
inductive Cause
  | stream
  | cancelled
  | message
  | handler

inductive Reader
  | absent
  | running
  | handling
  | ended (cause : Cause)

/-- The fields of the client. `closing` says that `close` has not come to its cleanup; `refused` counts
the requests that were turned away at once. -/
structure Client where
  closed : Bool
  closing : Bool
  reader : Reader
  lastId : ℕ
  pending : List ℕ
  requests : List Request
  refused : ℕ

/-- How the notification handler takes a message: there is none or it returns, it raises, or it
is suspended. -/
inductive Handling
  | returns
  | raises
  | suspends

inductive Action
  | start
  | request
  | sent (id : ℕ)
  | sendFails (id : ℕ) (isTransportError : Bool)
  | resumes (id : ℕ)
  | timesOut (id : ℕ)
  | isCancelled (id : ℕ)
  | inbound (msg : Json) (handling : Handling)
  | handled (raises : Bool)
  | streamEnds
  | close
  | readerCancelled
  | closeCleans

def Request.isSending (r : Request) : Bool :=
  match r.stage with
  | .sending => true
  | _ => false

def Request.isWaiting (r : Request) : Bool :=
  match r.stage with
  | .waiting => true
  | _ => false

/-- `not fut.done()`. -/
def FutureState.isUndone : FutureState → Bool
  | .undone => true
  | _ => false

def Request.finish (r : Request) (o : Outcome) : Request := { r with stage := .ended o }

/-- The message of a request is sent. -/
def Request.wait (r : Request) : Request :=
  match r.stage with
  | .sending => { r with stage := .waiting }
  | _ => r

/-- `set_result` or `set_exception` on a future that is not done. -/
def Request.resolve (r : Request) (o : Outcome) : Request :=
  if r.future.isUndone then { r with future := .done o } else r

/-- The task that waits for the future is cancelled, and the future with it. -/
def Request.abandon (r : Request) : Request :=
  if r.future.isUndone then { r with future := .cancelled } else r

/-- The request goes on when its future is done. -/
def Request.resume (r : Request) : Request :=
  match r.stage,r.future with
  | .waiting,.done o => r.finish o
  | _,_ => r

/-- The future of a cancelled request goes with it only if it is waited for. -/
def Request.cancel (r : Request) : Request :=
  match r.stage with
  | .sending => r.finish .cancelled
  | .waiting => r.abandon.finish .cancelled
  | .ended _ => r

namespace Client

def new : Client := ⟨false,false,.absent,0,[],[],0⟩

def modify (s : Client) (id : ℕ) (f : Request → Request) : Client :=
  { s with requests := s.requests.map fun r => if r.id = id then f r else r }

def pop (s : Client) (id : ℕ) : Client := { s with pending := s.pending.erase id }

/-- Some request with the identifier meets a test. -/
def someRequest (s : Client) (id : ℕ) (test : Request → Bool) : Bool :=
  s.requests.any fun r => r.id == id && test r

/-- Fail the requests in flight and clear the table. -/
def failPending (s : Client) (o : Outcome) : Client :=
  { s with
    requests := s.requests.map fun r => if r.id ∈ s.pending then r.resolve o else r
    pending := [] }

/-- The end of `_reader_loop`. -/
def endReader (s : Client) (cause : Cause) : Client :=
  { s.failPending .transportClosed with reader := .ended cause }

/-- The future of a request that waits in the table is not done. -/
def isOpen (s : Client) (id : ℕ) : Bool :=
  decide (id ∈ s.pending) && s.someRequest id fun r => r.future.isUndone

/-- `_dispatch_response`. The entry is gone before the message is looked at. -/
def dispatchResponse (s : Client) (id : ℤ) (raw : Json) (answer : Answer) : Client :=
  match s.pending.find? fun k : ℕ => (k : ℤ) = id with
  | none => s
  | some k =>
    if s.isOpen k then
      match answer with
      | .result v => (s.pop k).modify k fun r => r.resolve (.result raw v)
      | .serverError text => (s.pop k).modify k fun r => r.resolve (.serverError raw text)
      | .malformed => (s.pop k).endReader .message
    else s.pop k

/-- A round of the reader. -/
def receive (codec : Codec) (s : Client) (msg : Json) (handling : Handling) : Client :=
  match readMessage codec msg with
  | .raises => s.endReader .message
  | .response id raw answer => s.dispatchResponse id raw answer
  | .notification =>
    match handling with
    | .returns => s
    | .raises => s.endReader .handler
    | .suspends => { s with reader := .handling }
  | .ignored => s

/-- `_request` up to its first suspension. -/
def request (s : Client) : Client :=
  if s.closed then { s with refused := s.refused+1 }
  else
    { s with
      lastId := s.lastId+1
      pending := s.pending++[s.lastId+1]
      requests := s.requests++[⟨s.lastId+1,.undone,.sending⟩] }

def step (codec : Codec) (s : Client) : Action → Option Client
  | .start =>
    match s.reader with
    | .absent => some { s with reader := .running }
    | _ => some s
  | .request => some s.request
  | .sent id =>
    if s.someRequest id Request.isSending then some (s.modify id Request.wait)
    else none
  | .sendFails id isTransportError =>
    if s.someRequest id Request.isSending then
      if isTransportError then some ((s.pop id).modify id fun r => r.finish .sendFailed)
      else some (s.modify id fun r => r.finish .raised)
    else none
  | .resumes id => some (s.modify id Request.resume)
  | .timesOut id =>
    if s.someRequest id Request.isWaiting then
      some ((s.pop id).modify id fun r => r.abandon.finish .timeout)
    else none
  | .isCancelled id => some (s.modify id Request.cancel)
  | .inbound msg handling =>
    match s.reader with
    | .running => some (s.receive codec msg handling)
    | _ => none
  | .handled raises =>
    match s.reader with
    | .handling => if raises then some (s.endReader .handler) else some { s with reader := .running }
    | _ => none
  | .streamEnds =>
    match s.reader with
    | .running => some (s.endReader .stream)
    | _ => none
  | .close => if s.closed then some s else some { s with closed := true, closing := true }
  | .readerCancelled =>
    if s.closed then
      match s.reader with
      | .running => some { s with reader := .ended .cancelled }
      | .handling => some { s with reader := .ended .cancelled }
      | _ => none
    else none
  | .closeCleans =>
    if s.closing then some { s.failPending .clientClosed with closing := false } else none

end Client

end MinimaxCode.McpClient
