import MinimaxCode.JsonRpcEnvelope
import MinimaxCode.SessionEvents
import MinimaxCode.ToolErrorWire
import MinimaxCode.ToolOutputWire

/-!
# Reading back what the tool protocol writes

Every value of the protocol is read back from its own JSON as it was, with two exceptions that the
readers make on purpose. A response whose result is null has no result for its reader, and a
registration under a server id with the reserved prefix is not a client's.
-/

namespace MinimaxCode.ToolProtocol

open PyText PyJson RecordFields

/-- What the protocol sends: envelopes, errors and outputs of tools, registrations, the frames of
tool calls, session events and turn hooks. -/
inductive Message
  | request (r : JsonRpcRequest)
  | notification (n : JsonRpcNotification)
  | rpcError (e : JsonRpcError)
  | response (r : JsonRpcResponse)
  | toolError (e : ErrorWire.ToolErrorWire)
  | toolOutput (o : ToolOutputWire)
  | registration (r : ToolRegistration)
  | serverRegistration (r : ToolServerRegistration)
  | callParams (p : ToolCallParams)
  | callResult (r : ToolCallResult)
  | callProgress (p : ToolCallProgressFrame)
  | sessionEvent (e : SessionEvent)
  | turnHook (r : TurnHookRequest)

/-- Reading a message back from the JSON of its `to_wire` gives an equal message, or raises. -/
def Message.Rereads (py : Python) (m : Message) (raised : Option WireError) : Prop :=
  match m with
  | .request r => JsonRpcRequest.fromWire py r.toWire = answer r raised
  | .notification n => JsonRpcNotification.fromWire py n.toWire = answer n raised
  | .rpcError e => JsonRpcError.fromWire py e.toWire = answer e raised
  | .response r => JsonRpcResponse.fromWire py r.toWire = answer r raised
  | .toolError e => ErrorWire.fromWire py e.toWire = answer e.toInstance raised
  | .toolOutput o => ToolOutputWire.fromWire py o.toWire = answer o raised
  | .registration r => ToolRegistration.fromWire py r.toWire = answer r raised
  | .serverRegistration r => ToolServerRegistration.fromWire py r.toWire = answer r raised
  | .callParams p => ToolCallParams.fromWire py p.toWire = answer p raised
  | .callResult r => ToolCallResult.fromWire py r.toWire = answer r raised
  | .callProgress p => ToolCallProgressFrame.fromWire py p.toWire = answer p raised
  | .sessionEvent e => SessionEvent.fromWire py e.toWire = answer e raised
  | .turnHook r => TurnHookRequest.fromWire py r.toWire = answer r raised

/-- The error of the messages that are refused. -/
def Message.refusal : Message → Option WireError
  | .response r => r.outcome.refusal
  | .registration r => r.serverId.bind ServerId.refusal
  | .serverRegistration r => r.serverId.refusal
  | _ => none

theorem Message.reread_own_json (py : Python) (m : Message) : m.Rereads py m.refusal := by
  cases m with
  | request r => exact JsonRpcRequest.fromWire_toWire py r
  | notification n => exact JsonRpcNotification.fromWire_toWire py n
  | rpcError e => exact JsonRpcError.fromWire_toWire py e
  | response r => exact JsonRpcResponse.fromWire_toWire py r
  | toolError e => exact ErrorWire.fromWire_toWire e py
  | toolOutput o => exact ToolOutputWire.fromWire_toWire py o
  | registration r => exact ToolRegistration.fromWire_toWire py r
  | serverRegistration r => exact ToolServerRegistration.fromWire_toWire py r
  | callParams p => exact ToolCallParams.fromWire_toWire py p
  | callResult r => exact ToolCallResult.fromWire_toWire py r
  | callProgress p => exact ToolCallProgressFrame.fromWire_toWire py p
  | sessionEvent e => exact SessionEvent.fromWire_toWire py e
  | turnHook r => exact TurnHookRequest.fromWire_toWire py r

def plainPython : Python := ⟨fun _ => [],fun _ => none,fun _ => .error .typeError⟩

/-- A tool that returned null. -/
def nullResponse : JsonRpcResponse := ⟨⟨⟩,.string (lit "1"),.result .null,none⟩

def echoTool : ToolId := ⟨lit "echo",by rfl⟩

def echoText : UnicodeText := ⟨lit "echo",by rfl⟩

/-- A tool under the server id that the hub made for it. -/
def echoRegistration : ToolRegistration where
  toolId := echoTool
  userId := ⟨lit "u",by rfl⟩
  description := ⟨echoText,none,none,echoText,.null,none⟩
  transportKind := .local
  sessions := some []
  serverId := some (.synthesizeForTool ⟨lit "c",by rfl⟩ echoTool)
  inputSchema := .null
  capabilities := none
  notificationSchemas := none
  ifMatchGeneration := none
  metadata := .null

theorem null_and_synthesized_refused : ¬ (Message.response nullResponse).Rereads plainPython none ∧
    ¬ (Message.registration echoRegistration).Rereads plainPython none := by
  constructor
  · intro h
    have hraised := JsonRpcResponse.fromWire_toWire plainPython nullResponse
    cases h.symm.trans hraised
  · intro h
    have hraised := ToolRegistration.fromWire_toWire plainPython echoRegistration
    cases h.symm.trans hraised

end MinimaxCode.ToolProtocol
