import PeakcodeDaemon.Lib.Json
import PeakcodeDaemon.Lib.Utf8

/-!
# The messages on the internal socket

The commands a worker reads and the events it writes, and the JSON object
each of them is sent as. Call ids are opaque texts.

The redactor changes the texts of an event and leaves its call id, its
kind and its counts (`WorkerEvent.mapTexts`); `WorkerEvent.texts` lists
the fields it reaches. The arguments of a tool are one of them: a JSON
text inside a string of the frame, redacted like any other text
(`WorkerEvent.argumentsJson?`).
-/

namespace PeakcodeDaemon

abbrev Text := List Char

/-- `MAX_IPC_FRAME_BYTES`: the largest JSON payload of one frame. -/
def maxIpcFrameBytes : Nat := 1024 * 1024

def frameTooLarge : Text := "IPC frame exceeds maximum size".toList
def missingNewline : Text := "IPC frame missing newline delimiter".toList

inductive IpcApprovalDecision where
  | allow | deny | allowAll
deriving DecidableEq, Repr

inductive WorkerEvent where
  | textDelta (text : Text)
  | assistantMessage (text : Text)
  | toolStart (callId name argumentsJson : Text)
  | toolResult (callId name content : Text) (isError : Bool)
  | needsApproval (callId tool argumentsJson : Text)
  | turnFinished
  | done (finalMessageCount : Nat)
  | crash (message : Text)
deriving DecidableEq, Repr

inductive DaemonCommand where
  | input (text : Text)
  | approve (callId : Text) (decision : IpcApprovalDecision)
  | cancel
  | stop
deriving DecidableEq, Repr

/-- The object of a message: its kind, and then its fields. -/
def tagged (kind : String) (fields : List (String × Json.Value)) : Json.Value :=
  .obj (("kind".toList, .str kind.toList) :: fields.map fun (name, v) => (name.toList, v))

namespace WorkerEvent

/-- Terminal events close the stream. -/
def isTerminal : WorkerEvent → Bool
  | .done _ | .crash _ => true
  | _ => false

/-- The string fields other than the call id. -/
def texts : WorkerEvent → List Text
  | .textDelta text | .assistantMessage text => [text]
  | .toolStart _ name argumentsJson => [name, argumentsJson]
  | .toolResult _ name content _ => [name, content]
  | .needsApproval _ tool argumentsJson => [tool, argumentsJson]
  | .crash message => [message]
  | .turnFinished | .done _ => []

/-- The arguments field, itself a JSON text. -/
def argumentsJson? : WorkerEvent → Option Text
  | .toolStart _ _ argumentsJson | .needsApproval _ _ argumentsJson => some argumentsJson
  | _ => none

def mapTexts (f : Text → Text) : WorkerEvent → WorkerEvent
  | .textDelta text => .textDelta (f text)
  | .assistantMessage text => .assistantMessage (f text)
  | .toolStart callId name argumentsJson => .toolStart callId (f name) (f argumentsJson)
  | .toolResult callId name content isError => .toolResult callId (f name) (f content) isError
  | .needsApproval callId tool argumentsJson => .needsApproval callId (f tool) (f argumentsJson)
  | .crash message => .crash (f message)
  | .turnFinished => .turnFinished
  | .done finalMessageCount => .done finalMessageCount

@[simp] theorem texts_mapTexts (f : Text → Text) (event : WorkerEvent) :
    (event.mapTexts f).texts = event.texts.map f := by
  cases event <;> rfl

@[simp] theorem argumentsJson?_mapTexts (f : Text → Text) (event : WorkerEvent) :
    (event.mapTexts f).argumentsJson? = event.argumentsJson?.map f := by
  cases event <;> rfl

/-- The object an event is sent as. -/
def toValue : WorkerEvent → Json.Value
  | .textDelta text => tagged "text_delta" [("text", .str text)]
  | .assistantMessage text => tagged "assistant_message" [("text", .str text)]
  | .toolStart callId name argumentsJson => tagged "tool_start"
      [("call_id", .str callId), ("name", .str name), ("arguments_json", .str argumentsJson)]
  | .toolResult callId name content isError => tagged "tool_result"
      [("call_id", .str callId), ("name", .str name), ("content", .str content),
        ("is_error", .bool isError)]
  | .needsApproval callId tool argumentsJson => tagged "needs_approval"
      [("call_id", .str callId), ("tool", .str tool), ("arguments_json", .str argumentsJson)]
  | .turnFinished => tagged "turn_finished" []
  | .done finalMessageCount => tagged "done"
      [("final_message_count", .num (.ofNat finalMessageCount))]
  | .crash message => tagged "crash" [("message", .str message)]

/-- The JSON payload of the frame an event is written as. -/
def payload (event : WorkerEvent) : Text := Json.render event.toValue

/-- `write_frame` accepts the event. -/
def fits (event : WorkerEvent) : Bool := decide (Utf8.byteLen event.payload ≤ maxIpcFrameBytes)

end WorkerEvent

/-- The text a decision is sent as. -/
def IpcApprovalDecision.name : IpcApprovalDecision → String
  | .allow => "allow"
  | .deny => "deny"
  | .allowAll => "allow_all"

/-- The object a command is sent as. -/
def DaemonCommand.toValue : DaemonCommand → Json.Value
  | .input text => tagged "input" [("text", .str text)]
  | .approve callId decision => tagged "approve"
      [("call_id", .str callId), ("decision", .str decision.name.toList)]
  | .cancel => tagged "cancel" []
  | .stop => tagged "stop" []

end PeakcodeDaemon
