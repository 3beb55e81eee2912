import PeakcodeDaemon.Redaction
import PeakcodeDaemon.RemoteApprover

/-!
# The worker

`run_connection` as a machine: the coordinator's loop and its shutdown, the
writer task, the agent's tasks and the calls of `approve` they await, one
step for each stretch that runs without awaiting. The daemon's commands
and what the agent does come as actions; every channel is a list.

- **where the coordinator is** (`Pc`): in its loop, at one of the awaits in
  a branch of it, or past it. `tokio::select!` is the choice of the next
  action, so what holds of every run holds of every order of wake-ups; the
  guards that the branches of the select have (`readsCommands`, and that
  `pendingEvent` or the barrier is empty) are guards of the steps here.
- **deadlines** (`cancelDeadline`, `terminalGiveUp`, `closeDeadline`) may
  expire at any time. There is no clock, and nothing rests on one.
- **errors** that end the loop go through `breakLoop`, which is
  `break 'worker` with the abort of the active turn behind it.

The agent and its messages are not part of this repository. A task is its
event channel and, once it has ended, its outcome; what the agent may do
is not restricted here, and the results that need an agent of a certain
kind say so as a condition on the run.

A held event carries more than the code's `pending_event` does: the item
it stands for, with the proof that the event renders it. Nothing computes
with these; they are what the properties of order and handles speak of.
-/

namespace PeakcodeDaemon

/-- `WORKER_EVENT_CHANNEL_CAPACITY` -/
def workerEventChannelCapacity : Nat := 64

/-- `WORKER_APPROVAL_CHANNEL_CAPACITY` -/
def workerApprovalChannelCapacity : Nat := 64

/-- `MAX_QUEUED_INPUTS`: user inputs retained behind one active turn. -/
def maxQueuedInputs : Nat := 32

inductive AgentEvent where
  | textDelta (text : Text)
  | assistantMessage (text : Text)
  | toolStart (callId name : Text) (arguments : Json.Value)
  | toolResult (callId name content : Text) (isError : Bool)
  | turnFinished

def AgentEvent.isTurnFinished : AgentEvent → Bool
  | .turnFinished => true
  | _ => false

/-- The worker event, the handles drawn for it, and the map afterwards. -/
def mapAgentEvent (callIds : CallIdMapper) (handle : Text) :
    AgentEvent → WorkerEvent × List Text × CallIdMapper
  | .textDelta text => (.textDelta text, [], callIds)
  | .assistantMessage text => (.assistantMessage text, [], callIds)
  | .toolStart callId name arguments =>
      let (callId, drawn, callIds) := callIds.startEvent callId handle
      (.toolStart callId name (Json.render arguments), drawn, callIds)
  | .toolResult callId name content isError =>
      let (callId, drawn, callIds) := callIds.finish callId handle
      (.toolResult callId name content isError, drawn, callIds)
  | .turnFinished => (.turnFinished, [], callIds)

def mapApprovalNotice (notice : ApprovalNotice) : WorkerEvent :=
  .needsApproval notice.callId notice.tool notice.argumentsJson

/-- What the agent did that an outward event stands for. -/
inductive Item where
  | core (event : AgentEvent)
  | approval (notice : ApprovalNotice)

def Item.isTurnFinished : Item → Bool
  | .core event => event.isTurnFinished
  | .approval _ => false

/-- The worker event is one the item is sent as. -/
def Item.Renders : Item → WorkerEvent → Prop
  | .core event, sent => ∃ callIds handle, sent = (mapAgentEvent callIds handle event).1
  | .approval notice, sent => sent = mapApprovalNotice notice

/-- An outward event, with the turn and the item it stands for; the code
looks at the event only. -/
structure Held where
  turn : Nat
  item : Item
  event : WorkerEvent
  renders : item.Renders event

/-- How a task ends. The last two are its `JoinError`s. -/
inductive Outcome (Message : Type) where
  | ok (finalMessages : List Message)
  | failed (error : Text)
  | panicked (error : Text)
  | cancelled (error : Text)

structure AgentTask (Message : Type) where
  events : List AgentEvent
  closed : Bool
  outcome : Option (Outcome Message)
  aborted : Bool

/-- What `run_connection` ends with. -/
abbrev Ended := Except Text Unit

/-- Where the coordinator is: in its loop, or awaiting something in a branch
of it, or past it. -/
inductive Pc where
  | running
  | cancelling (turn : Nat)
  | stopping (turn : Nat)
  | joining (turn : Nat)
  | terminal (event : WorkerEvent) (result : Ended)
  | aborting (result : Ended)
  | closing (result : Ended)
  | returned (result : Ended)

inductive WriterTask where
  | receiving
  | writing (frame : WorkerEvent)
  | finished (result : Ended)
  | aborted

/-- The receiver of the event channel is alive. -/
def WriterTask.receives : WriterTask → Bool
  | .receiving | .writing _ => true
  | .finished _ | .aborted => false

/-- What a connection is set up with. -/
structure Setup (Message : Type) where
  user : Text → Message
  messages : List Message
  registeredTools : List Text
  redactor : Redactor

/-- Texts for messages, no history, and nothing to hide. -/
def plainSetup (registeredTools : List Text) : Setup Text :=
  ⟨id, [], registeredTools, .fromNamedValues [] []⟩

structure Worker (Message : Type) where
  pc : Pc
  messages : List Message
  active : Option Nat
  nextTurn : Nat
  tasks : Nat → AgentTask Message
  queuedInputs : List Text
  pendingEvent : Option Held
  approvalBarrier : Option (Nat × ApprovalNotice)
  approvals : List (Nat × ApprovalNotice)
  approver : RemoteApprover
  callIds : CallIdMapper
  outbound : List WorkerEvent
  writer : WriterTask
  frames : List WorkerEvent

def doneEvent (finalMessageCount : Nat) : WorkerEvent := .done finalMessageCount

def queueLimitExceeded : Text := "worker input queue limit exceeded (maximum 32)".toList
def cancellationDeadlineExceeded : Text := "agent cancellation cleanup deadline exceeded".toList
def agentTurnFailed : Text := "agent turn failed".toList
def writerClosed : Text := "worker event writer closed".toList

namespace Worker

variable {Message : Type}

inductive Action (Message : Type) where
  | command (command : DaemonCommand)
  | commandsClosed
  | commandError (error : Text)
  | startTurn
  | barrier (handle : Text)
  | takeNotice
  | takeEvent (handle : Text)
  | reserve
  | cancelCompleted
  | cancelDeadline
  | stopDone
  | joinTurn
  | terminalSend
  | terminalGiveUp
  | abortDone
  | closed
  | closeDeadline
  | writerRecv
  | writerWrite
  | writerFail (error : Text)
  | writerEnd
  | emit (turn : Nat) (event : AgentEvent)
  | closeEvents (turn : Nat)
  | finish (turn : Nat) (outcome : Outcome Message)
  | call (action : RemoteApprover.Action)

/-- What is observed of a run. `asked` is a call of `approve` that needs a
decision, `joined` a turn that was not cancelled or stopped. -/
inductive Obs (Message : Type) where
  | approver (o : RemoteApprover.Obs)
  | drew (handle : Text)
  | started (turn : Nat) (input : Text) (messages : List Message)
  | emitted (turn : Nat) (event : AgentEvent)
  | asked (turn : Nat) (notice : ApprovalNotice)
  | finished (turn : Nat) (outcome : Outcome Message)
  | joined (turn : Nat) (outcome : Outcome Message)
  | enqueued (held : Held)
  | terminal (event : WorkerEvent)

def new (setup : Setup Message) : Worker Message where
  pc := .running
  messages := setup.messages
  active := none
  nextTurn := 0
  tasks := fun _ => ⟨[], false, none, false⟩
  queuedInputs := []
  pendingEvent := none
  approvalBarrier := none
  approvals := []
  approver := .new setup.registeredTools
  callIds := .empty
  outbound := []
  writer := .receiving
  frames := []

section Operations

variable (s : Worker Message)

def abortTask (turn : Nat) : Nat → AgentTask Message :=
  Function.update s.tasks turn { s.tasks turn with aborted := true }

/-- `break 'worker`, up to the await in `abort_turn` if a turn is active. -/
def breakLoop (result : Ended) : Worker Message :=
  { s with
    pc := .aborting result
    tasks := match s.active with
      | some turn => s.abortTask turn
      | none => s.tasks }

/-- `send_ordered_terminal_event`: the held event is still to go first. -/
def sendOrdered (event : WorkerEvent) (result : Ended) : Worker Message :=
  { s with pc := .terminal event result }

/-- `send_terminal_event` -/
def sendTerminal (event : WorkerEvent) (result : Ended) : Worker Message :=
  { s with pc := .terminal event result, pendingEvent := none }

/-- Pending approvals, call ids and notices go. -/
def release : Worker Message :=
  { s with approver := s.approver.cancelPending, callIds := .empty, approvals := [] }

/-- A held approval request goes, an ordinary held event stays. -/
def keepOrdinary : Option Held → Option Held
  | some held => match held.event with
      | .needsApproval .. => none
      | _ => some held
  | none => none

/-- The coordinator has something to read commands beside, or nothing else to do. -/
def readsCommands : Bool :=
  match s.active with
  | some _ => s.pendingEvent.isSome || s.approvalBarrier.isNone
  | none => s.pendingEvent.isSome || s.queuedInputs.isEmpty

def approve (callId : Text) (decision : IpcApprovalDecision) :
    Worker Message × List (Obs Message) :=
  ({ s with approver := (s.approver.resolve callId decision).1 },
    (s.approver.resolve callId decision).2.map .approver)

def queueInput (text : Text) : Worker Message := { s with queuedInputs := s.queuedInputs ++ [text] }

/-- An input where a turn or a held event is in front of it. -/
def queueInputLimited (text : Text) : Worker Message :=
  if s.queuedInputs.length = maxQueuedInputs then
    s.sendOrdered (.crash queueLimitExceeded) (.error queueLimitExceeded)
  else s.queueInput text

def commandActive (turn : Nat) : DaemonCommand → Worker Message × List (Obs Message)
  | .input text => (s.queueInputLimited text, [])
  | .approve callId decision => s.approve callId decision
  | .cancel => ({ s with pc := .cancelling turn, active := none, tasks := s.abortTask turn }, [])
  | .stop => ({ s with pc := .stopping turn, active := none, tasks := s.abortTask turn }, [])

def commandHeld : DaemonCommand → Worker Message × List (Obs Message)
  | .input text => (s.queueInputLimited text, [])
  | .approve callId decision => s.approve callId decision
  | .cancel => (s, [])
  | .stop => (s.sendOrdered (doneEvent s.messages.length) (.ok ()), [])

def commandIdle : DaemonCommand → Worker Message × List (Obs Message)
  | .input text => (s.queueInput text, [])
  | .approve callId decision => s.approve callId decision
  | .cancel => (s, [])
  | .stop => (s.sendTerminal (doneEvent s.messages.length) (.ok ()), [])

def onCommand (command : DaemonCommand) : Worker Message × List (Obs Message) :=
  match s.active, s.pendingEvent with
  | some turn, _ => s.commandActive turn command
  | none, some _ => s.commandHeld command
  | none, none => s.commandIdle command

/-- `start_turn` -/
def startTurn (setup : Setup Message) (text : Text) (rest : List Text) :
    Worker Message × List (Obs Message) :=
  ({ s with
      active := some s.nextTurn
      nextTurn := s.nextTurn + 1
      tasks := Function.update s.tasks s.nextTurn ⟨[], false, none, false⟩
      queuedInputs := rest },
    [.started s.nextTurn text (s.messages ++ [setup.user text])])

/-- The first buffered event of the turn is mapped and held. -/
def holdEvent (handle : Text) (turn : Nat) (event : AgentEvent) (rest : List AgentEvent) :
    Worker Message × List (Obs Message) :=
  let mapped := mapAgentEvent s.callIds handle event
  ({ s with
      pendingEvent := some ⟨turn, .core event, mapped.1, s.callIds, handle, rfl⟩
      callIds := mapped.2.2
      tasks := Function.update s.tasks turn { s.tasks turn with events := rest } },
    mapped.2.1.map .drew)

/-- The approval request goes out next. -/
def holdNotice (barrier : Nat × ApprovalNotice) : Worker Message :=
  { s with
    approvalBarrier := none
    pendingEvent := some ⟨barrier.1, .approval barrier.2, mapApprovalNotice barrier.2, rfl⟩ }

/-- `try_recv` of the active turn's channel, behind the approval barrier. -/
def tryRecv (handle : Text) (turn : Nat) (barrier : Nat × ApprovalNotice) :
    Worker Message × List (Obs Message) :=
  match (s.tasks turn).events with
  | event :: rest => s.holdEvent handle turn event rest
  | [] =>
      if (s.tasks turn).closed then ({ s with approvalBarrier := none }, [])
      else (s.holdNotice barrier, [])

/-- The event branch of the select: an event, or the end of the channel. -/
def recvEvent (handle : Text) (turn : Nat) : Option (Worker Message × List (Obs Message)) :=
  match (s.tasks turn).events with
  | event :: rest => some (s.holdEvent handle turn event rest)
  | [] =>
      if (s.tasks turn).closed then some ({ s with pc := .joining turn, active := none }, [])
      else none

/-- The event channel takes an event. -/
def sends : Bool :=
  s.writer.receives && decide (s.outbound.length < workerEventChannelCapacity)

def enqueue (held : Held) : Worker Message × List (Obs Message) :=
  ({ s with pendingEvent := none, outbound := s.outbound ++ [held.event] }, [.enqueued held])

/-- What is left to do for `cancel` once the aborted turn is dealt with. -/
def cancelled : Worker Message :=
  { s.release with approvalBarrier := none, pendingEvent := keepOrdinary s.pendingEvent }

/-- What follows the await of the turn's task. -/
def join : Outcome Message → Worker Message
  | .ok finalMessages =>
      { s with pc := .running, messages := finalMessages, callIds := .empty, approvals := [] }
  | .failed error => s.sendTerminal (.crash error) (.error agentTurnFailed)
  | .panicked error | .cancelled error => s.breakLoop (.error error)

/-- A step of the approver that the coordinator has no part in. -/
def advance (action : RemoteApprover.Action) : Option (Worker Message × List (Obs Message)) :=
  (s.approver.step action).map fun (approver, os) =>
    ({ s with approver := approver }, os.map .approver)

/-- A call of `approve` goes on. Naming also writes the map of call ids, and
a notice needs room in the approval channel; its delivery fails only when
`run_connection` has dropped the receiver. -/
def stepCall : RemoteApprover.Action → Option (Worker Message × List (Obs Message))
  | .resolve .. | .cancelPending => none
  | .request turn providerCallId tool arguments =>
      if turn < s.nextTurn then s.advance (.request turn providerCallId tool arguments) else none
  | .name c handle => (s.approver.calls c).bind fun call =>
      (s.advance (.name c handle)).map fun (s', os) =>
        ({ s' with callIds := s.callIds.startApproval call.providerCallId handle },
          os ++ [.asked call.turn (call.notice handle)])
  | .notify c => (s.approver.calls c).bind fun call =>
      match call.stage with
      | .registered handle =>
          if s.approvals.length < workerApprovalChannelCapacity then
            (s.advance (.notify c)).map fun (s', os) =>
              ({ s' with approvals := s.approvals ++ [(call.turn, call.notice handle)] }, os)
          else none
      | _ => none
  | .notifyFail c => match s.pc with
      | .returned _ => s.advance (.notifyFail c)
      | _ => none
  | action => s.advance action

end Operations

def step (setup : Setup Message) (s : Worker Message) :
    Action Message → Option (Worker Message × List (Obs Message))
  | .command command => match s.pc with
      | .running => if s.readsCommands then some (s.onCommand command) else none
      | _ => none
  | .commandsClosed => match s.pc with
      | .running => if s.readsCommands then some (s.breakLoop (.ok ()), []) else none
      | _ => none
  | .commandError error => match s.pc with
      | .running => if s.readsCommands then some (s.breakLoop (.error error), []) else none
      | _ => none
  | .startTurn => match s.pc, s.active, s.pendingEvent, s.queuedInputs with
      | .running, none, none, text :: rest => some (s.startTurn setup text rest)
      | _, _, _, _ => none
  | .barrier handle => match s.pc, s.active, s.pendingEvent, s.approvalBarrier with
      | .running, some turn, none, some barrier => some (s.tryRecv handle turn barrier)
      | _, _, _, _ => none
  | .takeNotice => match s.pc, s.active, s.approvalBarrier, s.approvals with
      | .running, some _, none, notice :: rest =>
          some ({ s with approvalBarrier := some notice, approvals := rest }, [])
      | _, _, _, _ => none
  | .takeEvent handle => match s.pc, s.active, s.pendingEvent, s.approvalBarrier with
      | .running, some turn, none, none => s.recvEvent handle turn
      | _, _, _, _ => none
  | .reserve => match s.pc, s.pendingEvent with
      | .running, some held =>
          if s.sends then some (s.enqueue held)
          else if s.writer.receives then none
          else some (s.breakLoop (.error writerClosed), [])
      | _, _ => none
  | .cancelCompleted => match s.pc with
      | .cancelling turn =>
          if (s.tasks turn).outcome.isSome then
            some ({ s.cancelled with pc := .running }, [.approver .cleared])
          else none
      | _ => none
  | .cancelDeadline => match s.pc with
      | .cancelling _ =>
          some (s.cancelled.sendOrdered (.crash cancellationDeadlineExceeded)
            (.error cancellationDeadlineExceeded), [.approver .cleared])
      | _ => none
  | .stopDone => match s.pc with
      | .stopping _ =>
          some ({ s.release with pendingEvent := keepOrdinary s.pendingEvent }.sendOrdered
            (doneEvent s.messages.length) (.ok ()), [.approver .cleared])
      | _ => none
  | .joinTurn => match s.pc with
      | .joining turn => (s.tasks turn).outcome.map fun outcome =>
          (s.join outcome, [.joined turn outcome])
      | _ => none
  | .terminalSend => match s.pc, s.pendingEvent with
      | .terminal _ _, some held => if s.sends then some (s.enqueue held) else none
      | .terminal event result, none =>
          if s.sends then
            some ({ s.breakLoop result with outbound := s.outbound ++ [event] }, [.terminal event])
          else none
      | _, _ => none
  | .terminalGiveUp => match s.pc with
      | .terminal _ result => some (s.breakLoop result, [])
      | _ => none
  | .abortDone => match s.pc with
      | .aborting result =>
          some ({ s.release with pc := .closing result, active := none }, [.approver .cleared])
      | _ => none
  | .closed => match s.pc, s.writer with
      | .closing result, .finished written =>
          some ({ s with pc := .returned (result.bind fun _ => written) }, [])
      | _, _ => none
  | .closeDeadline => match s.pc with
      | .closing result => some ({ s with pc := .returned result, writer := .aborted }, [])
      | _ => none
  | .writerRecv => match s.writer, s.outbound with
      | .receiving, event :: rest =>
          (setup.redactor.redactEvent event).map fun frame =>
            ({ s with writer := .writing frame, outbound := rest }, [])
      | _, _ => none
  | .writerWrite => match s.writer with
      | .writing frame =>
          if frame.fits then
            some ({ s with writer := .receiving, frames := s.frames ++ [frame] }, [])
          else some ({ s with writer := .finished (.error frameTooLarge) }, [])
      | _ => none
  | .writerFail error => match s.writer with
      | .writing _ => some ({ s with writer := .finished (.error error) }, [])
      | _ => none
  | .writerEnd => match s.pc, s.writer, s.outbound with
      | .closing _, .receiving, [] => some ({ s with writer := .finished (.ok ()) }, [])
      | _, _, _ => none
  | .emit turn event =>
      if turn < s.nextTurn ∧ (s.tasks turn).closed = false then
        some ({ s with
          tasks := Function.update s.tasks turn
            { s.tasks turn with events := (s.tasks turn).events ++ [event] } },
          [.emitted turn event])
      else none
  | .closeEvents turn =>
      if turn < s.nextTurn then
        some ({ s with
            tasks := Function.update s.tasks turn { s.tasks turn with closed := true } }, [])
      else none
  | .finish turn outcome =>
      if turn < s.nextTurn ∧ (s.tasks turn).outcome.isNone then
        some ({ s with
          tasks := Function.update s.tasks turn { s.tasks turn with outcome := some outcome } },
          [.finished turn outcome])
      else none
  | .call action => s.stepCall action

/-- The worker of one connection. -/
def machine (setup : Setup Message) : Machine (Worker Message) (Action Message) (Obs Message) where
  start := new setup
  step := step setup

end Worker

end PeakcodeDaemon
