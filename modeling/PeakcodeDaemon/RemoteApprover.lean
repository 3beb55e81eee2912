import PeakcodeDaemon.CallIdMapper
import PeakcodeDaemon.Lib.Machine

/-!
# The remote approver

The `approve` futures and the pending map they share with the coordinator,
one step for each stretch of code that runs without awaiting or giving up
a lock. Any number of calls is under way, and the steps of different calls
interleave in any way, as tasks on a runtime with several threads do.

A call is known by its generation token, and its oneshot channel by the
same number: `reply` is what was sent on it, the receiver lives while the
call waits (`Stage.receives`), and the sender lives in the pending map, so
it is dropped with its entry (`senderDropped`).

The stages of a call follow the source line by line. What is between two
locks matters: a call that has been named and not yet registered has no
entry, one that has registered and not yet notified has one that nobody
was told of, and dropping a future drops the receiver before the guard
(`abortStage`). `resolve` removes the entry first, asks then whether the
receiver is alive, and keeps a grant only if it was.

`new_handle` is an input: the action that names a call brings the handle.
Nothing here says that handles are fresh; the results that need it state
it of the run.
-/

namespace PeakcodeDaemon

inductive ApprovalDecision where
  | allow | deny | allowAll
deriving DecidableEq, Repr

def mapDecision : IpcApprovalDecision → ApprovalDecision
  | .allow => .allow
  | .deny => .deny
  | .allowAll => .allowAll

structure PendingApproval where
  token : Nat
  tool : Text
deriving DecidableEq, Repr

structure ApprovalNotice where
  callId : Text
  tool : Text
  argumentsJson : Text
deriving DecidableEq, Repr

/-- Where a call of `approve` is. From `registered` on it holds the drop
guard of its handle; `leaving` has only that left to drop. `none` as an
outcome is a future that was dropped. -/
inductive Stage where
  | fetched
  | unlisted
  | named (handle : Text)
  | registered (handle : Text)
  | waiting (handle : Text)
  | leaving (handle : Text) (outcome : Option ApprovalDecision)
  | ended (outcome : Option ApprovalDecision)
deriving DecidableEq, Repr

namespace Stage

/-- The handle whose entry the call may still own. -/
def guards : Stage → Option Text
  | .registered handle | .waiting handle | .leaving handle _ => some handle
  | _ => none

/-- The handle the call was given. -/
def handle? : Stage → Option Text
  | .named handle | .registered handle | .waiting handle | .leaving handle _ => some handle
  | _ => none

/-- The receiver of the oneshot channel is alive. -/
def receives : Stage → Bool
  | .registered _ | .waiting _ => true
  | _ => false

def isEnded : Stage → Bool
  | .ended _ => true
  | _ => false

theorem handle?_of_guards {stage : Stage} {handle : Text} (h : stage.guards = some handle) :
    stage.handle? = some handle := by
  cases stage <;> first | exact h | cases h

theorem guards_of_receives {stage : Stage} (h : stage.receives = true) :
    ∃ handle, stage.guards = some handle := by
  cases stage with
  | registered handle => exact ⟨handle, rfl⟩
  | waiting handle => exact ⟨handle, rfl⟩
  | _ => cases h

end Stage

/-- A call of `approve`: its request, the turn whose task awaits it, and how
far it is. -/
structure ApproveCall where
  turn : Nat
  providerCallId : Text
  tool : Text
  arguments : Json.Value
  stage : Stage
  reply : Option ApprovalDecision

/-- The notice a call sends to the coordinator. -/
def ApproveCall.notice (call : ApproveCall) (handle : Text) : ApprovalNotice :=
  ⟨handle, call.tool, Json.render call.arguments⟩

structure RemoteApprover where
  registeredTools : List Text
  pending : Text → Option PendingApproval
  allowedTools : List Text
  nextToken : Nat
  calls : Nat → Option ApproveCall

namespace RemoteApprover

def new (registeredTools : List Text) : RemoteApprover :=
  { registeredTools := registeredTools, pending := fun _ => none, allowedTools := [],
    nextToken := 0, calls := fun _ => none }

inductive Action where
  | request (turn : Nat) (providerCallId tool : Text) (arguments : Json.Value)
  | check (c : Nat)
  | name (c : Nat) (handle : Text)
  | register (c : Nat)
  | notify (c : Nat)
  | notifyFail (c : Nat)
  | receive (c : Nat)
  | dropGuard (c : Nat)
  | abort (c : Nat)
  | resolve (callId : Text) (decision : IpcApprovalDecision)
  | cancelPending

/-- What is observed of the approver. `resolved` is a `resolve` that returned
true, with the tool of the request; `cleared` empties the pending map. -/
inductive Obs where
  | named (c : Nat) (handle : Text)
  | registered (c : Nat) (handle : Text)
  | resolved (callId : Text) (decision : IpcApprovalDecision) (tool : Text)
  | unresolved (callId : Text) (decision : IpcApprovalDecision)
  | cleared
  | returned (c : Nat) (tool : Text) (decision : ApprovalDecision)
deriving DecidableEq, Repr

section Operations

variable (s : RemoteApprover)

def setStage (c : Nat) (call : ApproveCall) (stage : Stage) : RemoteApprover :=
  { s with calls := Function.update s.calls c (some { call with stage := stage }) }

/-- The grant is kept for the session. -/
def persists (decision : IpcApprovalDecision) (tool : Text) : Bool :=
  decision == .allowAll && s.registeredTools.contains tool

/-- The decision the call is given. -/
def coreDecision (decision : IpcApprovalDecision) (tool : Text) : ApprovalDecision :=
  if decision == .allowAll && !s.persists decision tool then .allow else mapDecision decision

/-- `resolve`: the entry is removed first, and the grant is kept only when
the receiver was there to take the decision. -/
def resolve (callId : Text) (decision : IpcApprovalDecision) : RemoteApprover × List Obs :=
  match s.pending callId with
  | none => (s, [.unresolved callId decision])
  | some approval =>
      let removed := { s with pending := Function.update s.pending callId none }
      match s.calls approval.token with
      | none => (removed, [.unresolved callId decision])
      | some call =>
          if call.stage.receives then
            ({ removed with
                calls := Function.update s.calls approval.token
                  (some { call with reply := some (s.coreDecision decision approval.tool) })
                allowedTools := if s.persists decision approval.tool
                  then approval.tool :: s.allowedTools else s.allowedTools },
              [.resolved callId decision approval.tool])
          else (removed, [.unresolved callId decision])

def cancelPending : RemoteApprover := { s with pending := fun _ => none }

/-- Drop of the registration guard: an entry of another generation stays. -/
def removeOwn (c : Nat) (handle : Text) : RemoteApprover :=
  match s.pending handle with
  | some approval =>
      if approval.token = c then { s with pending := Function.update s.pending handle none } else s
  | none => s

/-- The sender of the call's channel is gone. -/
def senderDropped (c : Nat) (handle : Text) : Bool :=
  match s.pending handle with
  | some approval => approval.token != c
  | none => true

end Operations

/-- The first stretch of `approve`: the list of allowed tools is consulted. -/
def check (s : RemoteApprover) (c : Nat) (call : ApproveCall) : RemoteApprover × List Obs :=
  if s.allowedTools.contains call.tool then
    (s.setStage c call (.ended (some .allowAll)), [.returned c call.tool .allowAll])
  else (s.setStage c call .unlisted, [])

/-- The call takes its handle's place in the pending map, if it is vacant. -/
def register (s : RemoteApprover) (c : Nat) (call : ApproveCall) (handle : Text) :
    RemoteApprover × List Obs :=
  match s.pending handle with
  | none =>
      ({ s.setStage c call (.registered handle) with
          pending := Function.update s.pending handle (some ⟨c, call.tool⟩) },
        [.registered c handle])
  | some _ => (s.setStage c call (.ended (some .deny)), [.returned c call.tool .deny])

def dropGuard (s : RemoteApprover) (c : Nat) (call : ApproveCall) (handle : Text)
    (outcome : Option ApprovalDecision) : RemoteApprover × List Obs :=
  (((s.removeOwn c handle).setStage c call (.ended outcome)),
    (outcome.map fun decision => Obs.returned c call.tool decision).toList)

/-- Dropping the future: the receiver goes first, then the guard. -/
def abortStage : Stage → Option Stage
  | .registered handle | .waiting handle => some (.leaving handle none)
  | .fetched | .unlisted | .named _ => some (.ended none)
  | .leaving .. | .ended _ => none

def step (s : RemoteApprover) : Action → Option (RemoteApprover × List Obs)
  | .request turn providerCallId tool arguments =>
      some ({ s with
        nextToken := s.nextToken + 1
        calls := Function.update s.calls s.nextToken
          (some ⟨turn, providerCallId, tool, arguments, .fetched, none⟩) }, [])
  | .check c => (s.calls c).bind fun call =>
      if call.stage = .fetched then some (s.check c call) else none
  | .name c handle => (s.calls c).bind fun call =>
      if call.stage = .unlisted then some (s.setStage c call (.named handle), [.named c handle])
      else none
  | .register c => (s.calls c).bind fun call =>
      match call.stage with
      | .named handle => some (s.register c call handle)
      | _ => none
  | .notify c => (s.calls c).bind fun call =>
      match call.stage with
      | .registered handle => some (s.setStage c call (.waiting handle), [])
      | _ => none
  | .notifyFail c => (s.calls c).bind fun call =>
      match call.stage with
      | .registered handle => some (s.setStage c call (.leaving handle (some .deny)), [])
      | _ => none
  | .receive c => (s.calls c).bind fun call =>
      match call.stage with
      | .waiting handle =>
          match call.reply with
          | some decision => some (s.setStage c call (.leaving handle (some decision)), [])
          | none =>
              if s.senderDropped c handle then
                some (s.setStage c call (.leaving handle (some .deny)), [])
              else none
      | _ => none
  | .dropGuard c => (s.calls c).bind fun call =>
      match call.stage with
      | .leaving handle outcome => some (s.dropGuard c call handle outcome)
      | _ => none
  | .abort c => (s.calls c).bind fun call =>
      (abortStage call.stage).map fun stage => (s.setStage c call stage, [])
  | .resolve callId decision => some (s.resolve callId decision)
  | .cancelPending => some (s.cancelPending, [.cleared])

/-- The approver by itself: any number of calls, decisions and cancellations,
interleaved in any way. -/
def machine (registeredTools : List Text) : Machine RemoteApprover Action Obs where
  start := new registeredTools
  step := step

end RemoteApprover

end PeakcodeDaemon
