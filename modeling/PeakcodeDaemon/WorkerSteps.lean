import PeakcodeDaemon.Authorization
import PeakcodeDaemon.RedactionPasses
import PeakcodeDaemon.Worker

/-!
# What a step of the worker can do

`Step` has one rule for each thing that can happen to a worker, with all
that must hold before it: where the coordinator is, what the channels
hold, and whether it reads commands at all. It is the step function turned
inside out, and it is exactly that:

- **nothing else happens** (`step_cases`): what the function computes is
  one of the rules. The branches of `onCommand` (`step_command`), the two
  receives (`step_tryRecv`, `step_recvEvent`) and the calls of `approve`
  (`step_call`) are taken apart once, here;
- **nothing more is needed** (`Step.step`): what a rule allows, the
  function does. That is what a simulation asks for, where a step of one
  worker is to be answered by a step of another.

Proofs about runs split into these rules and never unfold the step
function: an invariant is a case analysis over `Step`, and a map between
workers is a proof that it takes rules to rules. The rules of the commands
do not mirror the three branches of the source. `cancel` and `stop` need
to know only whether a turn is active, and an input only whether anything
is in front of it (`idle`).

The steps of the approver that the coordinator has no part in are one rule
(`call`, under `Allows`); naming a call and notifying the coordinator are
rules of their own, because they write the map of call ids and the channel
of the notices.
-/

namespace PeakcodeDaemon

namespace Worker

variable {Message : Type}

/-- A call of `approve` may take the step by itself here. -/
def Allows (s : Worker Message) : RemoteApprover.Action → Prop
  | .request turn .. => turn < s.nextTurn
  | .notifyFail _ => ∃ result, s.pc = .returned result
  | .name .. | .notify _ | .resolve .. | .cancelPending => False
  | _ => True

/-- Nothing is in front of an input. -/
def idle (s : Worker Message) : Bool := s.active.isNone && s.pendingEvent.isNone

/-- What can happen to a worker, with all that must hold before it, what becomes of
it and what is observed. -/
inductive Step (setup : Setup Message) (s : Worker Message) :
    Action Message → Worker Message → List (Obs Message) → Prop
  -- commands
  | queueInput {text : Text} (hpc : s.pc = .running) (hreads : s.readsCommands = true)
      (hroom : s.idle = true ∨ s.queuedInputs.length ≠ maxQueuedInputs) :
      Step setup s (.command (.input text)) (s.queueInput text) []
  | overflow {text : Text} (hpc : s.pc = .running) (hreads : s.readsCommands = true)
      (hbusy : s.idle = false) (hfull : s.queuedInputs.length = maxQueuedInputs) :
      Step setup s (.command (.input text))
        (s.sendOrdered (.crash queueLimitExceeded) (.error queueLimitExceeded)) []
  | approve {callId : Text} {decision : IpcApprovalDecision} (hpc : s.pc = .running)
      (hreads : s.readsCommands = true) :
      Step setup s (.command (.approve callId decision)) (s.approve callId decision).1
        (s.approve callId decision).2
  | ignoreCancel (hpc : s.pc = .running) (hactive : s.active = none)
      (hreads : s.readsCommands = true) :
      Step setup s (.command .cancel) s []
  | cancel {turn : Nat} (hpc : s.pc = .running) (hactive : s.active = some turn)
      (hreads : s.readsCommands = true) :
      Step setup s (.command .cancel)
        { s with pc := .cancelling turn, active := none, tasks := s.abortTask turn } []
  | stop {turn : Nat} (hpc : s.pc = .running) (hactive : s.active = some turn)
      (hreads : s.readsCommands = true) :
      Step setup s (.command .stop)
        { s with pc := .stopping turn, active := none, tasks := s.abortTask turn } []
  | stopInactive (hpc : s.pc = .running) (hactive : s.active = none)
      (hreads : s.readsCommands = true) :
      Step setup s (.command .stop) (s.sendOrdered (doneEvent s.messages.length) (.ok ())) []
  | commandsClosed (hpc : s.pc = .running) (hreads : s.readsCommands = true) :
      Step setup s .commandsClosed (s.breakLoop (.ok ())) []
  | commandError {error : Text} (hpc : s.pc = .running) (hreads : s.readsCommands = true) :
      Step setup s (.commandError error) (s.breakLoop (.error error)) []
  -- the rest of the loop
  | startTurn {text : Text} {rest : List Text} (hpc : s.pc = .running) (hactive : s.active = none)
      (hpending : s.pendingEvent = none) (hqueued : s.queuedInputs = text :: rest) :
      Step setup s .startTurn (s.startTurn setup text rest).1 (s.startTurn setup text rest).2
  | holdEvent {a : Action Message} {handle : Text} {turn : Nat} {event : AgentEvent}
      {rest : List AgentEvent} (hpc : s.pc = .running) (hactive : s.active = some turn)
      (hpending : s.pendingEvent = none) (hevents : (s.tasks turn).events = event :: rest)
      (ha : a = .barrier handle ∨ a = .takeEvent handle)
      (hbarrier : a = .barrier handle ↔ s.approvalBarrier ≠ none) :
      Step setup s a (s.holdEvent handle turn event rest).1 (s.holdEvent handle turn event rest).2
  | holdNotice {handle : Text} {turn : Nat} {barrier : Nat × ApprovalNotice}
      (hpc : s.pc = .running) (hactive : s.active = some turn) (hpending : s.pendingEvent = none)
      (hbarrier : s.approvalBarrier = some barrier) (hevents : (s.tasks turn).events = [])
      (hopen : (s.tasks turn).closed = false) :
      Step setup s (.barrier handle) (s.holdNotice barrier) []
  | dropBarrier {handle : Text} {turn : Nat} {barrier : Nat × ApprovalNotice}
      (hpc : s.pc = .running) (hactive : s.active = some turn) (hpending : s.pendingEvent = none)
      (hbarrier : s.approvalBarrier = some barrier) (hevents : (s.tasks turn).events = [])
      (hclosed : (s.tasks turn).closed = true) :
      Step setup s (.barrier handle) { s with approvalBarrier := none } []
  | takeNotice {turn : Nat} {notice : Nat × ApprovalNotice} {rest : List (Nat × ApprovalNotice)}
      (hpc : s.pc = .running) (hactive : s.active = some turn) (hbarrier : s.approvalBarrier = none)
      (happrovals : s.approvals = notice :: rest) :
      Step setup s .takeNotice { s with approvalBarrier := some notice, approvals := rest } []
  | turnClosed {handle : Text} {turn : Nat} (hpc : s.pc = .running) (hactive : s.active = some turn)
      (hpending : s.pendingEvent = none) (hbarrier : s.approvalBarrier = none)
      (hevents : (s.tasks turn).events = []) (hclosed : (s.tasks turn).closed = true) :
      Step setup s (.takeEvent handle) { s with pc := .joining turn, active := none } []
  | enqueue {held : Held} (hpc : s.pc = .running) (hpending : s.pendingEvent = some held)
      (hsends : s.sends = true) : Step setup s .reserve (s.enqueue held).1 (s.enqueue held).2
  | writerGone {held : Held} (hpc : s.pc = .running) (hpending : s.pendingEvent = some held)
      (hwriter : s.writer.receives = false) :
      Step setup s .reserve (s.breakLoop (.error writerClosed)) []
  -- past an await in a branch of the loop
  | cancelCompleted {turn : Nat} (hpc : s.pc = .cancelling turn)
      (houtcome : (s.tasks turn).outcome.isSome = true) :
      Step setup s .cancelCompleted { s.cancelled with pc := .running } [.approver .cleared]
  | cancelDeadline {turn : Nat} (hpc : s.pc = .cancelling turn) :
      Step setup s .cancelDeadline
        (s.cancelled.sendOrdered (.crash cancellationDeadlineExceeded)
          (.error cancellationDeadlineExceeded)) [.approver .cleared]
  | stopDone {turn : Nat} (hpc : s.pc = .stopping turn) :
      Step setup s .stopDone
        ({ s.release with pendingEvent := keepOrdinary s.pendingEvent }.sendOrdered
          (doneEvent s.messages.length) (.ok ())) [.approver .cleared]
  | joinTurn {turn : Nat} {outcome : Outcome Message} (hpc : s.pc = .joining turn)
      (houtcome : (s.tasks turn).outcome = some outcome) :
      Step setup s .joinTurn (s.join outcome) [.joined turn outcome]
  -- past the loop
  | terminalHeld {held : Held} {event : WorkerEvent} {result : Ended}
      (hpc : s.pc = .terminal event result) (hpending : s.pendingEvent = some held)
      (hsends : s.sends = true) : Step setup s .terminalSend (s.enqueue held).1 (s.enqueue held).2
  | terminalEvent {event : WorkerEvent} {result : Ended} (hpc : s.pc = .terminal event result)
      (hpending : s.pendingEvent = none) (hsends : s.sends = true) :
      Step setup s .terminalSend { s.breakLoop result with outbound := s.outbound ++ [event] }
        [.terminal event]
  | terminalGiveUp {event : WorkerEvent} {result : Ended} (hpc : s.pc = .terminal event result) :
      Step setup s .terminalGiveUp (s.breakLoop result) []
  | abortDone {result : Ended} (hpc : s.pc = .aborting result) :
      Step setup s .abortDone { s.release with pc := .closing result, active := none }
        [.approver .cleared]
  | closed {result written : Ended} (hpc : s.pc = .closing result)
      (hwriter : s.writer = .finished written) :
      Step setup s .closed { s with pc := .returned (result.bind fun _ => written) } []
  | closeDeadline {result : Ended} (hpc : s.pc = .closing result) :
      Step setup s .closeDeadline { s with pc := .returned result, writer := .aborted } []
  -- the writer
  | writerRecv {event : WorkerEvent} {rest : List WorkerEvent} (hwriter : s.writer = .receiving)
      (houtbound : s.outbound = event :: rest) :
      Step setup s .writerRecv
        { s with writer := .writing (event.mapTexts setup.redactor.clean), outbound := rest } []
  | writerWrite {frame : WorkerEvent} (hwriter : s.writer = .writing frame)
      (hfits : frame.fits = true) :
      Step setup s .writerWrite { s with writer := .receiving, frames := s.frames ++ [frame] } []
  | writerReject {frame : WorkerEvent} (hwriter : s.writer = .writing frame)
      (hfits : frame.fits = false) :
      Step setup s .writerWrite { s with writer := .finished (.error frameTooLarge) } []
  | writerFail {frame : WorkerEvent} {error : Text} (hwriter : s.writer = .writing frame) :
      Step setup s (.writerFail error) { s with writer := .finished (.error error) } []
  | writerEnd {result : Ended} (hpc : s.pc = .closing result) (hwriter : s.writer = .receiving)
      (houtbound : s.outbound = []) :
      Step setup s .writerEnd { s with writer := .finished (.ok ()) } []
  -- the agent
  | emit {turn : Nat} {event : AgentEvent} (hturn : turn < s.nextTurn)
      (hopen : (s.tasks turn).closed = false) :
      Step setup s (.emit turn event) { s with
        tasks := Function.update s.tasks turn
          { s.tasks turn with events := (s.tasks turn).events ++ [event] } } [.emitted turn event]
  | closeEvents {turn : Nat} (hturn : turn < s.nextTurn) :
      Step setup s (.closeEvents turn)
        { s with tasks := Function.update s.tasks turn { s.tasks turn with closed := true } } []
  | finish {turn : Nat} {outcome : Outcome Message} (hturn : turn < s.nextTurn)
      (hrunning : (s.tasks turn).outcome = none) :
      Step setup s (.finish turn outcome) { s with
        tasks := Function.update s.tasks turn { s.tasks turn with outcome := some outcome } }
        [.finished turn outcome]
  -- calls of `approve`
  | call {action : RemoteApprover.Action} {approver : RemoteApprover}
      {os : List RemoteApprover.Obs} (hallows : s.Allows action)
      (hstep : s.approver.step action = some (approver, os)) :
      Step setup s (.call action) { s with approver := approver } (os.map .approver)
  | name {c : Nat} {handle : Text} {call : ApproveCall} (hcall : s.approver.calls c = some call)
      (hstage : call.stage = .unlisted) :
      Step setup s (.call (.name c handle)) { s with
        approver := s.approver.setStage c call (.named handle)
        callIds := s.callIds.startApproval call.providerCallId handle }
        [.approver (.named c handle), .asked call.turn (call.notice handle)]
  | notify {c : Nat} {handle : Text} {call : ApproveCall} (hcall : s.approver.calls c = some call)
      (hstage : call.stage = .registered handle)
      (hroom : s.approvals.length < workerApprovalChannelCapacity) :
      Step setup s (.call (.notify c)) { s with
        approver := s.approver.setStage c call (.waiting handle)
        approvals := s.approvals ++ [(call.turn, call.notice handle)] } []

section

variable {setup : Setup Message} {s s' : Worker Message} {os : List (Obs Message)}

/-- An input joins the queue, or a full queue ends the session with a crash. -/
theorem queueInputLimited_cases (s : Worker Message) (text : Text) :
    s.queuedInputs.length ≠ maxQueuedInputs ∧ s.queueInputLimited text = s.queueInput text ∨
    s.queuedInputs.length = maxQueuedInputs ∧ s.queueInputLimited text =
      s.sendOrdered (.crash queueLimitExceeded) (.error queueLimitExceeded) := by
  rw [queueInputLimited]
  split
  · rename_i hfull
    exact Or.inr ⟨hfull, rfl⟩
  · rename_i hroom
    exact Or.inl ⟨hroom, rfl⟩

/-- An input behind something else is one of the two. -/
theorem step_inputLimited {text : Text} (hpc : s.pc = .running) (hreads : s.readsCommands = true)
    (hbusy : s.idle = false) :
    Step setup s (.command (.input text)) (s.queueInputLimited text) [] := by
  rcases queueInputLimited_cases s text with ⟨hroom, heq⟩ | ⟨hfull, heq⟩
  · rw [heq]
    exact .queueInput hpc hreads (Or.inr hroom)
  · rw [heq]
    exact .overflow hpc hreads hbusy hfull

/-- With nothing held, dropping what is held changes nothing. -/
theorem sendTerminal_idle (hpending : s.pendingEvent = none) (event : WorkerEvent)
    (result : Ended) :
    s.sendTerminal event result = s.sendOrdered event result := by
  rw [sendTerminal, sendOrdered, ← hpending]

/-- The three branches of the source that take a command come to the same rules. -/
theorem step_command {command : DaemonCommand} (hpc : s.pc = .running)
    (hreads : s.readsCommands = true) (h : s.onCommand command = (s', os)) :
    Step setup s (.command command) s' os := by
  unfold onCommand at h
  split at h
  · rename_i turn hactive
    cases command with
    | input text =>
        obtain ⟨rfl, rfl⟩ := Prod.mk.inj h
        exact step_inputLimited hpc hreads (by simp [idle, hactive])
    | approve callId decision =>
        obtain ⟨rfl, rfl⟩ := Prod.mk.inj h
        exact .approve hpc hreads
    | cancel =>
        obtain ⟨rfl, rfl⟩ := Prod.mk.inj h
        exact .cancel hpc hactive hreads
    | stop =>
        obtain ⟨rfl, rfl⟩ := Prod.mk.inj h
        exact .stop hpc hactive hreads
  · rename_i held hactive hpending
    cases command with
    | input text =>
        obtain ⟨rfl, rfl⟩ := Prod.mk.inj h
        exact step_inputLimited hpc hreads (by simp [idle, hpending])
    | approve callId decision =>
        obtain ⟨rfl, rfl⟩ := Prod.mk.inj h
        exact .approve hpc hreads
    | cancel =>
        obtain ⟨rfl, rfl⟩ := Prod.mk.inj h
        exact .ignoreCancel hpc hactive hreads
    | stop =>
        obtain ⟨rfl, rfl⟩ := Prod.mk.inj h
        exact .stopInactive hpc hactive hreads
  · rename_i hactive hpending
    cases command with
    | input text =>
        obtain ⟨rfl, rfl⟩ := Prod.mk.inj h
        exact .queueInput hpc hreads (Or.inl (by simp [idle, hactive, hpending]))
    | approve callId decision =>
        obtain ⟨rfl, rfl⟩ := Prod.mk.inj h
        exact .approve hpc hreads
    | cancel =>
        obtain ⟨rfl, rfl⟩ := Prod.mk.inj h
        exact .ignoreCancel hpc hactive hreads
    | stop =>
        obtain ⟨rfl, rfl⟩ := Prod.mk.inj h
        rw [sendTerminal_idle hpending]
        exact .stopInactive hpc hactive hreads

/-- A step that the approver takes alone is a rule of its own. -/
theorem step_advance {action : RemoteApprover.Action} (hallows : s.Allows action)
    (h : s.advance action = some (s', os)) : Step setup s (.call action) s' os := by
  obtain ⟨⟨approver, os'⟩, hstep, h⟩ := Option.map_eq_some_iff.mp h
  obtain ⟨rfl, rfl⟩ := Prod.mk.inj h
  exact .call hallows hstep

/-- Only naming and notifying write anything outside of the approver. -/
theorem step_call {action : RemoteApprover.Action} (h : s.stepCall action = some (s', os)) :
    Step setup s (.call action) s' os := by
  cases action with
  | resolve callId decision => cases h
  | cancelPending => cases h
  | request turn providerCallId tool arguments =>
      rw [stepCall] at h
      split at h
      · rename_i hturn
        exact step_advance hturn h
      · cases h
  | name c handle =>
      obtain ⟨call, hcall, h⟩ := Option.bind_eq_some_iff.mp h
      obtain ⟨⟨s₁, os₁⟩, hadvance, h⟩ := Option.map_eq_some_iff.mp h
      obtain ⟨⟨approver, os'⟩, hstep, heq⟩ := Option.map_eq_some_iff.mp hadvance
      obtain ⟨rfl, rfl⟩ := Prod.mk.inj heq
      obtain ⟨call', hcall', hstep⟩ := Option.bind_eq_some_iff.mp hstep
      obtain rfl := Option.some.inj (hcall.symm.trans hcall')
      split at hstep
      · rename_i hstage
        obtain ⟨rfl, rfl⟩ := Prod.mk.inj (Option.some.inj hstep)
        obtain ⟨rfl, rfl⟩ := Prod.mk.inj h
        exact .name hcall hstage
      · cases hstep
  | notify c =>
      obtain ⟨call, hcall, h⟩ := Option.bind_eq_some_iff.mp h
      split at h
      · rename_i handle hstage
        split at h
        · rename_i hroom
          obtain ⟨⟨s₁, os₁⟩, hadvance, h⟩ := Option.map_eq_some_iff.mp h
          obtain ⟨⟨approver, os'⟩, hstep, heq⟩ := Option.map_eq_some_iff.mp hadvance
          obtain ⟨rfl, rfl⟩ := Prod.mk.inj heq
          obtain ⟨call', hcall', hstep⟩ := Option.bind_eq_some_iff.mp hstep
          obtain rfl := Option.some.inj (hcall.symm.trans hcall')
          rw [hstage] at hstep
          obtain ⟨rfl, rfl⟩ := Prod.mk.inj (Option.some.inj hstep)
          obtain ⟨rfl, rfl⟩ := Prod.mk.inj h
          exact .notify hcall hstage hroom
        · cases h
      · cases h
  | notifyFail c =>
      rw [stepCall] at h
      split at h
      · rename_i result hpc
        exact step_advance ⟨result, hpc⟩ h
      · cases h
  | check c => exact step_advance trivial h
  | register c => exact step_advance trivial h
  | receive c => exact step_advance trivial h
  | dropGuard c => exact step_advance trivial h
  | abort c => exact step_advance trivial h

/-- With a barrier, the event before it is taken, or the request is held; a closed
channel drops it. -/
theorem step_tryRecv {handle : Text} {turn : Nat} {barrier : Nat × ApprovalNotice}
    (hpc : s.pc = .running) (hactive : s.active = some turn) (hpending : s.pendingEvent = none)
    (hbarrier : s.approvalBarrier = some barrier) (h : s.tryRecv handle turn barrier = (s', os)) :
    Step setup s (.barrier handle) s' os := by
  unfold tryRecv at h
  split at h
  · rename_i event rest hevents
    obtain ⟨rfl, rfl⟩ := Prod.mk.inj h
    exact .holdEvent hpc hactive hpending hevents (Or.inl rfl) (by simp [hbarrier])
  · rename_i hevents
    split at h
    · rename_i hclosed
      obtain ⟨rfl, rfl⟩ := Prod.mk.inj h
      exact .dropBarrier hpc hactive hpending hbarrier hevents hclosed
    · rename_i hopen
      obtain ⟨rfl, rfl⟩ := Prod.mk.inj h
      exact .holdNotice hpc hactive hpending hbarrier hevents (by simpa using hopen)

/-- Without one, the next event is taken, or the channel has closed. -/
theorem step_recvEvent {handle : Text} {turn : Nat} (hpc : s.pc = .running)
    (hactive : s.active = some turn) (hpending : s.pendingEvent = none)
    (hbarrier : s.approvalBarrier = none) (h : s.recvEvent handle turn = some (s', os)) :
    Step setup s (.takeEvent handle) s' os := by
  unfold recvEvent at h
  split at h
  · rename_i event rest hevents
    obtain ⟨rfl, rfl⟩ := Prod.mk.inj (Option.some.inj h)
    exact .holdEvent hpc hactive hpending hevents (Or.inr rfl) (by simp [hbarrier])
  · rename_i hevents
    split at h
    · rename_i hclosed
      obtain ⟨rfl, rfl⟩ := Prod.mk.inj (Option.some.inj h)
      exact .turnClosed hpc hactive hpending hbarrier hevents hclosed
    · cases h

/-- What is held is sent where there is room, and a writer that is gone ends the
loop. -/
theorem step_reserve {held : Held} (hpc : s.pc = .running) (hpending : s.pendingEvent = some held)
    (h : (if s.sends then some (s.enqueue held)
      else if s.writer.receives then none
      else some (s.breakLoop (.error writerClosed), [])) = some (s', os)) :
    Step setup s .reserve s' os := by
  split at h
  · rename_i hsends
    obtain ⟨rfl, rfl⟩ := Prod.mk.inj (Option.some.inj h)
    exact .enqueue hpc hpending hsends
  · split at h
    · cases h
    · rename_i hwriter
      obtain ⟨rfl, rfl⟩ := Prod.mk.inj (Option.some.inj h)
      exact .writerGone hpc hpending (by simpa using hwriter)

theorem step_cases {a : Action Message} (h : step setup s a = some (s', os)) :
    Step setup s a s' os := by
  cases a with
  | command command =>
      rw [step] at h
      split at h
      · rename_i hpc
        split at h
        · rename_i hreads
          exact step_command hpc hreads (Option.some.inj h)
        · cases h
      · cases h
  | commandsClosed =>
      rw [step] at h
      split at h
      · rename_i hpc
        split at h
        · rename_i hreads
          obtain ⟨rfl, rfl⟩ := Prod.mk.inj (Option.some.inj h)
          exact .commandsClosed hpc hreads
        · cases h
      · cases h
  | commandError error =>
      rw [step] at h
      split at h
      · rename_i hpc
        split at h
        · rename_i hreads
          obtain ⟨rfl, rfl⟩ := Prod.mk.inj (Option.some.inj h)
          exact .commandError hpc hreads
        · cases h
      · cases h
  | startTurn =>
      rw [step] at h
      split at h
      · rename_i text rest hpc hactive hpending hqueued
        obtain ⟨rfl, rfl⟩ := Prod.mk.inj (Option.some.inj h)
        exact .startTurn hpc hactive hpending hqueued
      · cases h
  | barrier handle =>
      rw [step] at h
      split at h
      · rename_i turn barrier hpc hactive hpending hbarrier
        exact step_tryRecv hpc hactive hpending hbarrier (Option.some.inj h)
      · cases h
  | takeNotice =>
      rw [step] at h
      split at h
      · rename_i turn notice rest hpc hactive hbarrier happrovals
        obtain ⟨rfl, rfl⟩ := Prod.mk.inj (Option.some.inj h)
        exact .takeNotice hpc hactive hbarrier happrovals
      · cases h
  | takeEvent handle =>
      rw [step] at h
      split at h
      · rename_i turn hpc hactive hpending hbarrier
        exact step_recvEvent hpc hactive hpending hbarrier h
      · cases h
  | reserve =>
      rw [step] at h
      split at h
      · rename_i held hpc hpending
        exact step_reserve hpc hpending h
      · cases h
  | cancelCompleted =>
      rw [step] at h
      split at h
      · rename_i turn hpc
        split at h
        · rename_i houtcome
          obtain ⟨rfl, rfl⟩ := Prod.mk.inj (Option.some.inj h)
          exact .cancelCompleted hpc houtcome
        · cases h
      · cases h
  | cancelDeadline =>
      rw [step] at h
      split at h
      · rename_i turn hpc
        obtain ⟨rfl, rfl⟩ := Prod.mk.inj (Option.some.inj h)
        exact .cancelDeadline hpc
      · cases h
  | stopDone =>
      rw [step] at h
      split at h
      · rename_i turn hpc
        obtain ⟨rfl, rfl⟩ := Prod.mk.inj (Option.some.inj h)
        exact .stopDone hpc
      · cases h
  | joinTurn =>
      rw [step] at h
      split at h
      · rename_i turn hpc
        obtain ⟨outcome, houtcome, h⟩ := Option.map_eq_some_iff.mp h
        obtain ⟨rfl, rfl⟩ := Prod.mk.inj h
        exact .joinTurn hpc houtcome
      · cases h
  | terminalSend =>
      rw [step] at h
      split at h
      · rename_i event result held hpc hpending
        split at h
        · rename_i hsends
          obtain ⟨rfl, rfl⟩ := Prod.mk.inj (Option.some.inj h)
          exact .terminalHeld hpc hpending hsends
        · cases h
      · rename_i event result hpc hpending
        split at h
        · rename_i hsends
          obtain ⟨rfl, rfl⟩ := Prod.mk.inj (Option.some.inj h)
          exact .terminalEvent hpc hpending hsends
        · cases h
      · cases h
  | terminalGiveUp =>
      rw [step] at h
      split at h
      · rename_i event result hpc
        obtain ⟨rfl, rfl⟩ := Prod.mk.inj (Option.some.inj h)
        exact .terminalGiveUp hpc
      · cases h
  | abortDone =>
      rw [step] at h
      split at h
      · rename_i result hpc
        obtain ⟨rfl, rfl⟩ := Prod.mk.inj (Option.some.inj h)
        exact .abortDone hpc
      · cases h
  | closed =>
      rw [step] at h
      split at h
      · rename_i result written hpc hwriter
        obtain ⟨rfl, rfl⟩ := Prod.mk.inj (Option.some.inj h)
        exact .closed hpc hwriter
      · cases h
  | closeDeadline =>
      rw [step] at h
      split at h
      · rename_i result hpc
        obtain ⟨rfl, rfl⟩ := Prod.mk.inj (Option.some.inj h)
        exact .closeDeadline hpc
      · cases h
  | writerRecv =>
      rw [step] at h
      split at h
      · rename_i event rest hwriter houtbound
        rw [Redactor.redactEvent_eq] at h
        obtain ⟨rfl, rfl⟩ := Prod.mk.inj (Option.some.inj h)
        exact .writerRecv hwriter houtbound
      · cases h
  | writerWrite =>
      rw [step] at h
      split at h
      · rename_i frame hwriter
        split at h
        · rename_i hfits
          obtain ⟨rfl, rfl⟩ := Prod.mk.inj (Option.some.inj h)
          exact .writerWrite hwriter hfits
        · rename_i hfits
          obtain ⟨rfl, rfl⟩ := Prod.mk.inj (Option.some.inj h)
          exact .writerReject hwriter (by simpa using hfits)
      · cases h
  | writerFail error =>
      rw [step] at h
      split at h
      · rename_i frame hwriter
        obtain ⟨rfl, rfl⟩ := Prod.mk.inj (Option.some.inj h)
        exact .writerFail hwriter
      · cases h
  | writerEnd =>
      rw [step] at h
      split at h
      · rename_i result hpc hwriter houtbound
        obtain ⟨rfl, rfl⟩ := Prod.mk.inj (Option.some.inj h)
        exact .writerEnd hpc hwriter houtbound
      · cases h
  | emit turn event =>
      rw [step] at h
      split at h
      · rename_i hemits
        obtain ⟨rfl, rfl⟩ := Prod.mk.inj (Option.some.inj h)
        exact .emit hemits.1 hemits.2
      · cases h
  | closeEvents turn =>
      rw [step] at h
      split at h
      · rename_i hturn
        obtain ⟨rfl, rfl⟩ := Prod.mk.inj (Option.some.inj h)
        exact .closeEvents hturn
      · cases h
  | finish turn outcome =>
      rw [step] at h
      split at h
      · rename_i hfinish
        obtain ⟨rfl, rfl⟩ := Prod.mk.inj (Option.some.inj h)
        exact .finish hfinish.1 (by simpa using hfinish.2)
      · cases h
  | call action => exact step_call h

/-! ## What the rules say can happen -/

/-- A decision is taken in the same way whatever the coordinator is about. -/
theorem onCommand_approve (s : Worker Message) (callId : Text) (decision : IpcApprovalDecision) :
    s.onCommand (.approve callId decision) = s.approve callId decision := by
  unfold onCommand
  split
  · rfl
  · rfl
  · rfl

theorem onCommand_cancel (hactive : s.active = none) : s.onCommand .cancel = (s, []) := by
  cases hpending : s.pendingEvent with
  | some held => simp only [onCommand, hactive, hpending, commandHeld]
  | none => simp only [onCommand, hactive, hpending, commandIdle]

theorem onCommand_stop (hactive : s.active = none) :
    s.onCommand .stop = (s.sendOrdered (doneEvent s.messages.length) (.ok ()), []) := by
  cases hpending : s.pendingEvent with
  | some held => simp only [onCommand, hactive, hpending, commandHeld]
  | none =>
      simp only [onCommand, hactive, hpending, commandIdle]
      rw [sendTerminal_idle hpending]

/-- An input is limited unless nothing is in front of it. -/
theorem onCommand_input (s : Worker Message) (text : Text) : s.onCommand (.input text) =
    (if s.idle then s.queueInput text else s.queueInputLimited text, []) := by
  cases hactive : s.active with
  | some turn => simp [onCommand, idle, hactive, commandActive]
  | none =>
      cases hpending : s.pendingEvent with
      | some held => simp [onCommand, idle, hactive, hpending, commandHeld]
      | none => simp [onCommand, idle, hactive, hpending, commandIdle]

/-- A command that is read is acted on at once. -/
theorem command_step (hpc : s.pc = .running) (hreads : s.readsCommands = true)
    (command : DaemonCommand) : step setup s (.command command) = some (s.onCommand command) := by
  simp only [step, hpc, hreads, if_true]

/-- What the approver may do alone, the worker does. -/
theorem call_step {action : RemoteApprover.Action} {approver : RemoteApprover}
    {os : List RemoteApprover.Obs} (hallows : s.Allows action)
    (hstep : s.approver.step action = some (approver, os)) :
    s.stepCall action = some ({ s with approver := approver }, os.map .approver) := by
  have hadvance : s.advance action = some ({ s with approver := approver }, os.map .approver) := by
    rw [advance, hstep, Option.map_some]
  cases action with
  | request turn providerCallId tool arguments => exact (if_pos hallows).trans hadvance
  | notifyFail c =>
      obtain ⟨result, hpc⟩ := hallows
      simp only [stepCall, hpc, hadvance]
  | name c handle => exact hallows.elim
  | notify c => exact hallows.elim
  | resolve callId decision => exact hallows.elim
  | cancelPending => exact hallows.elim
  | _ => exact hadvance

/-- A call is named: the map of call ids gets its handle, and the request counts as
asked. -/
theorem name_step {c : Nat} {handle : Text} {call : ApproveCall}
    (hcall : s.approver.calls c = some call) (hstage : call.stage = .unlisted) :
    s.stepCall (.name c handle) = some ({ s with
      approver := s.approver.setStage c call (.named handle)
      callIds := s.callIds.startApproval call.providerCallId handle },
      [.approver (.named c handle), .asked call.turn (call.notice handle)]) := by
  have hstep : s.approver.step (.name c handle) =
      some (s.approver.setStage c call (.named handle), [.named c handle]) :=
    (RemoteApprover.Step.move hcall (.named hstage)).step
  simp only [stepCall, hcall, Option.bind_some, advance, hstep, Option.map_some]
  rfl

/-- The request goes to the channel of the notices, if there is room. -/
theorem notify_step {c : Nat} {handle : Text} {call : ApproveCall}
    (hcall : s.approver.calls c = some call) (hstage : call.stage = .registered handle)
    (hroom : s.approvals.length < workerApprovalChannelCapacity) :
    s.stepCall (.notify c) = some ({ s with
      approver := s.approver.setStage c call (.waiting handle)
      approvals := s.approvals ++ [(call.turn, call.notice handle)] }, []) := by
  have hstep : s.approver.step (.notify c) =
      some (s.approver.setStage c call (.waiting handle), []) :=
    (RemoteApprover.Step.move hcall (.notified hstage)).step
  simp only [stepCall, hcall, Option.bind_some, hstage, if_pos hroom, advance, hstep,
    Option.map_some, List.map_nil]

/-- And nothing more is needed: what a rule allows, the worker can do. -/
theorem Step.step (h : Step setup s a s' os) : Worker.step setup s a = some (s', os) := by
  cases h with
  | queueInput hpc hreads hroom =>
      rw [command_step hpc hreads, onCommand_input]
      split
      · rfl
      · rename_i hidle
        rw [queueInputLimited, if_neg (hroom.resolve_left hidle)]
  | overflow hpc hreads hbusy hfull =>
      rw [command_step hpc hreads, onCommand_input, hbusy, queueInputLimited, if_pos hfull]
      rfl
  | approve hpc hreads => rw [command_step hpc hreads, onCommand_approve]
  | ignoreCancel hpc hactive hreads => rw [command_step hpc hreads, onCommand_cancel hactive]
  | cancel hpc hactive hreads =>
      rw [command_step hpc hreads]
      simp only [onCommand, hactive, commandActive]
  | stop hpc hactive hreads =>
      rw [command_step hpc hreads]
      simp only [onCommand, hactive, commandActive]
  | stopInactive hpc hactive hreads => rw [command_step hpc hreads, onCommand_stop hactive]
  | commandsClosed hpc hreads | commandError hpc hreads =>
      simp only [Worker.step, hpc, if_pos hreads]
  | startTurn hpc hactive hpending hqueued =>
      simp only [Worker.step, hpc, hactive, hpending, hqueued]
  | @holdEvent a handle turn event rest hpc hactive hpending hevents ha hbarrier =>
      rcases ha with rfl | rfl
      · obtain ⟨barrier, hbarrier⟩ := Option.ne_none_iff_exists'.mp (hbarrier.mp rfl)
        simp only [Worker.step, hpc, hactive, hpending, hbarrier, tryRecv, hevents]
      · have hnone : s.approvalBarrier = none := by
          by_contra hsome
          cases hbarrier.mpr hsome
        simp only [Worker.step, hpc, hactive, hpending, hnone, recvEvent, hevents]
  | holdNotice hpc hactive hpending hbarrier hevents hopen =>
      simp [Worker.step, hpc, hactive, hpending, hbarrier, tryRecv, hevents, hopen]
  | dropBarrier hpc hactive hpending hbarrier hevents hclosed =>
      simp only [Worker.step, hpc, hactive, hpending, hbarrier, tryRecv, hevents, if_pos hclosed]
  | takeNotice hpc hactive hbarrier happrovals =>
      simp only [Worker.step, hpc, hactive, hbarrier, happrovals]
  | turnClosed hpc hactive hpending hbarrier hevents hclosed =>
      simp only [Worker.step, hpc, hactive, hpending, hbarrier, recvEvent, hevents, if_pos hclosed]
  | enqueue hpc hpending hsends => simp only [Worker.step, hpc, hpending, if_pos hsends]
  | writerGone hpc hpending hwriter =>
      simp [Worker.step, hpc, hpending, sends, hwriter]
  | cancelCompleted hpc houtcome => simp only [Worker.step, hpc, if_pos houtcome]
  | joinTurn hpc houtcome => simp only [Worker.step, hpc, houtcome, Option.map_some]
  | terminalHeld hpc hpending hsends => simp only [Worker.step, hpc, hpending, if_pos hsends]
  | terminalEvent hpc hpending hsends => simp only [Worker.step, hpc, hpending, if_pos hsends]
  | cancelDeadline hpc | stopDone hpc | terminalGiveUp hpc | abortDone hpc | closeDeadline hpc =>
      simp only [Worker.step, hpc]
  | closed hpc hwriter => simp only [Worker.step, hpc, hwriter]
  | writerRecv hwriter houtbound =>
      simp only [Worker.step, hwriter, houtbound, Redactor.redactEvent_eq, Option.map_some]
  | writerWrite hwriter hfits => simp only [Worker.step, hwriter, if_pos hfits]
  | writerReject hwriter hfits => simp [Worker.step, hwriter, hfits]
  | writerFail hwriter => simp only [Worker.step, hwriter]
  | writerEnd hpc hwriter houtbound => simp only [Worker.step, hpc, hwriter, houtbound]
  | emit hturn hopen => exact if_pos ⟨hturn, hopen⟩
  | closeEvents hturn => exact if_pos hturn
  | finish hturn hrunning => exact if_pos ⟨hturn, by rw [hrunning]; rfl⟩
  | call hallows hstep => exact call_step hallows hstep
  | name hcall hstage => exact name_step hcall hstage
  | notify hcall hstage hroom => exact notify_step hcall hstage hroom

end

end Worker

end PeakcodeDaemon
