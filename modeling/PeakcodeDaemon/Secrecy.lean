import PeakcodeDaemon.Lib.Lockstep
import PeakcodeDaemon.Renaming

/-!
# What does not show does not matter

Two workers that run side by side, each with secrets of its own, on what
agents say that redacts to the same: neither can be told from the other by
what goes out, how long it is, in which order it comes, or by what the
worker is ready to do next.

The relation `Worker.Similar` goes field by field. What the daemon or the
coordinator can observe is equal (the queue, the handles, the frames, the
lengths of the channels); texts that are still to be redacted are only
`Similar`, that is, equal once each is redacted by its side; and of a
history only the length is compared, because `Done` shows no more.

- **the approver** (`RemoteApprover.Similar.step`): a call moves whatever
  its arguments are, so two approvers whose calls differ in their
  arguments move together, with the same observations.
- **operations** (`holdEvent`, `join`, `breakLoop`, and the like): each
  takes similar workers to similar workers.
- **rules** (`other_step`, `call_step`, `emit_step`, `finish_step`): what
  one side can do by a rule the other can do by the same rule, with what
  an agent says replaced by what looks like it. By both directions of the
  rules this is a lockstep of the step functions (`step`).

The writer is where the two meet: the frames are redacted texts, so
similar events become the same frame. Nothing in between compares texts,
and the limits count events, not bytes.
-/

namespace PeakcodeDaemon

open Lockstep

variable (R R' : Redactor)

/-! ## What looks alike -/

/-- The texts are the same once each is redacted by its side. -/
def Redactor.Similar (text text' : Text) : Prop := R.redactText text = R'.redactText text'

instance (text text' : Text) : Decidable (R.Similar R' text text') :=
  inferInstanceAs (Decidable (R.redactText text = R'.redactText text'))

/-- The two events are the same once each is redacted. -/
def WorkerEvent.Similar (event event' : WorkerEvent) : Prop :=
  R.redactEvent event = R'.redactEvent event'

/-- Call ids are as they are, and arguments look alike as texts. -/
inductive AgentEvent.Similar : AgentEvent → AgentEvent → Prop
  | textDelta {text text' : Text} (htext : R.Similar R' text text') :
      Similar (.textDelta text) (.textDelta text')
  | assistantMessage {text text' : Text} (htext : R.Similar R' text text') :
      Similar (.assistantMessage text) (.assistantMessage text')
  | toolStart {callId name name' : Text} {arguments arguments' : Json.Value}
      (hname : R.Similar R' name name')
      (harguments : R.Similar R' (Json.render arguments) (Json.render arguments')) :
      Similar (.toolStart callId name arguments) (.toolStart callId name' arguments')
  | toolResult {callId name name' content content' : Text} {isError : Bool}
      (hname : R.Similar R' name name') (hcontent : R.Similar R' content content') :
      Similar (.toolResult callId name content isError) (.toolResult callId name' content' isError)
  | turnFinished : Similar .turnFinished .turnFinished

/-- Of a history only the length shows. -/
inductive Outcome.Similar {Message : Type} : Outcome Message → Outcome Message → Prop
  | ok {messages messages' : List Message} (hlength : messages'.length = messages.length) :
      Similar (.ok messages) (.ok messages')
  | failed {error error' : Text} (herror : R.Similar R' error error') :
      Similar (.failed error) (.failed error')
  | panicked (error : Text) : Similar (.panicked error) (.panicked error)
  | cancelled (error : Text) : Similar (.cancelled error) (.cancelled error)

/-- The events waiting look alike one by one. -/
structure AgentTask.Similar {Message : Type} (task task' : AgentTask Message) : Prop where
  events : List.Forall₂ (AgentEvent.Similar R R') task.events task'.events
  closed : task'.closed = task.closed
  outcome : Option.Rel (Outcome.Similar R R') task.outcome task'.outcome
  aborted : task'.aborted = task.aborted

/-- A notice shows its tool and its arguments, as texts. -/
structure ApprovalNotice.Similar (notice notice' : ApprovalNotice) : Prop where
  callId : notice'.callId = notice.callId
  tool : R.Similar R' notice.tool notice'.tool
  arguments : R.Similar R' notice.argumentsJson notice'.argumentsJson

/-- The calls differ in their arguments only. -/
structure ApproveCall.Similar (call call' : ApproveCall) : Prop where
  rest : call' = { call with arguments := call'.arguments }
  tool : R.Similar R' call.tool call.tool
  arguments : R.Similar R' (Json.render call.arguments) (Json.render call'.arguments)

structure RemoteApprover.Similar (s t : RemoteApprover) : Prop where
  rest : t = { s with calls := t.calls }
  calls : ∀ c, Option.Rel (ApproveCall.Similar R R') (s.calls c) (t.calls c)

def RemoteApprover.Action.requests : Action → Bool
  | .request .. => true
  | _ => false

/-- A request may differ in its arguments, nothing else in anything. -/
inductive RemoteApprover.Action.Similar : Action → Action → Prop
  | request {turn : Nat} {providerCallId tool : Text} {arguments arguments' : Json.Value}
      (htool : R.Similar R' tool tool)
      (harguments : R.Similar R' (Json.render arguments) (Json.render arguments')) :
      Similar (.request turn providerCallId tool arguments)
        (.request turn providerCallId tool arguments')
  | other {a : Action} (ha : a.requests = false) : Similar a a

/-- The coordinator is on its way to send an event of its own. -/
def Pc.ends : Pc → Bool
  | .terminal .. => true
  | _ => false

/-- At the same place, with events to send that look alike. -/
inductive Pc.Similar : Pc → Pc → Prop
  | terminal {event event' : WorkerEvent} {result : Ended} (hevent : event.Similar R R' event') :
      Similar (.terminal event result) (.terminal event' result)
  | other {pc : Pc} (hpc : pc.ends = false) : Similar pc pc

/-- The held events look alike, whatever they stand for. -/
def Held.Similar (held held' : Held) : Prop := held.event.Similar R R' held'.event

/-- What can be observed is equal, and texts still to be redacted look alike. -/
structure Worker.Similar {Message : Type} (s t : Worker Message) : Prop where
  pc : Pc.Similar R R' s.pc t.pc
  messages : t.messages.length = s.messages.length
  active : t.active = s.active
  nextTurn : t.nextTurn = s.nextTurn
  tasks : ∀ turn, AgentTask.Similar R R' (s.tasks turn) (t.tasks turn)
  queuedInputs : t.queuedInputs = s.queuedInputs
  pendingEvent : Option.Rel (Held.Similar R R') s.pendingEvent t.pendingEvent
  approvalBarrier : Option.Rel (fun barrier barrier' => barrier'.1 = barrier.1 ∧
    ApprovalNotice.Similar R R' barrier.2 barrier'.2) s.approvalBarrier t.approvalBarrier
  approvals : List.Forall₂ (fun barrier barrier' => barrier'.1 = barrier.1 ∧
    ApprovalNotice.Similar R R' barrier.2 barrier'.2) s.approvals t.approvals
  approver : RemoteApprover.Similar R R' s.approver t.approver
  callIds : t.callIds = s.callIds
  outbound : List.Forall₂ (WorkerEvent.Similar R R') s.outbound t.outbound
  writer : t.writer = s.writer
  frames : t.frames = s.frames

/-- The action brings something an agent says. -/
def Worker.Action.speaks {Message : Type} : Action Message → Bool
  | .emit .. | .finish .. | .call _ => true
  | _ => false

/-- What the agents say looks alike, and everything else is the same. -/
inductive Worker.Action.Similar {Message : Type} : Action Message → Action Message → Prop
  | emit {turn : Nat} {event event' : AgentEvent} (hevent : AgentEvent.Similar R R' event event') :
      Similar (.emit turn event) (.emit turn event')
  | finish {turn : Nat} {outcome outcome' : Outcome Message}
      (houtcome : Outcome.Similar R R' outcome outcome') :
      Similar (.finish turn outcome) (.finish turn outcome')
  | call {action action' : RemoteApprover.Action}
      (haction : RemoteApprover.Action.Similar R R' action action') :
      Similar (.call action) (.call action')
  | other {a : Action Message} (ha : a.speaks = false) : Similar a a

/-- The connections are set up alike: the same tools, histories of the same
length, and texts of the worker's own that no secret tells apart. -/
structure Setup.Similar {Message : Type} (setup setup' : Setup Message) : Prop where
  messages : setup'.messages.length = setup.messages.length
  registeredTools : setup'.registeredTools = setup.registeredTools
  queueLimit : setup.redactor.Similar setup'.redactor queueLimitExceeded queueLimitExceeded
  cancellation : setup.redactor.Similar setup'.redactor cancellationDeadlineExceeded
    cancellationDeadlineExceeded

variable {R R'}

theorem Redactor.similar_iff {text text' : Text} :
    R.Similar R' text text' ↔ R.clean text = R'.clean text' := by
  rw [Redactor.Similar, redactText_eq, redactText_eq, Option.some.injEq]

theorem WorkerEvent.Similar.eq {event event' : WorkerEvent} (h : event.Similar R R' event') :
    R.redactEvent event = R'.redactEvent event' := h

theorem WorkerEvent.similar_iff {event event' : WorkerEvent} :
    event.Similar R R' event' ↔ event.mapTexts R.clean = event'.mapTexts R'.clean := by
  rw [WorkerEvent.Similar, Redactor.redactEvent_eq, Redactor.redactEvent_eq, Option.some.injEq]

/-! ## The approver -/

namespace RemoteApprover

variable {s s' t : RemoteApprover} {a b : Action} {os : List Obs} {c : Nat} {call : ApproveCall}

/-- A call there is there on the other side, but for its arguments. -/
theorem Similar.found (h : Similar R R' s t) (hcall : s.calls c = some call) :
    ∃ arguments, t.calls c = some { call with arguments := arguments } ∧
      ApproveCall.Similar R R' call { call with arguments := arguments } := by
  obtain ⟨call', hcall', hsame⟩ := rel_some (h.calls c) hcall
  rw [hsame.rest] at hcall' hsame
  exact ⟨call'.arguments, hcall', hsame⟩

/-- Calls that move alike stay alike. -/
theorem Similar.setStage (h : Similar R R' s t) {arguments : Json.Value}
    (hcall : ApproveCall.Similar R R' call { call with arguments := arguments }) (stage : Stage) :
    Similar R R' (s.setStage c call stage)
      (t.setStage c { call with arguments := arguments } stage) := by
  refine ⟨?_, rel_update h.calls c (.some ⟨rfl, hcall.tool, hcall.arguments⟩)⟩
  rw [h.rest]
  rfl

theorem Similar.pending (h : Similar R R' s t) : t.pending = s.pending := by rw [h.rest]

theorem Similar.allowedTools (h : Similar R R' s t) : t.allowedTools = s.allowedTools := by
  rw [h.rest]

theorem Similar.persists (h : Similar R R' s t) (decision : IpcApprovalDecision) (tool : Text) :
    t.persists decision tool = s.persists decision tool := by
  rw [h.rest]
  rfl

/-- The guard takes the same entry. -/
theorem Similar.removeOwn (h : Similar R R' s t) (c : Nat) (handle : Text) :
    Similar R R' (s.removeOwn c handle) (t.removeOwn c handle) := by
  obtain ⟨hrest, hcalls⟩ := h
  unfold RemoteApprover.removeOwn
  rw [show t.pending = s.pending by rw [hrest]]
  split
  · split
    · exact ⟨by rw [hrest], hcalls⟩
    · exact ⟨hrest, hcalls⟩
  · exact ⟨hrest, hcalls⟩

/-- How a call moves depends on its arguments in no way. -/
theorem Moves.similar {stage : Stage} (hmoves : Moves s c call a stage os) (h : Similar R R' s t)
    (arguments : Json.Value) : Moves t c { call with arguments := arguments } a stage os := by
  cases hmoves with
  | listed hstage htool => exact .listed hstage (by rwa [h.allowedTools])
  | unlisted hstage htool => exact .unlisted hstage (by rwa [h.allowedTools])
  | named hstage => exact .named hstage
  | occupied hstage hpending => exact .occupied hstage (by rwa [h.pending])
  | notified hstage => exact .notified hstage
  | undelivered hstage => exact .undelivered hstage
  | received hstage hreply => exact .received hstage hreply
  | closed hstage hreply hsender =>
      refine .closed hstage hreply ?_
      rw [senderDropped, h.pending]
      exact hsender
  | aborted hreceives hguards => exact .aborted hreceives hguards
  | abortedEarly hguards hended => exact .abortedEarly hguards hended

theorem Similar.cancelPending (h : Similar R R' s t) :
    Similar R R' s.cancelPending t.cancelPending :=
  ⟨by rw [h.rest]; rfl, h.calls⟩

/-- Two approvers move together, with the same observations. -/
theorem Similar.step (h : Similar R R' s t) (ha : Action.Similar R R' a b)
    (hstep : s.step a = some (s', os)) : ∃ t', t.step b = some (t', os) ∧ Similar R R' s' t' := by
  have hs := step_cases hstep
  cases ha with
  | request htool harguments =>
      cases hs with
      | move hcall hmoves => cases hmoves
      | request turn providerCallId tool arguments =>
          refine ⟨_, rfl, ?_, ?_⟩
          · rw [h.rest]
          · have hnext : t.nextToken = s.nextToken := by rw [h.rest]
            rw [hnext]
            exact rel_update h.calls _ (.some ⟨rfl, htool, harguments⟩)
  | other hother =>
      cases hs with
      | request turn providerCallId tool arguments => cases hother
      | move hcall hmoves =>
          obtain ⟨arguments, hcall', hsame⟩ := h.found hcall
          exact ⟨_, (Step.move hcall' (hmoves.similar h arguments)).step, h.setStage hsame _⟩
      | @register c call handle hcall hstage hvacant =>
          obtain ⟨arguments, hcall', hsame⟩ := h.found hcall
          refine ⟨_, (Step.register hcall' hstage (by rwa [h.pending])).step, ?_, ?_⟩
          · rw [h.pending, (h.setStage hsame (.registered handle)).rest]
          · exact (h.setStage hsame _).calls
      | dropGuard hcall hstage =>
          obtain ⟨arguments, hcall', hsame⟩ := h.found hcall
          exact ⟨_, (Step.dropGuard hcall' hstage).step, (h.removeOwn _ _).setStage hsame _⟩
      | unknown hnone => exact ⟨_, (Step.unknown (by rwa [h.pending])).step, h⟩
      | @late callId decision approval hpending hdead =>
          refine ⟨_, (Step.late (by rwa [h.pending]) fun call' hcall' => ?_).step, ?_, h.calls⟩
          · cases hcall : s.calls approval.token with
            | none =>
                rw [rel_none (h.calls _) hcall] at hcall'
                cases hcall'
            | some call =>
                obtain ⟨arguments, hfound, -⟩ := h.found hcall
                obtain rfl := Option.some.inj (hfound.symm.trans hcall')
                exact hdead call hcall
          · rw [h.pending, h.rest]
      | @resolve callId decision approval call hpending hcall halive =>
          obtain ⟨arguments, hcall', hsame⟩ := h.found hcall
          have hreply : t.coreDecision decision approval.tool =
              s.coreDecision decision approval.tool := by
            rw [coreDecision, h.persists]
            rfl
          refine ⟨_, (Step.resolve (by rwa [h.pending]) hcall' halive).step, ?_, ?_⟩
          · rw [h.pending, h.persists, h.allowedTools, h.rest]
          · rw [hreply]
            exact rel_update h.calls _ (.some ⟨rfl, hsame.tool, hsame.arguments⟩)
      | cancelPending => exact ⟨_, Step.cancelPending.step, h.cancelPending⟩

/-- A decision reaches the same call. -/
theorem Similar.resolve (h : Similar R R' s t) (callId : Text) (decision : IpcApprovalDecision) :
    Similar R R' (s.resolve callId decision).1 (t.resolve callId decision).1 := by
  obtain ⟨t', hstep, hsimilar⟩ := h.step (a := .resolve callId decision) (.other rfl) rfl
  have hresolve := congrArg Prod.fst (Option.some.inj hstep)
  rw [show (t.resolve callId decision).1 = t' from hresolve]
  exact hsimilar

end RemoteApprover

/-! ## The operations -/

/-- Both sides draw the handle, or find it, alike. -/
theorem mapAgentEvent_similar {event event' : AgentEvent} (h : AgentEvent.Similar R R' event event')
    {callIds callIds' : CallIdMapper} (hcallIds : callIds' = callIds) (handle : Text) :
    (mapAgentEvent callIds' handle event').2 = (mapAgentEvent callIds handle event).2 ∧
    (mapAgentEvent callIds handle event).1.Similar R R'
      (mapAgentEvent callIds' handle event').1 := by
  subst hcallIds
  cases h with
  | textDelta htext =>
      refine ⟨rfl, WorkerEvent.similar_iff.mpr ?_⟩
      simp [mapAgentEvent, WorkerEvent.mapTexts, Redactor.similar_iff.mp htext]
  | assistantMessage htext =>
      refine ⟨rfl, WorkerEvent.similar_iff.mpr ?_⟩
      simp [mapAgentEvent, WorkerEvent.mapTexts, Redactor.similar_iff.mp htext]
  | toolStart hname harguments =>
      refine ⟨rfl, WorkerEvent.similar_iff.mpr ?_⟩
      simp [mapAgentEvent, WorkerEvent.mapTexts, Redactor.similar_iff.mp hname,
        Redactor.similar_iff.mp harguments]
  | toolResult hname hcontent =>
      refine ⟨rfl, WorkerEvent.similar_iff.mpr ?_⟩
      simp [mapAgentEvent, WorkerEvent.mapTexts, Redactor.similar_iff.mp hname,
        Redactor.similar_iff.mp hcontent]
  | turnFinished => exact ⟨rfl, WorkerEvent.similar_iff.mpr rfl⟩

/-- A notice has texts, and they look alike. -/
theorem mapApprovalNotice_similar {notice notice' : ApprovalNotice}
    (h : ApprovalNotice.Similar R R' notice notice') :
    (mapApprovalNotice notice).Similar R R' (mapApprovalNotice notice') := by
  refine WorkerEvent.similar_iff.mpr ?_
  simp [mapApprovalNotice, WorkerEvent.mapTexts, h.callId, Redactor.similar_iff.mp h.tool,
    Redactor.similar_iff.mp h.arguments]

theorem crash_similar {error error' : Text} (h : R.Similar R' error error') :
    WorkerEvent.Similar R R' (.crash error) (.crash error') := by
  refine WorkerEvent.similar_iff.mpr ?_
  simp [WorkerEvent.mapTexts, Redactor.similar_iff.mp h]

theorem doneEvent_similar {n m : Nat} (h : m = n) :
    (doneEvent n).Similar R R' (doneEvent m) := by
  subst h
  exact WorkerEvent.similar_iff.mpr rfl

/-- The event asks for a decision. -/
def WorkerEvent.asks : WorkerEvent → Bool
  | .needsApproval .. => true
  | _ => false

/-- Redaction does not change what kind of event it is. -/
theorem WorkerEvent.Similar.asks {event event' : WorkerEvent} (h : event.Similar R R' event') :
    event'.asks = event.asks := by
  have hmap : ∀ (f : Text → Text) (event : WorkerEvent), (event.mapTexts f).asks = event.asks := by
    intro f event
    cases event <;> rfl
  rw [← hmap R.clean event, ← hmap R'.clean event', WorkerEvent.similar_iff.mp h]

/-- Where no event is on its way the places are equal. -/
theorem Pc.Similar.eq {pc pc' : Pc} (h : Pc.Similar R R' pc pc') (hother : pc.ends = false) :
    pc' = pc := by
  cases h with
  | terminal hevent => cases hother
  | other hpc => rfl

theorem Pc.Similar.returned_eq {pc : Pc} {result : Ended}
    (h : Pc.Similar R R' pc (.returned result)) : pc = .returned result := by
  cases h with
  | other hpc => rfl

theorem Pc.Similar.terminal_eq {event : WorkerEvent} {result : Ended} {pc' : Pc}
    (h : Pc.Similar R R' (.terminal event result) pc') :
    ∃ event', pc' = .terminal event' result ∧ event.Similar R R' event' := by
  cases h with
  | terminal hevent => exact ⟨_, rfl, hevent⟩
  | other hpc => cases hpc

namespace Worker

variable {Message : Type} {setup setup' : Setup Message} {s s' t : Worker Message}
  {a b : Action Message} {os : List (Obs Message)}

theorem keepOrdinary_some (held : Held) :
    keepOrdinary (some held) = if held.event.asks then none else some held := by
  unfold keepOrdinary
  cases hevent : held.event <;> simp [hevent, WorkerEvent.asks]

/-- A held approval request is held on both sides. -/
theorem keepOrdinary_similar {o o' : Option Held} (h : Option.Rel (Held.Similar R R') o o') :
    Option.Rel (Held.Similar R R') (keepOrdinary o) (keepOrdinary o') := by
  cases h with
  | none => exact .none
  | @some held held' hevent =>
      rw [keepOrdinary_some, keepOrdinary_some, WorkerEvent.Similar.asks hevent]
      split
      · exact .none
      · exact .some hevent

namespace Similar

section

variable (h : Similar R R' s t)

include h

/-- The other side is at the same place. -/
theorem at_pc {pc : Pc} (hpc : s.pc = pc) (hother : pc.ends = false) : t.pc = pc := by
  have hsame := h.pc
  rw [hpc] at hsame
  exact hsame.eq hother

/-- They return together. -/
theorem returned {result : Ended} (hpc : t.pc = .returned result) : s.pc = .returned result := by
  have hsame := h.pc
  rw [hpc] at hsame
  exact hsame.returned_eq

/-- Or about to send an event that looks alike. -/
theorem at_terminal {event : WorkerEvent} {result : Ended} (hpc : s.pc = .terminal event result) :
    ∃ event', t.pc = .terminal event' result ∧ event.Similar R R' event' := by
  have hsame := h.pc
  rw [hpc] at hsame
  exact hsame.terminal_eq

theorem update (turn : Nat) {task task' : AgentTask Message} (htask : task.Similar R R' task') :
    ∀ turn', (Function.update s.tasks turn task turn').Similar R R'
      (Function.update t.tasks turn task' turn') :=
  rel_update h.tasks turn htask

theorem abortTask (turn : Nat) :
    ∀ turn', (s.abortTask turn turn').Similar R R' (t.abortTask turn turn') :=
  h.update turn { h.tasks turn with aborted := rfl }

/-- Both leave the loop, and abort the same turn. -/
theorem breakLoop (result : Ended) : Similar R R' (s.breakLoop result) (t.breakLoop result) := by
  cases hactive : s.active with
  | none =>
      rw [breakLoop_none hactive, breakLoop_none (h.active.trans hactive)]
      exact { h with pc := .other rfl }
  | some turn =>
      rw [breakLoop_some hactive, breakLoop_some (h.active.trans hactive)]
      exact { h with pc := .other rfl, tasks := h.abortTask turn }

theorem sendOrdered {event event' : WorkerEvent} (hevent : event.Similar R R' event')
    (result : Ended) : Similar R R' (s.sendOrdered event result) (t.sendOrdered event' result) :=
  { h with pc := .terminal hevent }

theorem sendTerminal {event event' : WorkerEvent} (hevent : event.Similar R R' event')
    (result : Ended) : Similar R R' (s.sendTerminal event result) (t.sendTerminal event' result) :=
  { h with pc := .terminal hevent, pendingEvent := .none }

theorem release : Similar R R' s.release t.release :=
  { h with
    approver := h.approver.cancelPending
    callIds := rfl
    approvals := .nil }

/-- A cancelled turn leaves events that look alike, or none on either side. -/
theorem cancelled : Similar R R' s.cancelled t.cancelled :=
  { h.release with
    approvalBarrier := .none
    pendingEvent := keepOrdinary_similar h.pendingEvent }

/-- Commands are read on both sides or on neither. -/
theorem readsCommands : t.readsCommands = s.readsCommands := by
  rw [Worker.readsCommands, Worker.readsCommands, h.active, rel_isSome h.pendingEvent,
    h.queuedInputs]
  have hbarrier : t.approvalBarrier.isNone = s.approvalBarrier.isNone := by
    rw [← Option.not_isSome, ← Option.not_isSome, rel_isSome h.approvalBarrier]
  rw [hbarrier]

/-- There is room on both sides or on neither. -/
theorem sends : t.sends = s.sends := by
  rw [Worker.sends, Worker.sends, h.writer, h.outbound.length_eq]

theorem queueInput (text : Text) : Similar R R' (s.queueInput text) (t.queueInput text) :=
  { h with queuedInputs := congrArg (· ++ [text]) h.queuedInputs }

theorem approve (callId : Text) (decision : IpcApprovalDecision) :
    Similar R R' (s.approve callId decision).1 (t.approve callId decision).1 :=
  { h with approver := h.approver.resolve callId decision }

/-- The frames to come look alike. -/
theorem enqueue {held held' : Held} (hevent : Held.Similar R R' held held') :
    Similar R R' (s.enqueue held).1 (t.enqueue held').1 :=
  { h with
    pendingEvent := .none
    outbound := List.rel_append h.outbound (.cons hevent .nil) }

theorem startTurn (text : Text) (rest : List Text) :
    Similar R R' (s.startTurn setup text rest).1 (t.startTurn setup' text rest).1 :=
  { h with
    active := congrArg some h.nextTurn
    nextTurn := congrArg (· + 1) h.nextTurn
    tasks := by
      show ∀ turn, (Function.update s.tasks s.nextTurn _ turn).Similar R R'
        (Function.update t.tasks t.nextTurn _ turn)
      rw [h.nextTurn]
      exact h.update _ ⟨.nil, rfl, .none, rfl⟩
    queuedInputs := rfl }

theorem holdNotice {barrier barrier' : Nat × ApprovalNotice}
    (hnotice : ApprovalNotice.Similar R R' barrier.2 barrier'.2) :
    Similar R R' (s.holdNotice barrier) (t.holdNotice barrier') :=
  { h with
    approvalBarrier := .none
    pendingEvent := .some (mapApprovalNotice_similar hnotice) }

/-- What is taken from the channel is mapped to the same handle. -/
theorem holdEvent (handle : Text) (turn : Nat) {event event' : AgentEvent}
    {rest rest' : List AgentEvent} (hevent : AgentEvent.Similar R R' event event')
    (hrest : List.Forall₂ (AgentEvent.Similar R R') rest rest') :
    Similar R R' (s.holdEvent handle turn event rest).1
      (t.holdEvent handle turn event' rest').1 := by
  obtain ⟨hsame, hsent⟩ := mapAgentEvent_similar hevent h.callIds handle
  exact { h with
    pendingEvent := .some hsent
    callIds := congrArg Prod.snd hsame
    tasks := h.update turn { h.tasks turn with events := hrest } }

/-- Of an outcome only its kind and the length of its history matter. -/
theorem join {outcome outcome' : Outcome Message}
    (houtcome : Outcome.Similar R R' outcome outcome') :
    Similar R R' (s.join outcome) (t.join outcome') := by
  cases houtcome with
  | ok hlength =>
      exact { h with pc := .other rfl, messages := hlength, callIds := rfl, approvals := .nil }
  | failed herror => exact h.sendTerminal (crash_similar herror) _
  | panicked error => exact h.breakLoop _
  | cancelled error => exact h.breakLoop _

theorem emit (turn : Nat) {event event' : AgentEvent}
    (hevent : AgentEvent.Similar R R' event event') :
    AgentTask.Similar R R' { s.tasks turn with events := (s.tasks turn).events ++ [event] }
      { t.tasks turn with events := (t.tasks turn).events ++ [event'] } :=
  { h.tasks turn with events := List.rel_append (h.tasks turn).events (.cons hevent .nil) }

theorem idle : t.idle = s.idle := by
  rw [Worker.idle, Worker.idle, h.active, ← Option.not_isSome (a := t.pendingEvent),
    rel_isSome h.pendingEvent, Option.not_isSome]

/-- A channel is empty on both sides. -/
theorem no_events {turn : Nat} (hevents : (s.tasks turn).events = []) :
    (t.tasks turn).events = [] := by
  have hsame := (h.tasks turn).events
  rw [hevents] at hsame
  exact List.forall₂_nil_left_iff.mp hsame

/-- The first events look alike, and so does what is behind them. -/
theorem first_event {turn : Nat} {event : AgentEvent} {rest : List AgentEvent}
    (hevents : (s.tasks turn).events = event :: rest) :
    ∃ event' rest', (t.tasks turn).events = event' :: rest' ∧
      AgentEvent.Similar R R' event event' ∧ List.Forall₂ (AgentEvent.Similar R R') rest rest' := by
  have hsame := (h.tasks turn).events
  rw [hevents] at hsame
  obtain ⟨event', rest', hevent, hrest, hevents'⟩ := List.forall₂_cons_left_iff.mp hsame
  exact ⟨event', rest', hevents', hevent, hrest⟩

/-- What one approver may do alone the other may do too. -/
theorem allows {action action' : RemoteApprover.Action}
    (haction : RemoteApprover.Action.Similar R R' action action') (hallows : s.Allows action) :
    t.Allows action' := by
  cases haction with
  | request htool harguments => exact lt_of_lt_of_eq hallows h.nextTurn.symm
  | other hother =>
      cases action with
      | notifyFail c =>
          obtain ⟨result, hpc⟩ := hallows
          exact ⟨result, h.at_pc hpc rfl⟩
      | request turn providerCallId tool arguments => cases hother
      | _ => exact hallows

/-! ## The rules -/

/-- A call of `approve` goes on as it does on the other side. -/
theorem call_step {action action' : RemoteApprover.Action}
    (haction : RemoteApprover.Action.Similar R R' action action')
    (hstep : Step setup s (.call action) s' os) :
    ∃ t' os', Step setup' t (.call action') t' os' ∧ Similar R R' s' t' := by
  cases hstep with
  | holdEvent hpc hactive hpending hevents ha => rcases ha with ha | ha <;> cases ha
  | call hallows hstep =>
      obtain ⟨approver', hstep', hsimilar⟩ := h.approver.step haction hstep
      exact ⟨_, _, .call (h.allows haction hallows) hstep', { h with approver := hsimilar }⟩
  | @name c handle call hcall hstage =>
      cases haction with
      | other =>
          obtain ⟨arguments, hcall', hsame⟩ := h.approver.found hcall
          have hcallIds : t.callIds.startApproval call.providerCallId handle =
              s.callIds.startApproval call.providerCallId handle := by
            rw [h.callIds]
          exact ⟨_, _, .name hcall' hstage,
            { h with approver := h.approver.setStage hsame _, callIds := hcallIds }⟩
  | @notify c handle call hcall hstage hroom =>
      cases haction with
      | other =>
          obtain ⟨arguments, hcall', hsame⟩ := h.approver.found hcall
          have hroom' : t.approvals.length < workerApprovalChannelCapacity := by
            rwa [← h.approvals.length_eq]
          refine ⟨_, _, .notify hcall' hstage hroom', { h with
            approver := h.approver.setStage hsame _
            approvals := List.rel_append h.approvals (.cons ⟨rfl, ?_⟩ .nil) }⟩
          exact ⟨rfl, hsame.tool, hsame.arguments⟩

/-- An agent emits what looks alike. -/
theorem emit_step {turn : Nat} {event event' : AgentEvent}
    (hevent : AgentEvent.Similar R R' event event')
    (hstep : Step setup s (.emit turn event) s' os) :
    ∃ t' os', Step setup' t (.emit turn event') t' os' ∧ Similar R R' s' t' := by
  cases hstep with
  | holdEvent hpc hactive hpending hevents ha => rcases ha with ha | ha <;> cases ha
  | emit hturn hopen =>
      exact ⟨_, _, .emit (by rwa [h.nextTurn]) ((h.tasks turn).closed.trans hopen),
        { h with tasks := h.update turn (h.emit turn hevent) }⟩

/-- An agent ends with an outcome that looks alike. -/
theorem finish_step {turn : Nat} {outcome outcome' : Outcome Message}
    (houtcome : Outcome.Similar R R' outcome outcome')
    (hstep : Step setup s (.finish turn outcome) s' os) :
    ∃ t' os', Step setup' t (.finish turn outcome') t' os' ∧ Similar R R' s' t' := by
  cases hstep with
  | holdEvent hpc hactive hpending hevents ha => rcases ha with ha | ha <;> cases ha
  | finish hturn hrunning =>
      exact ⟨_, _, .finish (by rwa [h.nextTurn]) (rel_none (h.tasks turn).outcome hrunning),
        { h with tasks := h.update turn { h.tasks turn with outcome := .some houtcome } }⟩

end

/-- What no agent says is the same rule on both sides. -/
theorem other_step (hsetup : Setup.Similar setup setup')
    (h : Similar setup.redactor setup'.redactor s t) (hother : a.speaks = false)
    (hstep : Step setup s a s' os) :
    ∃ t' os', Step setup' t a t' os' ∧ Similar setup.redactor setup'.redactor s' t' := by
  cases hstep with
  | emit => cases hother
  | finish => cases hother
  | call => cases hother
  | name => cases hother
  | notify => cases hother
  -- commands
  | queueInput hpc hreads hroom =>
      have hroom' : t.idle = true ∨ t.queuedInputs.length ≠ maxQueuedInputs := by
        rwa [h.idle, h.queuedInputs]
      exact ⟨_, _, .queueInput (h.at_pc hpc rfl) (h.readsCommands.trans hreads) hroom',
        h.queueInput _⟩
  | overflow hpc hreads hbusy hfull =>
      have hfull' : t.queuedInputs.length = maxQueuedInputs := by rwa [h.queuedInputs]
      exact ⟨_, _, .overflow (h.at_pc hpc rfl) (h.readsCommands.trans hreads)
        (h.idle.trans hbusy) hfull', h.sendOrdered (crash_similar hsetup.queueLimit) _⟩
  | approve hpc hreads =>
      exact ⟨_, _, .approve (h.at_pc hpc rfl) (h.readsCommands.trans hreads), h.approve _ _⟩
  | ignoreCancel hpc hactive hreads =>
      exact ⟨_, _, .ignoreCancel (h.at_pc hpc rfl) (h.active.trans hactive)
        (h.readsCommands.trans hreads), h⟩
  | @cancel turn hpc hactive hreads =>
      exact ⟨_, _, .cancel (h.at_pc hpc rfl) (h.active.trans hactive)
        (h.readsCommands.trans hreads),
        { h with pc := .other rfl, active := rfl, tasks := h.abortTask turn }⟩
  | @stop turn hpc hactive hreads =>
      exact ⟨_, _, .stop (h.at_pc hpc rfl) (h.active.trans hactive)
        (h.readsCommands.trans hreads),
        { h with pc := .other rfl, active := rfl, tasks := h.abortTask turn }⟩
  | stopInactive hpc hactive hreads =>
      exact ⟨_, _, .stopInactive (h.at_pc hpc rfl) (h.active.trans hactive)
        (h.readsCommands.trans hreads), h.sendOrdered (doneEvent_similar h.messages) _⟩
  | commandsClosed hpc hreads =>
      exact ⟨_, _, .commandsClosed (h.at_pc hpc rfl) (h.readsCommands.trans hreads),
        h.breakLoop _⟩
  | commandError hpc hreads =>
      exact ⟨_, _, .commandError (h.at_pc hpc rfl) (h.readsCommands.trans hreads), h.breakLoop _⟩
  -- the rest of the loop
  | startTurn hpc hactive hpending hqueued =>
      exact ⟨_, _, .startTurn (h.at_pc hpc rfl) (h.active.trans hactive)
        (rel_none h.pendingEvent hpending) (h.queuedInputs.trans hqueued), h.startTurn _ _⟩
  | @holdEvent a handle turn event rest hpc hactive hpending hevents ha hbarrier =>
      obtain ⟨event', rest', hevents', hevent, hrest⟩ := h.first_event hevents
      have hbarrier' : a = .barrier handle ↔ t.approvalBarrier ≠ none := by
        rw [hbarrier, ← Option.isSome_iff_ne_none, ← Option.isSome_iff_ne_none,
          rel_isSome h.approvalBarrier]
      exact ⟨_, _, .holdEvent (h.at_pc hpc rfl) (h.active.trans hactive)
        (rel_none h.pendingEvent hpending) hevents' ha hbarrier', h.holdEvent _ _ hevent hrest⟩
  | @holdNotice handle turn barrier hpc hactive hpending hbarrier hevents hopen =>
      obtain ⟨barrier', hbarrier', -, hnotice⟩ := rel_some h.approvalBarrier hbarrier
      exact ⟨_, _, .holdNotice (h.at_pc hpc rfl) (h.active.trans hactive)
        (rel_none h.pendingEvent hpending) hbarrier' (h.no_events hevents)
        ((h.tasks turn).closed.trans hopen), h.holdNotice hnotice⟩
  | @dropBarrier handle turn barrier hpc hactive hpending hbarrier hevents hclosed =>
      obtain ⟨barrier', hbarrier', -⟩ := rel_some h.approvalBarrier hbarrier
      exact ⟨_, _, .dropBarrier (h.at_pc hpc rfl) (h.active.trans hactive)
        (rel_none h.pendingEvent hpending) hbarrier' (h.no_events hevents)
        ((h.tasks turn).closed.trans hclosed), { h with approvalBarrier := .none }⟩
  | takeNotice hpc hactive hbarrier happrovals =>
      have hnotices := h.approvals
      rw [happrovals] at hnotices
      obtain ⟨notice', rest', hnotice, hrest, happrovals'⟩ := List.forall₂_cons_left_iff.mp hnotices
      exact ⟨_, _, .takeNotice (h.at_pc hpc rfl) (h.active.trans hactive)
        (rel_none h.approvalBarrier hbarrier) happrovals',
        { h with approvalBarrier := .some hnotice, approvals := hrest }⟩
  | @turnClosed handle turn hpc hactive hpending hbarrier hevents hclosed =>
      exact ⟨_, _, .turnClosed (h.at_pc hpc rfl) (h.active.trans hactive)
        (rel_none h.pendingEvent hpending) (rel_none h.approvalBarrier hbarrier)
        (h.no_events hevents) ((h.tasks turn).closed.trans hclosed),
        { h with pc := .other rfl, active := rfl }⟩
  | enqueue hpc hpending hsends =>
      obtain ⟨held', hpending', hevent⟩ := rel_some h.pendingEvent hpending
      exact ⟨_, _, .enqueue (h.at_pc hpc rfl) hpending' (h.sends.trans hsends), h.enqueue hevent⟩
  | writerGone hpc hpending hwriter =>
      obtain ⟨held', hpending', -⟩ := rel_some h.pendingEvent hpending
      have hwriter' : t.writer.receives = false := by rwa [h.writer]
      exact ⟨_, _, .writerGone (h.at_pc hpc rfl) hpending' hwriter', h.breakLoop _⟩
  -- past an await in a branch of the loop
  | @cancelCompleted turn hpc houtcome =>
      have houtcome' : (t.tasks turn).outcome.isSome = true :=
        (rel_isSome (h.tasks turn).outcome).trans houtcome
      exact ⟨_, _, .cancelCompleted (h.at_pc hpc rfl) houtcome',
        { h.cancelled with pc := .other rfl }⟩
  | cancelDeadline hpc =>
      exact ⟨_, _, .cancelDeadline (h.at_pc hpc rfl),
        h.cancelled.sendOrdered (crash_similar hsetup.cancellation) _⟩
  | stopDone hpc =>
      exact ⟨_, _, .stopDone (h.at_pc hpc rfl), { h.release with
        pc := .terminal (doneEvent_similar h.messages)
        pendingEvent := keepOrdinary_similar h.pendingEvent }⟩
  | @joinTurn turn outcome hpc houtcome =>
      obtain ⟨outcome', houtcome', hsame⟩ := rel_some (h.tasks turn).outcome houtcome
      exact ⟨_, _, .joinTurn (h.at_pc hpc rfl) houtcome', h.join hsame⟩
  -- past the loop
  | terminalHeld hpc hpending hsends =>
      obtain ⟨event', hpc', -⟩ := h.at_terminal hpc
      obtain ⟨held', hpending', hevent⟩ := rel_some h.pendingEvent hpending
      exact ⟨_, _, .terminalHeld hpc' hpending' (h.sends.trans hsends), h.enqueue hevent⟩
  | terminalEvent hpc hpending hsends =>
      obtain ⟨event', hpc', hevent⟩ := h.at_terminal hpc
      exact ⟨_, _, .terminalEvent hpc' (rel_none h.pendingEvent hpending) (h.sends.trans hsends),
        { h.breakLoop _ with outbound := List.rel_append h.outbound (.cons hevent .nil) }⟩
  | terminalGiveUp hpc =>
      obtain ⟨event', hpc', -⟩ := h.at_terminal hpc
      exact ⟨_, _, .terminalGiveUp hpc', h.breakLoop _⟩
  | abortDone hpc =>
      exact ⟨_, _, .abortDone (h.at_pc hpc rfl), { h.release with pc := .other rfl, active := rfl }⟩
  | closed hpc hwriter =>
      exact ⟨_, _, .closed (h.at_pc hpc rfl) (h.writer.trans hwriter), { h with pc := .other rfl }⟩
  | closeDeadline hpc =>
      exact ⟨_, _, .closeDeadline (h.at_pc hpc rfl), { h with pc := .other rfl, writer := rfl }⟩
  -- the writer
  | writerRecv hwriter houtbound =>
      have hevents := h.outbound
      rw [houtbound] at hevents
      obtain ⟨event', rest', hevent, hrest, houtbound'⟩ := List.forall₂_cons_left_iff.mp hevents
      exact ⟨_, _, .writerRecv (h.writer.trans hwriter) houtbound', { h with
        outbound := hrest
        writer := by rw [WorkerEvent.similar_iff.mp hevent] }⟩
  | @writerWrite frame hwriter hfits =>
      exact ⟨_, _, .writerWrite (h.writer.trans hwriter) hfits,
        { h with writer := rfl, frames := congrArg (· ++ [frame]) h.frames }⟩
  | writerReject hwriter hfits =>
      exact ⟨_, _, .writerReject (h.writer.trans hwriter) hfits, { h with writer := rfl }⟩
  | writerFail hwriter =>
      exact ⟨_, _, .writerFail (h.writer.trans hwriter), { h with writer := rfl }⟩
  | writerEnd hpc hwriter houtbound =>
      have hevents := h.outbound
      rw [houtbound] at hevents
      exact ⟨_, _, .writerEnd (h.at_pc hpc rfl) (h.writer.trans hwriter)
        (List.forall₂_nil_left_iff.mp hevents), { h with writer := rfl }⟩
  | @closeEvents turn hturn =>
      have htask : AgentTask.Similar _ _ { s.tasks turn with closed := true }
          { t.tasks turn with closed := true } := { h.tasks turn with closed := rfl }
      exact ⟨_, _, .closeEvents (by rwa [h.nextTurn]), { h with tasks := h.update turn htask }⟩

/-- The one side answers each step of the other with a step that looks alike. -/
theorem step (hsetup : Setup.Similar setup setup')
    (h : Similar setup.redactor setup'.redactor s t)
    (ha : Action.Similar setup.redactor setup'.redactor a b)
    {r : Worker Message × List (Obs Message)} (hstep : Worker.step setup s a = some r) :
    ∃ r', Worker.step setup' t b = some r' ∧
      Similar setup.redactor setup'.redactor r.1 r'.1 := by
  have hrule : ∃ t' os', Step setup' t b t' os' ∧
      Similar setup.redactor setup'.redactor r.1 t' := by
    cases ha with
    | emit hevent => exact h.emit_step hevent (step_cases hstep)
    | finish houtcome => exact h.finish_step houtcome (step_cases hstep)
    | call haction => exact h.call_step haction (step_cases hstep)
    | other hother => exact h.other_step hsetup hother (step_cases hstep)
  obtain ⟨t', os', hstep', hsimilar⟩ := hrule
  exact ⟨(t', os'), hstep'.step, hsimilar⟩

end Similar

/-- Two workers that are set up alike look alike. -/
theorem similar_new (hsetup : Setup.Similar setup setup') :
    Similar setup.redactor setup'.redactor (new setup) (new setup') where
  pc := .other rfl
  messages := hsetup.messages
  active := rfl
  nextTurn := rfl
  tasks _ := ⟨.nil, rfl, .none, rfl⟩
  queuedInputs := rfl
  pendingEvent := .none
  approvalBarrier := .none
  approvals := .nil
  approver := ⟨congrArg RemoteApprover.new hsetup.registeredTools, fun _ => .none⟩
  callIds := rfl
  outbound := .nil
  writer := rfl
  frames := rfl

end Worker

end PeakcodeDaemon
