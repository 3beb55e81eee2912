import PeakcodeDaemon.IssuedHandles

/-!
# Provider call ids do not show

A renaming of the provider's call ids is a map of the worker into itself:
it renames the agent's events, the requests and the keys of the map of
call ids, and leaves the handles. What goes out is the same.

- **operations** (`rename_holdEvent`, `rename_approve`, `rename_join`, and
  the like): each operation of the worker commutes with the renaming. What
  is to be shown is in the map of call ids
  (`CallIdMapper.rename_startEvent`, `CallIdMapper.rename_finish`), where
  a renamed key finds what the key found because the renaming is
  injective.
- **rules** (`Step.rename`): each rule, under the renaming, is the same
  rule. So the renamed worker takes the renamed step (`step_rename`), by
  the two directions of the rules.
- **runs** (`provider_ids_unseen`): the schedule is renamed action by
  action, and the events and the handles drawn are the same lists.

The map is extended by `none` outside the range of the renaming, which is
why it is not computable; no run computes with it.
-/

namespace PeakcodeDaemon

variable (ρ : Text → Text)

namespace CallIdMapper

/-- The map under renamed keys. -/
noncomputable def rename (m : CallIdMapper) : CallIdMapper :=
  ⟨Function.extend ρ m.active fun _ => none⟩

variable {ρ} (hρ : Function.Injective ρ) (m : CallIdMapper)

include hρ

theorem rename_active (providerCallId : Text) :
    (m.rename ρ).active (ρ providerCallId) = m.active providerCallId :=
  hρ.extend_apply m.active (fun _ => none) providerCallId

omit hρ in
theorem rename_empty : empty.rename ρ = empty := by
  have : Function.extend ρ (fun _ => none) (fun _ => none) = fun _ => (none : Option Text) := by
    funext q
    unfold Function.extend
    split <;> rfl
  exact congrArg CallIdMapper.mk this

theorem rename_update (providerCallId : Text) (x : Option Text) :
    Function.extend ρ (Function.update m.active providerCallId x) (fun _ => none) =
      Function.update (m.rename ρ).active (ρ providerCallId) x := by
  funext q
  by_cases hq : ∃ p, ρ p = q
  · obtain ⟨p, rfl⟩ := hq
    rw [hρ.extend_apply]
    by_cases hp : p = providerCallId
    · subst hp
      rw [Function.update_self, Function.update_self]
    · rw [Function.update_of_ne hp, Function.update_of_ne (hρ.ne hp), rename_active hρ]
  · have hne : q ≠ ρ providerCallId := fun h => hq ⟨_, h.symm⟩
    rw [Function.extend_apply' _ _ _ hq, Function.update_of_ne hne]
    exact (Function.extend_apply' m.active (fun _ => none) q hq).symm

/-- An approval overwrites the entry of the renamed id. -/
theorem rename_startApproval (providerCallId handle : Text) :
    (m.startApproval providerCallId handle).rename ρ =
      (m.rename ρ).startApproval (ρ providerCallId) handle :=
  congrArg CallIdMapper.mk (rename_update hρ m providerCallId (some handle))

/-- The entry found is the same, and so is the handle put in its place. -/
theorem rename_startEvent (providerCallId handle : Text) :
    (m.rename ρ).startEvent (ρ providerCallId) handle =
      ((m.startEvent providerCallId handle).1, (m.startEvent providerCallId handle).2.1,
        (m.startEvent providerCallId handle).2.2.rename ρ) := by
  unfold startEvent
  rw [rename_active hρ]
  cases m.active providerCallId with
  | some h => rfl
  | none =>
      show (handle, [handle], _) = (handle, [handle], _)
      rw [rename_startApproval hρ]

/-- The entry that goes is the one under the renamed id. -/
theorem rename_finish (providerCallId handle : Text) :
    (m.rename ρ).finish (ρ providerCallId) handle =
      ((m.finish providerCallId handle).1, (m.finish providerCallId handle).2.1,
        (m.finish providerCallId handle).2.2.rename ρ) := by
  unfold finish
  rw [rename_active hρ]
  cases m.active providerCallId with
  | none => rfl
  | some h =>
      show (h, [], _) = (h, [], _)
      exact congrArg (fun f => (h, ([] : List Text), CallIdMapper.mk f))
        (rename_update hρ m providerCallId none).symm

end CallIdMapper

/-! ## Events and calls -/

/-- Only tool events have a call id. -/
def AgentEvent.rename : AgentEvent → AgentEvent
  | .toolStart callId name arguments => .toolStart (ρ callId) name arguments
  | .toolResult callId name content isError => .toolResult (ρ callId) name content isError
  | event => event

/-- A notice names its call by the handle. -/
def Item.rename : Item → Item
  | .core event => .core (event.rename ρ)
  | .approval notice => .approval notice

/-- Under any name, an item can go out as the event it goes out as. -/
theorem Item.Renders.rename {item : Item} {sent : WorkerEvent} (h : item.Renders sent) :
    (item.rename ρ).Renders sent := by
  cases item with
  | approval notice => exact h
  | core event =>
      obtain ⟨callIds, handle, rfl⟩ := h
      cases event with
      | toolStart callId name arguments =>
          exact ⟨.empty, (callIds.startEvent callId handle).1, rfl⟩
      | toolResult callId name content isError =>
          exact ⟨.empty, (callIds.finish callId handle).1, rfl⟩
      | _ => exact ⟨callIds, handle, rfl⟩

/-- What goes out for the item stays. -/
def Held.rename (held : Held) : Held :=
  ⟨held.turn, held.item.rename ρ, held.event, held.renders.rename ρ⟩

def AgentTask.rename {Message : Type} (task : AgentTask Message) : AgentTask Message :=
  { task with events := task.events.map (AgentEvent.rename ρ) }

def ApproveCall.rename (call : ApproveCall) : ApproveCall :=
  { call with providerCallId := ρ call.providerCallId }

/-- The handle given to an event depends on its call id only through the map. -/
theorem mapAgentEvent_rename {ρ : Text → Text} (hρ : Function.Injective ρ) (m : CallIdMapper)
    (handle : Text) (event : AgentEvent) :
    mapAgentEvent (m.rename ρ) handle (event.rename ρ) =
      ((mapAgentEvent m handle event).1, (mapAgentEvent m handle event).2.1,
        (mapAgentEvent m handle event).2.2.rename ρ) := by
  cases event with
  | toolStart callId name arguments =>
      simp only [mapAgentEvent, AgentEvent.rename, m.rename_startEvent hρ]
  | toolResult callId name content isError =>
      simp only [mapAgentEvent, AgentEvent.rename, m.rename_finish hρ]
  | _ => rfl

namespace RemoteApprover

/-- The pending map is keyed by handles and stays as it is. -/
def rename (s : RemoteApprover) : RemoteApprover :=
  { s with calls := fun c => (s.calls c).map (ApproveCall.rename ρ) }

def Action.rename : Action → Action
  | .request turn providerCallId tool arguments => .request turn (ρ providerCallId) tool arguments
  | a => a

section

variable {ρ} {s s' : RemoteApprover} {a : Action} {os : List Obs} {c : Nat} {call : ApproveCall}

theorem rename_found (h : s.calls c = some call) :
    (s.rename ρ).calls c = some (call.rename ρ) := by
  show (s.calls c).map _ = _
  rw [h]
  rfl

/-- Writing a call and renaming it can be done in either order. -/
theorem rename_update (calls : Nat → Option ApproveCall) (c : Nat) (call : ApproveCall) :
    (fun c' => (Function.update calls c (some call) c').map (ApproveCall.rename ρ)) =
      Function.update (fun c' => (calls c').map (ApproveCall.rename ρ)) c
        (some (call.rename ρ)) :=
  Function.comp_update (Option.map (ApproveCall.rename ρ)) calls c (some call)

theorem rename_setStage (stage : Stage) :
    (s.setStage c call stage).rename ρ = (s.rename ρ).setStage c (call.rename ρ) stage := by
  unfold setStage rename
  rw [rename_update]
  rfl

theorem rename_removeOwn (handle : Text) :
    (s.removeOwn c handle).rename ρ = (s.rename ρ).removeOwn c handle := by
  cases hpending : s.pending handle with
  | none => simp [removeOwn, rename, hpending]
  | some approval =>
      by_cases htoken : approval.token = c
      · simp [removeOwn, rename, hpending, htoken]
      · simp [removeOwn, rename, hpending, htoken]

/-- No move of a call looks at its provider call id. -/
theorem Moves.rename {stage : Stage} (h : Moves s c call a stage os) :
    Moves (s.rename ρ) c (call.rename ρ) (a.rename ρ) stage os := by
  cases h with
  | listed hstage htool => exact .listed hstage htool
  | unlisted hstage htool => exact .unlisted hstage htool
  | named hstage => exact .named hstage
  | occupied hstage hpending => exact .occupied hstage hpending
  | notified hstage => exact .notified hstage
  | undelivered hstage => exact .undelivered hstage
  | received hstage hreply => exact .received hstage hreply
  | closed hstage hreply hsender => exact .closed hstage hreply hsender
  | aborted hreceives hguards => exact .aborted hreceives hguards
  | abortedEarly hguards hended => exact .abortedEarly hguards hended

/-- The approver knows calls by number and by handle, never by the provider's id. -/
theorem Step.rename (h : Step s a s' os) : Step (s.rename ρ) (a.rename ρ) (s'.rename ρ) os := by
  cases h with
  | request turn providerCallId tool arguments =>
      have hstep := Step.request (s := s.rename ρ) turn (ρ providerCallId) tool arguments
      have hcalls := rename_update (ρ := ρ) s.calls s.nextToken
        ⟨turn, providerCallId, tool, arguments, .fetched, none⟩
      unfold RemoteApprover.rename
      rw [hcalls]
      exact hstep
  | move hcall hmoves =>
      rw [rename_setStage]
      exact .move (rename_found hcall) hmoves.rename
  | @register c call handle hcall hstage hvacant =>
      have hstep := Step.register (s := s.rename ρ) (rename_found hcall) hstage hvacant
      show Step _ _ { (s.setStage c call (.registered handle)).rename ρ with
        pending := Function.update s.pending handle (some ⟨c, call.tool⟩) } _
      rw [rename_setStage]
      exact hstep
  | dropGuard hcall hstage =>
      rw [rename_setStage, rename_removeOwn]
      exact .dropGuard (rename_found hcall) hstage
  | unknown hnone => exact .unknown hnone
  | late hpending hdead =>
      refine .late hpending fun call' hcall' => ?_
      obtain ⟨call, hcall, rfl⟩ := Option.map_eq_some_iff.mp hcall'
      exact hdead call hcall
  | @resolve callId decision approval call hpending hcall halive =>
      have hstep : Step (s.rename ρ) (.resolve callId decision) _ _ :=
        .resolve hpending (rename_found hcall) halive
      unfold RemoteApprover.rename
      rw [rename_update]
      exact hstep
  | cancelPending => exact .cancelPending

end

end RemoteApprover

namespace Worker

variable {Message : Type}

/-- Only where an id of the provider is kept is anything renamed. -/
noncomputable def rename (s : Worker Message) : Worker Message :=
  { s with
    tasks := fun turn => (s.tasks turn).rename ρ
    pendingEvent := s.pendingEvent.map (Held.rename ρ)
    approver := s.approver.rename ρ
    callIds := s.callIds.rename ρ }

/-- What comes from the agents carries the ids; what comes from the daemon carries
handles. -/
def Action.rename : Action Message → Action Message
  | .emit turn event => .emit turn (event.rename ρ)
  | .call action => .call (action.rename ρ)
  | a => a

def Obs.rename : Obs Message → Obs Message
  | .emitted turn event => .emitted turn (event.rename ρ)
  | .enqueued held => .enqueued (held.rename ρ)
  | o => o

/-- What a step comes to under the renaming. -/
noncomputable def image (r : Worker Message × List (Obs Message)) :
    Worker Message × List (Obs Message) :=
  (r.1.rename ρ, r.2.map (Obs.rename ρ))

section

variable {ρ} {setup : Setup Message} {s : Worker Message}

@[simp] theorem rename_active : (s.rename ρ).active = s.active := rfl
@[simp] theorem rename_queuedInputs : (s.rename ρ).queuedInputs = s.queuedInputs := rfl
@[simp] theorem rename_approvalBarrier : (s.rename ρ).approvalBarrier = s.approvalBarrier := rfl
@[simp] theorem rename_tasks (turn : Nat) :
    (s.rename ρ).tasks turn = (s.tasks turn).rename ρ := rfl
@[simp] theorem rename_pendingEvent :
    (s.rename ρ).pendingEvent = s.pendingEvent.map (Held.rename ρ) := rfl

/-! ## The operations -/

theorem rename_update (turn : Nat) (task : AgentTask Message) :
    Function.update (s.rename ρ).tasks turn (task.rename ρ) =
      fun turn' => (Function.update s.tasks turn task turn').rename ρ :=
  (Function.comp_update (AgentTask.rename ρ) s.tasks turn task).symm

theorem rename_abortTask (turn : Nat) :
    (s.rename ρ).abortTask turn = fun turn' => (s.abortTask turn turn').rename ρ :=
  rename_update turn { s.tasks turn with aborted := true }

theorem breakLoop_none (hactive : s.active = none) (result : Ended) :
    s.breakLoop result = { s with pc := .aborting result } := by
  simp only [breakLoop, hactive]

theorem breakLoop_some {turn : Nat} (hactive : s.active = some turn) (result : Ended) :
    s.breakLoop result = { s with pc := .aborting result, tasks := s.abortTask turn } := by
  simp only [breakLoop, hactive]

/-- Leaving the loop aborts the renamed task. -/
theorem rename_breakLoop (result : Ended) :
    (s.rename ρ).breakLoop result = (s.breakLoop result).rename ρ := by
  cases hactive : s.active with
  | none =>
      rw [breakLoop_none hactive, breakLoop_none (s := s.rename ρ) hactive]
      rfl
  | some turn =>
      rw [breakLoop_some hactive, breakLoop_some (s := s.rename ρ) hactive, rename_abortTask]
      rfl

/-- Whether commands are read does not depend on ids. -/
theorem rename_readsCommands : (s.rename ρ).readsCommands = s.readsCommands := by
  simp only [readsCommands, rename_active, rename_pendingEvent, rename_approvalBarrier,
    rename_queuedInputs, Option.isSome_map]

/-- A decision finds its call by the handle. -/
theorem rename_approve (callId : Text) (decision : IpcApprovalDecision) :
    (s.rename ρ).approve callId decision = image ρ (s.approve callId decision) := by
  have hstep := (RemoteApprover.resolve_step s.approver callId decision).rename (ρ := ρ)
  have h : (s.approver.rename ρ).resolve callId decision =
      ((s.approver.resolve callId decision).1.rename ρ, (s.approver.resolve callId decision).2) :=
    Option.some.inj hstep.step
  unfold approve image
  show ({ s.rename ρ with approver := ((s.approver.rename ρ).resolve callId decision).1 },
    ((s.approver.rename ρ).resolve callId decision).2.map Obs.approver) = _
  rw [h, List.map_map]
  rfl

/-- A turn starts with no events, so there is nothing to rename. -/
theorem rename_startTurn (text : Text) (rest : List Text) :
    (s.rename ρ).startTurn setup text rest = image ρ (s.startTurn setup text rest) := by
  have hupdate := rename_update (ρ := ρ) (s := s) s.nextTurn ⟨[], false, none, false⟩
  unfold startTurn
  show ({ s.rename ρ with
    active := some s.nextTurn
    nextTurn := s.nextTurn + 1
    tasks := Function.update (s.rename ρ).tasks s.nextTurn
      (AgentTask.rename ρ ⟨[], false, none, false⟩)
    queuedInputs := rest }, _) = _
  rw [hupdate]
  rfl

theorem map_drew (handles : List Text) :
    (handles.map Obs.drew : List (Obs Message)).map (Obs.rename ρ) = handles.map Obs.drew := by
  rw [List.map_map]
  rfl

/-- The event taken is mapped to the same handle, through the renamed map. -/
theorem rename_holdEvent (hρ : Function.Injective ρ) (handle : Text) (turn : Nat)
    (event : AgentEvent)
    (rest : List AgentEvent) :
    (s.rename ρ).holdEvent handle turn (event.rename ρ) (rest.map (AgentEvent.rename ρ)) =
      image ρ (s.holdEvent handle turn event rest) := by
  have hmap : mapAgentEvent (s.rename ρ).callIds handle (event.rename ρ) = _ :=
    mapAgentEvent_rename hρ s.callIds handle event
  have hupdate := rename_update (ρ := ρ) (s := s) turn { s.tasks turn with events := rest }
  have hupdate : Function.update (s.rename ρ).tasks turn
      { (s.rename ρ).tasks turn with events := rest.map (AgentEvent.rename ρ) } = _ := hupdate
  simp only [holdEvent, hmap, hupdate, image, map_drew]
  rfl

/-- Whether a held event asks for a decision does not depend on its id. -/
theorem rename_keepOrdinary (held : Option Held) :
    keepOrdinary (held.map (Held.rename ρ)) = (keepOrdinary held).map (Held.rename ρ) := by
  cases held with
  | none => rfl
  | some held =>
      show keepOrdinary (some (held.rename ρ)) = _
      cases hevent : held.event with
      | needsApproval callId tool argumentsJson =>
          have hrenamed : (held.rename ρ).event = .needsApproval callId tool argumentsJson := hevent
          simp only [keepOrdinary, hevent, hrenamed, Option.map_none]
      | _ =>
          have hrenamed : (held.rename ρ).event = held.event := rfl
          simp only [keepOrdinary, hevent, hrenamed, Option.map_some]

/-- The map of call ids is emptied on both sides. -/
theorem rename_release : (s.rename ρ).release = s.release.rename ρ := by
  unfold release rename
  rw [CallIdMapper.rename_empty]
  rfl

/-- What a cancelled turn leaves is the same event. -/
theorem rename_cancelled : (s.rename ρ).cancelled = s.cancelled.rename ρ := by
  unfold cancelled
  rw [rename_release, rename_pendingEvent, rename_keepOrdinary]
  rfl

/-- What joining a turn does depends on its outcome alone. -/
theorem rename_join (outcome : Outcome Message) :
    (s.rename ρ).join outcome = (s.join outcome).rename ρ := by
  cases outcome with
  | ok finalMessages =>
      unfold join rename
      rw [CallIdMapper.rename_empty]
  | failed error => rfl
  | panicked error => exact rename_breakLoop _
  | cancelled error => exact rename_breakLoop _

/-! ## Steps -/

theorem map_approver (os : List RemoteApprover.Obs) :
    (os.map Obs.approver : List (Obs Message)).map (Obs.rename ρ) = os.map Obs.approver := by
  rw [List.map_map]
  rfl

theorem rename_idle : (s.rename ρ).idle = s.idle := by
  simp only [idle, rename_active, rename_pendingEvent, Option.isNone_map]

theorem rename_setTask (turn : Nat) (task : AgentTask Message) :
    { s.rename ρ with tasks := Function.update (s.rename ρ).tasks turn (task.rename ρ) } =
      { s with tasks := Function.update s.tasks turn task }.rename ρ := by
  rw [rename_update]
  rfl

/-- What the approver may do alone, it may do under other ids. -/
theorem Allows.rename {action : RemoteApprover.Action} (h : s.Allows action) :
    (s.rename ρ).Allows (action.rename ρ) := by
  cases action <;> exact h

/-- An agent emits the renamed event. -/
theorem Step.rename_emit {turn : Nat} {event : AgentEvent} (hturn : turn < s.nextTurn)
    (hopen : (s.tasks turn).closed = false) :
    Step setup (s.rename ρ) (.emit turn (event.rename ρ)) (Worker.rename ρ { s with
      tasks := Function.update s.tasks turn
        { s.tasks turn with events := (s.tasks turn).events ++ [event] } })
      [.emitted turn (event.rename ρ)] := by
  have hstep : Step setup (s.rename ρ) (.emit turn (event.rename ρ)) _ _ := .emit hturn hopen
  have htask : { s.tasks turn with events := (s.tasks turn).events ++ [event] }.rename ρ =
      { (s.rename ρ).tasks turn with
        events := ((s.rename ρ).tasks turn).events ++ [event.rename ρ] } := by
    simp [AgentTask.rename]
  rwa [← htask, rename_setTask] at hstep

/-- The approver takes the renamed step. -/
theorem Step.rename_call {action : RemoteApprover.Action} {approver : RemoteApprover}
    {os : List RemoteApprover.Obs} (hallows : s.Allows action)
    (hstep : s.approver.step action = some (approver, os)) :
    Step setup (s.rename ρ) (.call (action.rename ρ))
      (Worker.rename ρ { s with approver := approver }) (os.map .approver) :=
  .call hallows.rename (RemoteApprover.step_cases hstep).rename.step

/-- Naming a call writes the renamed id. -/
theorem Step.rename_name (hρ : Function.Injective ρ) {c : Nat} {handle : Text} {call : ApproveCall}
    (hcall : s.approver.calls c = some call) (hstage : call.stage = .unlisted) :
    Step setup (s.rename ρ) (.call (.name c handle)) (Worker.rename ρ { s with
      approver := s.approver.setStage c call (.named handle)
      callIds := s.callIds.startApproval call.providerCallId handle })
      [.approver (.named c handle), .asked call.turn (call.notice handle)] := by
  have hstep : Step setup (s.rename ρ) (.call (.name c handle)) _ _ :=
    .name (RemoteApprover.rename_found hcall) hstage
  unfold Worker.rename
  rw [RemoteApprover.rename_setStage, CallIdMapper.rename_startApproval hρ]
  exact hstep

/-- The notice in the channel is the same. -/
theorem Step.rename_notify {c : Nat} {handle : Text} {call : ApproveCall}
    (hcall : s.approver.calls c = some call) (hstage : call.stage = .registered handle)
    (hroom : s.approvals.length < workerApprovalChannelCapacity) :
    Step setup (s.rename ρ) (.call (.notify c)) (Worker.rename ρ { s with
      approver := s.approver.setStage c call (.waiting handle)
      approvals := s.approvals ++ [(call.turn, call.notice handle)] }) [] := by
  have hstep : Step setup (s.rename ρ) (.call (.notify c)) _ _ :=
    .notify (RemoteApprover.rename_found hcall) hstage hroom
  unfold Worker.rename
  rw [RemoteApprover.rename_setStage]
  exact hstep

/-- An event is taken from the channel under its renamed id. -/
theorem Step.rename_holdEvent (hρ : Function.Injective ρ) {a : Action Message} {handle : Text}
    {turn : Nat} {event : AgentEvent} {rest : List AgentEvent} (hpc : s.pc = .running)
    (hactive : s.active = some turn) (hpending : s.pendingEvent = none)
    (hevents : (s.tasks turn).events = event :: rest)
    (ha : a = .barrier handle ∨ a = .takeEvent handle)
    (hbarrier : a = .barrier handle ↔ s.approvalBarrier ≠ none) :
    Step setup (s.rename ρ) (a.rename ρ) ((s.holdEvent handle turn event rest).1.rename ρ)
      ((s.holdEvent handle turn event rest).2.map (Obs.rename ρ)) := by
  have ha' : a.rename ρ = a := by rcases ha with rfl | rfl <;> rfl
  have hpending' : (s.rename ρ).pendingEvent = none := congrArg (Option.map _) hpending
  have hevents' : ((s.rename ρ).tasks turn).events =
      event.rename ρ :: rest.map (AgentEvent.rename ρ) := congrArg (List.map _) hevents
  have hstep : Step setup (s.rename ρ) a _ _ :=
    .holdEvent hpc hactive hpending' hevents' ha hbarrier
  rw [Worker.rename_holdEvent hρ] at hstep
  rwa [ha']

/-- Under the renaming each rule is the same rule. -/
theorem Step.rename (hρ : Function.Injective ρ) {a : Action Message} {s' : Worker Message}
    {os : List (Obs Message)} (h : Step setup s a s' os) :
    Step setup (s.rename ρ) (a.rename ρ) (s'.rename ρ) (os.map (Obs.rename ρ)) := by
  have hevents' : ∀ {turn}, (s.tasks turn).events = [] → ((s.rename ρ).tasks turn).events = [] :=
    fun hevents => congrArg (List.map _) hevents
  have hnone : s.pendingEvent = none → (s.rename ρ).pendingEvent = none :=
    fun hpending => congrArg (Option.map _) hpending
  have hsome : ∀ {held}, s.pendingEvent = some held →
      (s.rename ρ).pendingEvent = some (held.rename ρ) :=
    fun hpending => congrArg (Option.map _) hpending
  cases h with
  | queueInput hpc hreads hroom =>
      exact .queueInput hpc (rename_readsCommands.trans hreads) (hroom.imp_left rename_idle.trans)
  | overflow hpc hreads hbusy hfull =>
      exact .overflow hpc (rename_readsCommands.trans hreads) (rename_idle.trans hbusy) hfull
  | @approve callId decision hpc hreads =>
      have hstep : Step setup (s.rename ρ) (.command (.approve callId decision)) _ _ :=
        .approve hpc (rename_readsCommands.trans hreads)
      rwa [rename_approve] at hstep
  | ignoreCancel hpc hactive hreads =>
      exact .ignoreCancel hpc hactive (rename_readsCommands.trans hreads)
  | cancel hpc hactive hreads =>
      have hstep : Step setup (s.rename ρ) (.command .cancel) _ _ :=
        .cancel hpc hactive (rename_readsCommands.trans hreads)
      rwa [rename_abortTask] at hstep
  | stop hpc hactive hreads =>
      have hstep : Step setup (s.rename ρ) (.command .stop) _ _ :=
        .stop hpc hactive (rename_readsCommands.trans hreads)
      rwa [rename_abortTask] at hstep
  | stopInactive hpc hactive hreads =>
      exact .stopInactive hpc hactive (rename_readsCommands.trans hreads)
  | commandsClosed hpc hreads =>
      rw [← rename_breakLoop]
      exact .commandsClosed hpc (rename_readsCommands.trans hreads)
  | commandError hpc hreads =>
      rw [← rename_breakLoop]
      exact .commandError hpc (rename_readsCommands.trans hreads)
  | startTurn hpc hactive hpending hqueued =>
      have hstep : Step setup (s.rename ρ) .startTurn _ _ :=
        .startTurn hpc hactive (hnone hpending) hqueued
      rwa [rename_startTurn] at hstep
  | holdEvent hpc hactive hpending hevents ha hbarrier =>
      exact Step.rename_holdEvent hρ hpc hactive hpending hevents ha hbarrier
  | holdNotice hpc hactive hpending hbarrier hevents hopen =>
      exact .holdNotice hpc hactive (hnone hpending) hbarrier (hevents' hevents) hopen
  | dropBarrier hpc hactive hpending hbarrier hevents hclosed =>
      exact .dropBarrier hpc hactive (hnone hpending) hbarrier (hevents' hevents) hclosed
  | takeNotice hpc hactive hbarrier happrovals =>
      exact .takeNotice hpc hactive hbarrier happrovals
  | turnClosed hpc hactive hpending hbarrier hevents hclosed =>
      exact .turnClosed hpc hactive (hnone hpending) hbarrier (hevents' hevents) hclosed
  | enqueue hpc hpending hsends =>
      have hstep : Step setup (s.rename ρ) .reserve _ _ := .enqueue hpc (hsome hpending) hsends
      exact hstep
  | writerGone hpc hpending hwriter =>
      rw [← rename_breakLoop]
      exact .writerGone hpc (hsome hpending) hwriter
  | cancelCompleted hpc houtcome =>
      have hstep : Step setup (s.rename ρ) .cancelCompleted _ _ := .cancelCompleted hpc houtcome
      rwa [rename_cancelled] at hstep
  | cancelDeadline hpc =>
      have hstep : Step setup (s.rename ρ) .cancelDeadline _ _ := .cancelDeadline hpc
      rwa [rename_cancelled] at hstep
  | stopDone hpc =>
      have hstep : Step setup (s.rename ρ) .stopDone _ _ := .stopDone hpc
      rwa [rename_release, rename_pendingEvent, rename_keepOrdinary] at hstep
  | joinTurn hpc houtcome =>
      rw [← rename_join]
      exact .joinTurn hpc houtcome
  | terminalHeld hpc hpending hsends =>
      have hstep : Step setup (s.rename ρ) .terminalSend _ _ :=
        .terminalHeld hpc (hsome hpending) hsends
      exact hstep
  | terminalEvent hpc hpending hsends =>
      have hstep : Step setup (s.rename ρ) .terminalSend _ _ :=
        .terminalEvent hpc (hnone hpending) hsends
      rwa [rename_breakLoop] at hstep
  | terminalGiveUp hpc =>
      rw [← rename_breakLoop]
      exact .terminalGiveUp hpc
  | abortDone hpc =>
      have hstep : Step setup (s.rename ρ) .abortDone _ _ := .abortDone hpc
      rwa [rename_release] at hstep
  | closed hpc hwriter => exact .closed hpc hwriter
  | closeDeadline hpc => exact .closeDeadline hpc
  | writerRecv hwriter houtbound => exact .writerRecv hwriter houtbound
  | writerWrite hwriter hfits => exact .writerWrite hwriter hfits
  | writerReject hwriter hfits => exact .writerReject hwriter hfits
  | writerFail hwriter => exact .writerFail hwriter
  | writerEnd hpc hwriter houtbound => exact .writerEnd hpc hwriter houtbound
  | emit hturn hopen => exact .rename_emit hturn hopen
  | @closeEvents turn hturn =>
      have hstep : Step setup (s.rename ρ) (.closeEvents turn) _ _ := .closeEvents hturn
      rwa [← rename_setTask]
  | @finish turn outcome hturn hrunning =>
      have hstep : Step setup (s.rename ρ) (.finish turn outcome) _ _ := .finish hturn hrunning
      rwa [← rename_setTask]
  | call hallows hstep =>
      rw [map_approver]
      exact .rename_call hallows hstep
  | name hcall hstage => exact .rename_name hρ hcall hstage
  | notify hcall hstage hroom => exact .rename_notify hcall hstage hroom

/-- The renaming is a map of the machine into itself. -/
theorem step_rename (hρ : Function.Injective ρ) {a : Action Message}
    {r : Worker Message × List (Obs Message)} (h : step setup s a = some r) :
    step setup (s.rename ρ) (a.rename ρ) = some (image ρ r) :=
  ((step_cases h).rename hρ).step

/-- A new worker knows no ids. -/
theorem rename_new : (new setup).rename ρ = new setup := by
  unfold new rename
  rw [CallIdMapper.rename_empty]
  rfl

/-- The events sent are the same, not just alike. -/
theorem events_rename (tr : List (Obs Message)) : events (tr.map (Obs.rename ρ)) = events tr := by
  unfold events
  rw [List.filterMap_map]
  congr 1
  funext o
  cases o <;> rfl

/-- And so are the handles drawn. -/
theorem drawn_rename (tr : List (Obs Message)) : drawn (tr.map (Obs.rename ρ)) = drawn tr := by
  unfold drawn
  rw [List.filterMap_map]
  congr 1
  funext o
  cases o with
  | approver o => rfl
  | _ => rfl

end

/-- Provider call ids do not influence what goes out. A run under renamed ids
takes the same schedule, draws the same handles and puts the same events into
the event channel, and the call ids in them are handles that were drawn. -/
theorem provider_ids_unseen {setup : Setup Message} {ρ : Text → Text} (hρ : Function.Injective ρ)
    {as : List (Action Message)} {tr : List (Obs Message)} {s : Worker Message}
    (h : (machine setup).Takes (new setup) as tr s) :
    (∃ tr' s', (machine setup).Takes (new setup) (as.map (Action.rename ρ)) tr' s' ∧
      events tr' = events tr ∧ drawn tr' = drawn tr ∧ s'.frames = s.frames) ∧
    ∀ event ∈ events tr, ∀ callId, event.callId? = some callId → callId ∈ drawn tr := by
  constructor
  · have hrenamed : (machine setup).Takes ((new setup).rename ρ) (as.map (Action.rename ρ))
        (tr.map (Obs.rename ρ)) (s.rename ρ) :=
      h.map (rename ρ) (Action.rename ρ) (Obs.rename ρ) (fun hstep => step_rename hρ hstep)
    rw [rename_new] at hrenamed
    exact ⟨_, _, hrenamed, events_rename tr, drawn_rename tr, rfl⟩
  · have hrun : (machine setup).Run (fun _ _ _ => True) ([] ++ tr) s :=
      Machine.Run.takes (fun _ _ _ => trivial) h .start
    exact (run_issued hrun).sent

/-- A tool call goes by its handle, whatever the provider calls it. -/
theorem provider_ids_unseen_tool : ∃ (tr tr' : List (Obs Text)) (s s' : Worker Text),
    (machine (plainSetup [])).Takes (new (plainSetup []))
      [.command (.input "run".toList), .startTurn,
        .emit 0 (.toolStart "p".toList "ls".toList .null),
        .takeEvent "h".toList, .reserve] tr s ∧
    events tr = [.toolStart "h".toList "ls".toList "null".toList] ∧
    (machine (plainSetup [])).Takes (new (plainSetup []))
      [.command (.input "run".toList), .startTurn,
        .emit 0 (.toolStart ('x' :: "p".toList) "ls".toList .null), .takeEvent "h".toList, .reserve]
      tr' s' ∧
    events tr' = events tr := by
  have htakes : (machine (plainSetup [])).Takes (new (plainSetup []))
      [.command (.input "run".toList), .startTurn,
        .emit 0 (.toolStart "p".toList "ls".toList .null),
        .takeEvent "h".toList, .reserve] _ _ :=
    .cons rfl (.cons rfl (.cons rfl (.cons rfl (.cons rfl (.nil _)))))
  obtain ⟨⟨tr', s', hrenamed, hevents, -, -⟩, -⟩ :=
    provider_ids_unseen (List.cons_injective : Function.Injective (List.cons 'x')) htakes
  exact ⟨_, tr', _, s', htakes, rfl, hrenamed, hevents⟩

end Worker

end PeakcodeDaemon
