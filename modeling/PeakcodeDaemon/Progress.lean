import Mathlib.Data.Fintype.EquivFin
import PeakcodeDaemon.ApprovalPlaces
import PeakcodeDaemon.Lib.Ranking
import PeakcodeDaemon.StreamedText
import PeakcodeDaemon.WorkerInputs

/-!
# The worker comes to rest

The coordinator, the writer and the calls of `approve` have only so much
to do by themselves: without a command, something new from an agent or a
deadline that passes, each of their steps is one of a number that the
state bounds. Where none of them is left everything has gone out. So an
approval is not stuck inside the worker: the daemon has its request, or
the writer has failed.

- **the work** (`work`, `step_work`): every step of the worker's own
  takes something off it. An event in a channel counts for the places it
  has yet to pass, a call for the stages to its answer
  (`Stage.work`), a place of the coordinator for the awaits to the next
  (`Pc.work`).
- **at rest** (`AtRest`, and the lemmas on it): where no such step can be
  taken, the writer has written everything (`AtRest.frames`), in the loop
  no request is on its way (`AtRest.quiet`), and a call that is under way
  waits for a decision that can still come (`AtRest.call`).
- **fresh handles** (`step_withHandle`, `exists_fresh`): whether a step
  can be taken does not depend on the handle it would draw, so the way to
  rest can be walked with handles that were never drawn before.

Which steps are the worker's own (`Action.own`) is a list without the
deadlines. A proof of progress that let them pass would be about giving
up.
-/

namespace PeakcodeDaemon

/-- What a call of `approve` has still to do by itself, its notice included. -/
def Stage.work : Stage → Nat
  | .fetched => 11
  | .unlisted => 10
  | .named _ => 9
  | .registered _ => 8
  | .waiting _ => 2
  | .leaving .. => 1
  | .ended _ => 0

namespace RemoteApprover

variable {s s' : RemoteApprover} {a : Action} {os : List Obs} {c : Nat} {call : ApproveCall}

/-- A call takes the step, and is not dropped. -/
def Action.own : Action → Bool
  | .check _ | .name .. | .register _ | .notify _ | .notifyFail _ | .receive _ | .dropGuard _ =>
      true
  | .request .. | .abort _ | .resolve .. | .cancelPending => false

def callWork (call : Option ApproveCall) : Nat := call.elim 0 fun call => call.stage.work

/-- What the calls have still to do. -/
def work (s : RemoteApprover) : Nat := ∑ c ∈ Finset.range s.nextToken, callWork (s.calls c)

/-- A call that goes on to a later stage. -/
theorem work_setStage (hunborn : ∀ c, s.nextToken ≤ c → s.calls c = none)
    (hcall : s.calls c = some call) (stage : Stage) :
    (s.setStage c call stage).work + call.stage.work = s.work + stage.work := by
  have hc : c < s.nextToken := by
    by_contra hge
    cases (hunborn c (Nat.le_of_not_lt hge)).symm.trans hcall
  have hsum := Machine.sum_update callWork s.calls hc (some { call with stage := stage })
  rw [hcall] at hsum
  exact hsum

theorem work_setStage_lt (hunborn : ∀ c, s.nextToken ≤ c → s.calls c = none)
    (hcall : s.calls c = some call) (stage : Stage) (hless : stage.work < call.stage.work) :
    (s.setStage c call stage).work < s.work := by
  have hwork := work_setStage hunborn hcall stage
  omega

/-- A call that goes on by itself has less to do then. -/
theorem Moves.work {stage : Stage} (h : Moves s c call a stage os) (ha : a.own = true) :
    stage.work < call.stage.work := by
  cases h with
  | aborted hstage hguards => cases ha
  | abortedEarly hguards hended => cases ha
  | listed hstage htool | unlisted hstage htool | named hstage | occupied hstage hpending
    | notified hstage | undelivered hstage | received hstage hreply
    | closed hstage hreply hsender => simp [Stage.work, hstage]

@[simp] theorem work_cancelPending (s : RemoteApprover) : s.cancelPending.work = s.work := rfl

theorem Step.work (h : Step s a s' os) (ha : a.own = true)
    (hunborn : ∀ c, s.nextToken ≤ c → s.calls c = none) : s'.work < s.work := by
  cases h with
  | request turn providerCallId tool arguments => cases ha
  | unknown hnone => cases ha
  | late hpending hdead => cases ha
  | resolve hpending hcall halive => cases ha
  | cancelPending => cases ha
  | move hcall hmoves => exact work_setStage_lt hunborn hcall _ (hmoves.work ha)
  | @register c call handle hcall hstage hvacant =>
      exact work_setStage_lt hunborn hcall (.registered handle) (by simp [Stage.work, hstage])
  | @dropGuard c call handle outcome hcall hstage =>
      rw [removeOwn_eq]
      exact work_setStage_lt hunborn hcall (.ended outcome) (by simp [Stage.work, hstage])

/-- Only the naming of a call shows a handle that was drawn. -/
theorem Step.unnamed (h : Step s a s' os) (ha : ∀ c handle, a ≠ .name c handle) (c : Nat)
    (handle : Text) : .named c handle ∉ os := by
  cases h with
  | move hcall hmoves =>
      cases hmoves with
      | named hstage => exact absurd rfl (ha _ _)
      | _ => simp
  | @dropGuard c call handle outcome hcall hstage => cases outcome <;> simp
  | _ => simp

end RemoteApprover

/-- What the coordinator has still to do where it is. -/
def Pc.work : Pc → Nat
  | .cancelling _ | .joining _ => 7
  | .running | .stopping _ => 6
  | .terminal .. => 5
  | .aborting _ => 2
  | .closing _ => 1
  | .returned _ => 0

def WriterTask.work : WriterTask → Nat
  | .writing _ => 2
  | .receiving => 1
  | .finished _ | .aborted => 0

namespace Worker

variable {Message : Type} {setup : Setup Message} {tr os : List (Obs Message)}
  {s s' : Worker Message} {a : Action Message} {turn : Nat}

/-- The coordinator, the writer or a call of `approve` takes the step by
itself: no command is received, no agent acts and no deadline passes. -/
def Action.own : Action Message → Bool
  | .startTurn | .barrier _ | .takeNotice | .takeEvent _ | .reserve | .cancelCompleted | .stopDone
    | .joinTurn | .terminalSend | .abortDone | .closed | .writerRecv | .writerWrite
    | .writerEnd => true
  | .call action => action.own
  | .command _ | .commandsClosed | .commandError _ | .cancelDeadline | .terminalGiveUp
    | .closeDeadline | .writerFail _ | .emit .. | .closeEvents _ | .finish .. => false

/-- What is left of the active turn for the coordinator. -/
def turnWork (s : Worker Message) : Nat :=
  s.active.elim 0 fun turn => 2 + 4 * (s.tasks turn).events.length

/-- What the worker has still to do by itself. Each event counts for the
places it has yet to pass. -/
def work (s : Worker Message) : Nat :=
  s.pc.work + 3 * s.queuedInputs.length + s.turnWork + 5 * s.approvals.length +
    4 * s.approvalBarrier.toList.length + 3 * s.pendingEvent.toList.length +
    2 * s.outbound.length + s.writer.work + s.approver.work

theorem breakLoop_work (s : Worker Message) (result : Ended) :
    (s.breakLoop result).work + s.pc.work = s.work + 2 := by
  have hturn : (s.breakLoop result).turnWork = s.turnWork := by
    have hactive : (s.breakLoop result).active = s.active := rfl
    rw [turnWork, hactive, turnWork]
    cases s.active with
    | none => rfl
    | some turn =>
        exact congrArg (fun events => 2 + 4 * events.length) (breakLoop_events s result turn)
  unfold work
  rw [hturn]
  simp [breakLoop, Pc.work]
  omega

theorem keepOrdinary_length (held : Option Held) :
    (keepOrdinary held).toList.length ≤ held.toList.length := by
  cases held with
  | none => exact Nat.le_refl _
  | some held =>
      rw [keepOrdinary]
      split
      · exact Nat.zero_le _
      · exact Nat.le_refl _

theorem step_work (h : step setup s a = some (s', os)) (ha : a.own = true)
    (hunborn : ∀ c, s.approver.nextToken ≤ c → s.approver.calls c = none) :
    s'.work < s.work := by
  cases step_cases h with
  | startTurn hpc hactive hpending =>
      obtain ⟨-, text, rest, hqueued, heq, -⟩ := step_startTurn h
      rw [heq]
      simp [work, Worker.startTurn, turnWork, hqueued, hactive]
      omega
  | holdEvent hpc hactive hpending hevents hown =>
      simp [work, Worker.holdEvent, turnWork, hactive, hpending, hevents]
      omega
  | holdNotice hpc hactive hpending hbarrier hevents hopen =>
      simp [work, Worker.holdNotice, turnWork, hactive, hpending, hbarrier, hevents]
  | dropBarrier hpc hactive hpending hbarrier hevents hclosed =>
      simp [work, turnWork, hactive, hpending, hbarrier, hevents]
  | takeNotice hpc hactive hbarrier happrovals =>
      simp [work, turnWork, hactive, hbarrier, happrovals]
      omega
  | turnClosed hpc hactive hpending hbarrier hevents hclosed =>
      simp [work, turnWork, hactive, hpc, Pc.work]
      omega
  | enqueue hpc hpending hsends =>
      simp [work, Worker.enqueue, turnWork, hpending]
      omega
  | writerGone hpc hpending hwriter =>
      have hwork := breakLoop_work s (.error writerClosed)
      rw [hpc] at hwork
      simp only [Pc.work] at hwork
      omega
  | cancelCompleted hpc houtcome =>
      have hkept := keepOrdinary_length s.pendingEvent
      simp [work, Worker.cancelled, release, turnWork, hpc, Pc.work]
      omega
  | stopDone hpc =>
      have hkept := keepOrdinary_length s.pendingEvent
      simp [work, release, sendOrdered, turnWork, hpc, Pc.work]
      omega
  | @joinTurn turn outcome hpc houtcome =>
      have hbroken := breakLoop_work s
      rw [hpc] at hbroken
      cases outcome with
      | ok finalMessages =>
          simp [work, join, turnWork, hpc, Pc.work]
          omega
      | failed error =>
          simp [work, join, sendTerminal, turnWork, hpc, Pc.work]
          omega
      | panicked error | cancelled error =>
          simp only [Pc.work] at hbroken
          refine Nat.lt_of_add_lt_add_right (Nat.lt_of_le_of_lt (Nat.le_of_eq (hbroken _)) ?_)
          omega
  | terminalHeld hpc hpending hsends =>
      simp [work, Worker.enqueue, turnWork, hpending]
      omega
  | @terminalEvent event result hpc hpending hsends =>
      have hbroken := breakLoop_work s result
      have hsent : work { s.breakLoop result with outbound := s.outbound ++ [event] } =
          (s.breakLoop result).work + 2 := by
        simp [work, turnWork, Worker.breakLoop]
        omega
      rw [hsent]
      simp only [hpc, Pc.work] at hbroken
      omega
  | abortDone hpc =>
      simp [work, release, turnWork, hpc, Pc.work]
      omega
  | closed hpc hwriter =>
      simp [work, turnWork, hpc, Pc.work]
  | writerRecv hwriter houtbound =>
      simp [work, turnWork, hwriter, houtbound, WriterTask.work]
      omega
  | writerWrite hwriter hfits =>
      simp [work, turnWork, hwriter, WriterTask.work]
  | writerReject hwriter hfits =>
      simp [work, turnWork, hwriter, WriterTask.work]
  | writerEnd hpc hwriter houtbound =>
      simp [work, turnWork, hwriter, WriterTask.work]
  | call hallows hcalled =>
      have := (RemoteApprover.step_cases hcalled).work ha hunborn
      simp [work, turnWork]
      omega
  | @name c handle call hcall hstage =>
      have hcalls := RemoteApprover.work_setStage_lt hunborn hcall (.named handle)
        (by simp [Stage.work, hstage])
      simp [work, turnWork]
      omega
  | @notify c handle call hcall hstage =>
      have hcalls := RemoteApprover.work_setStage hunborn hcall (.waiting handle)
      simp [Stage.work, hstage] at hcalls
      simp [work, turnWork]
      omega
  | _ => cases ha

/-! ## At rest -/

/-- Nothing is left that the worker does by itself. -/
def AtRest (setup : Setup Message) (s : Worker Message) : Prop :=
  ∀ a : Action Message, a.own = true → step setup s a = none

/-- A writer that still runs has written everything. -/
theorem AtRest.writer (h : AtRest setup s) (hreceives : s.writer.receives = true) :
    s.writer = .receiving ∧ s.outbound = [] := by
  cases hwriter : s.writer with
  | writing frame =>
      have hstep := h .writerWrite rfl
      simp only [step, hwriter] at hstep
      split at hstep <;> cases hstep
  | receiving =>
      refine ⟨rfl, ?_⟩
      cases houtbound : s.outbound with
      | nil => rfl
      | cons event rest =>
          have hstep := h .writerRecv rfl
          simp [step, hwriter, houtbound, Redactor.redactEvent_eq] at hstep
  | finished result => rw [hwriter] at hreceives; cases hreceives
  | aborted => rw [hwriter] at hreceives; cases hreceives

theorem AtRest.sends (h : AtRest setup s) (hreceives : s.writer.receives = true) :
    s.sends = true := by
  obtain ⟨-, houtbound⟩ := h.writer hreceives
  rw [Worker.sends, hreceives, houtbound]
  rfl

theorem AtRest.pending (h : AtRest setup s) (hpc : s.pc = .running) : s.pendingEvent = none := by
  cases hpending : s.pendingEvent with
  | none => rfl
  | some held =>
      have hstep := h .reserve rfl
      cases hreceives : s.writer.receives with
      | true => simp [step, hpc, hpending, h.sends hreceives] at hstep
      | false => simp [step, hpc, hpending, Worker.sends, hreceives] at hstep

/-- In the loop with a turn, the agent has said nothing that has not gone out. -/
theorem AtRest.active (h : AtRest setup s) (hpc : s.pc = .running)
    (hactive : s.active = some turn) :
    s.approvalBarrier = none ∧ s.approvals = [] ∧ (s.tasks turn).events = [] ∧
      (s.tasks turn).closed = false := by
  have hpending := h.pending hpc
  have hbarrier : s.approvalBarrier = none := by
    cases hbarrier : s.approvalBarrier with
    | none => rfl
    | some barrier =>
        have hstep := h (.barrier []) rfl
        simp [step, hpc, hactive, hpending, hbarrier] at hstep
  have htake := h (.takeEvent []) rfl
  refine ⟨hbarrier, ?_, ?_, ?_⟩
  · cases happrovals : s.approvals with
    | nil => rfl
    | cons notice rest =>
        have hstep := h .takeNotice rfl
        simp [step, hpc, hactive, hbarrier, happrovals] at hstep
  · cases hevents : (s.tasks turn).events with
    | nil => rfl
    | cons event rest =>
        simp [step, hpc, hactive, hpending, hbarrier, recvEvent, hevents] at htake
  · cases hclosed : (s.tasks turn).closed with
    | false => rfl
    | true =>
        cases hevents : (s.tasks turn).events with
        | nil => simp [step, hpc, hactive, hpending, hbarrier, recvEvent, hevents, hclosed] at htake
        | cons event rest =>
            simp [step, hpc, hactive, hpending, hbarrier, recvEvent, hevents] at htake

theorem AtRest.idle (h : AtRest setup s) (hpc : s.pc = .running) (hactive : s.active = none) :
    s.queuedInputs = [] := by
  cases hqueued : s.queuedInputs with
  | nil => rfl
  | cons text rest =>
      have hstep := h .startTurn rfl
      simp [step, hpc, hactive, h.pending hpc, hqueued] at hstep

/-- In the loop no approval request is on its way. -/
theorem AtRest.quiet (h : AtRest setup s) (halone : Alone s) (hpc : s.pc = .running) :
    s.approvals = [] ∧ s.approvalBarrier = none := by
  cases hactive : s.active with
  | none =>
      have hquiescent := halone.quiescent hpc hactive
      exact ⟨hquiescent.approvals, hquiescent.barrier⟩
  | some turn =>
      obtain ⟨hbarrier, happrovals, -, -⟩ := h.active hpc hactive
      exact ⟨happrovals, hbarrier⟩

/-- A call that is under way waits, for a decision that can still come. -/
theorem AtRest.call (h : AtRest setup s) {c : Nat} {call : ApproveCall}
    (hbusy : s.approver.Busy c call) (hroom : s.approvals = []) :
    ∃ handle, call.stage = .waiting handle ∧ call.reply = none ∧
      s.approver.senderDropped c handle = false := by
  obtain ⟨hcall, hended⟩ := hbusy
  cases hstage : call.stage with
  | fetched =>
      have hstep := h (.call (.check c)) rfl
      simp [step, stepCall, advance, RemoteApprover.step, hcall, hstage] at hstep
  | unlisted =>
      have hstep := h (.call (.name c [])) rfl
      simp [step, stepCall, advance, RemoteApprover.step, hcall, hstage] at hstep
  | named handle =>
      have hstep := h (.call (.register c)) rfl
      simp [step, stepCall, advance, RemoteApprover.step, hcall, hstage] at hstep
  | registered handle =>
      have hstep := h (.call (.notify c)) rfl
      simp [step, stepCall, advance, RemoteApprover.step, hcall, hstage, hroom,
        workerApprovalChannelCapacity] at hstep
  | waiting handle =>
      have hstep := h (.call (.receive c)) rfl
      simp [step, stepCall, advance, RemoteApprover.step, hcall, hstage] at hstep
      cases hreply : call.reply with
      | some decision => simp [hreply] at hstep
      | none => exact ⟨handle, rfl, rfl, by simpa [hreply] using hstep⟩
  | leaving handle outcome =>
      have hstep := h (.call (.dropGuard c)) rfl
      simp [step, stepCall, advance, RemoteApprover.step, hcall, hstage] at hstep
  | ended outcome => rw [hstage] at hended; cases hended

/-! ## Coming to rest -/

/-- The assumptions on the tasks are none on the worker. -/
theorem own_attending (s : Worker Message) (ha : a.own = true) : Attending tr s a := by
  cases a with
  | call action =>
      cases action with
      | request turn providerCallId tool arguments => cases ha
      | _ => exact ⟨rfl, rfl⟩
  | finish turn outcome => cases ha
  | closeEvents turn => cases ha
  | _ => exact ⟨rfl, rfl⟩

/-- The handle that the step may draw. -/
def Action.handle? : Action Message → Option Text
  | .barrier handle | .takeEvent handle | .call (.name _ handle) => some handle
  | _ => none

/-- The same step with another handle to draw. -/
def Action.withHandle (handle : Text) : Action Message → Action Message
  | .barrier _ => .barrier handle
  | .takeEvent _ => .takeEvent handle
  | .call (.name c _) => .call (.name c handle)
  | a => a

theorem own_withHandle (handle : Text) (ha : a.own = true) :
    (a.withHandle handle).own = true := by
  cases a with
  | call action => cases action <;> exact ha
  | _ => exact ha

theorem handle?_withHandle (handle : Text) : ∀ h ∈ (a.withHandle handle).handle?, h = handle := by
  cases a with
  | barrier h => simp [Action.withHandle, Action.handle?]
  | takeEvent h => simp [Action.withHandle, Action.handle?]
  | call action => cases action <;> simp [Action.withHandle, Action.handle?]
  | _ => simp [Action.withHandle, Action.handle?]

/-- Which handle would be drawn does not matter for whether a step can be taken. -/
theorem step_withHandle (handle : Text) (h : step setup s a = some (s', os)) :
    ∃ result, step setup s (a.withHandle handle) = some result := by
  rw [← Option.isSome_iff_exists]
  cases a with
  | barrier handle' =>
      rw [step] at h
      split at h
      · rename_i turn barrier hpc hactive hpending hbarrier
        simp [Action.withHandle, step, hpc, hactive, hpending, hbarrier]
      · cases h
  | takeEvent handle' =>
      rw [step] at h
      split at h
      · rename_i turn hpc hactive hpending hbarrier
        cases hevents : (s.tasks turn).events with
        | nil =>
            have hclosed : (s.tasks turn).closed = true := by
              by_contra hopen
              simp [recvEvent, hevents, hopen] at h
            simp [Action.withHandle, step, hpc, hactive, hpending, hbarrier, recvEvent, hevents,
              hclosed]
        | cons event rest =>
            simp [Action.withHandle, step, hpc, hactive, hpending, hbarrier, recvEvent, hevents]
      · cases h
  | call action =>
      cases action with
      | name c handle' =>
          cases step_cases h with
          | name hcall hstage =>
              simp [Action.withHandle, step, stepCall, advance, RemoteApprover.step, hcall, hstage]
          | call hallows hcalled => exact hallows.elim
          | holdEvent hpc hactive hpending hevents hown =>
              rcases hown with hown | hown <;> cases hown
      | _ => exact congrArg Option.isSome h
  | _ => exact congrArg Option.isSome h

theorem mapAgentEvent_drawn (callIds : CallIdMapper) (handle : Text) (event : AgentEvent) :
    (mapAgentEvent callIds handle event).2.1.Sublist [handle] := by
  cases event with
  | toolStart callId name arguments =>
      simp only [mapAgentEvent, CallIdMapper.startEvent]
      split
      · exact List.nil_sublist _
      · exact .refl _
  | toolResult callId name content isError =>
      simp only [mapAgentEvent, CallIdMapper.finish]
      split
      · exact List.nil_sublist _
      · exact .refl _
  | _ => exact List.nil_sublist _

theorem drawn_eq_nil (h : ∀ o ∈ os, drawn? o = none) : drawn os = [] :=
  List.filterMap_eq_nil_iff.mpr h

theorem step_drawn (h : Step setup s a s' os) (ha : a.own = true) :
    (drawn os).Sublist a.handle?.toList := by
  have hnone : (∀ o ∈ os, drawn? o = none) → (drawn os).Sublist a.handle?.toList := by
    intro h
    rw [drawn_eq_nil h]
    exact List.nil_sublist _
  cases h with
  | @holdEvent a handle turn event rest hpc hactive hpending hevents hown =>
      have hhandle : a.handle? = some handle := by
        rcases hown with rfl | rfl <;> rfl
      have hdrew : drawn (s.holdEvent handle turn event rest).2 =
          (mapAgentEvent s.callIds handle event).2.1 := by
        rw [Worker.holdEvent, drawn, List.filterMap_map]
        exact List.filterMap_some
      rw [hhandle, hdrew]
      exact mapAgentEvent_drawn s.callIds handle event
  | call hallows hcalled =>
      refine hnone fun o ho => ?_
      obtain ⟨o, hmem, rfl⟩ := List.mem_map.mp ho
      have hunnamed := (RemoteApprover.step_cases hcalled).unnamed
        (by rintro c handle rfl; exact hallows)
      cases o with
      | named c handle => exact absurd hmem (hunnamed c handle)
      | _ => rfl
  | name hcall hstage => exact .refl _
  | approve hpc => cases ha
  | startTurn hpc hactive hpending => exact hnone (by simp [drawn?, Worker.startTurn])
  | enqueue hpc hpending hsends => exact hnone (by simp [drawn?, Worker.enqueue])
  | terminalHeld hpc hpending hsends => exact hnone (by simp [drawn?, Worker.enqueue])
  | _ => exact hnone (by simp [drawn?])

theorem exists_fresh (handles : List Text) : ∃ handle, handle ∉ handles := by
  obtain ⟨handle, h⟩ := Infinite.exists_notMem_finset handles.toFinset
  exact ⟨handle, by simpa using h⟩

/-- In every run the steps the worker takes by itself, in whatever order, are
bounded by its work, and there are some, with fresh handles, that bring it to
rest. -/
theorem comes_to_rest (h : (machine setup).Run Attending tr s) (hfresh : (drawn tr).Nodup) :
    (∀ as tr' s', (machine setup).Takes s as tr' s' → (∀ a ∈ as, a.own = true) →
      as.length ≤ s.work) ∧
    ∃ as tr' s', (machine setup).Takes s as tr' s' ∧ (∀ a ∈ as, a.own = true) ∧
      (machine setup).Run Attending (tr ++ tr') s' ∧ (drawn (tr ++ tr')).Nodup ∧
      AtRest setup s' := by
  have hwork : ∀ {tr os s s' a}, (machine setup).Run Attending tr s → a.own = true →
      step setup s a = some (s', os) →
      (machine setup).Run Attending (tr ++ os) s' ∧ s'.work < s.work := by
    intro tr os s s' a h ha hstep
    refine ⟨.step h (own_attending s ha) hstep, ?_⟩
    exact step_work hstep ha (RemoteApprover.run_sound (run_approver h)).1.unborn
  constructor
  · intro as tr' s' htakes hown
    have hcount : as.countP Action.own = as.length := List.countP_eq_length.mpr hown
    have hranked := htakes.ranked Action.own work (P := (machine setup).Run Attending) ?_ h hown
    · omega
    · intro tr os s s' a h ha hstep
      obtain ⟨hrun, hless⟩ := hwork h ha hstep
      rw [if_pos ha]
      exact ⟨hrun, hless⟩
  · have hnext : ∀ {tr os s s' a}, (machine setup).Run Attending tr s ∧ (drawn tr).Nodup →
        a.own = true → step setup s a = some (s', os) → ∃ b s'' os', b.own = true ∧
          step setup s b = some (s'', os') ∧ ((machine setup).Run Attending (tr ++ os') s'' ∧
            (drawn (tr ++ os')).Nodup) ∧ s''.work < s.work := by
      rintro tr os s s' a ⟨h, hfresh⟩ ha hstep
      obtain ⟨handle, hhandle⟩ := exists_fresh (drawn tr)
      obtain ⟨⟨s'', os'⟩, hstep'⟩ := step_withHandle handle hstep
      have hown := own_withHandle handle ha
      obtain ⟨hrun, hless⟩ := hwork h hown hstep'
      refine ⟨_, s'', os', hown, hstep', ⟨hrun, ?_⟩, hless⟩
      have hdrawn := step_drawn (step_cases hstep') hown
      rw [drawn_append]
      refine List.nodup_append.mpr ⟨hfresh, hdrawn.nodup ?_, ?_⟩
      · cases (a.withHandle handle).handle? <;> simp
      · rintro x hx y hy rfl
        have hmem : x ∈ (a.withHandle handle).handle? := by simpa using hdrawn.subset hy
        obtain rfl := handle?_withHandle handle x hmem
        exact hhandle hx
    obtain ⟨as, tr', s', htakes, hown, ⟨hrun, hfresh'⟩, hrest⟩ :=
      Machine.exists_rest (M := machine setup) Action.own work
        (P := fun tr s => (machine setup).Run Attending tr s ∧ (drawn tr).Nodup) hnext
        (Nat.le_refl s.work) ⟨h, hfresh⟩
    exact ⟨as, tr', s', htakes, hown, hrun, hfresh', hrest⟩

/-- An input that was read, with a handle for each of the agent's requests. -/
theorem comes_to_rest_input : ∃ (tr : List (Obs Text)) (s : Worker Text),
    (machine (plainSetup ["bash".toList])).Run Attending tr s ∧ s.work = 10 ∧
    ∃ as tr' s', (machine (plainSetup ["bash".toList])).Takes s as tr' s' ∧ as.length ≤ 10 ∧
      AtRest (plainSetup ["bash".toList]) s' := by
  have hrun : (machine (plainSetup ["bash".toList])).Run Attending _ _ :=
    Machine.Run.exec (fun _ s a => inTask s a && keepsSender s a)
      (fun _ _ _ h => by simpa [Attending] using h) [.command (.input "run".toList)] .start rfl
  obtain ⟨hbound, as, tr', s', htakes, hown, -, -, hrest⟩ := comes_to_rest hrun (by decide)
  exact ⟨_, _, hrun, rfl, as, tr', s', htakes, hbound as tr' s' htakes hown, hrest⟩

/-! ## What has gone out -/

/-- Where the writer runs, what follows a turn is the loop. -/
theorem AtRest.follows (h : AtRest setup s) (hreceives : s.writer.receives = true)
    (hfollows : Follows s turn) : s.pc = .running := by
  have hnext := hfollows.2
  cases hpc : s.pc with
  | running => rfl
  | terminal event result =>
      -- the send that it waits for has room
      have hstep := h .terminalSend rfl
      cases hpending : s.pendingEvent <;>
        simp [step, hpc, hpending, h.sends hreceives] at hstep
  | _ => rw [hpc] at hnext; cases hnext

/-- A writer that runs has written all there was. -/
theorem AtRest.frames (h : AtRest setup s) (hpiped : Piped setup tr s)
    (hreceives : s.writer.receives = true) :
    s.frames = (events tr).map (WorkerEvent.mapTexts setup.redactor.clean) := by
  obtain ⟨hwriter, houtbound⟩ := h.writer hreceives
  have hflow := hpiped.flow hreceives
  rw [hwriter, houtbound] at hflow
  simpa [WriterTask.taken] using hflow

@[simp] theorem approvalHandle?_mapTexts (f : Text → Text) (event : WorkerEvent) :
    (event.mapTexts f).approvalHandle? = event.approvalHandle? := by
  cases event <;> rfl

/-- The request that was enqueued is among the frames. -/
theorem exists_frame_of_enqueued {handle : Text} (hmem : handle ∈ enqueuedHandles tr)
    (hframes : s.frames = (events tr).map (WorkerEvent.mapTexts setup.redactor.clean)) :
    ∃ frame ∈ s.frames, frame.approvalHandle? = some handle := by
  obtain ⟨o, ho, hhandle⟩ := List.mem_filterMap.mp hmem
  cases o with
  | enqueued held =>
      refine ⟨held.event.mapTexts setup.redactor.clean, ?_, ?_⟩
      · rw [hframes]
        exact List.mem_map_of_mem (List.mem_filterMap.mpr ⟨_, ho, rfl⟩)
      · rw [approvalHandle?_mapTexts]
        exact hhandle
  | _ => cases hhandle

/-- At rest, with a writer that runs, every event that was sent has been
written. In the loop no event is held and no approval request is on its way;
all that the active turn emitted has been sent, and inputs are queued only
behind an active turn. Each call of `approve` that is under way, of a turn
that was not aborted, waits; the daemon has its request, and a decision would
reach it. -/
theorem rest_delivers (h : (machine setup).Run Attending tr s) (hfresh : (drawn tr).Nodup)
    (hrest : AtRest setup s) (hreceives : s.writer.receives = true) :
    s.frames = (events tr).map (WorkerEvent.mapTexts setup.redactor.clean) ∧
    (s.pc = .running → s.pendingEvent = none ∧ s.approvals = [] ∧ s.approvalBarrier = none ∧
      (s.active = none → s.queuedInputs = []) ∧
      ∀ turn, s.active = some turn → emitted turn tr = cores (sent turn tr)) ∧
    ∀ c call, s.approver.Busy c call → (s.tasks call.turn).aborted = false →
      ∃ handle, call.stage = .waiting handle ∧
        (∃ frame ∈ s.frames, frame.approvalHandle? = some handle) ∧
        ∀ decision, (s.approver.resolve handle decision).2 =
          [.resolved handle decision call.tool] := by
  have hframes := hrest.frames (run_piped h) hreceives
  have halone := (run_alone (h.mono fun _ _ _ ha => ha.1)).1
  refine ⟨hframes, fun hpc => ?_, fun c call hbusy hkept => ?_⟩
  · obtain ⟨happrovals, hbarrier⟩ := hrest.quiet halone hpc
    refine ⟨hrest.pending hpc, happrovals, hbarrier, hrest.idle hpc, fun turn hactive => ?_⟩
    obtain ⟨-, -, hevents, -⟩ := hrest.active hpc hactive
    have hconserved := run_conserved h turn
    rw [hrest.pending hpc, hevents] at hconserved
    simpa [itemsOf, cores] using hconserved
  · -- its turn is the active one of the loop, so it is nowhere on its way
    have hfollows : Follows s call.turn := by
      by_contra hnone
      cases hkept.symm.trans ((run_attended h).aborted hbusy hnone)
    have hpc := hrest.follows hreceives hfollows
    obtain ⟨hbarrier, hroom, -, -⟩ := hrest.active hpc hfollows.1
    obtain ⟨handle, hstage, hreply, -⟩ := hrest.call hbusy hroom
    have hposted := run_posted h hfresh
    have hplaces := hposted.waits c call handle hbusy.1 hstage hkept
    rw [places, hroom, hbarrier, hrest.pending hpc] at hplaces
    have hopen : s.approver.Unresolved c call handle :=
      ⟨hbusy.1, by rw [hstage]; rfl, by rw [hstage]; rfl, hreply⟩
    exact ⟨handle, hstage, exists_frame_of_enqueued (by simpa [heldHandles] using hplaces) hframes,
      hopen.resolve (hposted.enrolled c call handle hopen hkept)⟩

/-- An agent says something and asks, and the worker has passed both on. -/
theorem asked_at_rest : ∃ (tr : List (Obs Text)) (s : Worker Text),
    (machine (plainSetup ["bash".toList])).Run Attending tr s ∧
    drawn tr = ["h".toList] ∧ AtRest (plainSetup ["bash".toList]) s ∧ s.writer.receives = true ∧
    s.pc = .running ∧ s.active = some 0 ∧
    s.approver.Busy 0 ⟨0, "p".toList, "bash".toList, .null, .waiting "h".toList, none⟩ ∧
    (s.tasks 0).aborted = false := by
  have hrun : (machine (plainSetup ["bash".toList])).Run Attending _ _ :=
    Machine.Run.exec (fun _ s a => inTask s a && keepsSender s a)
      (fun _ _ _ h => by simpa [Attending] using h)
      [.command (.input "run".toList), .startTurn, .emit 0 (.textDelta "a".toList),
        .call (.request 0 "p".toList "bash".toList .null), .call (.check 0),
        .call (.name 0 "h".toList), .call (.register 0), .call (.notify 0), .takeEvent [],
        .takeNotice, .reserve, .barrier [], .reserve, .writerRecv, .writerWrite, .writerRecv,
        .writerWrite]
      .start rfl
  refine ⟨_, _, hrun, rfl, ?_, rfl, rfl, rfl, ⟨rfl, rfl⟩, rfl⟩
  intro a ha
  cases a with
  | call action =>
      cases action with
      | check c | name c handle | register c | notify c | receive c | dropGuard c =>
          cases c <;> rfl
      | notifyFail c => rfl
      | _ => cases ha
  | startTurn | barrier handle | takeNotice | takeEvent handle | reserve | cancelCompleted
    | stopDone | joinTurn | terminalSend | abortDone | closed | writerRecv | writerWrite
    | writerEnd => rfl
  | _ => cases ha

/-- The daemon has both frames, and its decision would reach the call. -/
theorem rest_delivers_asked : ∃ (tr : List (Obs Text)) (s : Worker Text),
    (machine (plainSetup ["bash".toList])).Run Attending tr s ∧
    AtRest (plainSetup ["bash".toList]) s ∧
    s.frames = (events tr).map (WorkerEvent.mapTexts (plainSetup ["bash".toList]).redactor.clean) ∧
    emitted 0 tr = cores (sent 0 tr) ∧
    (∃ frame ∈ s.frames, frame.approvalHandle? = some "h".toList) ∧
    ∀ decision, (s.approver.resolve "h".toList decision).2 =
      [.resolved "h".toList decision "bash".toList] := by
  obtain ⟨tr, s, hrun, hdrawn, hrest, hreceives, hpc, hactive, hbusy, hkept⟩ := asked_at_rest
  obtain ⟨hframes, hloop, hcalls⟩ :=
    rest_delivers hrun (by rw [hdrawn]; decide) hrest hreceives
  obtain ⟨handle, hstage, hframe, hresolves⟩ := hcalls 0 _ hbusy hkept
  obtain rfl : "h".toList = handle := by simpa using hstage
  obtain ⟨-, -, -, -, hsent⟩ := hloop hpc
  exact ⟨tr, s, hrun, hrest, hframes, hsent 0 hactive, hframe, hresolves⟩

end Worker

end PeakcodeDaemon
