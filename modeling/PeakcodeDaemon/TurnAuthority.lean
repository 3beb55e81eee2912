import PeakcodeDaemon.TerminalEvents
import PeakcodeDaemon.ApprovalCalls

/-!
# What outlives a turn

Calls of `approve` run in the task of their turn. Whenever the coordinator
is between turns the tasks of all turns have ended, and with them every
call: the pending map is empty, as are the map of call ids, the approval
channel and the barrier. So one task is alive at most, and of a cancelled
turn only the event that was already held is still sent.

- **between turns** (`Quiescent`) nothing of a turn is left; **in a turn**
  (`Solo`) only its own task may run and only its calls are under way.
  `Alone` says which of the two holds where the coordinator is, past its
  loop included, and `Alone.step` is kept by joining a task
  (`Solo.join`) and by the clean-up of a cancelled one
  (`Solo.cancelled`), the only two ways from the one to the other.
- **one task** (`Latest`): a task that is alive is the latest turn's.
- **after a cancel** (`Cancelled`): from the `Cancel` on, what may still
  be sent of the turn is the event held at that moment, if it is ordinary.
  The invariant carries that event along, because the state forgets it
  once it is sent.

What is assumed of the tasks (`inTask`) is what Rust gives: a future lives
in the task that awaits it, and is dropped with it.
-/

namespace PeakcodeDaemon

namespace Worker

variable {Message : Type} {setup : Setup Message} {tr os : List (Obs Message)}
  {s s' : Worker Message} {a : Action Message} {turn : Nat}

/-- Calls of `approve` are made in the task of their turn, which drops those
that are under way before it ends. -/
def inTask (s : Worker Message) : Action Message → Bool
  | .finish turn _ => s.approver.callsEnded turn
  | .call (.request turn ..) => (s.tasks turn).outcome.isNone
  | _ => true

/-- The task was started and has not ended. -/
def Alive (s : Worker Message) (turn : Nat) : Prop :=
  turn < s.nextTurn ∧ (s.tasks turn).outcome = none

/-- Nothing of a turn is left. -/
structure Quiescent (s : Worker Message) : Prop where
  tasks : ∀ turn, ¬s.Alive turn
  calls : ∀ c call, ¬s.approver.Busy c call
  callIds : s.callIds = .empty
  pending : ∀ handle, s.approver.pending handle = none
  approvals : s.approvals = []
  barrier : s.approvalBarrier = none
  held : ∀ held, s.pendingEvent = some held → ∀ callId tool argumentsJson,
    held.event ≠ .needsApproval callId tool argumentsJson

/-- Only the task of this turn may still run, and the calls under way are its own. -/
structure Solo (s : Worker Message) (turn : Nat) : Prop where
  own : ∀ c call, s.approver.Busy c call → call.turn = turn
  ended : (s.tasks turn).outcome.isSome = true → ∀ c call, ¬s.approver.Busy c call
  alive : ∀ turn', s.Alive turn' → turn' = turn

/-- What holds where the coordinator is. -/
def Alone (s : Worker Message) : Prop :=
  match s.pc, s.active with
  | .running, none => Quiescent s
  | .running, some turn => Solo s turn
  | .joining turn, _ => Solo s turn
  | .cancelling turn, _ => Solo s turn
  | _, _ => True

/-! ## What the steps preserve -/

/-- A task that has not ended had not ended before. -/
theorem outcome_update {tasks : Nat → AgentTask Message} {turn' : Nat} {task : AgentTask Message}
    (h : (tasks turn').outcome.isSome = true → task.outcome.isSome = true)
    (hturn : (Function.update tasks turn' task turn).outcome = none) :
    (tasks turn).outcome = none := by
  by_cases heq : turn = turn'
  · subst heq
    rw [Function.update_self] at hturn
    cases hout : (tasks turn).outcome with
    | none => rfl
    | some outcome =>
        have := h (by rw [hout]; rfl)
        rw [hturn] at this
        cases this
  · rwa [Function.update_of_ne heq] at hturn

/-- Tasks end and calls go on. -/
theorem Solo.frame (h : Solo s turn) (hbusy : ∀ c call', s'.approver.Busy c call' →
      ∃ call, s.approver.Busy c call ∧ call'.turn = call.turn)
    (hnext : s'.nextTurn = s.nextTurn)
    (houtcome : ∀ turn', (s'.tasks turn').outcome = none → (s.tasks turn').outcome = none)
    (hended : (s'.tasks turn).outcome.isSome = true →
      (s.tasks turn).outcome.isSome = true ∨ ∀ c call, ¬s.approver.Busy c call) :
    Solo s' turn where
  own := by
    intro c call' hcall'
    obtain ⟨call, hcall, hturn⟩ := hbusy c call' hcall'
    rw [hturn]
    exact h.own c call hcall
  ended := by
    intro hend c call' hcall'
    obtain ⟨call, hcall, -⟩ := hbusy c call' hcall'
    rcases hended hend with hend | hnone
    · exact h.ended hend c call hcall
    · exact hnone c call hcall
  alive := by
    intro turn' hturn'
    exact h.alive turn' ⟨hnext ▸ hturn'.1, houtcome turn' hturn'.2⟩

/-- Nothing changes that outlives a turn. -/
theorem Quiescent.frame (h : Quiescent s) (happrover : s'.approver = s.approver)
    (hnext : s'.nextTurn = s.nextTurn)
    (houtcome : ∀ turn', (s'.tasks turn').outcome = none → (s.tasks turn').outcome = none)
    (hcallIds : s'.callIds = s.callIds) (happrovals : s'.approvals = s.approvals)
    (hbarrier : s'.approvalBarrier = s.approvalBarrier)
    (hpending : ∀ held, s'.pendingEvent = some held → s.pendingEvent = some held) :
    Quiescent s' where
  tasks := fun turn' hturn' => h.tasks turn' ⟨hnext ▸ hturn'.1, houtcome turn' hturn'.2⟩
  calls := by
    rw [happrover]
    exact h.calls
  callIds := hcallIds.trans h.callIds
  pending := by
    rw [happrover]
    exact h.pending
  approvals := happrovals.trans h.approvals
  barrier := hbarrier.trans h.barrier
  held := fun held hheld => h.held held (hpending held hheld)

/-- A turn starts alone. -/
theorem Quiescent.startTurn (h : Quiescent s) (text : Text) (rest : List Text) :
    Solo (s.startTurn setup text rest).1 s.nextTurn where
  own := fun c call hbusy => absurd hbusy (h.calls c call)
  ended := fun _ => h.calls
  alive := by
    intro turn' ⟨hlt, houtcome⟩
    by_contra hne
    have hlt : turn' < s.nextTurn + 1 := hlt
    refine h.tasks turn' ⟨by omega, ?_⟩
    exact (congrArg AgentTask.outcome (Function.update_of_ne hne ..)).symm.trans houtcome

/-- What is kept of a cancelled turn asks for nothing. -/
theorem keepOrdinary_ordinary {held : Option Held} {held' : Held}
    (h : keepOrdinary held = some held') (callId tool argumentsJson : Text) :
    held'.event ≠ .needsApproval callId tool argumentsJson := by
  obtain rfl := keepOrdinary_eq_some h
  rw [keepOrdinary] at h
  intro hevent
  rw [hevent] at h
  cases h

/-- The clean-up of a cancelled turn that has ended. -/
theorem Solo.cancelled (h : Solo s turn) (houtcome : (s.tasks turn).outcome.isSome = true) :
    Quiescent { s.cancelled with pc := .running } where
  tasks := by
    intro turn' ⟨hlt, hnone⟩
    obtain rfl := h.alive turn' ⟨hlt, hnone⟩
    have hnone : (s.tasks turn').outcome = none := hnone
    rw [hnone] at houtcome
    cases houtcome
  calls := h.ended houtcome
  callIds := rfl
  pending := fun _ => rfl
  approvals := rfl
  barrier := rfl
  held := fun _ hheld => keepOrdinary_ordinary hheld

/-- A turn that is joined: its calls have dropped their entries themselves. -/
theorem Solo.join (h : Solo s turn)
    (hguarded : ∀ handle e, s.approver.pending handle = some e →
      ∃ call, s.approver.calls e.token = some call ∧ call.stage.guards = some handle)
    (hpending : s.pendingEvent = none) (hbarrier : s.approvalBarrier = none)
    {finalMessages : List Message} (houtcome : (s.tasks turn).outcome = some (.ok finalMessages)) :
    Quiescent (s.join (.ok finalMessages)) where
  tasks := by
    intro turn' ⟨hlt, hnone⟩
    obtain rfl := h.alive turn' ⟨hlt, hnone⟩
    cases houtcome.symm.trans hnone
  calls := h.ended (by rw [houtcome]; rfl)
  callIds := rfl
  pending := by
    intro handle
    cases hentry : s.approver.pending handle with
    | none => exact hentry
    | some e =>
        obtain ⟨call, hcall, hguards⟩ := hguarded handle e hentry
        have hbusy : s.approver.Busy e.token call := by
          refine ⟨hcall, ?_⟩
          cases hstage : call.stage with
          | ended outcome => rw [hstage] at hguards; cases hguards
          | _ => rfl
        exact absurd hbusy (h.ended (by rw [houtcome]; rfl) _ _)
  approvals := rfl
  barrier := hbarrier
  held := fun _ hheld => by cases hpending.symm.trans hheld

/-- The calls of the one turn go on, and no other turn's call joins them. -/
theorem Solo.calls (h : Solo s turn) {b : RemoteApprover.Action} {A' : RemoteApprover}
    {os : List RemoteApprover.Obs} (hallows : s.Allows b) (hinTask : inTask s (.call b) = true)
    (hstep : RemoteApprover.Step s.approver b A' os) : Solo { s with approver := A' } turn where
  own := by
    intro c call' hcall'
    rcases hstep.busy hcall' with ⟨call, hcall, hturn⟩ | ⟨turn', _, _, _, rfl, -, hturn⟩
    · rw [hturn]
      exact h.own c call hcall
    · have hnone : (s.tasks turn').outcome = none := by simpa [inTask] using hinTask
      exact hturn.trans (h.alive turn' ⟨hallows, hnone⟩)
  ended := by
    intro hend c call' hcall'
    rcases hstep.busy hcall' with ⟨call, hcall, -⟩ | ⟨turn', _, _, _, rfl, -, hturn⟩
    · exact h.ended hend c call hcall
    · have hnone : (s.tasks turn').outcome = none := by simpa [inTask] using hinTask
      obtain rfl := h.alive turn' ⟨hallows, hnone⟩
      have hend : (s.tasks turn').outcome.isSome = true := hend
      rw [hnone] at hend
      cases hend
  alive := h.alive

/-- Between turns there is no task that could call. -/
theorem Quiescent.no_call (h : Quiescent s) {b : RemoteApprover.Action} {A' : RemoteApprover}
    {os : List RemoteApprover.Obs} (hallows : s.Allows b) (hinTask : inTask s (.call b) = true)
    (hstep : RemoteApprover.Step s.approver b A' os) : False := by
  by_cases hrequest : ∃ turn providerCallId tool arguments,
      b = .request turn providerCallId tool arguments
  · obtain ⟨turn', _, _, _, rfl⟩ := hrequest
    have hnone : (s.tasks turn').outcome = none := by simpa [inTask] using hinTask
    exact h.tasks turn' ⟨hallows, hnone⟩
  · obtain ⟨c, call, hbusy⟩ := hstep.acts (fun _ _ _ _ hb => hrequest ⟨_, _, _, _, hb⟩)
      (by rintro callId decision rfl; exact hallows) (by rintro rfl; exact hallows)
    exact h.calls c call hbusy

/-! ## Where the coordinator is -/

/-- Between turns no task is alive and no call is under way. -/
theorem Alone.quiescent (h : Alone s) (hpc : s.pc = .running) (hactive : s.active = none) :
    Quiescent s := by
  unfold Alone at h
  rw [hpc, hactive] at h
  exact h

/-- At work, or on its way out, the turn is the only one alive. -/
theorem Alone.solo (h : Alone s) (hpc : s.pc = .running ∧ s.active = some turn ∨
    s.pc = .joining turn ∨ s.pc = .cancelling turn) : Solo s turn := by
  unfold Alone at h
  rcases hpc with ⟨hpc, hactive⟩ | hpc | hpc
  · rw [hpc, hactive] at h
    exact h
  · rw [hpc] at h
    exact h
  · rw [hpc] at h
    exact h

theorem Alone.of_quiescent (h : Quiescent s) (hpc : s.pc = .running) (hactive : s.active = none) :
    Alone s := by
  unfold Alone
  rw [hpc, hactive]
  exact h

theorem Alone.of_solo (h : Solo s turn) (hpc : s.pc = .running) (hactive : s.active = some turn) :
    Alone s := by
  unfold Alone
  rw [hpc, hactive]
  exact h

/-- A step that leaves the coordinator where it is. -/
theorem Alone.stay (h : Alone s) (hpc : s'.pc = s.pc) (hactive : s'.active = s.active)
    (hquiescent : Quiescent s → Quiescent s') (hsolo : ∀ turn, Solo s turn → Solo s' turn) :
    Alone s' := by
  unfold Alone
  rw [hpc, hactive]
  cases hat : s.pc with
  | running =>
      cases hturn : s.active with
      | none => exact hquiescent (h.quiescent hat hturn)
      | some turn => exact hsolo turn (h.solo (Or.inl ⟨hat, hturn⟩))
  | joining turn => exact hsolo turn (h.solo (Or.inr (Or.inl hat)))
  | cancelling turn => exact hsolo turn (h.solo (Or.inr (Or.inr hat)))
  | _ => trivial

/-- Nothing of what is followed here changes. -/
theorem Alone.frame (h : Alone s) (hpc : s'.pc = s.pc) (hactive : s'.active = s.active)
    (happrover : s'.approver = s.approver) (htasks : s'.tasks = s.tasks)
    (hnext : s'.nextTurn = s.nextTurn) (hcallIds : s'.callIds = s.callIds)
    (happrovals : s'.approvals = s.approvals) (hbarrier : s'.approvalBarrier = s.approvalBarrier)
    (hpending : ∀ held, s'.pendingEvent = some held → s.pendingEvent = some held) : Alone s' := by
  refine h.stay hpc hactive (fun h => ?_) (fun turn h => ?_)
  · exact h.frame happrover hnext (by rw [htasks]; exact fun _ h => h) hcallIds happrovals hbarrier
      hpending
  · exact h.frame (by rw [happrover]; exact fun _ call hbusy => ⟨call, hbusy, rfl⟩) hnext
      (by rw [htasks]; exact fun _ h => h) (by rw [htasks]; exact Or.inl)

/-- A turn's own affairs while it is active. -/
theorem Alone.active (h : Alone s) (hpc : s.pc = .running) (hactive : s.active = some turn)
    (hpc' : s'.pc = .running) (hactive' : s'.active = some turn)
    (happrover : s'.approver = s.approver) (hnext : s'.nextTurn = s.nextTurn)
    (houtcome : ∀ turn', (s'.tasks turn').outcome = (s.tasks turn').outcome) : Alone s' := by
  refine .of_solo ((h.solo (Or.inl ⟨hpc, hactive⟩)).frame ?_ hnext ?_ ?_) hpc' hactive'
  · rw [happrover]
    exact fun _ call hbusy => ⟨call, hbusy, rfl⟩
  · exact fun turn' hnone => (houtcome turn').symm.trans hnone
  · rw [houtcome]
    exact Or.inl

/-- A task ends when its calls have, so it leaves nothing behind. -/
theorem Alone.finish (h : Alone s) (hunborn : ∀ c, s.approver.nextToken ≤ c →
    s.approver.calls c = none) {turn' : Nat} {outcome : Outcome Message}
      (hturn : turn' < s.nextTurn)
    (hrunning : (s.tasks turn').outcome = none) (hended : s.approver.callsEnded turn' = true) :
    Alone { s with
      tasks := Function.update s.tasks turn' { s.tasks turn' with outcome := some outcome } } := by
  refine h.stay rfl rfl (fun h => ?_) (fun turn h => ?_)
  · exact absurd ⟨hturn, hrunning⟩ (h.tasks turn')
  · have hsame : turn' = turn := h.alive turn' ⟨hturn, hrunning⟩
    refine h.frame (fun _ call hbusy => ⟨call, hbusy, rfl⟩) rfl ?_ (fun _ => Or.inr ?_)
    · exact fun _ hnone => outcome_update (fun _ => rfl) hnone
    · intro c call hbusy
      exact RemoteApprover.turn_ne_of_callsEnded hunborn hended hbusy
        ((h.own c call hbusy).trans hsame.symm)

/-- Every step keeps at most one task alive. -/
theorem Alone.step (h : Alone s) (hunborn : ∀ c, s.approver.nextToken ≤ c →
      s.approver.calls c = none)
    (hguarded : ∀ handle e, s.approver.pending handle = some e →
      ∃ call, s.approver.calls e.token = some call ∧ call.stage.guards = some handle)
    (hcourse : Course s) (hinTask : inTask s a = true) (hstep : Step setup s a s' os) :
    Alone s' := by
  cases hstep with
  | queueInput hpc => exact h.frame rfl rfl rfl rfl rfl rfl rfl rfl (fun _ h => h)
  | ignoreCancel hpc hactive => exact h
  | writerRecv hwriter houtbound => exact h.frame rfl rfl rfl rfl rfl rfl rfl rfl (fun _ h => h)
  | writerWrite hwriter hfits => exact h.frame rfl rfl rfl rfl rfl rfl rfl rfl (fun _ h => h)
  | writerReject hwriter hfits => exact h.frame rfl rfl rfl rfl rfl rfl rfl rfl (fun _ h => h)
  | writerFail hwriter => exact h.frame rfl rfl rfl rfl rfl rfl rfl rfl (fun _ h => h)
  | writerEnd hpc hwriter houtbound => exact h.frame rfl rfl rfl rfl rfl rfl rfl rfl (fun _ h => h)
  | enqueue hpc hpending hsends =>
      exact h.frame rfl rfl rfl rfl rfl rfl rfl rfl (fun _ hheld => by cases hheld)
  | terminalHeld hpc hpending hsends =>
      exact h.frame rfl rfl rfl rfl rfl rfl rfl rfl (fun _ hheld => by cases hheld)
  | @approve callId decision hpc =>
      refine h.stay rfl rfl (fun h => ?_) (fun turn h => ?_)
      · -- nothing is pending, so nothing is resolved
        have hsame : (s.approver.resolve callId decision).1 = s.approver := by
          rw [RemoteApprover.resolve, h.pending callId]
        exact h.frame hsame rfl (fun _ h => h) rfl rfl rfl (fun _ h => h)
      · exact h.frame (fun _ _ hcall' => RemoteApprover.resolve_busy hcall') rfl
          (fun _ h => h) Or.inl
  | @cancel turn hpc hactive =>
      refine (h.solo (Or.inl ⟨hpc, hactive⟩)).frame
        (fun _ call hbusy => ⟨call, hbusy, rfl⟩) rfl ?_ ?_
      · exact fun _ hnone => of_update_task AgentTask.outcome hnone rfl
      · exact fun hend => Or.inl (of_update_task (fun task => task.outcome.isSome) hend rfl)
  | startTurn hpc hactive hpending =>
      exact .of_solo ((h.quiescent hpc hactive).startTurn _ _) hpc rfl
  | holdEvent hpc hactive hpending hevents ha =>
      exact h.active hpc hactive hpc hactive rfl rfl
        (fun _ => update_task AgentTask.outcome rfl rfl)
  | holdNotice hpc hactive hpending hbarrier hevents hopen =>
      exact h.active hpc hactive hpc hactive rfl rfl (fun _ => rfl)
  | dropBarrier hpc hactive hpending hbarrier hevents hclosed =>
      exact h.active hpc hactive hpc hactive rfl rfl (fun _ => rfl)
  | takeNotice hpc hactive hbarrier happrovals =>
      exact h.active hpc hactive hpc hactive rfl rfl (fun _ => rfl)
  | turnClosed hpc hactive hpending hbarrier hevents hclosed =>
      have hsolo := h.solo (Or.inl ⟨hpc, hactive⟩)
      exact ⟨hsolo.own, hsolo.ended, hsolo.alive⟩
  | cancelCompleted hpc houtcome =>
      exact .of_quiescent ((h.solo (Or.inr (Or.inr hpc))).cancelled houtcome) rfl
        (hcourse.cancelling _ hpc).1
  | @joinTurn turn outcome hpc houtcome =>
      obtain ⟨hactive, hpending, hbarrier, -⟩ := hcourse.joining turn hpc
      cases outcome with
      | ok finalMessages =>
          have hsolo := h.solo (Or.inr (Or.inl hpc))
          exact .of_quiescent (hsolo.join hguarded hpending hbarrier houtcome) rfl hactive
      | _ => trivial
  | emit | closeEvents =>
      refine h.stay rfl rfl (fun h => ?_) (fun turn h => ?_)
      · exact h.frame rfl rfl (fun _ hnone => of_update_task AgentTask.outcome hnone rfl)
          rfl rfl rfl (fun _ h => h)
      · exact h.frame (fun _ call hbusy => ⟨call, hbusy, rfl⟩) rfl
          (fun _ hnone => of_update_task AgentTask.outcome hnone rfl)
          (fun hend => Or.inl (of_update_task (fun task => task.outcome.isSome) hend rfl))
  | finish hturn hrunning => exact h.finish hunborn hturn hrunning hinTask
  | call hallows hcalled =>
      have hcalls := RemoteApprover.step_cases hcalled
      exact h.stay rfl rfl (fun h => (h.no_call hallows hinTask hcalls).elim)
        (fun turn h => h.calls hallows hinTask hcalls)
  | @name c handle call hcall hstage | @notify c handle call hcall hstage =>
      have hbusy : s.approver.Busy c call := ⟨hcall, by rw [hstage]; rfl⟩
      exact h.stay rfl rfl (fun h => absurd hbusy (h.calls c call))
        (fun turn h => h.frame (fun _ _ hcall' => RemoteApprover.busy_setStage hbusy hcall') rfl
          (fun _ h => h) Or.inl)
  | _ => trivial

/-! ## At most one task -/

/-- A task that is alive was, unless its turn has just been started. -/
theorem Step.alive (h : Step setup s a s' os) (halive : s'.Alive turn) :
    s.Alive turn ∨ turn = s.nextTurn ∧ s.pc = .running ∧ s.active = none := by
  obtain ⟨hlt, hnone⟩ := halive
  cases h with
  | startTurn hpc hactive hpending =>
      by_cases hturn : turn = s.nextTurn
      · exact Or.inr ⟨hturn, hpc, hactive⟩
      · have hlt : turn < s.nextTurn + 1 := hlt
        refine Or.inl ⟨by omega, ?_⟩
        exact (congrArg AgentTask.outcome (Function.update_of_ne hturn ..)).symm.trans hnone
  | holdEvent hpc hactive hpending hevents ha =>
      exact Or.inl ⟨hlt, of_update_task AgentTask.outcome hnone rfl⟩
  | emit hturn hopen => exact Or.inl ⟨hlt, of_update_task AgentTask.outcome hnone rfl⟩
  | closeEvents hturn => exact Or.inl ⟨hlt, of_update_task AgentTask.outcome hnone rfl⟩
  | finish hturn hrunning => exact Or.inl ⟨hlt, outcome_update (fun _ => rfl) hnone⟩
  | cancel hpc hactive => exact Or.inl ⟨hlt, of_update_task AgentTask.outcome hnone rfl⟩
  | stop hpc hactive => exact Or.inl ⟨hlt, of_update_task AgentTask.outcome hnone rfl⟩
  | commandsClosed hpc => exact Or.inl ⟨hlt, (breakLoop_outcome ..).symm.trans hnone⟩
  | commandError hpc => exact Or.inl ⟨hlt, (breakLoop_outcome ..).symm.trans hnone⟩
  | writerGone hpc hpending hwriter => exact Or.inl ⟨hlt, (breakLoop_outcome ..).symm.trans hnone⟩
  | @terminalEvent event result hpc hpending hsends =>
      exact Or.inl ⟨hlt, (breakLoop_outcome s result turn).symm.trans hnone⟩
  | terminalGiveUp hpc => exact Or.inl ⟨hlt, (breakLoop_outcome ..).symm.trans hnone⟩
  | joinTurn hpc houtcome =>
      exact Or.inl ⟨(join_nextTurn s _).symm ▸ hlt, (join_outcome ..).symm.trans hnone⟩
  | _ => exact Or.inl ⟨hlt, hnone⟩

/-- Only the latest turn may have a task that is alive. -/
def Latest (s : Worker Message) : Prop := ∀ turn, s.Alive turn → turn + 1 = s.nextTurn

/-- A turn starts between turns only. -/
theorem Step.nextTurn (h : Step setup s a s' os) : s'.nextTurn = s.nextTurn ∨
    s'.nextTurn = s.nextTurn + 1 ∧ s.pc = .running ∧ s.active = none := by
  cases h with
  | startTurn hpc hactive hpending => exact Or.inr ⟨rfl, hpc, hactive⟩
  | joinTurn hpc houtcome => exact Or.inl (join_nextTurn _ _)
  | _ => exact Or.inl rfl

/-- The turn that is alive is the last that started. -/
theorem Latest.step (h : Latest s) (halone : Alone s) (hstep : Step setup s a s' os) :
    Latest s' := by
  intro turn halive
  rcases hstep.nextTurn with hnext | ⟨hnext, hpc, hactive⟩
  · rcases hstep.alive halive with hold | ⟨hturn, -⟩
    · rw [hnext]
      exact h turn hold
    · have hlt := halive.1
      omega
  · -- when a turn starts no task is alive
    rcases hstep.alive halive with hold | ⟨hturn, -⟩
    · exact absurd hold ((halone.quiescent hpc hactive).tasks turn)
    · omega

/-- In every run where calls of `approve` are made by their task. -/
theorem run_alone (h : (machine setup).Run (fun _ s a => inTask s a = true) tr s) :
    Alone s ∧ Latest s := by
  refine h.invariant (I := fun _ s => Alone s ∧ Latest s) ⟨?_, ?_⟩ ?_
  · refine .of_quiescent ⟨?_, ?_, rfl, fun _ => rfl, rfl, rfl, ?_⟩ rfl rfl
    · exact fun turn halive => Nat.not_lt_zero _ halive.1
    · exact fun c call hbusy => by cases hbusy.1
    · exact fun held hheld => by cases hheld
  · exact fun turn halive => absurd halive.1 (Nat.not_lt_zero _)
  · intro tr os s s' a hrun hinv ha hstep
    obtain ⟨halone, hlatest⟩ := hinv
    have happrover := run_approver hrun
    have hstep := step_cases hstep
    exact ⟨halone.step (RemoteApprover.run_sound happrover).1.unborn
      (RemoteApprover.run_handles happrover).guarded (run_course hrun) ha hstep,
      hlatest.step halone hstep⟩

/-! ## After a cancel -/

/-- What a cancelled turn has left to be sent, given the event held when the
`Cancel` was handled: that event, if it is ordinary and the turn's. -/
structure Cancelled (turn : Nat) (held : Option Held) (tr : List (Obs Message))
    (s : Worker Message) : Prop where
  started : turn < s.nextTurn
  inactive : s.active ≠ some turn
  kept : sent turn tr ++ itemsOf turn (keepOrdinary s.pendingEvent) <+:
    itemsOf turn (keepOrdinary held)
  ordinary : s.pc ≠ .cancelling turn → ∀ held, s.pendingEvent = some held → held.turn = turn →
    keepOrdinary (some held) = some held
  notices : s.pc = .running → ∀ notice ∈ s.approvalBarrier.toList ++ s.approvals, notice.1 ≠ turn

/-- Dropping a request twice drops it once. -/
theorem keepOrdinary_twice (held : Option Held) :
    keepOrdinary (keepOrdinary held) = keepOrdinary held := by
  cases heq : keepOrdinary held with
  | none => rfl
  | some held' =>
      obtain rfl := keepOrdinary_eq_some heq
      exact heq

theorem itemsOf_keepOrdinary_other {held : Held} (hturn : held.turn ≠ turn) :
    itemsOf turn (keepOrdinary (some held)) = [] := by
  cases heq : keepOrdinary (some held) with
  | none => rfl
  | some held' =>
      obtain rfl := Option.some.inj (keepOrdinary_eq_some heq)
      exact itemsOf_other hturn

section

variable {held : Option Held}

/-- Of a cancelled turn at most what was held goes out. -/
theorem Cancelled.sent_prefix (h : Cancelled turn held tr s) :
    sent turn tr <+: itemsOf turn (keepOrdinary held) :=
  (List.prefix_append _ _).trans h.kept

/-- What is held stays, and no notice of the turn comes. -/
theorem Cancelled.frame (h : Cancelled turn held tr s) (hsent : sent turn os = [])
    (hnext : s.nextTurn ≤ s'.nextTurn) (hactive : s'.active ≠ some turn)
    (hpending : s'.pendingEvent = s.pendingEvent)
    (hpc : s'.pc ≠ .cancelling turn → s.pc ≠ .cancelling turn)
    (hnotices : s'.pc = .running → ∀ notice ∈ s'.approvalBarrier.toList ++ s'.approvals,
      notice.1 ≠ turn) : Cancelled turn held (tr ++ os) s' where
  started := Nat.lt_of_lt_of_le h.started hnext
  inactive := hactive
  kept := by
    rw [sent_append, hsent, List.append_nil, hpending]
    exact h.kept
  ordinary := by
    intro hpc'
    rw [hpending]
    exact h.ordinary (hpc hpc')
  notices := hnotices

/-- What is held goes, or is another turn's. -/
theorem Cancelled.replace (h : Cancelled turn held tr s) (hsent : sent turn os = [])
    (hnext : s.nextTurn ≤ s'.nextTurn) (hactive : s'.active ≠ some turn)
    (hpending : ∀ held, s'.pendingEvent = some held → held.turn ≠ turn)
    (hnotices : s'.pc = .running → ∀ notice ∈ s'.approvalBarrier.toList ++ s'.approvals,
      notice.1 ≠ turn) : Cancelled turn held (tr ++ os) s' where
  started := Nat.lt_of_lt_of_le h.started hnext
  inactive := hactive
  kept := by
    have hnone : itemsOf turn (keepOrdinary s'.pendingEvent) = [] := by
      cases heq : s'.pendingEvent with
      | none => rfl
      | some held' => exact itemsOf_keepOrdinary_other (hpending held' heq)
    rw [sent_append, hsent, hnone, List.append_nil, List.append_nil]
    exact h.sent_prefix
  ordinary := fun _ held' heq hturn => absurd hturn (hpending held' heq)
  notices := hnotices

/-- A cancelled or stopped turn keeps its ordinary event only. -/
theorem Cancelled.clean (h : Cancelled turn held tr s) (hsent : sent turn os = [])
    (hnext : s.nextTurn ≤ s'.nextTurn) (hactive : s'.active ≠ some turn)
    (hpending : s'.pendingEvent = keepOrdinary s.pendingEvent)
    (hnotices : s'.pc = .running → ∀ notice ∈ s'.approvalBarrier.toList ++ s'.approvals,
      notice.1 ≠ turn) : Cancelled turn held (tr ++ os) s' where
  started := Nat.lt_of_lt_of_le h.started hnext
  inactive := hactive
  kept := by
    rw [sent_append, hsent, List.append_nil, hpending, keepOrdinary_twice]
    exact h.kept
  ordinary := by
    intro _ held' heq _
    rw [hpending] at heq
    rw [← heq, keepOrdinary_twice, heq]
  notices := hnotices

/-- What was held when it was cancelled goes out, or something of a later turn does.
-/
theorem Cancelled.enqueue (h : Cancelled turn held tr s) {held' : Held}
    (hpending : s.pendingEvent = some held') (hpc : s.pc ≠ .cancelling turn) :
    Cancelled turn held (tr ++ (s.enqueue held').2) (s.enqueue held').1 where
  started := h.started
  inactive := h.inactive
  kept := by
    have hsent : sent turn (s.enqueue held').2 = itemsOf turn (some held') :=
      sent_enqueued turn held'
    have hnone : itemsOf turn (keepOrdinary (s.enqueue held').1.pendingEvent) = [] := rfl
    rw [sent_append, hsent, hnone, List.append_nil]
    have hkept := h.kept
    by_cases hturn : held'.turn = turn
    · rwa [hpending, h.ordinary hpc held' hpending hturn] at hkept
    · rw [itemsOf_other hturn, List.append_nil]
      exact h.sent_prefix
  ordinary := fun _ _ heq => by cases heq
  notices := h.notices

/-- Every step adds nothing else of the cancelled turn. -/
theorem Cancelled.step (h : Cancelled turn held tr s) (halone : Alone s) (hcourse : Course s)
    (hstep : Step setup s a s' os) : Cancelled turn held (tr ++ os) s' := by
  have hrunning : s.pc = .running → s.pc ≠ .cancelling turn :=
    fun hpc h => by cases hpc.symm.trans h
  cases hstep with
  | enqueue hpc hpending hsends => exact h.enqueue hpending (hrunning hpc)
  | terminalHeld hpc hpending hsends =>
      exact h.enqueue hpending (fun hpc' => by cases hpc.symm.trans hpc')
  | @holdEvent a handle turn' event rest hpc hactive hpending hevents ha =>
      refine h.replace (sent_map_drew turn _) (Nat.le_refl _) h.inactive ?_ h.notices
      rintro held' heq rfl
      obtain rfl := Option.some.inj heq
      exact h.inactive hactive
  | holdNotice hpc hactive hpending hbarrier hevents hopen =>
      have hnotices := h.notices hpc
      rw [hbarrier] at hnotices
      refine h.replace rfl (Nat.le_refl _) h.inactive ?_ ?_
      · rintro held' heq
        obtain rfl := Option.some.inj heq
        exact hnotices _ (by simp)
      · exact fun _ notice hmem => hnotices notice (List.mem_append_right _ hmem)
  | dropBarrier hpc hactive hpending hbarrier hevents hclosed =>
      have hnotices := h.notices hpc
      exact h.frame rfl (Nat.le_refl _) h.inactive rfl (fun h => h)
        (fun _ notice hmem => hnotices notice (List.mem_append_right _ hmem))
  | takeNotice hpc hactive hbarrier happrovals =>
      have hnotices := h.notices hpc
      rw [hbarrier, happrovals] at hnotices
      exact h.frame rfl (Nat.le_refl _) h.inactive rfl (fun h => h) (fun _ => hnotices)
  | startTurn hpc hactive hpending =>
      have hne : some s.nextTurn ≠ some turn := by
        have := h.started
        simp only [ne_eq, Option.some.injEq]
        omega
      exact h.frame rfl (Nat.le_succ _) hne rfl (fun h => h) (fun _ => h.notices hpc)
  | @notify c handle call hcall hstage =>
      have hbusy : s.approver.Busy c call := ⟨hcall, by rw [hstage]; rfl⟩
      refine h.frame rfl (Nat.le_refl _) h.inactive rfl (fun h => h) (fun hpc notice hmem => ?_)
      have hpc : s.pc = .running := hpc
      rw [← List.append_assoc] at hmem
      rcases List.mem_append.mp hmem with hmem | hmem
      · exact h.notices hpc notice hmem
      · -- the one that asks is of the active turn
        obtain rfl := List.mem_singleton.mp hmem
        cases hactive : s.active with
        | none => exact absurd hbusy ((halone.quiescent hpc hactive).calls c call)
        | some turn' =>
            rintro rfl
            rw [← (halone.solo (Or.inl ⟨hpc, hactive⟩)).own c call hbusy] at hactive
            exact h.inactive hactive
  | cancel hpc hactive =>
      exact h.frame rfl (Nat.le_refl _) (by simp) rfl (fun _ => hrunning hpc)
        (fun hpc' => by cases hpc')
  | stop hpc hactive =>
      exact h.frame rfl (Nat.le_refl _) (by simp) rfl (fun _ => hrunning hpc)
        (fun hpc' => by cases hpc')
  | turnClosed hpc hactive hpending hbarrier hevents hclosed =>
      exact h.frame rfl (Nat.le_refl _) (by simp) rfl (fun _ => hrunning hpc)
        (fun hpc' => by cases hpc')
  | overflow hpc =>
      exact h.frame rfl (Nat.le_refl _) h.inactive rfl (fun _ => hrunning hpc)
        (fun hpc' => by cases hpc')
  | stopInactive hpc hactive =>
      exact h.frame rfl (Nat.le_refl _) h.inactive rfl (fun _ => hrunning hpc)
        (fun hpc' => by cases hpc')
  | commandsClosed hpc =>
      exact h.frame rfl (Nat.le_refl _) h.inactive rfl (fun _ => hrunning hpc)
        (fun hpc' => by cases hpc')
  | commandError hpc =>
      exact h.frame rfl (Nat.le_refl _) h.inactive rfl (fun _ => hrunning hpc)
        (fun hpc' => by cases hpc')
  | writerGone hpc hpending hwriter =>
      exact h.frame rfl (Nat.le_refl _) h.inactive rfl (fun _ => hrunning hpc)
        (fun hpc' => by cases hpc')
  | cancelCompleted hpc houtcome =>
      exact h.clean rfl (Nat.le_refl _) h.inactive rfl (fun _ _ hmem => by cases hmem)
  | cancelDeadline hpc =>
      exact h.clean rfl (Nat.le_refl _) h.inactive rfl (fun hpc' => by cases hpc')
  | stopDone hpc =>
      exact h.clean rfl (Nat.le_refl _) h.inactive rfl (fun hpc' => by cases hpc')
  | @joinTurn turn' outcome hpc houtcome =>
      obtain ⟨hactive, hpending, hbarrier, -⟩ := hcourse.joining turn' hpc
      refine h.replace rfl (Nat.le_of_eq (join_nextTurn _ _).symm) ?_ ?_ ?_
      · rw [join_active]
        exact h.inactive
      · intro held' heq
        cases (join_pending_none hpending).symm.trans heq
      · intro hpc' notice hmem
        rw [join_barrier, hbarrier] at hmem
        cases outcome with
        | ok finalMessages => cases hmem
        | _ => cases hpc'
  | @terminalEvent event result hpc hpending hsends =>
      exact h.frame rfl (Nat.le_refl _) h.inactive rfl (fun _ hpc' => by cases hpc.symm.trans hpc')
        (fun hpc' => by cases hpc')
  | terminalGiveUp hpc =>
      exact h.frame rfl (Nat.le_refl _) h.inactive rfl (fun _ hpc' => by cases hpc.symm.trans hpc')
        (fun hpc' => by cases hpc')
  | abortDone hpc =>
      exact h.frame rfl (Nat.le_refl _) (by simp) rfl (fun _ hpc' => by cases hpc.symm.trans hpc')
        (fun hpc' => by cases hpc')
  | closed hpc hwriter =>
      exact h.frame rfl (Nat.le_refl _) h.inactive rfl (fun _ hpc' => by cases hpc.symm.trans hpc')
        (fun hpc' => by cases hpc')
  | closeDeadline hpc =>
      exact h.frame rfl (Nat.le_refl _) h.inactive rfl (fun _ hpc' => by cases hpc.symm.trans hpc')
        (fun hpc' => by cases hpc')
  | approve hpc =>
      exact h.frame (sent_map_approver turn _) (Nat.le_refl _) h.inactive rfl (fun h => h) h.notices
  | call hallows hcalled =>
      exact h.frame (sent_map_approver turn _) (Nat.le_refl _) h.inactive rfl (fun h => h) h.notices
  | _ => exact h.frame rfl (Nat.le_refl _) h.inactive rfl (fun h => h) h.notices

/-- What stays held of a cancelled turn is a core event. -/
theorem Held.core_of_keepOrdinary {held' : Held} (h : keepOrdinary (some held') = some held') :
    ∃ event, held'.item = .core event := by
  have hrenders := held'.renders
  cases hitem : held'.item with
  | core event => exact ⟨event, rfl⟩
  | approval notice =>
      rw [hitem] at hrenders
      exact absurd hrenders (keepOrdinary_ordinary h _ _ _)

/-- At most one ordinary event goes out after `Cancel`. -/
theorem Cancelled.sent_cases (h : Cancelled turn held tr s) : sent turn tr = [] ∨
    ∃ held' event, held = some held' ∧ held'.item = .core event ∧ sent turn tr = [held'.item] := by
  have hprefix := h.sent_prefix
  cases heq : keepOrdinary held with
  | none =>
      rw [heq] at hprefix
      exact Or.inl (List.prefix_nil.mp hprefix)
  | some held' =>
      obtain rfl := keepOrdinary_eq_some heq
      rw [heq] at hprefix
      by_cases hturn : held'.turn = turn
      · rw [itemsOf_some hturn] at hprefix
        obtain ⟨event, hcore⟩ := Held.core_of_keepOrdinary heq
        rcases List.prefix_cons_iff.mp hprefix with hnone | ⟨rest, hone, hrest⟩
        · exact Or.inl hnone
        · obtain rfl := List.prefix_nil.mp hrest
          exact Or.inr ⟨held', event, rfl, hcore, hone⟩
      · rw [itemsOf_other hturn] at hprefix
        exact Or.inl (List.prefix_nil.mp hprefix)

end

/-- In every run in which the calls of `approve` are their tasks': between
turns nothing of a turn is left, at most one task is alive, and after a
`Cancel` nothing of the turn is sent but the event that was held. -/
theorem authority_ends (h : (machine setup).Run (fun _ s a => inTask s a = true) tr s) :
    (s.pc = .running → s.active = none → Quiescent s) ∧
    (∀ turn turn', s.Alive turn → s.Alive turn' → turn = turn') ∧
    ∀ turn s₁ os tr' s', s.active = some turn →
      step setup s (.command .cancel) = some (s₁, os) →
      ((machine setup).restart s₁).Run (fun _ s a => inTask s a = true) tr' s' →
      sent turn tr' = [] ∨ ∃ held event, s.pendingEvent = some held ∧ held.item = .core event ∧
        sent turn tr' = [held.item] := by
  obtain ⟨halone, hlatest⟩ := run_alone h
  refine ⟨fun hpc hactive => halone.quiescent hpc hactive, fun turn turn' halive halive' => ?_, ?_⟩
  · have := hlatest turn halive
    have := hlatest turn' halive'
    omega
  · intro turn s₁ os tr' s' hactive hstep hrest
    have hcancelled : Cancelled turn s.pendingEvent [] s₁ := by
      cases step_cases hstep with
      | ignoreCancel hpc hnone => cases hnone.symm.trans hactive
      | holdEvent hpc hactive' hpending hevents ha => rcases ha with ha | ha <;> cases ha
      | cancel hpc hactive' =>
          obtain rfl := Option.some.inj (hactive.symm.trans hactive')
          exact ⟨(run_started h).active turn hactive, by simp, List.prefix_refl _,
            fun hpc => absurd rfl hpc, fun hpc => by cases hpc⟩
    have hgone : Cancelled turn s.pendingEvent tr' s' := by
      refine hrest.invariant (I := Cancelled turn s.pendingEvent) hcancelled ?_
      intro tr₁ os₁ s₂ s₃ a hrun hinv _ hstep₁
      have hinTask : inTask s (.command .cancel) = true := rfl
      have hcancel : (machine setup).step s (.command .cancel) = some (s₁, os) := hstep
      have hwhole := (h.step hinTask hcancel).trans hrun
      exact hinv.step (run_alone hwhole).1 (run_course hwhole) (step_cases hstep₁)
    exact hgone.sent_cases

/-- A turn is cancelled behind a held event, which is sent. -/
theorem authority_ends_cancel : ∃ (tr : List (Obs Text)) (s : Worker Text),
    (machine (plainSetup ["bash".toList])).Run (fun _ s a => inTask s a = true) tr s ∧
    sent 0 tr = [.core (.textDelta "a".toList)] ∧ Quiescent s := by
  have hrun : (machine (plainSetup ["bash".toList])).Run (fun _ s a => inTask s a = true) _ _ :=
    Machine.Run.exec (fun _ s a => inTask s a) (fun _ _ _ h => h)
      [.command (.input "run".toList), .startTurn, .emit 0 (.textDelta "a".toList),
        .call (.request 0 "p".toList "bash".toList .null), .call (.check 0),
        .call (.name 0 "h".toList), .call (.register 0), .call (.notify 0), .takeEvent [],
        .command .cancel, .call (.abort 0), .call (.dropGuard 0), .finish 0 (.cancelled []),
        .cancelCompleted, .reserve]
      .start rfl
  exact ⟨_, _, hrun, rfl, (authority_ends hrun).1 rfl rfl⟩

end Worker

end PeakcodeDaemon
