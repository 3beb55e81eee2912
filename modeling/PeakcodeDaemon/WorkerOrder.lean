import PeakcodeDaemon.AgentOrder

/-!
# Outward order

What is sent of each turn is a prefix of its program, the whole of it if
the turn is joined, and turns do not overlap.

While a turn is active its program is what was sent, what is held, what
its channel buffers and the approval on its way, in this order. That is
the invariant (`Following`), and it stands on two facts about the source:
the agent awaits each call of `approve` before it goes on, so its notice
is the last thing it has said; and the coordinator looks into the event
channel once more before it sends the notice behind its barrier.

- **one task, one call** (`Own`, `OneCall.step`): of the active turn alone
  a task may run, with at most one call under way;
- **the coordinator's places** (`Place`): what is left of this past the
  loop, at an await, or between turns (`Resting`), where no task may run
  and no notice is on its way;
- **what was sent** (`Outward`, `Outward.step`): every turn so far is a
  prefix of its program, one behind the other.

`outward_order` puts them together. Its one condition on the daemon is
that it decides what it was asked (`announced`): the approver resolves any
registered handle, and `unannounced_decision_reorders` is the run in which
a decision that comes too early lets an event pass its own notice.
-/

namespace PeakcodeDaemon

namespace Worker

variable {Message : Type} {setup : Setup Message} {tr os : List (Obs Message)}
  {s s' : Worker Message} {a : Action Message} {turn : Nat} {A A' : RemoteApprover}

/-! ## The invariant -/

/-- The notices that are on their way. -/
def notices (s : Worker Message) : List (Nat × ApprovalNotice) :=
  s.approvalBarrier.toList ++ s.approvals

/-- Only the task of this turn may still run, and none of its calls is under
way once it has closed its channel or ended. -/
structure Own (s : Worker Message) (turn : Nat) : Prop where
  call : OneCall s.approver turn
  ended : (s.tasks turn).closed = true ∨ (s.tasks turn).outcome.isSome = true →
    ∀ c call, ¬s.approver.Busy c call
  old : ∀ turn' < s.nextTurn, turn' ≠ turn → (s.tasks turn').outcome.isSome = true

/-- No task may still run, and no notice is on its way. -/
structure Resting (s : Worker Message) : Prop where
  idle : ∀ c call, ¬s.approver.Busy c call
  notices : s.notices = []
  old : ∀ turn' < s.nextTurn, (s.tasks turn').outcome.isSome = true

/-- The program of the turn is sent, held, buffered or on its way, in order. -/
structure Following (tr : List (Obs Message)) (s : Worker Message) (turn : Nat) : Prop where
  own : Own s turn
  flow : ∃ rest, Inflight s.approver turn s.notices rest ∧ program turn tr = sent turn tr ++
    itemsOf turn s.pendingEvent ++ (s.tasks turn).events.map .core ++ rest
  held : ∀ held, s.pendingEvent = some held → held.turn = turn
  past : ∀ turn' ∈ sentTurns tr, turn' ≤ turn

/-- What holds where the coordinator is. Past its loop it takes nothing more. -/
def Place (tr : List (Obs Message)) (s : Worker Message) : Prop :=
  match s.pc, s.active with
  | .running, none => Resting s
  | .running, some turn => Following tr s turn
  | .joining turn, _ => Following tr s turn
  | .cancelling turn, _ => Own s turn
  | _, _ => True

/-- What holds everywhere of what was sent and is held. -/
structure Outward (tr : List (Obs Message)) (s : Worker Message) : Prop where
  kept : ∀ turn, sent turn tr ++ itemsOf turn s.pendingEvent <+: program turn tr
  sorted : (sentTurns tr).Pairwise (· ≤ ·)
  behind : ∀ held, s.pendingEvent = some held → ∀ turn ∈ sentTurns tr, turn ≤ held.turn

theorem sentTurns_append : sentTurns (tr ++ os) = sentTurns tr ++ sentTurns os :=
  List.filterMap_append

theorem sentTurns_eq_nil (h : ∀ held, .enqueued held ∉ os) : sentTurns os = [] := by
  rw [sentTurns, List.filterMap_eq_nil_iff]
  intro o ho
  cases o with
  | enqueued held => exact absurd ho (h held)
  | _ => rfl

/-- A step that enqueues nothing leaves what was sent of a turn. -/
theorem sent_eq_nil (h : ∀ held, .enqueued held ∉ os) (turn : Nat) : sent turn os = [] := by
  rw [sent, List.filterMap_eq_nil_iff]
  intro o ho
  cases o with
  | enqueued held => exact absurd ho (h held)
  | _ => rfl

/-- Nothing is sent, and nothing new is held. -/
theorem Outward.frame (h : Outward tr s) (hos : ∀ held, .enqueued held ∉ os)
    (hpending : ∀ held, s'.pendingEvent = some held → s.pendingEvent = some held) :
    Outward (tr ++ os) s' where
  kept := by
    intro turn
    rw [sent_append, sent_eq_nil hos, List.append_nil, program_append]
    refine List.IsPrefix.trans ?_ (List.prefix_append _ _)
    cases hheld : s'.pendingEvent with
    | none =>
        have hnothing : itemsOf turn none = [] := rfl
        rw [hnothing, List.append_nil]
        exact (List.prefix_append _ _).trans (h.kept turn)
    | some held =>
        rw [← hpending held hheld]
        exact h.kept turn
  sorted := by
    rw [sentTurns_append, sentTurns_eq_nil hos, List.append_nil]
    exact h.sorted
  behind := by
    rw [sentTurns_append, sentTurns_eq_nil hos, List.append_nil]
    exact fun held hheld => h.behind held (hpending held hheld)

/-- What is held is sent. -/
theorem Outward.enqueue (h : Outward tr s) {held : Held} (hpending : s.pendingEvent = some held) :
    Outward (tr ++ (s.enqueue held).2) (s.enqueue held).1 where
  kept := by
    intro turn
    have hkept := h.kept turn
    rw [hpending] at hkept
    rw [sent_append, program_append]
    have hsent : sent turn (s.enqueue held).2 = itemsOf turn (some held) := sent_enqueued turn held
    have hprogram : program turn (s.enqueue held).2 = [] := rfl
    have hnothing : itemsOf turn (s.enqueue held).1.pendingEvent = [] := rfl
    rw [hsent, hprogram, hnothing, List.append_nil, List.append_nil]
    exact hkept
  sorted := by
    rw [sentTurns_append]
    refine List.pairwise_append.mpr ⟨h.sorted, List.pairwise_singleton _ _, ?_⟩
    intro turn hmem turn' hmem'
    obtain rfl : turn' = held.turn := List.mem_singleton.mp hmem'
    exact h.behind held hpending turn hmem
  behind := fun held' hheld' => by cases hheld'

/-- In a turn that is followed, what is sent and held is a prefix. -/
theorem Following.kept (h : Following tr s turn) :
    sent turn tr ++ itemsOf turn s.pendingEvent <+: program turn tr := by
  obtain ⟨rest, -, hflow⟩ := h.flow
  rw [hflow, List.append_assoc]
  exact List.prefix_append _ _

/-- What a followed turn puts in the hand of the coordinator. -/
theorem Following.outward (h : Following (tr ++ os) s' turn) (hbefore : Outward tr s)
    (hos : ∀ held, .enqueued held ∉ os) (hfree : s.pendingEvent = none) :
    Outward (tr ++ os) s' where
  kept := by
    intro turn'
    by_cases hturn : turn' = turn
    · rw [hturn]
      exact h.kept
    · have hother : itemsOf turn' s'.pendingEvent = [] := by
        cases hheld : s'.pendingEvent with
        | none => rfl
        | some held =>
            refine itemsOf_other ?_
            rw [h.held held hheld]
            exact Ne.symm hturn
      have hkept := hbefore.kept turn'
      rw [hfree] at hkept
      rw [hother, sent_append, sent_eq_nil hos, program_append]
      simp only [List.append_nil]
      exact ((List.prefix_append _ _).trans hkept).trans (List.prefix_append _ _)
  sorted := by
    rw [sentTurns_append, sentTurns_eq_nil hos, List.append_nil]
    exact hbefore.sorted
  behind := by
    intro held hheld turn' hmem
    rw [h.held held hheld]
    exact h.past turn' hmem

/-! ## What the steps preserve -/

/-- No call becomes busy that was not. -/
theorem OneCall.frame (h : OneCall A turn) (hbusy : ∀ c call', A'.Busy c call' →
    ∃ call, A.Busy c call ∧ call'.turn = call.turn) : OneCall A' turn where
  own := by
    intro c call' hcall'
    obtain ⟨call, hcall, hturn⟩ := hbusy c call' hcall'
    rw [hturn]
    exact h.own c call hcall
  one := by
    intro c call c' call' hcall hcall'
    obtain ⟨_, hcall, -⟩ := hbusy c call hcall
    obtain ⟨_, hcall', -⟩ := hbusy c' call' hcall'
    exact h.one _ _ _ _ hcall hcall'

/-- A step of the approver leaves at most one call under way, the turn's, if
a request comes from the turn and only between its calls. -/
theorem OneCall.step (h : OneCall A turn) {b : RemoteApprover.Action} {os : List RemoteApprover.Obs}
    (hstep : RemoteApprover.Step A b A' os)
    (hrequest : ∀ turn' providerCallId tool arguments,
      b = .request turn' providerCallId tool arguments → turn' = turn ∧ ∀ c call, ¬A.Busy c call) :
    OneCall A' turn where
  own := by
    intro c call' hcall'
    rcases hstep.busy hcall' with ⟨call, hcall, hturn⟩ | ⟨turn', _, _, _, hb, -, hturn⟩
    · rw [hturn]
      exact h.own c call hcall
    · rw [hturn]
      exact (hrequest _ _ _ _ hb).1
  one := by
    intro c call c' call' hcall hcall'
    rcases hstep.busy hcall with ⟨call₁, hbusy, -⟩ | ⟨_, _, _, _, hb, rfl, -⟩
    · rcases hstep.busy hcall' with ⟨call₂, hbusy', -⟩ | ⟨_, _, _, _, hb, -, -⟩
      · exact h.one _ _ _ _ hbusy hbusy'
      · exact absurd hbusy ((hrequest _ _ _ _ hb).2 _ _)
    · rcases hstep.busy hcall' with ⟨call₂, hbusy', -⟩ | ⟨_, _, _, _, -, rfl, -⟩
      · exact absurd hbusy' ((hrequest _ _ _ _ hb).2 _ _)
      · rfl

/-- The task of the turn changes, or another one. -/
theorem Own.frame (h : Own s turn) (hbusy : ∀ c call', s'.approver.Busy c call' →
      ∃ call, s.approver.Busy c call ∧ call'.turn = call.turn)
    (hnext : s'.nextTurn = s.nextTurn)
    (hended : (s'.tasks turn).closed = true ∨ (s'.tasks turn).outcome.isSome = true →
      ((s.tasks turn).closed = true ∨ (s.tasks turn).outcome.isSome = true) ∨
        ∀ c call, ¬s.approver.Busy c call)
    (hold : ∀ turn', (s.tasks turn').outcome.isSome = true →
      (s'.tasks turn').outcome.isSome = true) : Own s' turn where
  call := h.call.frame hbusy
  ended := by
    intro hend c call' hcall'
    obtain ⟨call, hcall, -⟩ := hbusy c call' hcall'
    rcases hended hend with hend | hnone
    · exact h.ended hend c call hcall
    · exact hnone c call hcall
  old := fun turn' hlt hne => hold turn' (h.old turn' (by omega) hne)

/-- A call under way is the turn's; if there is none of the turn there is none. -/
theorem Own.not_busy (h : Own s turn) (hunborn : ∀ c, s.approver.nextToken ≤ c →
    s.approver.calls c = none) (hended : s.approver.callsEnded turn = true) :
    ∀ c call, ¬s.approver.Busy c call :=
  fun c call hbusy =>
    RemoteApprover.turn_ne_of_callsEnded hunborn hended hbusy (h.call.own c call hbusy)

/-- Nothing of the turn moves. -/
theorem Following.frame (h : Following tr s turn) (hown : Own s' turn)
    (hinflight : ∀ rest, Inflight s.approver turn s.notices rest →
      Inflight s'.approver turn s'.notices rest)
    (hpending : s'.pendingEvent = s.pendingEvent)
    (hevents : (s'.tasks turn).events = (s.tasks turn).events) (hprogram : program turn os = [])
    (hos : ∀ held, .enqueued held ∉ os) : Following (tr ++ os) s' turn where
  own := hown
  flow := by
    obtain ⟨rest, hrest, hflow⟩ := h.flow
    refine ⟨rest, hinflight rest hrest, ?_⟩
    rw [program_append, hprogram, sent_append, sent_eq_nil hos, List.append_nil, List.append_nil,
      hpending, hevents]
    exact hflow
  held := by
    rw [hpending]
    exact h.held
  past := by
    rw [sentTurns_append, sentTurns_eq_nil hos, List.append_nil]
    exact h.past

/-- An event is taken and held, and the order stands as it did. -/
theorem Following.hold (h : Following tr s turn) (hpending : s.pendingEvent = none) {handle : Text}
    {event : AgentEvent} {rest : List AgentEvent}
    (hevents : (s.tasks turn).events = event :: rest) :
    Following (tr ++ (s.holdEvent handle turn event rest).2)
      (s.holdEvent handle turn event rest).1 turn where
  own := by
    refine h.own.frame (fun _ call hbusy => ⟨call, hbusy, rfl⟩) rfl (fun hend => Or.inl ?_)
      (fun _ hold => update_task (fun task => task.outcome.isSome) rfl hold)
    rcases hend with hclosed | houtcome
    · exact Or.inl (of_update_task AgentTask.closed hclosed rfl)
    · exact Or.inr (of_update_task (fun task => task.outcome.isSome) houtcome rfl)
  flow := by
    obtain ⟨items, hitems, hflow⟩ := h.flow
    refine ⟨items, hitems, ?_⟩
    have hos : ∀ held, .enqueued held ∉ (s.holdEvent handle turn event rest).2 := by
      simp [Worker.holdEvent]
    have hprogram : program turn (s.holdEvent handle turn event rest).2 = [] :=
      program_map_drew turn _
    have hrest : ((s.holdEvent handle turn event rest).1.tasks turn).events = rest :=
      congrArg AgentTask.events (task_self s.tasks turn _)
    have hheld : itemsOf turn (s.holdEvent handle turn event rest).1.pendingEvent = [.core event] :=
      itemsOf_some rfl
    rw [program_append, hprogram, sent_append, sent_eq_nil hos, hrest, hheld, hflow, hpending,
      hevents]
    simp [itemsOf]
  held := by
    intro held hheld
    obtain rfl := Option.some.inj hheld
    rfl
  past := by
    have hos : ∀ held, .enqueued held ∉ (s.holdEvent handle turn event rest).2 := by
      simp [Worker.holdEvent]
    rw [sentTurns_append, sentTurns_eq_nil hos, List.append_nil]
    exact h.past

/-- Behind an empty channel the approval goes out. -/
theorem Following.holdNotice (h : Following tr s turn) (hpending : s.pendingEvent = none)
    {barrier : Nat × ApprovalNotice} (hbarrier : s.approvalBarrier = some barrier)
    (hevents : (s.tasks turn).events = []) : Following (tr ++ []) (s.holdNotice barrier) turn := by
  obtain ⟨items, hitems, hflow⟩ := h.flow
  have hnotices : s.notices = barrier :: s.approvals := by rw [notices, hbarrier]; rfl
  rw [hnotices] at hitems
  obtain ⟨happrovals, c, call, handle, hcall, hstage, rfl, rfl⟩ := hitems.of_cons
  have hbusy : s.approver.Busy c call := ⟨hcall, by rw [hstage]; rfl⟩
  have hafter : (s.holdNotice (turn, call.notice handle)).notices = [] := happrovals
  refine ⟨h.own.frame (fun _ call hbusy => ⟨call, hbusy, rfl⟩) rfl Or.inl (fun _ h => h),
    ?_, ?_, ?_⟩
  · refine ⟨[], ?_, ?_⟩
    · rw [hafter]
      -- the one call under way waits
      refine .nothing fun c' call' handle' hcall' => ⟨fun hstage' => ?_, fun hstage' => ?_⟩
      · obtain ⟨-, rfl⟩ := h.own.call.same hbusy ⟨hcall', by rw [hstage']; rfl⟩
        cases hstage.symm.trans hstage'
      · obtain ⟨-, rfl⟩ := h.own.call.same hbusy ⟨hcall', by rw [hstage']; rfl⟩
        cases hstage.symm.trans hstage'
    · have hheld : itemsOf turn (s.holdNotice (turn, call.notice handle)).pendingEvent =
        [.approval (call.notice handle)] := itemsOf_some rfl
      have hstill : ((s.holdNotice (turn, call.notice handle)).tasks turn).events = [] := hevents
      rw [List.append_nil, List.append_nil, hheld, hstill, hflow, hpending, hevents]
      simp [itemsOf]
  · intro held hheld
    obtain rfl := Option.some.inj hheld
    rfl
  · rw [List.append_nil]
    exact h.past

/-- What was held is what comes next of the turn. -/
theorem Following.enqueue (h : Following tr s turn) {held : Held}
    (hpending : s.pendingEvent = some held) :
    Following (tr ++ (s.enqueue held).2) (s.enqueue held).1 turn where
  own := h.own.frame (fun _ call hbusy => ⟨call, hbusy, rfl⟩) rfl Or.inl (fun _ h => h)
  flow := by
    obtain ⟨items, hitems, hflow⟩ := h.flow
    refine ⟨items, hitems, ?_⟩
    have hprogram : program turn (s.enqueue held).2 = [] := rfl
    have hsent : sent turn (s.enqueue held).2 = itemsOf turn (some held) := sent_enqueued turn held
    have hnothing : itemsOf turn (s.enqueue held).1.pendingEvent = [] := rfl
    rw [program_append, hprogram, List.append_nil, sent_append, hsent, hnothing, hflow, hpending,
      List.append_nil]
    rfl
  held := fun held' hheld' => by cases hheld'
  past := by
    rw [sentTurns_append]
    intro turn' hmem
    rcases List.mem_append.mp hmem with hmem | hmem
    · exact h.past turn' hmem
    · obtain rfl : turn' = held.turn := List.mem_singleton.mp hmem
      exact Nat.le_of_eq (h.held held hpending)

/-- Everything of a turn that closed its channel is sent once it is empty. -/
theorem Following.whole (h : Following tr s turn) (hpending : s.pendingEvent = none)
    (hevents : (s.tasks turn).events = []) (hclosed : (s.tasks turn).closed = true) :
    sent turn tr = program turn tr := by
  obtain ⟨items, hitems, hflow⟩ := h.flow
  obtain ⟨-, rfl⟩ := hitems.eq_nil (h.own.ended (Or.inl hclosed))
  rw [hflow, hpending, hevents]
  simp [itemsOf]

/-! ## Steps of the agent -/

/-- What is known of the approver in the runs considered. -/
structure Known (tr : List (Obs Message)) (s : Worker Message) : Prop where
  unborn : ∀ c, s.approver.nextToken ≤ c → s.approver.calls c = none
  guarded : ∀ handle e, s.approver.pending handle = some e →
    ∃ call, s.approver.calls e.token = some call ∧ call.stage.guards = some handle
  vacant : ∀ c call handle, s.approver.calls c = some call → call.stage = .named handle →
    s.approver.pending handle = none
  unanswered : RemoteApprover.Unanswered s.approver
  asked : ∀ c call handle, s.approver.calls c = some call → call.stage.handle? = some handle →
    .asked call.turn (call.notice handle) ∈ tr
  once : (askedHandles tr).Nodup

/-- A change to a task that neither closes nor ends it. -/
theorem Own.emit (h : Own s turn) (turn' : Nat) (task : AgentTask Message)
    (hclosed : task.closed = (s.tasks turn').closed)
    (houtcome : task.outcome = (s.tasks turn').outcome) :
    Own { s with tasks := Function.update s.tasks turn' task } turn := by
  refine h.frame (fun _ call hbusy => ⟨call, hbusy, rfl⟩) rfl (fun hend => Or.inl ?_)
    (fun _ hold => update_task (fun task => task.outcome.isSome) (congrArg _ houtcome) hold)
  rcases hend with hend | hend
  · exact Or.inl (of_update_task AgentTask.closed hend hclosed)
  · exact Or.inr (of_update_task (fun task => task.outcome.isSome) hend (congrArg _ houtcome))

/-- A task closes its channel or ends between its calls. -/
theorem Own.ending (h : Own s turn) (hknown : Known tr s) {turn' : Nat} {task : AgentTask Message}
    (hended : s.approver.callsEnded turn' = true)
    (houtcome : (s.tasks turn').outcome.isSome = true → task.outcome.isSome = true) :
    Own { s with tasks := Function.update s.tasks turn' task } turn := by
  refine h.frame (fun _ call hbusy => ⟨call, hbusy, rfl⟩) rfl (fun hend => ?_)
    (fun turn'' hold => ?_)
  · by_cases hturn : turn' = turn
    · subst hturn
      exact Or.inr (h.not_busy hknown.unborn hended)
    · dsimp only at hend
      rw [Function.update_of_ne (Ne.symm hturn)] at hend
      exact Or.inl hend
  · dsimp only
    by_cases hturn : turn'' = turn'
    · rw [hturn, Function.update_self]
      exact houtcome (hturn ▸ hold)
    · rwa [Function.update_of_ne hturn]

/-- Between its calls the agent emits. -/
theorem Following.emit (h : Following tr s turn) (hknown : Known tr s) (turn' : Nat)
    (event : AgentEvent) (hended : s.approver.callsEnded turn' = true) :
    Following (tr ++ [.emitted turn' event]) { s with
      tasks := Function.update s.tasks turn'
        { s.tasks turn' with events := (s.tasks turn').events ++ [event] } } turn := by
  have hown := h.own.emit turn' { s.tasks turn' with events := (s.tasks turn').events ++ [event] }
    rfl rfl
  have hos : ∀ held, (.enqueued held : Obs Message) ∉ [.emitted turn' event] := by simp
  by_cases hturn : turn' = turn
  · subst hturn
    obtain ⟨items, hitems, hflow⟩ := h.flow
    -- nothing is on its way, so the event is next in the program
    obtain ⟨hnotices, rfl⟩ := hitems.eq_nil (h.own.not_busy hknown.unborn hended)
    refine ⟨hown, ⟨[], ?_, ?_⟩, h.held, ?_⟩
    · exact hitems
    · have hprogram : program turn' [(.emitted turn' event : Obs Message)] = [.core event] := by
        simp [program, programItem?]
      rw [program_append, hprogram, hflow, sent_append, sent_eq_nil hos]
      simp
    · rw [sentTurns_append, sentTurns_eq_nil hos, List.append_nil]
      exact h.past
  · refine h.frame hown (fun _ h => h) rfl ?_ ?_ hos
    · exact congrArg AgentTask.events (Function.update_of_ne (Ne.symm hturn) _ _)
    · simp [program, programItem?, hturn]

/-- A request comes from the one task that may run, between its calls. -/
theorem Own.request (h : Own s turn) (hknown : Known tr s) {turn' : Nat}
    {providerCallId tool : Text} {arguments : Json.Value} (hturn : turn' < s.nextTurn)
    (hawaits : awaits s (.call (.request turn' providerCallId tool arguments)) = true) :
    turn' = turn ∧ (∀ c call, ¬s.approver.Busy c call) ∧ (s.tasks turn).closed = false ∧
      (s.tasks turn).outcome = none := by
  obtain ⟨⟨hended, hopen⟩, hrunning⟩ : (s.approver.callsEnded turn' = true ∧
      (s.tasks turn').closed = false) ∧ (s.tasks turn').outcome = none := by
    simpa [awaits] using hawaits
  have heq : turn' = turn := by
    by_contra hne
    have := h.old turn' hturn hne
    rw [hrunning] at this
    cases this
  subst heq
  exact ⟨rfl, h.not_busy hknown.unborn hended, hopen, hrunning⟩

/-- The calls go on: the turn's stay the only ones. -/
theorem Own.calls (h : Own s turn) (hknown : Known tr s) {b : RemoteApprover.Action}
    {os : List RemoteApprover.Obs} (hallows : s.Allows b) (hawaits : awaits s (.call b) = true)
    (hstep : RemoteApprover.Step s.approver b A' os) : Own { s with approver := A' } turn where
  call := by
    refine h.call.step hstep ?_
    rintro turn' providerCallId tool arguments rfl
    obtain ⟨hturn, hnone, -⟩ := h.request hknown hallows hawaits
    exact ⟨hturn, hnone⟩
  ended := by
    intro hend c call' hcall'
    rcases hstep.busy hcall' with ⟨call, hcall, -⟩ | ⟨turn', _, _, _, rfl, -, -⟩
    · exact h.ended hend c call hcall
    · obtain ⟨-, -, hopen, hrunning⟩ := h.request hknown hallows hawaits
      rcases hend with hclosed | houtcome
      · exact absurd (hopen.symm.trans hclosed) (by simp)
      · exact absurd (congrArg Option.isSome hrunning) (by simp [houtcome])
  old := h.old

/-- A call of a turn that was not aborted is not dropped. -/
theorem Own.not_aborted (h : Own s turn) (hlive : (s.tasks turn).aborted = false) {c : Nat}
    {call : ApproveCall} (hbusy : s.approver.Busy c call) :
    awaits s (.call (.abort c)) = false := by
  rw [awaits, hbusy.1, Option.all_some, h.call.own c call hbusy]
  exact hlive

/-- The calls of `approve` go on, and no notice comes out of order. -/
theorem Following.calls (h : Following tr s turn) (hknown : Known tr s)
    (hlive : (s.tasks turn).aborted = false) (hreturned : ∀ result, s.pc ≠ .returned result)
    {b : RemoteApprover.Action} {os : List RemoteApprover.Obs} (hallows : s.Allows b)
    (hawaits : awaits s (.call b) = true) (hstep : RemoteApprover.Step s.approver b A' os) :
    Following (tr ++ os.map .approver) { s with approver := A' } turn := by
  refine h.frame (h.own.calls hknown hallows hawaits hstep) (fun rest hrest => ?_) rfl rfl
    (program_map_approver turn os) (by simp)
  cases b with
  | request turn' providerCallId tool arguments =>
      obtain ⟨-, hnone, -⟩ := h.own.request hknown hallows hawaits
      obtain ⟨hnotices, rfl⟩ := hrest.eq_nil hnone
      have hafter : Worker.notices { s with approver := A' } = [] := hnotices
      rw [hafter]
      cases hstep with
      | request =>
          refine .nothing fun c call handle hcall => ?_
          rcases RemoteApprover.update_eq_some hcall with ⟨rfl, rfl⟩ | ⟨-, hcall⟩
          · exact ⟨nofun, nofun⟩
          · exact ⟨fun hstage => hnone c call ⟨hcall, by rw [hstage]; rfl⟩,
              fun hstage => hnone c call ⟨hcall, by rw [hstage]; rfl⟩⟩
      | move hcall hmoves => cases hmoves
  | check c => exact hrest.step h.own.call hknown.vacant hstep rfl
  | register c => exact hrest.step h.own.call hknown.vacant hstep rfl
  | receive c => exact hrest.step h.own.call hknown.vacant hstep rfl
  | dropGuard c => exact hrest.step h.own.call hknown.vacant hstep rfl
  | abort c =>
      cases hstep with
      | move hcall hmoves =>
          have hbusy := hmoves.busy
          cases hmoves with
          | aborted hstage hguards =>
              exact absurd (hawaits.symm.trans (h.own.not_aborted hlive ⟨hcall, hbusy⟩)) (by simp)
          | abortedEarly hguards hended =>
              exact absurd (hawaits.symm.trans (h.own.not_aborted hlive ⟨hcall, hbusy⟩)) (by simp)
  | notifyFail c =>
      obtain ⟨result, hpc⟩ := hallows
      exact absurd hpc (hreturned result)
  | name c handle => exact absurd hallows id
  | notify c => exact absurd hallows id
  | resolve callId decision => exact absurd hallows id
  | cancelPending => exact absurd hallows id

/-- A request is asked behind everything its agent has said. -/
theorem Following.name (h : Following tr s turn) (hknown : Known tr s) {c : Nat} {handle : Text}
    {call : ApproveCall} (hcall : s.approver.calls c = some call)
    (hstage : call.stage = .unlisted) :
    Following (tr ++ [.approver (.named c handle), .asked call.turn (call.notice handle)]) { s with
      approver := s.approver.setStage c call (.named handle)
      callIds := s.callIds.startApproval call.providerCallId handle } turn := by
  have hbusy : s.approver.Busy c call := ⟨hcall, by rw [hstage]; rfl⟩
  have hturn := h.own.call.own c call hbusy
  have hos : ∀ held, (.enqueued held : Obs Message) ∉
      [.approver (.named c handle), .asked call.turn (call.notice handle)] := by simp
  obtain ⟨items, hitems, hflow⟩ := h.flow
  -- the call that is named is the only one, so nothing was on its way
  obtain ⟨hnotices, rfl⟩ := hitems.eq_nil_of_busy h.own.call hbusy (by rw [hstage]; rfl)
  refine ⟨?_, ⟨[.approval (call.notice handle)], ?_, ?_⟩, h.held, ?_⟩
  · exact h.own.frame (fun _ _ hcall' => RemoteApprover.busy_setStage hbusy hcall') rfl Or.inl
      (fun _ h => h)
  · have hafter : Worker.notices { s with
        approver := s.approver.setStage c call (.named handle)
        callIds := s.callIds.startApproval call.providerCallId handle } = [] := hnotices
    rw [hafter]
    exact @Inflight.asking _ _ c { call with stage := .named handle } handle
      (Function.update_self ..) hturn
      (hknown.unanswered c call hbusy (by rw [hstage]; rfl)) (Or.inl rfl)
  · have hasked : programItem? turn (.asked call.turn (call.notice handle) : Obs Message) =
        some (.approval (call.notice handle)) := if_pos hturn
    have hprogram : program turn [(.approver (.named c handle) : Obs Message),
        .asked call.turn (call.notice handle)] = [.approval (call.notice handle)] :=
      List.filterMap_cons_some hasked
    rw [program_append, hprogram, hflow, sent_append, sent_eq_nil hos]
    simp
  · rw [sentTurns_append, sentTurns_eq_nil hos, List.append_nil]
    exact h.past

/-- The notice goes to its channel as the request that is awaited. -/
theorem Following.notify (h : Following tr s turn) {c : Nat} {handle : Text}
    {call : ApproveCall} (hcall : s.approver.calls c = some call)
    (hstage : call.stage = .registered handle) :
    Following (tr ++ []) { s with
      approver := s.approver.setStage c call (.waiting handle)
      approvals := s.approvals ++ [(call.turn, call.notice handle)] } turn := by
  have hbusy : s.approver.Busy c call := ⟨hcall, by rw [hstage]; rfl⟩
  have hturn := h.own.call.own c call hbusy
  refine h.frame ?_ (fun rest hrest => ?_) rfl rfl rfl (by simp)
  · exact h.own.frame (fun _ _ hcall' => RemoteApprover.busy_setStage hbusy hcall') rfl Or.inl
      (fun _ h => h)
  · have hafter : Worker.notices { s with
        approver := s.approver.setStage c call (.waiting handle)
        approvals := s.approvals ++ [(call.turn, call.notice handle)] } =
          s.notices ++ [(turn, call.notice handle)] := by
      rw [← hturn]
      exact (List.append_assoc ..).symm
    rw [hafter]
    exact hrest.notify h.own.call hcall hstage

/-- A decision on an announced handle finds its notice sent. -/
theorem Following.approve (h : Following tr s turn) (hknown : Known tr s) {callId : Text}
    {decision : IpcApprovalDecision}
    (hannounced : announced tr (.command (.approve callId decision) : Action Message) = true) :
    Following (tr ++ (s.approve callId decision).2) (s.approve callId decision).1 turn := by
  obtain ⟨items, hitems, hflow⟩ := h.flow
  refine ⟨?_, ⟨items, ?_, ?_⟩, h.held, ?_⟩
  · exact h.own.frame (fun _ _ hcall' => RemoteApprover.resolve_busy hcall') rfl Or.inl
      (fun _ h => h)
  · refine hitems.resolve h.own.call hknown.guarded (fun c call hcall hturn hhandle hmem => ?_)
      (RemoteApprover.resolve_step ..)
    -- its approval was sent, and it is asked for once
    have hasked := hknown.asked c call callId hcall hhandle
    rw [announced, List.all_eq_true] at hannounced
    have hsent := hannounced (call.turn, call.notice callId)
        (List.mem_filterMap.mpr ⟨_, hasked, rfl⟩)
    obtain ⟨item, hin, hitem⟩ :
        ∃ item ∈ sent turn tr, Item.isApproval (call.notice callId) item := by
      simpa [ApproveCall.notice, hturn] using hsent
    obtain rfl : item = .approval (call.notice callId) := by
      cases item with
      | approval notice => rw [Item.isApproval, beq_iff_eq] at hitem; rw [hitem]
      | core event => cases hitem
    refine asked_once hknown.once hflow hmem ?_
    exact List.mem_append_left _ (List.mem_append_left _ hin)
  · rw [program_append, sent_append]
    have hprogram : program turn (s.approve callId decision).2 = [] := program_map_approver turn _
    have hsent : sent turn (s.approve callId decision).2 = [] := sent_map_approver turn _
    rw [hprogram, hsent, List.append_nil, List.append_nil]
    exact hflow
  · have hos : ∀ held, .enqueued held ∉ (s.approve callId decision).2 := by simp [Worker.approve]
    rw [sentTurns_append, sentTurns_eq_nil hos, List.append_nil]
    exact h.past

/-! ## Steps where no turn is active -/

/-- Nothing comes under way. -/
theorem Resting.frame (h : Resting s) (hbusy : ∀ c call', s'.approver.Busy c call' →
      ∃ call, s.approver.Busy c call) (hnotices : s'.notices = s.notices)
    (hnext : s'.nextTurn = s.nextTurn)
    (hold : ∀ turn', (s.tasks turn').outcome.isSome = true →
      (s'.tasks turn').outcome.isSome = true) : Resting s' where
  idle := by
    intro c call' hcall'
    obtain ⟨call, hcall⟩ := hbusy c call' hcall'
    exact h.idle c call hcall
  notices := hnotices.trans h.notices
  old := fun turn' hlt => hold turn' (h.old turn' (by omega))

/-- There is no task that could ask. -/
theorem Resting.calls (h : Resting s) {b : RemoteApprover.Action} {os : List RemoteApprover.Obs}
    (hallows : s.Allows b) (hawaits : awaits s (.call b) = true)
    (hstep : RemoteApprover.Step s.approver b A' os) : Resting { s with approver := A' } := by
  refine h.frame (fun c call' hcall' => ?_) rfl rfl (fun _ hold => hold)
  rcases hstep.busy hcall' with ⟨call, hcall, -⟩ | ⟨turn', _, _, _, rfl, -, -⟩
  · exact ⟨call, hcall⟩
  · obtain ⟨-, hrunning⟩ : (s.approver.callsEnded turn' = true ∧
        (s.tasks turn').closed = false) ∧ (s.tasks turn').outcome = none := by
      simpa [awaits] using hawaits
    have hended := h.old turn' hallows
    rw [hrunning] at hended
    cases hended

/-- A turn that starts has neither asked nor emitted. -/
theorem Resting.startTurn (h : Resting s) (hstarted : Started tr s)
    (hpending : s.pendingEvent = none)
    (setup : Setup Message) (text : Text) (rest : List Text) :
    Following (tr ++ (s.startTurn setup text rest).2)
      (s.startTurn setup text rest).1 s.nextTurn where
  own := by
    refine ⟨⟨fun c call hbusy => absurd hbusy (h.idle c call),
      fun c call _ _ hbusy => absurd hbusy (h.idle c call)⟩, fun _ => h.idle, ?_⟩
    intro turn' hlt hne
    have hold := h.old turn' (by have : turn' < s.nextTurn + 1 := hlt; omega)
    exact (congrArg (fun task : AgentTask Message => task.outcome.isSome)
      (Function.update_of_ne hne ..)).trans hold
  flow := by
    refine ⟨[], ?_, ?_⟩
    · have hnotices : (s.startTurn setup text rest).1.notices = [] := h.notices
      rw [hnotices]
      exact .nothing fun c call handle hcall =>
        ⟨fun hstage => h.idle c call ⟨hcall, by rw [hstage]; rfl⟩,
          fun hstage => h.idle c call ⟨hcall, by rw [hstage]; rfl⟩⟩
    · have hprogram : program s.nextTurn (s.startTurn setup text rest).2 = [] := rfl
      have hsent : sent s.nextTurn (s.startTurn setup text rest).2 = [] := rfl
      have hheld : (s.startTurn setup text rest).1.pendingEvent = none := hpending
      have hevents : ((s.startTurn setup text rest).1.tasks s.nextTurn).events = [] :=
        congrArg AgentTask.events (task_self s.tasks s.nextTurn _)
      rw [program_append, sent_append, hprogram, hsent, hstarted.program _ (Nat.le_refl _),
        hstarted.sent_eq_nil (Nat.le_refl _), hheld, hevents]
      rfl
  held := by
    intro held hheld
    cases hpending.symm.trans hheld
  past := by
    intro turn' hmem
    have hos : ∀ held, .enqueued held ∉ (s.startTurn setup text rest).2 := by
      simp [Worker.startTurn]
    rw [sentTurns_append, sentTurns_eq_nil hos, List.append_nil] at hmem
    obtain ⟨o, ho, hturn⟩ := List.mem_filterMap.mp hmem
    cases o with
    | enqueued held =>
        obtain rfl := Option.some.inj hturn
        exact Nat.le_of_lt (hstarted.sent held ho)
    | _ => cases hturn

/-- The clean-up of a cancelled turn that has ended leaves nothing of it. -/
theorem Own.cancelled (h : Own s turn) (houtcome : (s.tasks turn).outcome.isSome = true) :
    Resting { s.cancelled with pc := .running } where
  idle := h.ended (Or.inr houtcome)
  notices := rfl
  old := by
    intro turn' hlt
    by_cases hturn : turn' = turn
    · rw [hturn]
      exact houtcome
    · exact h.old turn' hlt hturn

/-- Nor does a turn that is joined. -/
theorem Following.join (h : Following tr s turn) (hclosed : (s.tasks turn).closed = true)
    (hbarrier : s.approvalBarrier = none) {finalMessages : List Message}
    (houtcome : (s.tasks turn).outcome = some (.ok finalMessages)) :
    Resting (s.join (.ok finalMessages)) where
  idle := h.own.ended (Or.inl hclosed)
  notices := by
    have hjoined : (s.join (.ok finalMessages)).approvalBarrier = none := hbarrier
    rw [Worker.notices, hjoined]
    rfl
  old := by
    intro turn' hlt
    by_cases hturn : turn' = turn
    · have : (s.tasks turn').outcome.isSome = true := by rw [hturn, houtcome]; rfl
      exact this
    · exact h.own.old turn' hlt hturn

/-! ## Where the coordinator is -/

/-- Between turns nothing of any turn is left. -/
theorem Place.resting (h : Place tr s) (hpc : s.pc = .running) (hactive : s.active = none) :
    Resting s := by
  rw [Place, hpc, hactive] at h
  exact h

/-- While a turn is active or joined its order is kept. -/
theorem Place.following (h : Place tr s)
    (hpc : s.pc = .running ∧ s.active = some turn ∨ s.pc = .joining turn) :
    Following tr s turn := by
  rcases hpc with ⟨hpc, hactive⟩ | hpc
  · rw [Place, hpc, hactive] at h
    exact h
  · rw [Place, hpc] at h
    exact h

/-- A cancelled turn keeps its own events only. -/
theorem Place.own (h : Place tr s) (hpc : s.pc = .cancelling turn) : Own s turn := by
  rw [Place, hpc] at h
  exact h

theorem Place.of_resting (hpc : s.pc = .running) (hactive : s.active = none) (h : Resting s) :
    Place tr s := by
  rw [Place, hpc, hactive]
  exact h

theorem Place.of_following (hpc : s.pc = .running) (hactive : s.active = some turn)
    (h : Following tr s turn) : Place tr s := by
  rw [Place, hpc, hactive]
  exact h

/-- A step that leaves the coordinator where it is. -/
theorem Place.stay (h : Place tr s) (hpc : s'.pc = s.pc) (hactive : s'.active = s.active)
    (hresting : Resting s → Resting s')
    (hfollowing : ∀ turn, (s.pc = .running ∧ s.active = some turn ∨ s.pc = .joining turn) →
      Following tr s turn → Following (tr ++ os) s' turn)
    (hown : ∀ turn, Own s turn → Own s' turn) : Place (tr ++ os) s' := by
  rw [Place, hpc, hactive]
  cases hat : s.pc with
  | running =>
      cases hturn : s.active with
      | none => exact hresting (h.resting hat hturn)
      | some turn => exact hfollowing turn (Or.inl ⟨hat, hturn⟩) (h.following (Or.inl ⟨hat, hturn⟩))
  | joining turn => exact hfollowing turn (Or.inr hat) (h.following (Or.inr hat))
  | cancelling turn => exact hown turn (h.own hat)
  | _ => trivial

/-- A step that neither sends nor concerns the agent. -/
theorem Place.frame (h : Place tr s) (hpc : s'.pc = s.pc) (hactive : s'.active = s.active)
    (happrover : s'.approver = s.approver) (hnotices : s'.notices = s.notices)
    (htasks : s'.tasks = s.tasks) (hnext : s'.nextTurn = s.nextTurn)
    (hpending : s'.pendingEvent = s.pendingEvent) : Place (tr ++ []) s' := by
  have hown : ∀ turn, Own s turn → Own s' turn := fun turn h =>
    h.frame (fun c call hbusy => ⟨call, by rwa [← happrover], rfl⟩) hnext
      (by rw [htasks]; exact Or.inl) (by rw [htasks]; exact fun _ h => h)
  refine h.stay hpc hactive (fun h => ?_) (fun turn _ h => ?_) hown
  · exact h.frame (fun c call hbusy => ⟨call, by rwa [← happrover]⟩) hnotices hnext
      (by rw [htasks]; exact fun _ h => h)
  · exact h.frame (hown turn h.own) (by rw [happrover, hnotices]; exact fun _ h => h) hpending
      (by rw [htasks]) rfl (by simp)

/-- Every step keeps the coordinator's part of the order. -/
theorem Place.holds (h : Place tr s) (hknown : Known tr s) (hstarted : Started tr s)
    (hcourse : Course s) (hawaits : awaits s a = true) (hannounced : announced tr a = true)
    (hstep : Step setup s a s' os) : Place (tr ++ os) s' := by
  cases hstep with
  | queueInput hpc => exact h.frame rfl rfl rfl rfl rfl rfl rfl
  | ignoreCancel hpc hactive => exact h.frame rfl rfl rfl rfl rfl rfl rfl
  | writerRecv hwriter houtbound => exact h.frame rfl rfl rfl rfl rfl rfl rfl
  | writerWrite hwriter hfits => exact h.frame rfl rfl rfl rfl rfl rfl rfl
  | writerReject hwriter hfits => exact h.frame rfl rfl rfl rfl rfl rfl rfl
  | writerFail hwriter => exact h.frame rfl rfl rfl rfl rfl rfl rfl
  | writerEnd hpc hwriter houtbound => exact h.frame rfl rfl rfl rfl rfl rfl rfl
  | takeNotice hpc hactive hbarrier happrovals =>
      refine h.frame rfl rfl rfl ?_ rfl rfl rfl
      simp [notices, hbarrier, happrovals]
  | approve hpc =>
      refine h.stay rfl rfl (fun h => ?_) (fun turn _ h => h.approve hknown hannounced)
        (fun turn h => ?_)
      · refine h.frame (fun c call' hcall' => ?_) rfl rfl (fun _ h => h)
        obtain ⟨call, hcall, -⟩ := RemoteApprover.resolve_busy hcall'
        exact ⟨call, hcall⟩
      · exact h.frame (fun _ _ hcall' => RemoteApprover.resolve_busy hcall') rfl Or.inl
          (fun _ h => h)
  | @cancel turn hpc hactive =>
      have hown := (h.following (Or.inl ⟨hpc, hactive⟩)).own.emit turn
        { s.tasks turn with aborted := true } rfl rfl
      exact ⟨hown.call, hown.ended, hown.old⟩
  | startTurn hpc hactive hpending =>
      exact .of_following hpc rfl ((h.resting hpc hactive).startTurn hstarted hpending setup _ _)
  | holdEvent hpc hactive hpending hevents ha =>
      exact .of_following hpc hactive ((h.following (Or.inl ⟨hpc, hactive⟩)).hold hpending hevents)
  | holdNotice hpc hactive hpending hbarrier hevents hopen =>
      exact .of_following hpc hactive
        ((h.following (Or.inl ⟨hpc, hactive⟩)).holdNotice hpending hbarrier hevents)
  | dropBarrier hpc hactive hpending hbarrier hevents hclosed =>
      -- a turn that closed its channel has no approval on its way
      have hfollowing := h.following (Or.inl ⟨hpc, hactive⟩)
      obtain ⟨items, hitems, -⟩ := hfollowing.flow
      obtain ⟨hnotices, -⟩ := hitems.eq_nil (hfollowing.own.ended (Or.inl hclosed))
      rw [notices, hbarrier] at hnotices
      cases hnotices
  | turnClosed hpc hactive hpending hbarrier hevents hclosed =>
      have hfollowing := h.following (Or.inl ⟨hpc, hactive⟩)
      exact hfollowing.frame ⟨hfollowing.own.call, hfollowing.own.ended, hfollowing.own.old⟩
        (fun _ h => h) rfl rfl rfl (by simp)
  | enqueue hpc hpending hsends =>
      exact h.stay rfl rfl (fun h => ⟨h.idle, h.notices, h.old⟩)
        (fun turn _ h => h.enqueue hpending) (fun turn h => ⟨h.call, h.ended, h.old⟩)
  | terminalHeld hpc hpending hsends =>
      exact h.stay rfl rfl (fun h => ⟨h.idle, h.notices, h.old⟩)
        (fun turn _ h => h.enqueue hpending) (fun turn h => ⟨h.call, h.ended, h.old⟩)
  | cancelCompleted hpc houtcome =>
      exact .of_resting rfl (hcourse.cancelling _ hpc).1 ((h.own hpc).cancelled houtcome)
  | @joinTurn turn outcome hpc houtcome =>
      obtain ⟨hactive, -, hbarrier, -, hclosed, -⟩ := hcourse.joining turn hpc
      cases outcome with
      | ok finalMessages =>
          exact .of_resting rfl hactive ((h.following (Or.inr hpc)).join hclosed hbarrier houtcome)
      | _ => trivial
  | @emit turn' event hturn hopen =>
      refine h.stay rfl rfl (fun h => ?_) (fun turn _ h => h.emit hknown turn' event hawaits)
        (fun turn h => h.emit turn' _ rfl rfl)
      exact h.frame (fun c call hbusy => ⟨call, hbusy⟩) rfl rfl
        (fun _ hold => update_task (fun task => task.outcome.isSome) rfl hold)
  | @closeEvents turn' hturn =>
      have hown : ∀ turn, Own s turn → Own { s with
          tasks := Function.update s.tasks turn' { s.tasks turn' with closed := true } } turn :=
        fun turn h => h.ending hknown hawaits (fun hold => hold)
      refine h.stay rfl rfl (fun h => ?_) (fun turn _ h => ?_) hown
      · exact h.frame (fun c call hbusy => ⟨call, hbusy⟩) rfl rfl
          (fun _ hold => update_task (fun task => task.outcome.isSome) rfl hold)
      · exact h.frame (hown turn h.own) (fun _ h => h) rfl
          (update_task AgentTask.events rfl rfl) rfl
          (by simp)
  | @finish turn' outcome hturn hrunning =>
      have hown : ∀ turn, Own s turn → Own { s with
          tasks :=
            Function.update s.tasks turn' { s.tasks turn' with outcome := some outcome } } turn :=
        fun turn h => h.ending hknown hawaits (fun _ => rfl)
      refine h.stay rfl rfl (fun h => ?_) (fun turn _ h => ?_) hown
      · -- all tasks have ended
        have hended := h.old turn' hturn
        rw [hrunning] at hended
        cases hended
      · exact h.frame (hown turn h.own) (fun _ h => h) rfl
          (update_task AgentTask.events rfl rfl) rfl
          (by simp)
  | call hallows hcalled =>
      have hcalls := RemoteApprover.step_cases hcalled
      refine h.stay rfl rfl (fun h => h.calls hallows hawaits hcalls) (fun turn hat h => ?_)
        (fun turn h => h.calls hknown hallows hawaits hcalls)
      refine h.calls hknown ?_ (fun result hpc => ?_) hallows hawaits hcalls
      · rcases hat with ⟨hpc, hactive⟩ | hpc
        · exact hcourse.running hpc turn hactive
        · exact (hcourse.joining turn hpc).2.2.2.2.2.1
      · rcases hat with ⟨hpc', -⟩ | hpc'
        · cases hpc'.symm.trans hpc
        · cases hpc'.symm.trans hpc
  | @name c handle call hcall hstage =>
      have hbusy : s.approver.Busy c call := ⟨hcall, by rw [hstage]; rfl⟩
      exact h.stay rfl rfl (fun h => absurd hbusy (h.idle c call))
        (fun turn _ h => h.name hknown hcall hstage)
        (fun turn h => h.frame (fun _ _ hcall' => RemoteApprover.busy_setStage hbusy hcall') rfl
          Or.inl (fun _ h => h))
  | @notify c handle call hcall hstage =>
      have hbusy : s.approver.Busy c call := ⟨hcall, by rw [hstage]; rfl⟩
      exact h.stay rfl rfl (fun h => absurd hbusy (h.idle c call))
        (fun turn _ h => h.notify hcall hstage)
        (fun turn h => h.frame (fun _ _ hcall' => RemoteApprover.busy_setStage hbusy hcall') rfl
          Or.inl (fun _ h => h))
  | _ => trivial

/-- What is sent was held, and what is held is followed. -/
theorem Outward.step (h : Outward tr s) (hplace : Place tr s) (hstep : Step setup s a s' os) :
    Outward (tr ++ os) s' := by
  cases hstep with
  | enqueue hpc hpending hsends => exact h.enqueue hpending
  | terminalHeld hpc hpending hsends => exact h.enqueue hpending
  | holdEvent hpc hactive hpending hevents ha =>
      have hfollowing := hplace.following (Or.inl ⟨hpc, hactive⟩)
      exact (hfollowing.hold hpending hevents).outward h (by simp [Worker.holdEvent]) hpending
  | holdNotice hpc hactive hpending hbarrier hevents hopen =>
      have hfollowing := hplace.following (Or.inl ⟨hpc, hactive⟩)
      exact (hfollowing.holdNotice hpending hbarrier hevents).outward h (by simp) hpending
  | approve hpc => exact h.frame (by simp [Worker.approve]) (fun _ h => h)
  | startTurn hpc hactive hpending => exact h.frame (by simp [Worker.startTurn]) (fun _ h => h)
  | cancelCompleted hpc houtcome =>
      exact h.frame (by simp) (fun _ hheld => keepOrdinary_eq_some hheld)
  | cancelDeadline hpc => exact h.frame (by simp) (fun _ hheld => keepOrdinary_eq_some hheld)
  | stopDone hpc => exact h.frame (by simp) (fun _ hheld => keepOrdinary_eq_some hheld)
  | joinTurn hpc houtcome => exact h.frame (by simp) (fun _ hheld => join_pending hheld)
  | _ => exact h.frame (by simp) (fun _ h => h)

/-! ## Runs -/

/-- In every run, with handles drawn once each. -/
theorem run_known {C : List (Obs Message) → Worker Message → Action Message → Prop}
    (h : (machine setup).Run C tr s) (hfresh : (drawn tr).Nodup) : Known tr s := by
  have hrun := run_approver h
  have hnames : (RemoteApprover.names (approverTrace tr)).Nodup := hfresh.sublist (names_sublist tr)
  have hhandles := RemoteApprover.run_handles hrun
  refine ⟨(RemoteApprover.run_sound hrun).1.unborn, hhandles.guarded, ?_,
    RemoteApprover.run_unanswered hrun, run_asked h, ?_⟩
  · intro c call handle hcall hstage
    exact hhandles.vacant hnames hcall hstage
  · rw [run_askedHandles h]
    exact hnames

theorem Resting.start (setup : Setup Message) : Resting (new setup) where
  idle := by
    intro c call hbusy
    cases hbusy.1
  notices := rfl
  old := fun _ h => absurd h (Nat.not_lt_zero _)

theorem Outward.start (setup : Setup Message) : Outward [] (new setup) :=
  ⟨fun _ => List.nil_prefix, List.Pairwise.nil, fun _ h => by cases h⟩

/-- The agent awaits its calls, and the daemon decides what it was asked. -/
def Ordered (tr : List (Obs Message)) (s : Worker Message) (a : Action Message) : Prop :=
  awaits s a = true ∧ announced tr a = true

/-- A turn that is joined has been sent whole. -/
def SentWhole (past : List (Obs Message)) : Obs Message → Prop
  | .joined turn _ => sent turn past = program turn past
  | _ => True

/-- What is joined has gone out whole. -/
theorem Place.sentWhole (h : Place tr s) (hcourse : Course s) (hstep : Step setup s a s' os) :
    Always (fun past o => SentWhole (tr ++ past) o) os := by
  cases hstep with
  | joinTurn hpc houtcome =>
      refine always_concat (always_nil _) ?_
      obtain ⟨-, hpending, -, hevents, hclosed, -⟩ := hcourse.joining _ hpc
      rw [List.append_nil]
      exact (h.following (Or.inr hpc)).whole hpending hevents hclosed
  | approve hpc => exact always_of_mem (by simp [Worker.approve, SentWhole])
  | call hallows hstep => exact always_of_mem (by simp [SentWhole])
  | startTurn hpc hactive hpending => exact always_of_mem (by simp [Worker.startTurn, SentWhole])
  | holdEvent hpc hactive hpending hevents ha =>
      exact always_of_mem (by simp [Worker.holdEvent, SentWhole])
  | enqueue hpc hpending hsends => exact always_of_mem (by simp [Worker.enqueue, SentWhole])
  | terminalHeld hpc hpending hsends => exact always_of_mem (by simp [Worker.enqueue, SentWhole])
  | _ => exact always_of_mem (by simp [SentWhole])

/-- In every ordered run the turns go out one after another. -/
theorem run_order (h : (machine setup).Run Ordered tr s) :
    (drawn tr).Nodup → Place tr s ∧ Outward tr s ∧ Always SentWhole tr := by
  refine h.invariant
    (I := fun tr s => (drawn tr).Nodup → Place tr s ∧ Outward tr s ∧ Always SentWhole tr)
    (fun _ => ⟨.of_resting rfl rfl (.start setup), .start setup, always_nil _⟩) ?_
  intro tr os s s' a hrun hinv ha hstep hfresh
  rw [drawn_append] at hfresh
  obtain ⟨hplace, houtward, hwhole⟩ := hinv hfresh.of_append_left
  have hstep := step_cases hstep
  have hcourse := run_course hrun
  have hknown := run_known hrun hfresh.of_append_left
  exact ⟨hplace.holds hknown (run_started hrun) hcourse ha.1 ha.2 hstep,
    houtward.step hplace hstep, always_append hwhole (hplace.sentWhole hcourse hstep)⟩

/-- What is sent of every turn is a prefix of its program, all of it when the
turn is joined, and the turns go out one after another. -/
theorem outward_order (h : (machine setup).Run Ordered tr s) (hfresh : (drawn tr).Nodup) :
    (∀ turn, sent turn tr <+: program turn tr) ∧ (sentTurns tr).Pairwise (· ≤ ·) ∧
    ∀ past turn outcome rest, tr = past ++ .joined turn outcome :: rest →
      sent turn past = program turn past := by
  obtain ⟨-, houtward, hwhole⟩ := run_order h hfresh
  refine ⟨fun turn => ?_, houtward.sorted, ?_⟩
  · exact (List.prefix_append _ _).trans (houtward.kept turn)
  · intro past turn outcome rest heq
    exact hwhole past (.joined turn outcome) rest heq

/-- A turn that emits, asks, and emits again once it is allowed. -/
theorem outward_order_approval : ∃ tr s,
    (machine (plainSetup ["bash".toList])).Run Ordered tr s ∧ (drawn tr).Nodup ∧
    sent 0 tr = [.core (.textDelta "a".toList),
      .approval ⟨"h".toList, "bash".toList, "null".toList⟩,
      .core (.textDelta "b".toList)] ∧
    (∀ turn, sent turn tr <+: program turn tr) ∧ (sentTurns tr).Pairwise (· ≤ ·) ∧
    ∀ past turn outcome rest, tr = past ++ .joined turn outcome :: rest →
      sent turn past = program turn past := by
  have hcheck : ∀ (tr : List (Obs Text)) (s : Worker Text) (a : Action Text),
      (awaits s a && announced tr a) = true → Ordered tr s a := by
    intro tr s a h
    exact Bool.and_eq_true_iff.mp h
  have hrun : (machine (plainSetup ["bash".toList])).Run Ordered _ _ :=
    Machine.Run.exec (fun tr s a => awaits s a && announced tr a) hcheck
      [.command (.input "run".toList), .startTurn, .emit 0 (.textDelta "a".toList),
        .call (.request 0 "p".toList "bash".toList .null), .call (.check 0),
        .call (.name 0 "h".toList), .call (.register 0), .call (.notify 0), .takeNotice,
        .barrier [], .reserve, .barrier [], .reserve, .command (.approve "h".toList .allow),
        .call (.receive 0), .call (.dropGuard 0), .emit 0 (.textDelta "b".toList),
        .closeEvents 0, .finish 0 (.ok []), .takeEvent [], .reserve, .takeEvent [], .joinTurn]
      .start rfl
  have hfresh := (by decide : ["h".toList].Nodup)
  exact ⟨_, _, hrun, hfresh, rfl, outward_order hrun hfresh⟩

/-- A decision that names a handle before its approval is sent lets the agent
go on, and what it emits then goes out before the approval. -/
theorem unannounced_decision_reorders :
    ¬∀ (tr : List (Obs Text)) (s : Worker Text),
      (machine (plainSetup ["bash".toList])).Run (fun _ s a => awaits s a = true) tr s →
      (drawn tr).Nodup → ∀ turn, sent turn tr <+: program turn tr := by
  intro hall
  have hrun : (machine (plainSetup ["bash".toList])).Run (fun _ s a => awaits s a = true) _ _ :=
    Machine.Run.exec (fun _ s a => awaits s a) (fun _ _ _ h => h)
      [.command (.input "run".toList), .startTurn,
        .call (.request 0 "p".toList "bash".toList .null), .call (.check 0),
        .call (.name 0 "h".toList), .call (.register 0), .call (.notify 0),
        .command (.approve "h".toList .allow), .call (.receive 0), .call (.dropGuard 0),
        .emit 0 (.textDelta "b".toList), .takeNotice, .barrier [], .reserve] .start rfl
  obtain ⟨rest, heq⟩ := hall _ _ hrun (by decide : ["h".toList].Nodup) 0
  have hitems : .core (.textDelta "b".toList) :: rest =
      [.approval ⟨"h".toList, "bash".toList, "null".toList⟩, .core (.textDelta "b".toList)] := heq
  cases hitems

end Worker

end PeakcodeDaemon
