import PeakcodeDaemon.SessionAuthorization

/-!
# The turns of a run

What a run shows of each turn, in order: its `program`, which is what its
agent emitted and asked, and what was `sent` of it. The facts about turns
that hold in every run are here, whatever the agent and the daemon do, for
the modules on order, history and handles to build on.

- **one lemma for each part of the state** (`Step.enqueued`,
  `Step.pending`, `Step.barrier`, `Step.approvals`, `Step.calls`): what a
  step can do to it. What is enqueued was held; what is held was the
  active turn's next event or the barrier's notice.
- **turns that were started** (`Started`, `run_started`): no turn is heard
  of before it starts, so a new one has an empty program.
- **where the coordinator is** (`Course`, `run_course`): at each await it
  still owes something to the way it got there. A turn that is being
  joined has closed its channel, and a cancelled one was aborted.
- **outcomes** (`run_outcome`): a task's outcome was observed when it
  ended.

The parts are kept apart on purpose. A later invariant that needs to know
about the barrier alone cites `Step.barrier` and has no other case to go
through.
-/

namespace PeakcodeDaemon

/-- The agent's own event, if it is one. -/
def Item.core? : Item → Option AgentEvent
  | .core event => some event
  | .approval _ => none

/-- The item, if it is the turn's. -/
def Held.itemOf (turn : Nat) (held : Held) : Option Item :=
  if held.turn = turn then some held.item else none

namespace Worker

variable {Message : Type} {setup : Setup Message}

/-- What an observation adds to the program of a turn. -/
def programItem? (turn : Nat) : Obs Message → Option Item
  | .emitted turn' event => if turn' = turn then some (.core event) else none
  | .asked turn' notice => if turn' = turn then some (.approval notice) else none
  | _ => none

/-- The program of a turn: its events and the decisions it needed, in the
order of the agent. -/
def program (turn : Nat) (tr : List (Obs Message)) : List Item := tr.filterMap (programItem? turn)

/-- What the agent of a turn has emitted. -/
def emitted (turn : Nat) (tr : List (Obs Message)) : List AgentEvent :=
  (program turn tr).filterMap Item.core?

/-- What an observation adds to what was sent of a turn. -/
def sentItem? (turn : Nat) : Obs Message → Option Item
  | .enqueued held => held.itemOf turn
  | _ => none

/-- What was enqueued to the writer of a turn. -/
def sent (turn : Nat) (tr : List (Obs Message)) : List Item := tr.filterMap (sentItem? turn)

/-- What is held of a turn. -/
def itemsOf (turn : Nat) (held : Option Held) : List Item := (held.bind (Held.itemOf turn)).toList

section Traces

variable (turn : Nat) (tr os : List (Obs Message))

@[simp] theorem program_append : program turn (tr ++ os) = program turn tr ++ program turn os :=
  List.filterMap_append

@[simp] theorem emitted_append : emitted turn (tr ++ os) = emitted turn tr ++ emitted turn os := by
  rw [emitted, program_append, List.filterMap_append]
  rfl

@[simp] theorem sent_append : sent turn (tr ++ os) = sent turn tr ++ sent turn os :=
  List.filterMap_append

@[simp] theorem program_map_approver (os : List RemoteApprover.Obs) :
    program turn (os.map Obs.approver : List (Obs Message)) = [] := by
  rw [program, List.filterMap_map, List.filterMap_eq_nil_iff]
  intro o _
  rfl

@[simp] theorem sent_map_approver (os : List RemoteApprover.Obs) :
    sent turn (os.map Obs.approver : List (Obs Message)) = [] := by
  rw [sent, List.filterMap_map, List.filterMap_eq_nil_iff]
  intro o _
  rfl

@[simp] theorem program_map_drew (handles : List Text) :
    program turn (handles.map Obs.drew : List (Obs Message)) = [] := by
  rw [program, List.filterMap_map, List.filterMap_eq_nil_iff]
  intro o _
  rfl

@[simp] theorem sent_map_drew (handles : List Text) :
    sent turn (handles.map Obs.drew : List (Obs Message)) = [] := by
  rw [sent, List.filterMap_map, List.filterMap_eq_nil_iff]
  intro o _
  rfl

end Traces

theorem emitted_asked (turn' : Nat) (o : RemoteApprover.Obs) (notice : ApprovalNotice)
    (turn : Nat) :
    emitted turn [(.approver o : Obs Message), .asked turn' notice] = [] := by
  by_cases h : turn' = turn
  · simp [emitted, program, programItem?, h, Item.core?]
  · simp [emitted, program, programItem?, h]

theorem emitted_map_approver (os : List RemoteApprover.Obs) (turn : Nat) :
    emitted turn (os.map Obs.approver : List (Obs Message)) = [] :=
  congrArg (List.filterMap Item.core?) (program_map_approver turn os)

theorem itemsOf_some {turn : Nat} {held : Held} (h : held.turn = turn) :
    itemsOf turn (some held) = [held.item] := by
  simp [itemsOf, Held.itemOf, h]

theorem itemsOf_other {turn : Nat} {held : Held} (h : held.turn ≠ turn) :
    itemsOf turn (some held) = [] := by
  simp [itemsOf, Held.itemOf, h]

/-- What is enqueued of a turn is what was held of it. -/
theorem sent_enqueued (turn : Nat) (held : Held) :
    sent turn [(.enqueued held : Obs Message)] = itemsOf turn (some held) := by
  by_cases h : held.turn = turn
  · simp [sent, sentItem?, itemsOf, Held.itemOf, h]
  · simp [sent, sentItem?, itemsOf, Held.itemOf, h]

variable {tr os : List (Obs Message)} {s s' : Worker Message} {a : Action Message}

/-! ## What a step does to each part -/

@[simp] theorem join_nextTurn (s : Worker Message) (outcome : Outcome Message) :
    (s.join outcome).nextTurn = s.nextTurn := by
  cases outcome <;> rfl

@[simp] theorem join_barrier (s : Worker Message) (outcome : Outcome Message) :
    (s.join outcome).approvalBarrier = s.approvalBarrier := by
  cases outcome <;> rfl

theorem join_pending {outcome : Outcome Message} {held : Held}
    (h : (s.join outcome).pendingEvent = some held) : s.pendingEvent = some held := by
  cases outcome with
  | failed error => cases h
  | _ => exact h

theorem join_approvals {outcome : Outcome Message} {notice : Nat × ApprovalNotice}
    (h : notice ∈ (s.join outcome).approvals) : notice ∈ s.approvals := by
  cases outcome with
  | ok finalMessages => cases h
  | _ => exact h

theorem keepOrdinary_eq_some {held : Option Held} {held' : Held}
    (h : keepOrdinary held = some held') : held = some held' := by
  cases held with
  | none => cases h
  | some held =>
      rw [keepOrdinary] at h
      split at h
      · cases h
      · exact h

/-- Turns are numbered as they start. -/
theorem Step.nextTurn_le (h : Step setup s a s' os) : s.nextTurn ≤ s'.nextTurn := by
  cases h with
  | startTurn hpc hactive hpending => exact Nat.le_succ _
  | joinTurn hpc houtcome => exact Nat.le_of_eq (join_nextTurn _ _).symm
  | _ => exact Nat.le_refl _

/-- What is enqueued was held. -/
theorem Step.enqueued (h : Step setup s a s' os) {held : Held} (hmem : .enqueued held ∈ os) :
    s.pendingEvent = some held := by
  cases h with
  | enqueue hpc hpending hsends =>
      obtain rfl : held = _ := by simpa [Worker.enqueue] using hmem
      exact hpending
  | terminalHeld hpc hpending hsends =>
      obtain rfl : held = _ := by simpa [Worker.enqueue] using hmem
      exact hpending
  | approve hpc => simp [Worker.approve] at hmem
  | startTurn hpc hactive hpending => simp [Worker.startTurn] at hmem
  | holdEvent hpc hactive hpending hevents ha => simp [Worker.holdEvent] at hmem
  | _ => simp at hmem

/-- What is held was held, or it is the active turn's, or it was the barrier. -/
theorem Step.pending (h : Step setup s a s' os) {held : Held}
    (hheld : s'.pendingEvent = some held) :
    s.pendingEvent = some held ∨ s.active = some held.turn ∨
      s.approvalBarrier.map Prod.fst = some held.turn := by
  cases h with
  | holdEvent hpc hactive hpending hevents ha =>
      obtain rfl := Option.some.inj hheld
      exact Or.inr (Or.inl hactive)
  | holdNotice hpc hactive hpending hbarrier hevents hopen =>
      obtain rfl := Option.some.inj hheld
      exact Or.inr (Or.inr (by rw [hbarrier]; rfl))
  | cancelCompleted hpc houtcome => exact Or.inl (keepOrdinary_eq_some hheld)
  | cancelDeadline hpc => exact Or.inl (keepOrdinary_eq_some hheld)
  | stopDone hpc => exact Or.inl (keepOrdinary_eq_some hheld)
  | joinTurn hpc houtcome => exact Or.inl (join_pending hheld)
  | enqueue hpc hpending hsends => cases hheld
  | terminalHeld hpc hpending hsends => cases hheld
  | _ => exact Or.inl hheld

/-- A notice at the barrier was there, or it was the first in its channel. -/
theorem Step.barrier (h : Step setup s a s' os) {notice : Nat × ApprovalNotice}
    (hbarrier : s'.approvalBarrier = some notice) :
    s.approvalBarrier = some notice ∨ notice ∈ s.approvals := by
  cases h with
  | takeNotice hpc hactive hnone happrovals =>
      obtain rfl := Option.some.inj hbarrier
      exact Or.inr (by rw [happrovals]; exact List.mem_cons_self ..)
  | holdNotice hpc hactive hpending hold hevents hopen => cases hbarrier
  | dropBarrier hpc hactive hpending hold hevents hclosed => cases hbarrier
  | cancelCompleted hpc houtcome => cases hbarrier
  | cancelDeadline hpc => cases hbarrier
  | joinTurn hpc houtcome => exact Or.inl (by rwa [join_barrier] at hbarrier)
  | _ => exact Or.inl hbarrier

/-- Notices in the channel were there, or one of them was just asked. -/
theorem Step.approvals (h : Step setup s a s' os) {notice : Nat × ApprovalNotice}
    (hmem : notice ∈ s'.approvals) : notice ∈ s.approvals ∨
      ∃ c call handle, s.approver.calls c = some call ∧
      notice = (call.turn, call.notice handle) := by
  cases h with
  | takeNotice hpc hactive hnone happrovals =>
      exact Or.inl (by rw [happrovals]; exact List.mem_cons_of_mem _ hmem)
  | notify hcall hstage =>
      rcases List.mem_append.mp hmem with hmem | hmem
      · exact Or.inl hmem
      · exact Or.inr ⟨_, _, _, hcall, List.mem_singleton.mp hmem⟩
  | cancelCompleted hpc houtcome => cases hmem
  | cancelDeadline hpc => cases hmem
  | stopDone hpc => cases hmem
  | abortDone hpc => cases hmem
  | joinTurn hpc houtcome => exact Or.inl (join_approvals hmem)
  | _ => exact Or.inl hmem

/-- Calls keep their requests; a new one is of a turn that was started. -/
theorem Step.calls (h : Step setup s a s' os) {c : Nat} {call' : ApproveCall}
    (hcall' : s'.approver.calls c = some call') :
    (∃ call, s.approver.calls c = some call ∧ call'.turn = call.turn ∧
      ∀ handle, call'.notice handle = call.notice handle) ∨ call'.turn < s.nextTurn := by
  have hold : s.approver.calls c = some call' → (∃ call, s.approver.calls c = some call ∧
      call'.turn = call.turn ∧ ∀ handle, call'.notice handle = call.notice handle) ∨
      call'.turn < s.nextTurn :=
    fun h => Or.inl ⟨call', h, rfl, fun _ => rfl⟩
  cases h with
  | @approve callId decision hpc =>
      have hstep : s.approver.step (.resolve callId decision) =
        some (s.approver.resolve callId decision) := rfl
      rcases (RemoteApprover.step_cases hstep).calls_origin hcall' with h | ⟨_, _, _, _, ha, -⟩
      · exact Or.inl h
      · cases ha
  | call hallows hstep =>
      rcases (RemoteApprover.step_cases hstep).calls_origin hcall' with h | ⟨_, _, _, _, rfl, rfl⟩
      · exact Or.inl h
      · exact Or.inr hallows
  | name hcall hstage =>
      rcases RemoteApprover.setStage_calls hcall' with ⟨rfl, rfl⟩ | ⟨-, h⟩
      · exact Or.inl ⟨_, hcall, rfl, fun _ => rfl⟩
      · exact hold h
  | notify hcall hstage =>
      rcases RemoteApprover.setStage_calls hcall' with ⟨rfl, rfl⟩ | ⟨-, h⟩
      · exact Or.inl ⟨_, hcall, rfl, fun _ => rfl⟩
      · exact hold h
  | joinTurn hpc houtcome => exact hold (by rwa [join_approver] at hcall')
  | _ => exact hold hcall'

/-! ## Turns that were started -/

/-- The turns that appear anywhere have been started. -/
structure Started (tr : List (Obs Message)) (s : Worker Message) : Prop where
  program : ∀ turn, s.nextTurn ≤ turn → program turn tr = []
  sent : ∀ held, .enqueued held ∈ tr → held.turn < s.nextTurn
  pending : ∀ held, s.pendingEvent = some held → held.turn < s.nextTurn
  barrier : ∀ notice, s.approvalBarrier = some notice → notice.1 < s.nextTurn
  approvals : ∀ notice ∈ s.approvals, notice.1 < s.nextTurn
  calls : ∀ c call, s.approver.calls c = some call → call.turn < s.nextTurn
  active : ∀ turn, s.active = some turn → turn < s.nextTurn

theorem Started.start (setup : Setup Message) : Started [] (new setup) where
  program := fun _ _ => rfl
  sent := fun _ h => by cases h
  pending := fun _ h => by cases h
  barrier := fun _ h => by cases h
  approvals := fun _ h => by cases h
  calls := fun _ _ h => by cases h
  active := fun _ h => by cases h

theorem Started.sent_eq_nil (h : Started tr s) {turn : Nat} (hturn : s.nextTurn ≤ turn) :
    Worker.sent turn tr = [] := by
  rw [Worker.sent, List.filterMap_eq_nil_iff]
  intro o ho
  cases o with
  | enqueued held =>
      have hne : held.turn ≠ turn := by
        have := h.sent held ho
        omega
      exact if_neg hne
  | _ => rfl

/-- Only started turns have a program. -/
theorem Step.program_eq_nil (h : Step setup s a s' os)
    (hcalls : ∀ c call, s.approver.calls c = some call → call.turn < s.nextTurn) {turn : Nat}
    (hturn : s.nextTurn ≤ turn) : Worker.program turn os = [] := by
  cases h with
  | @emit turn' event hlt hopen =>
      have hne : turn' ≠ turn := by omega
      simp [Worker.program, programItem?, hne]
  | @name c handle call hcall hstage =>
      have hne : call.turn ≠ turn := by
        have := hcalls c call hcall
        omega
      simp [Worker.program, programItem?, hne]
  | approve hpc => exact program_map_approver turn _
  | call hallows hstep => exact program_map_approver turn _
  | holdEvent hpc hactive hpending hevents ha => exact program_map_drew turn _
  | _ => rfl

@[simp] theorem join_active (s : Worker Message) (outcome : Outcome Message) :
    (s.join outcome).active = s.active := by
  cases outcome <;> rfl

/-- The active turn was active, or it has just started. -/
theorem Step.active (h : Step setup s a s' os) {turn : Nat} (hactive' : s'.active = some turn) :
    s.active = some turn ∨ turn < s'.nextTurn := by
  cases h with
  | startTurn hpc hactive hpending =>
      obtain rfl := Option.some.inj hactive'
      exact Or.inr (Nat.lt_succ_self _)
  | joinTurn hpc houtcome => exact Or.inl (by rwa [join_active] at hactive')
  | cancel hpc hactive => cases hactive'
  | stop hpc hactive => cases hactive'
  | turnClosed hpc hactive hpending hbarrier hevents hclosed => cases hactive'
  | abortDone hpc => cases hactive'
  | _ => exact Or.inl hactive'

/-- Only starting a turn brings a new number. -/
theorem Started.step (h : Started tr s) (hstep : Step setup s a s' os) : Started (tr ++ os) s' := by
  have hnext := hstep.nextTurn_le
  refine ⟨?_, ?_, ?_, ?_, ?_, ?_, ?_⟩
  · intro turn hturn
    rw [program_append, h.program turn (by omega), hstep.program_eq_nil h.calls (by omega)]
    rfl
  · intro held hmem
    rcases List.mem_append.mp hmem with hmem | hmem
    · exact Nat.lt_of_lt_of_le (h.sent held hmem) hnext
    · exact Nat.lt_of_lt_of_le (h.pending held (hstep.enqueued hmem)) hnext
  · intro held hheld
    refine Nat.lt_of_lt_of_le ?_ hnext
    rcases hstep.pending hheld with hold | hactive | hbarrier
    · exact h.pending held hold
    · exact h.active held.turn hactive
    · obtain ⟨notice, hnotice, hturn⟩ := Option.map_eq_some_iff.mp hbarrier
      rw [← hturn]
      exact h.barrier notice hnotice
  · intro notice hbarrier
    refine Nat.lt_of_lt_of_le ?_ hnext
    rcases hstep.barrier hbarrier with hold | hmem
    · exact h.barrier notice hold
    · exact h.approvals notice hmem
  · intro notice hmem
    refine Nat.lt_of_lt_of_le ?_ hnext
    rcases hstep.approvals hmem with hold | ⟨c, call, handle, hcall, rfl⟩
    · exact h.approvals notice hold
    · exact h.calls c call hcall
  · intro c call' hcall'
    refine Nat.lt_of_lt_of_le ?_ hnext
    rcases hstep.calls hcall' with ⟨call, hcall, hturn, -⟩ | hlt
    · rw [hturn]
      exact h.calls c call hcall
    · exact hlt
  · intro turn hactive'
    rcases hstep.active hactive' with hold | hlt
    · exact Nat.lt_of_lt_of_le (h.active turn hold) hnext
    · exact hlt

theorem run_started {A : List (Obs Message) → Worker Message → Action Message → Prop}
    (h : (machine setup).Run A tr s) : Started tr s := by
  refine h.invariant (Started.start setup) ?_
  intro tr os s s' a _ hinv _ hstep
  exact hinv.step (step_cases hstep)

/-! ## Where the coordinator is -/

theorem task_self (tasks : Nat → AgentTask Message) (turn : Nat) (task : AgentTask Message) :
    Function.update tasks turn task turn = task :=
  Function.update_self ..

/-- A change to one task keeps what it keeps of that task. -/
theorem update_task {β : Type} (f : AgentTask Message → β) {tasks : Nat → AgentTask Message}
    {turn i : Nat} {task : AgentTask Message} {x : β} (htask : f task = f (tasks turn))
    (h : f (tasks i) = x) : f (Function.update tasks turn task i) = x := by
  by_cases hi : i = turn
  · subst hi
    rwa [Function.update_self, htask]
  · rwa [Function.update_of_ne hi]

theorem of_update_task {β : Type} (f : AgentTask Message → β) {tasks : Nat → AgentTask Message}
    {turn i : Nat} {task : AgentTask Message} {x : β}
    (h : f (Function.update tasks turn task i) = x)
    (htask : f task = f (tasks turn)) : f (tasks i) = x := by
  by_cases hi : i = turn
  · subst hi
    rwa [Function.update_self, htask] at h
  · rwa [Function.update_of_ne hi] at h

theorem breakLoop_outcome (s : Worker Message) (result : Ended) (turn : Nat) :
    ((s.breakLoop result).tasks turn).outcome = (s.tasks turn).outcome := by
  rw [breakLoop]
  split
  · exact update_task AgentTask.outcome rfl rfl
  · rfl

theorem join_outcome (s : Worker Message) (outcome : Outcome Message) (turn : Nat) :
    ((s.join outcome).tasks turn).outcome = (s.tasks turn).outcome := by
  cases outcome with
  | panicked error => exact breakLoop_outcome ..
  | cancelled error => exact breakLoop_outcome ..
  | _ => rfl

/-- What each place of the coordinator owes to how it was reached. -/
structure Course (s : Worker Message) : Prop where
  running : s.pc = .running → ∀ turn, s.active = some turn → (s.tasks turn).aborted = false
  joining : ∀ turn, s.pc = .joining turn → s.active = none ∧ s.pendingEvent = none ∧
    s.approvalBarrier = none ∧ (s.tasks turn).events = [] ∧ (s.tasks turn).closed = true ∧
    (s.tasks turn).aborted = false ∧ turn < s.nextTurn
  cancelling : ∀ turn, s.pc = .cancelling turn → s.active = none ∧ turn < s.nextTurn

theorem Course.start (setup : Setup Message) : Course (new setup) where
  running := fun _ _ h => by cases h
  joining := fun _ h => by cases h
  cancelling := fun _ h => by cases h

/-- In the loop the active turn has not been aborted. -/
theorem Step.running (h : Step setup s a s' os) (hcourse : Course s) (hpc' : s'.pc = .running)
    {turn : Nat} (hactive' : s'.active = some turn) : (s'.tasks turn).aborted = false := by
  cases h with
  | startTurn hpc hactive hpending =>
      obtain rfl := Option.some.inj hactive'
      show (Function.update s.tasks s.nextTurn _ s.nextTurn).aborted = false
      rw [Function.update_self]
  | @holdEvent a handle turn' event rest hpc hactive hpending hevents ha =>
      exact update_task AgentTask.aborted rfl (hcourse.running hpc turn hactive')
  | emit hturn hopen =>
      exact update_task AgentTask.aborted rfl (hcourse.running hpc' turn hactive')
  | closeEvents hturn =>
      exact update_task AgentTask.aborted rfl (hcourse.running hpc' turn hactive')
  | finish hturn hrunning =>
      exact update_task AgentTask.aborted rfl (hcourse.running hpc' turn hactive')
  | cancelCompleted hpc houtcome =>
      have hnone : s.active = some turn := hactive'
      rw [(hcourse.cancelling _ hpc).1] at hnone
      cases hnone
  | joinTurn hpc houtcome =>
      rw [join_active, (hcourse.joining _ hpc).1] at hactive'
      cases hactive'
  | overflow hpc => cases hpc'
  | cancel hpc hactive => cases hpc'
  | stop hpc hactive => cases hpc'
  | stopInactive hpc hactive => cases hpc'
  | commandsClosed hpc => cases hpc'
  | commandError hpc => cases hpc'
  | turnClosed hpc hactive hpending hbarrier hevents hclosed => cases hpc'
  | writerGone hpc hpending hwriter => cases hpc'
  | cancelDeadline hpc => cases hpc'
  | stopDone hpc => cases hpc'
  | terminalEvent hpc hpending hsends => cases hpc'
  | terminalGiveUp hpc => cases hpc'
  | abortDone hpc => cases hpc'
  | closed hpc hwriter => cases hpc'
  | closeDeadline hpc => cases hpc'
  | _ => exact hcourse.running hpc' turn hactive'

theorem join_pc_ne_joining (s : Worker Message) (outcome : Outcome Message) (turn : Nat) :
    (s.join outcome).pc ≠ .joining turn := by
  cases outcome <;> exact fun h => by cases h

theorem join_pc_ne_cancelling (s : Worker Message) (outcome : Outcome Message) (turn : Nat) :
    (s.join outcome).pc ≠ .cancelling turn := by
  cases outcome <;> exact fun h => by cases h

theorem Step.joining (h : Step setup s a s' os) (hcourse : Course s) (hstarted : Started tr s)
    {turn : Nat} (hpc' : s'.pc = .joining turn) : s'.active = none ∧ s'.pendingEvent = none ∧
      s'.approvalBarrier = none ∧ (s'.tasks turn).events = [] ∧ (s'.tasks turn).closed = true ∧
      (s'.tasks turn).aborted = false ∧ turn < s'.nextTurn := by
  cases h with
  | turnClosed hpc hactive hpending hbarrier hevents hclosed =>
      obtain rfl := Pc.joining.inj hpc'
      exact ⟨rfl, hpending, hbarrier, hevents, hclosed, hcourse.running hpc _ hactive,
        hstarted.active _ hactive⟩
  | @emit turn' event hturn hopen =>
      obtain ⟨hactive, hpending, hbarrier, hevents, hclosed, haborted, hlt⟩ :=
        hcourse.joining turn hpc'
      have hne : turn ≠ turn' := by
        rintro rfl
        rw [hopen] at hclosed
        cases hclosed
      refine ⟨hactive, hpending, hbarrier, ?_, ?_, ?_, hlt⟩
      · exact (congrArg AgentTask.events (Function.update_of_ne hne _ _)).trans hevents
      · exact update_task AgentTask.closed rfl hclosed
      · exact update_task AgentTask.aborted rfl haborted
  | @closeEvents turn' hturn =>
      obtain ⟨hactive, hpending, hbarrier, hevents, hclosed, haborted, hlt⟩ :=
        hcourse.joining turn hpc'
      refine ⟨hactive, hpending, hbarrier, ?_, ?_, ?_, hlt⟩
      · exact update_task AgentTask.events rfl hevents
      · by_cases heq : turn = turn'
        · subst heq
          exact congrArg AgentTask.closed (task_self s.tasks turn _)
        · exact (congrArg AgentTask.closed (Function.update_of_ne heq _ _)).trans hclosed
      · exact update_task AgentTask.aborted rfl haborted
  | finish hturn hrunning =>
      obtain ⟨hactive, hpending, hbarrier, hevents, hclosed, haborted, hlt⟩ :=
        hcourse.joining turn hpc'
      refine ⟨hactive, hpending, hbarrier, ?_, ?_, ?_, hlt⟩
      · exact update_task AgentTask.events rfl hevents
      · exact update_task AgentTask.closed rfl hclosed
      · exact update_task AgentTask.aborted rfl haborted
  | joinTurn hpc houtcome => exact absurd hpc' (join_pc_ne_joining _ _ _)
  | startTurn hpc hactive hpending => cases hpc.symm.trans hpc'
  | holdEvent hpc hactive hpending hevents ha => cases hpc.symm.trans hpc'
  | holdNotice hpc hactive hpending hbarrier hevents hopen => cases hpc.symm.trans hpc'
  | dropBarrier hpc hactive hpending hbarrier hevents hclosed => cases hpc.symm.trans hpc'
  | takeNotice hpc hactive hbarrier happrovals => cases hpc.symm.trans hpc'
  | enqueue hpc hpending hsends => cases hpc.symm.trans hpc'
  | terminalHeld hpc hpending hsends => cases hpc.symm.trans hpc'
  | overflow hpc => cases hpc'
  | cancel hpc hactive => cases hpc'
  | stop hpc hactive => cases hpc'
  | stopInactive hpc hactive => cases hpc'
  | commandsClosed hpc => cases hpc'
  | commandError hpc => cases hpc'
  | writerGone hpc hpending hwriter => cases hpc'
  | cancelCompleted hpc houtcome => cases hpc'
  | cancelDeadline hpc => cases hpc'
  | stopDone hpc => cases hpc'
  | terminalEvent hpc hpending hsends => cases hpc'
  | terminalGiveUp hpc => cases hpc'
  | abortDone hpc => cases hpc'
  | closed hpc hwriter => cases hpc'
  | closeDeadline hpc => cases hpc'
  | _ => exact hcourse.joining turn hpc'

theorem Step.cancelling (h : Step setup s a s' os) (hcourse : Course s) (hstarted : Started tr s)
    {turn : Nat} (hpc' : s'.pc = .cancelling turn) : s'.active = none ∧ turn < s'.nextTurn := by
  cases h with
  | cancel hpc hactive =>
      obtain rfl := Pc.cancelling.inj hpc'
      exact ⟨rfl, hstarted.active _ hactive⟩
  | joinTurn hpc houtcome => exact absurd hpc' (join_pc_ne_cancelling _ _ _)
  | startTurn hpc hactive hpending => cases hpc.symm.trans hpc'
  | overflow hpc => cases hpc'
  | stop hpc hactive => cases hpc'
  | stopInactive hpc hactive => cases hpc'
  | commandsClosed hpc => cases hpc'
  | commandError hpc => cases hpc'
  | turnClosed hpc hactive hpending hbarrier hevents hclosed => cases hpc'
  | writerGone hpc hpending hwriter => cases hpc'
  | cancelCompleted hpc houtcome => cases hpc'
  | cancelDeadline hpc => cases hpc'
  | stopDone hpc => cases hpc'
  | terminalEvent hpc hpending hsends => cases hpc'
  | terminalGiveUp hpc => cases hpc'
  | abortDone hpc => cases hpc'
  | closed hpc hwriter => cases hpc'
  | closeDeadline hpc => cases hpc'
  | _ => exact hcourse.cancelling turn hpc'

/-- Each place is reached from the one before with what it owes. -/
theorem Course.step (h : Course s) (hstarted : Started tr s) (hstep : Step setup s a s' os) :
    Course s' where
  running := fun hpc' _ hactive' => hstep.running h hpc' hactive'
  joining := fun _ hpc' => hstep.joining h hstarted hpc'
  cancelling := fun _ hpc' => hstep.cancelling h hstarted hpc'

/-- In every run, whatever the agent and the daemon do. -/
theorem run_course {A : List (Obs Message) → Worker Message → Action Message → Prop}
    (h : (machine setup).Run A tr s) : Course s := by
  refine h.invariant (I := fun _ s => Course s) (Course.start setup) ?_
  intro tr os s s' a hrun hinv _ hstep
  exact hinv.step (run_started hrun) (step_cases hstep)

/-- An outcome was there, or the task has just ended. -/
theorem Step.task_outcome (h : Step setup s a s' os) {turn : Nat} {outcome : Outcome Message}
    (houtcome : (s'.tasks turn).outcome = some outcome) :
    (s.tasks turn).outcome = some outcome ∨ .finished turn outcome ∈ os := by
  cases h with
  | @finish turn' outcome' hturn hrunning =>
      by_cases heq : turn = turn'
      · subst heq
        have hself : some outcome' = some outcome :=
          (congrArg AgentTask.outcome (task_self s.tasks turn _)).symm.trans houtcome
        obtain rfl := Option.some.inj hself
        exact Or.inr (List.mem_singleton_self _)
      · exact Or.inl ((congrArg AgentTask.outcome (Function.update_of_ne heq ..)).symm.trans
          houtcome)
  | @startTurn text rest hpc hactive hpending =>
      by_cases heq : turn = s.nextTurn
      · subst heq
        cases (congrArg AgentTask.outcome (task_self s.tasks s.nextTurn _)).symm.trans houtcome
      · exact Or.inl ((congrArg AgentTask.outcome (Function.update_of_ne heq ..)).symm.trans
          houtcome)
  | holdEvent hpc hactive hpending hevents ha =>
      exact Or.inl (of_update_task AgentTask.outcome houtcome rfl)
  | emit hturn hopen => exact Or.inl (of_update_task AgentTask.outcome houtcome rfl)
  | closeEvents hturn => exact Or.inl (of_update_task AgentTask.outcome houtcome rfl)
  | cancel hpc hactive => exact Or.inl (of_update_task AgentTask.outcome houtcome rfl)
  | stop hpc hactive => exact Or.inl (of_update_task AgentTask.outcome houtcome rfl)
  | commandsClosed hpc => exact Or.inl ((breakLoop_outcome ..).symm.trans houtcome)
  | commandError hpc => exact Or.inl ((breakLoop_outcome ..).symm.trans houtcome)
  | writerGone hpc hpending hwriter => exact Or.inl ((breakLoop_outcome ..).symm.trans houtcome)
  | @terminalEvent event result hpc hpending hsends =>
      exact Or.inl ((breakLoop_outcome s result turn).symm.trans houtcome)
  | terminalGiveUp hpc => exact Or.inl ((breakLoop_outcome ..).symm.trans houtcome)
  | joinTurn hpc houtcome' => exact Or.inl ((join_outcome ..).symm.trans houtcome)
  | _ => exact Or.inl houtcome

/-- An outcome is observed when the task ends. -/
theorem Step.finished_action (h : Step setup s a s' os) {turn : Nat} {outcome : Outcome Message}
    (hmem : .finished turn outcome ∈ os) : a = .finish turn outcome := by
  cases h with
  | finish hturn hrunning =>
      obtain ⟨rfl, rfl⟩ := Obs.finished.inj (List.mem_singleton.mp hmem)
      rfl
  | approve hpc => simp [Worker.approve] at hmem
  | startTurn hpc hactive hpending => simp [Worker.startTurn] at hmem
  | holdEvent hpc hactive hpending hevents ha => simp [Worker.holdEvent] at hmem
  | enqueue hpc hpending hsends => simp [Worker.enqueue] at hmem
  | terminalHeld hpc hpending hsends => simp [Worker.enqueue] at hmem
  | _ => simp at hmem

theorem Step.outcome (h : Step setup s a s' os)
    (hold : ∀ turn outcome, (s.tasks turn).outcome = some outcome → .finished turn outcome ∈ tr)
    {turn : Nat} {outcome : Outcome Message} (houtcome : (s'.tasks turn).outcome = some outcome) :
    .finished turn outcome ∈ tr ++ os := by
  rcases h.task_outcome houtcome with h | h
  · exact List.mem_append_left _ (hold turn outcome h)
  · exact List.mem_append_right _ h

/-- An outcome was observed. -/
theorem run_outcome {A : List (Obs Message) → Worker Message → Action Message → Prop}
    (h : (machine setup).Run A tr s) :
    ∀ turn outcome, (s.tasks turn).outcome = some outcome → .finished turn outcome ∈ tr := by
  refine h.invariant
    (I := fun tr s => ∀ turn outcome, (s.tasks turn).outcome = some outcome →
      .finished turn outcome ∈ tr) (fun _ _ h => by cases h) ?_
  intro tr os s s' a hrun hinv _ hstep turn outcome houtcome
  exact (step_cases hstep).outcome hinv houtcome

end Worker

end PeakcodeDaemon
