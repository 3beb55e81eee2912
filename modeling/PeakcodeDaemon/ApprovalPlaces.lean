import PeakcodeDaemon.TurnAuthority

/-!
# Where an approval request is

A request goes from the approval channel to the barrier, from there to the
held event and on to the writer. While its turn is followed and its call
waits, it is at one of these places, once, and its entry is in the pending
map. A place is only emptied without a next one when no call of a followed
turn is left: the task of the turn has dropped its sender, or was aborted.

- **entries** (`Enrolled`, `Enrolled.step`): the calls of some turns that
  were not answered have their entries. What takes entries away is a
  decision, the call's own guard, or a clearing.
- **tasks** (`Attended`, `Attended.step`): tasks that run are those of the
  followed turn, so a clearing finds no call of another turn, and a call
  that is dropped on the way is one that was aborted
  (`Attended.aborted`). This is where `keepsSender` comes in: the source
  drops a barrier when the event channel is closed, and a task that still
  awaits a call has not closed it.
- **places** (`places`, `Posted.step`): a list of handles over all four
  places. Moving a request permutes it, sending a notice adds to it and
  dropping requests leaves a sublist, so that "once" is `Nodup` and "at
  one of them" is membership.

`approval_in_one_place` has both halves. The places are a list and not a
function of the handle because nothing in the code looks a request up by
its handle.
-/

namespace PeakcodeDaemon

namespace RemoteApprover

variable {s s' : RemoteApprover} {a : Action} {os : List Obs} {c : Nat} {call call' : ApproveCall}

/-! ## Calls that wait -/

/-- A call that waits did so before, or has just delivered its notice. -/
theorem Step.waiting_origin (h : Step s a s' os) {handle : Text} (hcall' : s'.calls c = some call')
    (hstage' : call'.stage = .waiting handle) :
    (∃ call, s.calls c = some call ∧ call.stage = .waiting handle ∧ call'.turn = call.turn) ∨
    a = .notify c ∧ ∃ call, s.calls c = some call ∧ call.stage = .registered handle ∧
      call'.turn = call.turn := by
  cases h with
  | request turn providerCallId tool arguments =>
      rcases update_eq_some hcall' with ⟨rfl, rfl⟩ | ⟨-, hcall'⟩
      · cases hstage'
      · exact Or.inl ⟨call', hcall', hstage', rfl⟩
  | move hcall hmoves =>
      rcases setStage_calls hcall' with ⟨rfl, rfl⟩ | ⟨-, hcall'⟩
      · obtain rfl := hstage'
        cases hmoves with
        | notified hstage => exact Or.inr ⟨rfl, _, hcall, hstage, rfl⟩
      · exact Or.inl ⟨call', hcall', hstage', rfl⟩
  | register hcall hstage hvacant =>
      rcases setStage_calls hcall' with ⟨rfl, rfl⟩ | ⟨-, hcall'⟩
      · cases hstage'
      · exact Or.inl ⟨call', hcall', hstage', rfl⟩
  | dropGuard hcall hstage =>
      rcases setStage_calls hcall' with ⟨rfl, rfl⟩ | ⟨-, hcall'⟩
      · cases hstage'
      · rw [removeOwn_calls] at hcall'
        exact Or.inl ⟨call', hcall', hstage', rfl⟩
  | resolve hpending hcall halive =>
      rcases update_eq_some hcall' with ⟨rfl, rfl⟩ | ⟨-, hcall'⟩
      · exact Or.inl ⟨_, hcall, hstage', rfl⟩
      · exact Or.inl ⟨call', hcall', hstage', rfl⟩
  | unknown hnone => exact Or.inl ⟨call', hcall', hstage', rfl⟩
  | late hpending hdead => exact Or.inl ⟨call', hcall', hstage', rfl⟩
  | cancelPending => exact Or.inl ⟨call', hcall', hstage', rfl⟩

/-! ## Entries of calls that were not answered -/

/-- A call that can still be answered, and was not. -/
structure Unresolved (s : RemoteApprover) (c : Nat) (call : ApproveCall) (handle : Text) :
    Prop where
  found : s.calls c = some call
  receives : call.stage.receives = true
  guards : call.stage.guards = some handle
  reply : call.reply = none

/-- The calls of these turns that were not answered have their entries. -/
def Enrolled (s : RemoteApprover) (live : Nat → Prop) : Prop :=
  ∀ c call handle, s.Unresolved c call handle → live call.turn →
    s.pending handle = some ⟨c, call.tool⟩

theorem Moves.unresolved {stage : Stage} (h : Moves s c call a stage os) {handle : Text}
    (hreceives : stage.receives = true) (hguards : stage.guards = some handle) :
    call.stage.receives = true ∧ call.stage.guards = some handle := by
  cases h with
  | notified hstage =>
      rw [hstage]
      exact ⟨rfl, hguards⟩
  | _ => cases hreceives

section

variable {live : Nat → Prop}

/-- A call that changes its stage was as open as it is now. -/
theorem Enrolled.setStage (h : s.Enrolled live) {stage : Stage} (hcall : s.calls c = some call)
    (hstage : ∀ handle, stage.receives = true → stage.guards = some handle →
      call.stage.receives = true ∧ call.stage.guards = some handle) :
    (s.setStage c call stage).Enrolled live := by
  intro c' call' handle hopen hlive
  rcases setStage_calls hopen.found with ⟨rfl, rfl⟩ | ⟨-, hcall'⟩
  · obtain ⟨hreceives, hguards⟩ := hstage handle hopen.receives hopen.guards
    exact h c' call handle ⟨hcall, hreceives, hguards, hopen.reply⟩ hlive
  · exact h c' call' handle ⟨hcall', hopen.receives, hopen.guards, hopen.reply⟩ hlive

theorem Enrolled.register (h : s.Enrolled live) {handle : Text}
    (hvacant : s.pending handle = none) :
    Enrolled { s.setStage c call (.registered handle) with
      pending := Function.update s.pending handle (some ⟨c, call.tool⟩) } live := by
  intro c' call' handle' hopen hlive
  rcases setStage_calls hopen.found with ⟨rfl, rfl⟩ | ⟨-, hcall'⟩
  · obtain rfl := Option.some.inj hopen.guards
    exact Function.update_self ..
  · have hentry := h c' call' handle' ⟨hcall', hopen.receives, hopen.guards, hopen.reply⟩ hlive
    have hne : handle' ≠ handle := by
      rintro rfl
      cases hvacant.symm.trans hentry
    exact (Function.update_of_ne hne _ _).trans hentry

/-- Entries of calls that are leaving, or answered, may go. -/
theorem Enrolled.remove (h : s.Enrolled live) {pending : Text → Option PendingApproval}
    (hkept : ∀ c call handle, s.Unresolved c call handle →
      s.pending handle = some ⟨c, call.tool⟩ → pending handle = some ⟨c, call.tool⟩) :
    Enrolled { s with pending := pending } live := by
  intro c call handle hopen hlive
  have hopen : s.Unresolved c call handle :=
    ⟨hopen.found, hopen.receives, hopen.guards, hopen.reply⟩
  exact hkept c call handle hopen (h c call handle hopen hlive)

/-- The guard takes its own call's entry only. -/
theorem removeOwn_keeps {handle handle' : Text} {e : PendingApproval}
    (he : s.pending handle' = some e) (hne : e.token ≠ c) :
    (s.removeOwn c handle).pending handle' = some e := by
  unfold removeOwn
  split
  · rename_i approval hpending
    split
    · rename_i htoken
      have hhandle : handle' ≠ handle := by
        rintro rfl
        obtain rfl := Option.some.inj (hpending.symm.trans he)
        exact hne htoken
      exact (Function.update_of_ne hhandle _ _).trans he
    · exact he
  · exact he

theorem Enrolled.dropGuard (h : s.Enrolled live) {handle : Text} {outcome : Option ApprovalDecision}
    (hcall : s.calls c = some call) (hstage : call.stage = .leaving handle outcome) :
    ((s.removeOwn c handle).setStage c call (.ended outcome)).Enrolled live := by
  have hremoved : (s.removeOwn c handle).Enrolled live := by
    rw [removeOwn_eq]
    refine h.remove fun c' call' handle' hopen hentry => removeOwn_keeps hentry ?_
    rintro rfl
    obtain rfl := Option.some.inj (hcall.symm.trans hopen.found)
    have hreceives := hopen.receives
    rw [hstage] at hreceives
    cases hreceives
  exact hremoved.setStage (by rwa [removeOwn_calls]) (fun _ h => by cases h)

theorem Enrolled.resolve (h : s.Enrolled live) {callId : Text} {decision : ApprovalDecision}
    {approval : PendingApproval} (hpending : s.pending callId = some approval)
    {tools : List Text} : Enrolled { s with
      pending := Function.update s.pending callId none
      calls := Function.update s.calls approval.token (some { call with reply := some decision })
      allowedTools := tools } live := by
  intro c' call' handle hopen hlive
  rcases update_eq_some (f := s.calls) hopen.found with ⟨rfl, rfl⟩ | ⟨hne, hcall'⟩
  · cases hopen.reply
  · have hentry := h c' call' handle ⟨hcall', hopen.receives, hopen.guards, hopen.reply⟩ hlive
    have hhandle : handle ≠ callId := by
      rintro rfl
      obtain rfl := Option.some.inj (hpending.symm.trans hentry)
      exact hne rfl
    exact (Function.update_of_ne hhandle _ _).trans hentry

theorem Enrolled.step (h : s.Enrolled live) (ha : a ≠ .cancelPending) (hstep : Step s a s' os) :
    s'.Enrolled live := by
  cases hstep with
  | request turn providerCallId tool arguments =>
      intro c' call' handle hopen hlive
      rcases update_eq_some (f := s.calls) hopen.found with ⟨rfl, rfl⟩ | ⟨-, hcall'⟩
      · cases hopen.receives
      · exact h c' call' handle ⟨hcall', hopen.receives, hopen.guards, hopen.reply⟩ hlive
  | move hcall hmoves => exact h.setStage hcall (fun _ => hmoves.unresolved)
  | register hcall hstage hvacant => exact h.register hvacant
  | dropGuard hcall hstage => exact h.dropGuard hcall hstage
  | unknown hnone => exact h
  | @late callId decision approval hpending hdead =>
      refine h.remove fun c' call' handle hopen hentry => ?_
      have hhandle : handle ≠ callId := by
        rintro rfl
        obtain rfl := Option.some.inj (hpending.symm.trans hentry)
        have hreceives := hopen.receives
        rw [hdead call' hopen.found] at hreceives
        cases hreceives
      exact (Function.update_of_ne hhandle _ _).trans hentry
  | resolve hpending hcall halive => exact h.resolve hpending
  | cancelPending => exact absurd rfl ha

end

/-- Resolving such an entry returns true. -/
theorem Unresolved.resolve {handle : Text} (h : s.Unresolved c call handle)
    (hentry : s.pending handle = some ⟨c, call.tool⟩) (decision : IpcApprovalDecision) :
    (s.resolve handle decision).2 = [.resolved handle decision call.tool] := by
  simp [RemoteApprover.resolve, hentry, h.found, h.receives]

end RemoteApprover

/-- The handle of an approval request. -/
def WorkerEvent.approvalHandle? : WorkerEvent → Option Text
  | .needsApproval callId _ _ => some callId
  | _ => none

/-- The coordinator still answers for the active turn. -/
def Pc.follows : Pc → Bool
  | .running | .terminal .. => true
  | _ => false

/-- The task has neither ended nor dropped its sender, and was not aborted. -/
def AgentTask.Runs {Message : Type} (task : AgentTask Message) : Prop :=
  task.closed = false ∧ task.outcome = none ∧ task.aborted = false

namespace Worker

variable {Message : Type} {setup : Setup Message} {tr os : List (Obs Message)}
  {s s' : Worker Message} {a : Action Message} {turn : Nat}

/-! ## Whose task keeps its sender -/

/-- A task drops its event sender when its calls of `approve` have ended, and
makes none after that. -/
def keepsSender (s : Worker Message) : Action Message → Bool
  | .closeEvents turn => s.approver.callsEnded turn
  | .call (.request turn ..) => !(s.tasks turn).closed
  | _ => true

/-- The turn is the active one, in the loop or past it. -/
def Follows (s : Worker Message) (turn : Nat) : Prop :=
  s.active = some turn ∧ s.pc.follows = true

/-- Tasks that run are those of the followed turn, and calls are made in tasks
that run. -/
structure Attended (s : Worker Message) : Prop where
  tasks : ∀ turn, turn < s.nextTurn → (s.tasks turn).Runs → Follows s turn
  calls : ∀ c call, s.approver.Busy c call → call.turn < s.nextTurn ∧
    (s.tasks call.turn).closed = false ∧ (s.tasks call.turn).outcome = none

theorem Attended.start (setup : Setup Message) : Attended (new setup) where
  tasks := fun _ h => absurd h (Nat.not_lt_zero _)
  calls := fun _ _ h => by cases h.1

/-- Calls go on in the tasks they are in, and no task comes to run. -/
theorem Attended.frame (h : Attended s) (hbusy : ∀ c call', s'.approver.Busy c call' →
      ∃ call, s.approver.Busy c call ∧ call'.turn = call.turn ∧
        (s'.tasks call.turn).closed = (s.tasks call.turn).closed ∧
        (s'.tasks call.turn).outcome = (s.tasks call.turn).outcome)
    (hnext : s'.nextTurn = s.nextTurn)
    (hopen : ∀ turn, (s'.tasks turn).Runs → Follows s turn → Follows s' turn)
    (htask : ∀ turn, (s'.tasks turn).Runs → (s.tasks turn).Runs) : Attended s' where
  tasks := by
    intro turn hturn hopen'
    exact hopen turn hopen' (h.tasks turn (hnext ▸ hturn) (htask turn hopen'))
  calls := by
    intro c call' hcall'
    obtain ⟨call, hcall, hturn, hclosed, houtcome⟩ := hbusy c call' hcall'
    rw [hturn, hnext, hclosed, houtcome]
    exact h.calls c call hcall

theorem Attended.unchanged (h : Attended s) (happrover : s'.approver = s.approver)
    (hnext : s'.nextTurn = s.nextTurn) (htasks : s'.tasks = s.tasks)
    (hfollows : ∀ turn, Follows s turn → Follows s' turn) : Attended s' := by
  refine h.frame ?_ hnext (fun turn _ => hfollows turn) (fun turn => by rw [htasks]; exact id)
  rw [happrover, htasks]
  exact fun _ call hcall => ⟨call, hcall, rfl, rfl, rfl⟩

theorem not_follows (h : s.pc.follows = false) : ¬Follows s turn := by
  intro hfollows
  cases h.symm.trans hfollows.2

/-- Past the loop nothing is followed any more. -/
theorem Attended.leave (h : Attended s) (hpc : s.pc.follows = false)
    (hcalls : s'.approver.calls = s.approver.calls) (hnext : s'.nextTurn = s.nextTurn)
    (htasks : s'.tasks = s.tasks) : Attended s' := by
  refine h.frame ?_ hnext (fun _ _ hf => absurd hf (not_follows hpc))
    (fun _ => by rw [htasks]; exact id)
  intro c call ⟨hcall, hended⟩
  rw [hcalls] at hcall
  exact ⟨call, ⟨hcall, hended⟩, rfl, by rw [htasks], by rw [htasks]⟩

/-- The active turn is aborted. -/
theorem Attended.abort (h : Attended s) (hactive : s.active = some turn)
    (happrover : s'.approver = s.approver) (hnext : s'.nextTurn = s.nextTurn)
    (htasks : s'.tasks = s.abortTask turn) : Attended s' := by
  refine h.frame ?_ hnext ?_ ?_
  · rw [happrover, htasks, abortTask]
    exact fun _ call hcall =>
      ⟨call, hcall, rfl, update_task AgentTask.closed rfl rfl,
        update_task AgentTask.outcome rfl rfl⟩
  · intro turn' ⟨_, _, haborted⟩ hfollows
    obtain rfl := Option.some.inj (hactive.symm.trans hfollows.1)
    rw [htasks, abortTask, Function.update_self] at haborted
    cases haborted
  · intro turn' hopen
    rw [htasks] at hopen
    by_cases hturn : turn' = turn
    · subst hturn
      have haborted := hopen.2.2
      rw [abortTask, Function.update_self] at haborted
      cases haborted
    · rwa [abortTask, Function.update_of_ne hturn] at hopen

theorem Attended.breakLoop (h : Attended s) (result : Ended) : Attended (s.breakLoop result) := by
  cases hactive : s.active with
  | none =>
      have htasks : (s.breakLoop result).tasks = s.tasks := by
        rw [Worker.breakLoop, hactive]
      refine h.frame ?_ rfl ?_ (fun _ => by rw [htasks]; exact id)
      · rw [htasks]
        exact fun _ call hcall => ⟨call, hcall, rfl, rfl, rfl⟩
      · intro turn' _ hfollows
        cases hactive.symm.trans hfollows.1
  | some turn =>
      exact h.abort hactive rfl rfl (by rw [Worker.breakLoop, hactive])

theorem Attended.startTurn (h : Attended s) (hactive : s.active = none) (hpc : s.pc = .running)
    (text : Text) (rest : List Text) : Attended (s.startTurn setup text rest).1 where
  tasks := by
    intro turn hturn hopen
    by_cases hlatest : turn = s.nextTurn
    · subst hlatest
      exact ⟨rfl, by rw [Worker.startTurn, hpc]; rfl⟩
    · have hlt : turn < s.nextTurn + 1 := hturn
      have hold : (Worker.startTurn s setup text rest).1.tasks turn = s.tasks turn :=
        Function.update_of_ne hlatest ..
      rw [hold] at hopen
      cases hactive.symm.trans (h.tasks turn (by omega) hopen).1
  calls := by
    intro c call hbusy
    obtain ⟨hturn, hclosed, houtcome⟩ := h.calls c call hbusy
    have hold : (Worker.startTurn s setup text rest).1.tasks call.turn = s.tasks call.turn :=
      Function.update_of_ne (Nat.ne_of_lt hturn) ..
    rw [hold]
    exact ⟨Nat.lt_succ_of_lt hturn, hclosed, houtcome⟩

/-- A task changes that makes no calls. -/
theorem Attended.endTask (h : Attended s) (hunborn : ∀ c, s.approver.nextToken ≤ c →
      s.approver.calls c = none) {turn' : Nat} {task : AgentTask Message}
    (hended : s.approver.callsEnded turn' = true) (hclosed : ¬task.Runs) :
    Attended { s with tasks := Function.update s.tasks turn' task } := by
  have hopen : ∀ turn, (Function.update s.tasks turn' task turn).Runs → (s.tasks turn).Runs := by
    intro turn hopen
    by_cases hturn : turn = turn'
    · subst hturn
      rw [Function.update_self] at hopen
      exact absurd hopen hclosed
    · rwa [Function.update_of_ne hturn] at hopen
  refine h.frame ?_ rfl (fun _ _ => id) hopen
  intro c call hbusy
  have hne := RemoteApprover.turn_ne_of_callsEnded hunborn hended hbusy
  have hsame : Function.update s.tasks turn' task call.turn = s.tasks call.turn :=
    Function.update_of_ne hne ..
  exact ⟨call, hbusy, rfl, congrArg AgentTask.closed hsame, congrArg AgentTask.outcome hsame⟩

/-- A task's buffer changes. -/
theorem Attended.buffer (h : Attended s) {turn' : Nat} {events : List AgentEvent}
    (happrover : s'.approver = s.approver) (hnext : s'.nextTurn = s.nextTurn)
    (htasks : s'.tasks = Function.update s.tasks turn' { s.tasks turn' with events := events })
    (hfollows : ∀ turn, Follows s turn → Follows s' turn) : Attended s' := by
  have hclosed : ∀ turn, (s'.tasks turn).closed = (s.tasks turn).closed := by
    rw [htasks]
    exact fun _ => update_task AgentTask.closed rfl rfl
  have houtcome : ∀ turn, (s'.tasks turn).outcome = (s.tasks turn).outcome := by
    rw [htasks]
    exact fun _ => update_task AgentTask.outcome rfl rfl
  have haborted : ∀ turn, (s'.tasks turn).aborted = (s.tasks turn).aborted := by
    rw [htasks]
    exact fun _ => update_task AgentTask.aborted rfl rfl
  refine h.frame ?_ hnext (fun turn _ => hfollows turn) ?_
  · rw [happrover]
    exact fun _ call hcall => ⟨call, hcall, rfl, hclosed _, houtcome _⟩
  · intro turn ⟨h₁, h₂, h₃⟩
    exact ⟨(hclosed turn).symm.trans h₁, (houtcome turn).symm.trans h₂,
      (haborted turn).symm.trans h₃⟩

/-- A call goes on; a new one is made in a task that runs. -/
theorem Attended.step_calls (h : Attended s) {b : RemoteApprover.Action} {A' : RemoteApprover}
    {os : List RemoteApprover.Obs} (hstep : RemoteApprover.Step s.approver b A' os)
    (hrequest : ∀ turn providerCallId tool arguments,
      b = .request turn providerCallId tool arguments →
      turn < s.nextTurn ∧ (s.tasks turn).closed = false ∧ (s.tasks turn).outcome = none)
    (happrover : s'.approver = A') (hnext : s'.nextTurn = s.nextTurn) (htasks : s'.tasks = s.tasks)
    (hfollows : ∀ turn, Follows s turn → Follows s' turn) : Attended s' where
  tasks := by
    intro turn hturn hopen
    rw [hnext] at hturn
    rw [htasks] at hopen
    exact hfollows turn (h.tasks turn hturn hopen)
  calls := by
    intro c call' hcall'
    rw [happrover] at hcall'
    rw [hnext, htasks]
    rcases hstep.busy hcall' with ⟨call, hcall, hturn⟩ | ⟨turn, _, _, _, hb, -, hturn⟩
    · rw [hturn]
      exact h.calls c call hcall
    · rw [hturn]
      exact hrequest turn _ _ _ hb

theorem Attended.step (h : Attended s) (hunborn : ∀ c, s.approver.nextToken ≤ c →
      s.approver.calls c = none) (hinTask : inTask s a = true) (hkeeps : keepsSender s a = true)
    (hstep : Step setup s a s' os) : Attended s' := by
  cases hstep with
  | startTurn hpc hactive hpending => exact h.startTurn hactive hpc _ _
  | cancel hpc hactive => exact h.abort hactive rfl rfl rfl
  | stop hpc hactive => exact h.abort hactive rfl rfl rfl
  | commandsClosed hpc => exact h.breakLoop _
  | commandError hpc => exact h.breakLoop _
  | writerGone hpc hpending hwriter => exact h.breakLoop _
  | terminalGiveUp hpc => exact h.breakLoop _
  | @terminalEvent event result hpc hpending hsends =>
      exact (h.breakLoop result).unchanged rfl rfl rfl (fun _ => id)
  | overflow hpc => exact h.unchanged rfl rfl rfl (fun _ hfollows => ⟨hfollows.1, rfl⟩)
  | stopInactive hpc hactive => exact h.unchanged rfl rfl rfl (fun _ hfollows => ⟨hfollows.1, rfl⟩)
  | holdEvent hpc hactive hpending hevents ha => exact h.buffer rfl rfl rfl (fun _ => id)
  | emit hturn hopen => exact h.buffer rfl rfl rfl (fun _ => id)
  | turnClosed hpc hactive hpending hbarrier hevents hclosed =>
      refine h.frame (fun _ call hcall => ⟨call, hcall, rfl, rfl, rfl⟩) rfl ?_ (fun _ => id)
      intro turn' hopen hfollows
      obtain rfl := Option.some.inj (hactive.symm.trans hfollows.1)
      cases hclosed.symm.trans hopen.1
  | cancelCompleted hpc houtcome => exact h.leave (by rw [hpc]; rfl) rfl rfl rfl
  | cancelDeadline hpc => exact h.leave (by rw [hpc]; rfl) rfl rfl rfl
  | stopDone hpc => exact h.leave (by rw [hpc]; rfl) rfl rfl rfl
  | abortDone hpc => exact h.leave (by rw [hpc]; rfl) rfl rfl rfl
  | closed hpc hwriter => exact h.leave (by rw [hpc]; rfl) rfl rfl rfl
  | closeDeadline hpc => exact h.leave (by rw [hpc]; rfl) rfl rfl rfl
  | @joinTurn turn outcome hpc houtcome =>
      cases outcome with
      | ok finalMessages => exact h.leave (by rw [hpc]; rfl) rfl rfl rfl
      | failed error => exact h.leave (by rw [hpc]; rfl) rfl rfl rfl
      | panicked error => exact h.breakLoop _
      | cancelled error => exact h.breakLoop _
  | closeEvents hturn => exact h.endTask hunborn hkeeps (fun hopen => by cases hopen.1)
  | finish hturn hrunning => exact h.endTask hunborn hinTask (fun hopen => by cases hopen.2.1)
  | @approve callId decision hpc =>
      refine h.step_calls (RemoteApprover.resolve_step s.approver callId decision) ?_ rfl rfl rfl
        (fun _ => id)
      rintro _ _ _ _ ha
      cases ha
  | call hallows hcalled =>
      refine h.step_calls (RemoteApprover.step_cases hcalled) ?_ rfl rfl rfl (fun _ => id)
      rintro turn' _ _ _ rfl
      exact ⟨hallows, by simpa [keepsSender] using hkeeps, by simpa [inTask] using hinTask⟩
  | @name c handle call hcall hstage =>
      refine h.step_calls (.move hcall (.named hstage)) ?_ rfl rfl rfl (fun _ => id)
      rintro _ _ _ _ ha
      cases ha
  | @notify c handle call hcall hstage =>
      refine h.step_calls (.move hcall (.notified hstage)) ?_ rfl rfl rfl (fun _ => id)
      rintro _ _ _ _ ha
      cases ha
  | _ => exact h.unchanged rfl rfl rfl (fun _ => id)

/-- A call under way that the coordinator no longer answers for was aborted. -/
theorem Attended.aborted (h : Attended s) {c : Nat} {call : ApproveCall}
    (hbusy : s.approver.Busy c call) (hfollows : ¬Follows s call.turn) :
    (s.tasks call.turn).aborted = true := by
  obtain ⟨hturn, hclosed, houtcome⟩ := h.calls c call hbusy
  cases haborted : (s.tasks call.turn).aborted with
  | true => rfl
  | false => exact absurd (h.tasks call.turn hturn ⟨hclosed, houtcome, haborted⟩) hfollows

/-! ## The places of a request -/

def heldHandles (held : Option Held) : List Text :=
  (held.bind fun held => held.event.approvalHandle?).toList

def enqueuedHandle? : Obs Message → Option Text
  | .enqueued held => held.event.approvalHandle?
  | _ => none

/-- The handles of the requests enqueued to the writer. -/
def enqueuedHandles (tr : List (Obs Message)) : List Text := tr.filterMap enqueuedHandle?

/-- The handles of the requests in the approval channel, in the barrier, held
and enqueued. -/
def places (tr : List (Obs Message)) (s : Worker Message) : List Text :=
  s.approvals.map (fun notice => notice.2.callId) ++
    (s.approvalBarrier.map fun notice => notice.2.callId).toList ++
    heldHandles s.pendingEvent ++ enqueuedHandles tr

theorem enqueuedHandles_append :
    enqueuedHandles (tr ++ os) = enqueuedHandles tr ++ enqueuedHandles os :=
  List.filterMap_append

theorem enqueuedHandles_eq_nil (h : ∀ held, .enqueued held ∉ os) : enqueuedHandles os = [] := by
  rw [enqueuedHandles, List.filterMap_eq_nil_iff]
  intro o ho
  cases o with
  | enqueued held => exact absurd ho (h held)
  | _ => rfl

theorem heldHandles_core {held : Held} {event : AgentEvent} (h : held.item = .core event) :
    heldHandles (some held) = [] := by
  have hrenders := held.renders
  rw [h] at hrenders
  obtain ⟨callIds, handle, hevent⟩ := hrenders
  rw [heldHandles, Option.bind_some, hevent]
  cases event <;> rfl

theorem heldHandles_approval {held : Held} {notice : ApprovalNotice}
    (h : held.item = .approval notice) :
    heldHandles (some held) = [notice.callId] := by
  have hrenders := held.renders
  rw [h] at hrenders
  have hevent : held.event = mapApprovalNotice notice := hrenders
  rw [heldHandles, Option.bind_some, hevent]
  rfl

section Places

variable (hos : ∀ held, .enqueued held ∉ os)
include hos

theorem places_same (happrovals : s'.approvals = s.approvals)
    (hbarrier : s'.approvalBarrier = s.approvalBarrier)
    (hpending : heldHandles s'.pendingEvent = heldHandles s.pendingEvent) :
    places (tr ++ os) s' = places tr s := by
  rw [places, happrovals, hbarrier, hpending, enqueuedHandles_append, enqueuedHandles_eq_nil hos,
    List.append_nil]
  rfl

/-- Requests are dropped. -/
theorem places_sublist (happrovals : s'.approvals.Sublist s.approvals)
    (hbarrier : s'.approvalBarrier = s.approvalBarrier ∨ s'.approvalBarrier = none)
    (hpending : s'.pendingEvent = s.pendingEvent ∨ heldHandles s'.pendingEvent = []) :
    (places (tr ++ os) s').Sublist (places tr s) := by
  rw [places, places, enqueuedHandles_append, enqueuedHandles_eq_nil hos, List.append_nil]
  refine .append (.append (.append (happrovals.map _) ?_) ?_) (.refl _)
  · rcases hbarrier with h | h
    · rw [h]
    · rw [h]
      exact List.nil_sublist _
  · rcases hpending with h | h
    · rw [h]
    · rw [h]
      exact List.nil_sublist _

end Places

theorem heldHandles_keepOrdinary (held : Option Held) : heldHandles (keepOrdinary held) = [] := by
  cases heq : keepOrdinary held with
  | none => rfl
  | some held' =>
      obtain rfl := keepOrdinary_eq_some heq
      obtain ⟨event, hcore⟩ := Held.core_of_keepOrdinary heq
      exact heldHandles_core hcore

/-- The barrier takes the first request of the channel. -/
theorem places_takeNotice {notice : Nat × ApprovalNotice} {rest : List (Nat × ApprovalNotice)}
    (hbarrier : s.approvalBarrier = none) (happrovals : s.approvals = notice :: rest) :
    (places (tr ++ []) { s with approvalBarrier := some notice, approvals := rest }).Perm
      (places tr s) := by
  rw [places, places, List.append_nil, hbarrier, happrovals]
  refine .append_right _ (.append_right _ ?_)
  simp only [Option.map_some, Option.toList_some, List.map_cons, Option.map_none,
    Option.toList_none, List.append_nil]
  exact List.perm_append_singleton ..

/-- The request of the barrier is held. -/
theorem places_holdNotice {notice : Nat × ApprovalNotice} (hpending : s.pendingEvent = none)
    (hbarrier : s.approvalBarrier = some notice) :
    places (tr ++ []) (s.holdNotice notice) = places tr s := by
  have hheld : heldHandles (s.holdNotice notice).pendingEvent = [notice.2.callId] :=
    heldHandles_approval rfl
  have hnone : (s.holdNotice notice).approvalBarrier = none := rfl
  rw [places, places, hheld, hnone, hpending, hbarrier, List.append_nil]
  simp [heldHandles, Worker.holdNotice]

/-- What is held is enqueued. -/
theorem places_enqueue {held : Held} (hpending : s.pendingEvent = some held) :
    (places (tr ++ (s.enqueue held).2) (s.enqueue held).1).Perm (places tr s) := by
  have hnone : heldHandles (s.enqueue held).1.pendingEvent = [] := rfl
  have hevent : enqueuedHandles (s.enqueue held).2 = heldHandles (some held) := by
    cases hhandle : held.event.approvalHandle? with
    | none => simp [enqueuedHandles, heldHandles, Worker.enqueue, enqueuedHandle?, hhandle]
    | some handle => simp [enqueuedHandles, heldHandles, Worker.enqueue, enqueuedHandle?, hhandle]
  rw [places, places, hnone, hpending, enqueuedHandles_append, hevent, List.append_nil,
    List.append_assoc _ (heldHandles (some held)) (enqueuedHandles tr)]
  exact List.perm_append_comm.append_left _

/-! ## What the steps preserve -/

/-- A request is at one place at most, and only after its notice was sent;
that of a call that waits is at one, and its entry is in the pending map. -/
structure Posted (tr : List (Obs Message)) (s : Worker Message) : Prop where
  nodup : (places tr s).Nodup
  known : ∀ handle ∈ places tr s, ∃ c call, .approver (.named c handle) ∈ tr ∧
    s.approver.calls c = some call ∧ call.stage.isPast = true
  waits : ∀ c call handle, s.approver.calls c = some call → call.stage = .waiting handle →
    (s.tasks call.turn).aborted = false → handle ∈ places tr s
  enrolled : s.approver.Enrolled fun turn => (s.tasks turn).aborted = false

theorem Posted.start (setup : Setup Message) : Posted [] (new setup) where
  nodup := List.nodup_nil
  known := fun _ h => by cases h
  waits := fun _ _ _ h => by cases h
  enrolled := fun _ _ _ h => by cases h.found

/-- Requests go from place to place. -/
theorem Posted.moves (h : Posted tr s) (hplaces : (places (tr ++ os) s').Perm (places tr s))
    (happrover : s'.approver = s.approver) (hlive : ∀ c call, s.approver.calls c = some call →
      (s'.tasks call.turn).aborted = false → (s.tasks call.turn).aborted = false) :
    Posted (tr ++ os) s' where
  nodup := hplaces.nodup_iff.mpr h.nodup
  known := by
    intro handle hmem
    obtain ⟨c, call, hnamed, hcall, hpast⟩ := h.known handle (hplaces.mem_iff.mp hmem)
    rw [happrover]
    exact ⟨c, call, List.mem_append_left _ hnamed, hcall, hpast⟩
  waits := by
    intro c call handle hcall hstage haborted
    rw [happrover] at hcall
    exact hplaces.mem_iff.mpr (h.waits c call handle hcall hstage (hlive c call hcall haborted))
  enrolled := by
    rw [happrover]
    exact fun c call handle hopen haborted =>
      h.enrolled c call handle hopen (hlive c call hopen.found haborted)

/-- Requests are dropped when every call under way was aborted. -/
theorem Posted.leave (h : Posted tr s) (hplaces : (places (tr ++ os) s').Sublist (places tr s))
    (hcalls : s'.approver.calls = s.approver.calls)
    (hdone : ∀ c call, s.approver.Busy c call → (s'.tasks call.turn).aborted = true) :
    Posted (tr ++ os) s' where
  nodup := h.nodup.sublist hplaces
  known := by
    intro handle hmem
    obtain ⟨c, call, hnamed, hcall, hpast⟩ := h.known handle (hplaces.subset hmem)
    rw [hcalls]
    exact ⟨c, call, List.mem_append_left _ hnamed, hcall, hpast⟩
  waits := by
    intro c call handle hcall hstage haborted
    rw [hcalls] at hcall
    cases haborted.symm.trans (hdone c call ⟨hcall, by rw [hstage]; rfl⟩)
  enrolled := by
    intro c call handle hopen haborted
    have hcall := hopen.found
    rw [hcalls] at hcall
    have hbusy : s.approver.Busy c call := by
      refine ⟨hcall, ?_⟩
      have hreceives := hopen.receives
      cases hstage : call.stage with
      | ended outcome => rw [hstage] at hreceives; cases hreceives
      | _ => rfl
    cases haborted.symm.trans (hdone c call hbusy)

/-- The approver goes on. -/
theorem Posted.calls (h : Posted tr s) (hunborn : ∀ c, s.approver.nextToken ≤ c →
      s.approver.calls c = none) {b : RemoteApprover.Action} {os₁ : List RemoteApprover.Obs}
    (hstep : RemoteApprover.Step s.approver b s'.approver os₁) (hcancel : b ≠ .cancelPending)
    (htasks : s'.tasks = s.tasks) (hkept : ∀ handle ∈ places tr s, handle ∈ places (tr ++ os) s')
    (hnodup : (places (tr ++ os) s').Nodup)
    (hnew : ∀ handle ∈ places (tr ++ os) s', handle ∈ places tr s ∨ ∃ c call,
      .approver (.named c handle) ∈ tr ∧ s'.approver.calls c = some call ∧ call.stage.isPast = true)
    (hnotify : ∀ c call handle, b = .notify c → s.approver.calls c = some call →
      call.stage = .registered handle → handle ∈ places (tr ++ os) s') :
    Posted (tr ++ os) s' where
  nodup := hnodup
  known := by
    intro handle hmem
    rcases hnew handle hmem with hold | ⟨c, call, hnamed, hcall, hpast⟩
    · obtain ⟨c, call, hnamed, hcall, hpast⟩ := h.known handle hold
      obtain ⟨call', hcall', hpast'⟩ := hstep.isPast hunborn hcall hpast
      exact ⟨c, call', List.mem_append_left _ hnamed, hcall', hpast'⟩
    · exact ⟨c, call, List.mem_append_left _ hnamed, hcall, hpast⟩
  waits := by
    intro c call' handle hcall' hstage' haborted
    rw [htasks] at haborted
    rcases hstep.waiting_origin hcall' hstage' with
      ⟨call, hcall, hstage, hturn⟩ | ⟨hb, call, hcall, hstage, -⟩
    · rw [hturn] at haborted
      exact hkept handle (h.waits c call handle hcall hstage haborted)
    · exact hnotify c call handle hb hcall hstage
  enrolled := by
    rw [htasks]
    exact h.enrolled.step hcancel hstep

/-- The approver goes on, and no notice is sent. -/
theorem Posted.calls_same (h : Posted tr s) (hunborn : ∀ c, s.approver.nextToken ≤ c →
      s.approver.calls c = none) {b : RemoteApprover.Action} {os₁ : List RemoteApprover.Obs}
    (hstep : RemoteApprover.Step s.approver b s'.approver os₁) (hcancel : b ≠ .cancelPending)
    (hnotify : ∀ c, b ≠ .notify c) (htasks : s'.tasks = s.tasks)
    (hplaces : places (tr ++ os) s' = places tr s) : Posted (tr ++ os) s' := by
  refine h.calls hunborn hstep hcancel htasks ?_ ?_ ?_ (fun c _ _ hb => absurd hb (hnotify c))
  · rw [hplaces]
    exact fun _ hmem => hmem
  · rw [hplaces]
    exact h.nodup
  · rw [hplaces]
    exact fun _ hmem => Or.inl hmem

/-- A notice is sent: the handle is at no place yet. -/
theorem Posted.notify (h : Posted tr s)
    (hhandles : RemoteApprover.Handles (approverTrace tr) s.approver)
    (hunborn : ∀ c, s.approver.nextToken ≤ c → s.approver.calls c = none)
    (hfresh : (drawn tr).Nodup)
    {c : Nat} {handle : Text} {call : ApproveCall} (hcall : s.approver.calls c = some call)
    (hstage : call.stage = .registered handle) :
    Posted (tr ++ []) { s with
      approver := s.approver.setStage c call (.waiting handle)
      approvals := s.approvals ++ [(call.turn, call.notice handle)] } := by
  have hnamed : .named c handle ∈ approverTrace tr :=
    hhandles.drawn c call handle hcall (by rw [hstage]; rfl)
  have hnames : (RemoteApprover.names (approverTrace tr)).Nodup := hfresh.sublist (names_sublist tr)
  have hplaces : (places (tr ++ []) { s with
      approver := s.approver.setStage c call (.waiting handle)
      approvals := s.approvals ++ [(call.turn, call.notice handle)] }).Perm
        (handle :: places tr s) := by
    rw [places, places, List.append_nil, List.map_append, ← List.cons_append, ← List.cons_append,
      ← List.cons_append]
    exact .append_right _ (.append_right _ (.append_right _ (List.perm_append_singleton ..)))
  have habsent : handle ∉ places tr s := by
    intro hmem
    obtain ⟨c', call', hnamed', hcall', hpast⟩ := h.known handle hmem
    obtain rfl := RemoteApprover.named_inj hnames hnamed (mem_approverTrace.mpr hnamed')
    obtain rfl := Option.some.inj (hcall.symm.trans hcall')
    rw [hstage] at hpast
    cases hpast
  refine h.calls hunborn (.move hcall (.notified hstage)) (fun h => by cases h) rfl ?_ ?_ ?_ ?_
  · exact fun _ hmem => hplaces.mem_iff.mpr (List.mem_cons_of_mem _ hmem)
  · exact hplaces.nodup_iff.mpr (List.nodup_cons.mpr ⟨habsent, h.nodup⟩)
  · intro handle' hmem
    rcases List.mem_cons.mp (hplaces.mem_iff.mp hmem) with rfl | hold
    · exact Or.inr ⟨c, _, mem_approverTrace.mp hnamed, Function.update_self .., rfl⟩
    · exact Or.inl hold
  · intro c' call' handle' hb hcall' hstage'
    obtain rfl := RemoteApprover.Action.notify.inj hb
    obtain rfl := Option.some.inj (hcall.symm.trans hcall')
    obtain rfl := Stage.registered.inj (hstage.symm.trans hstage')
    exact hplaces.mem_iff.mpr (List.mem_cons_self ..)

/-- Nothing changes place. -/
theorem Posted.frame (h : Posted tr s) (hos : ∀ held, .enqueued held ∉ os)
    (happrovals : s'.approvals = s.approvals) (hbarrier : s'.approvalBarrier = s.approvalBarrier)
    (hpending : heldHandles s'.pendingEvent = heldHandles s.pendingEvent)
    (happrover : s'.approver = s.approver) (hlive : ∀ turn, turn < s.nextTurn →
      (s'.tasks turn).aborted = false → (s.tasks turn).aborted = false)
    (hstarted : Started tr s) : Posted (tr ++ os) s' := by
  refine h.moves ?_ happrover (fun c call hcall => hlive call.turn (hstarted.calls c call hcall))
  rw [places_same hos happrovals hbarrier hpending]

theorem breakLoop_live (result : Ended) (h : ((s.breakLoop result).tasks turn).aborted = false) :
    (s.tasks turn).aborted = false := by
  cases haborted : (s.tasks turn).aborted with
  | false => rfl
  | true => cases h.symm.trans (breakLoop_aborted result haborted)

theorem abortTask_live {turn' : Nat} (h : (s.abortTask turn' turn).aborted = false) :
    (s.tasks turn).aborted = false := by
  cases haborted : (s.tasks turn).aborted with
  | false => rfl
  | true => cases h.symm.trans (abortTask_aborted turn' haborted)

theorem join_held (outcome : Outcome Message) : (s.join outcome).pendingEvent = s.pendingEvent ∨
    heldHandles (s.join outcome).pendingEvent = [] := by
  cases outcome with
  | failed error => exact Or.inr rfl
  | _ => exact Or.inl rfl

theorem join_approvals_sublist (outcome : Outcome Message) :
    (s.join outcome).approvals.Sublist s.approvals := by
  cases outcome with
  | ok finalMessages => exact List.nil_sublist _
  | _ => exact .refl _

theorem Posted.step (h : Posted tr s) (hstarted : Started tr s) (hattended : Attended s)
    (hhandles : RemoteApprover.Handles (approverTrace tr) s.approver)
    (hunborn : ∀ c, s.approver.nextToken ≤ c → s.approver.calls c = none)
    (hfresh : (drawn tr).Nodup)
    (hstep : Step setup s a s' os) : Posted (tr ++ os) s' := by
  have hnone : ∀ held : Held, (.enqueued held : Obs Message) ∉ [] := fun _ => List.not_mem_nil
  have hdone : ¬s.pc.follows = true → ∀ c call, s.approver.Busy c call →
      (s.tasks call.turn).aborted = true :=
    fun hpc c call hbusy => hattended.aborted hbusy (fun hfollows => hpc hfollows.2)
  cases hstep with
  | takeNotice hpc hactive hbarrier happrovals =>
      exact h.moves (places_takeNotice hbarrier happrovals) rfl (fun _ _ _ h => h)
  | holdNotice hpc hactive hpending hbarrier hevents hopen =>
      refine h.moves ?_ rfl (fun _ _ _ h => h)
      rw [places_holdNotice hpending hbarrier]
  | enqueue hpc hpending hsends => exact h.moves (places_enqueue hpending) rfl (fun _ _ _ h => h)
  | terminalHeld hpc hpending hsends =>
      exact h.moves (places_enqueue hpending) rfl (fun _ _ _ h => h)
  | @dropBarrier handle turn barrier hpc hactive hpending hbarrier hevents hclosed =>
      -- the sender is gone, and with it the calls
      refine h.leave (places_sublist hnone (.refl _) (Or.inr rfl) (Or.inl rfl)) rfl ?_
      intro c call hbusy
      refine hattended.aborted hbusy fun hfollows => ?_
      obtain rfl := Option.some.inj (hactive.symm.trans hfollows.1)
      cases hclosed.symm.trans (hattended.calls c call hbusy).2.1
  | cancelCompleted hpc houtcome | cancelDeadline hpc =>
      refine h.leave (places_sublist (by simp) (List.nil_sublist _) (Or.inr rfl)
        (Or.inr (heldHandles_keepOrdinary _))) rfl (hdone ?_)
      rw [hpc]
      exact Bool.false_ne_true
  | stopDone hpc =>
      refine h.leave (places_sublist (by simp) (List.nil_sublist _) (Or.inl rfl)
        (Or.inr (heldHandles_keepOrdinary _))) rfl (hdone ?_)
      rw [hpc]
      exact Bool.false_ne_true
  | abortDone hpc =>
      refine h.leave (places_sublist (by simp) (List.nil_sublist _) (Or.inl rfl) (Or.inl rfl)) rfl
        (hdone ?_)
      rw [hpc]
      exact Bool.false_ne_true
  | @joinTurn turn outcome hpc houtcome =>
      refine h.leave (places_sublist (by simp) (join_approvals_sublist outcome)
        (Or.inl (join_barrier s outcome)) (join_held outcome)) (by rw [join_approver]) ?_
      intro c call hbusy
      exact join_aborted outcome (hdone (by rw [hpc]; exact Bool.false_ne_true) c call hbusy)
  | @holdEvent a handle turn event rest hpc hactive hpending hevents ha =>
      refine h.frame (fun held hmem => by simp [Worker.holdEvent] at hmem) rfl rfl ?_ rfl
        (fun _ _ h => of_update_task AgentTask.aborted h rfl) hstarted
      rw [hpending]
      exact heldHandles_core rfl
  | @approve callId decision hpc =>
      refine h.calls_same hunborn (RemoteApprover.resolve_step s.approver callId decision)
        (fun h => by cases h) (fun _ h => by cases h) rfl ?_
      exact places_same (fun held hmem => by simp [Worker.approve] at hmem) rfl rfl rfl
  | call hallows hcalled =>
      refine h.calls_same hunborn (RemoteApprover.step_cases hcalled) ?_ ?_ rfl ?_
      · rintro rfl
        exact hallows
      · rintro c rfl
        exact hallows
      · exact places_same (fun held hmem => by simp at hmem) rfl rfl rfl
  | name hcall hstage =>
      refine h.calls_same hunborn (.move hcall (.named hstage)) (fun h => by cases h)
        (fun _ h => by cases h) rfl ?_
      exact places_same (fun held hmem => by simp at hmem) rfl rfl rfl
  | notify hcall hstage => exact h.notify hhandles hunborn hfresh hcall hstage
  | startTurn hpc hactive hpending =>
      refine h.frame (fun held hmem => by simp [Worker.startTurn] at hmem) rfl rfl rfl rfl ?_
        hstarted
      intro turn hturn haborted
      exact (congrArg AgentTask.aborted (Function.update_of_ne (Nat.ne_of_lt hturn) ..)).symm.trans
        haborted
  | cancel hpc hactive => exact h.frame hnone rfl rfl rfl rfl (fun _ _ => abortTask_live) hstarted
  | stop hpc hactive => exact h.frame hnone rfl rfl rfl rfl (fun _ _ => abortTask_live) hstarted
  | commandsClosed hpc => exact h.frame hnone rfl rfl rfl rfl (fun _ _ => breakLoop_live _) hstarted
  | commandError hpc => exact h.frame hnone rfl rfl rfl rfl (fun _ _ => breakLoop_live _) hstarted
  | writerGone hpc hpending hwriter =>
      exact h.frame hnone rfl rfl rfl rfl (fun _ _ => breakLoop_live _) hstarted
  | terminalGiveUp hpc => exact h.frame hnone rfl rfl rfl rfl (fun _ _ => breakLoop_live _) hstarted
  | @terminalEvent event result hpc hpending hsends =>
      exact h.frame (by simp) rfl rfl rfl rfl (fun _ _ => breakLoop_live result) hstarted
  | emit hturn hopen =>
      exact h.frame (by simp) rfl rfl rfl rfl (fun _ _ h => of_update_task AgentTask.aborted h rfl)
        hstarted
  | closeEvents hturn =>
      exact h.frame hnone rfl rfl rfl rfl (fun _ _ h => of_update_task AgentTask.aborted h rfl)
        hstarted
  | finish hturn hrunning =>
      exact h.frame (by simp) rfl rfl rfl rfl (fun _ _ h => of_update_task AgentTask.aborted h rfl)
        hstarted
  | _ => exact h.frame hnone rfl rfl rfl rfl (fun _ _ h => h) hstarted

/-- What holds an event is not given another one. -/
theorem Step.held_kept (h : Step setup s a s' os) {held held' : Held}
    (hheld : s.pendingEvent = some held) (hheld' : s'.pendingEvent = some held') :
    held' = held := by
  have hsame : s.pendingEvent = some held' → held' = held :=
    fun h => Option.some.inj (h.symm.trans hheld)
  cases h with
  | holdEvent hpc hactive hpending hevents ha => cases hpending.symm.trans hheld
  | holdNotice hpc hactive hpending hbarrier hevents hopen => cases hpending.symm.trans hheld
  | enqueue hpc hpending hsends => cases hheld'
  | terminalHeld hpc hpending hsends => cases hheld'
  | cancelCompleted hpc houtcome => exact hsame (keepOrdinary_eq_some hheld')
  | cancelDeadline hpc => exact hsame (keepOrdinary_eq_some hheld')
  | stopDone hpc => exact hsame (keepOrdinary_eq_some hheld')
  | joinTurn hpc houtcome => exact hsame (join_pending hheld')
  | _ => exact hsame hheld'

theorem Step.barrier_kept (h : Step setup s a s' os) {notice notice' : Nat × ApprovalNotice}
    (hbarrier : s.approvalBarrier = some notice) (hbarrier' : s'.approvalBarrier = some notice') :
    notice' = notice := by
  have hsame : s.approvalBarrier = some notice' → notice' = notice :=
    fun h => Option.some.inj (h.symm.trans hbarrier)
  cases h with
  | takeNotice hpc hactive hnone happrovals => cases hnone.symm.trans hbarrier
  | holdNotice hpc hactive hpending hold hevents hopen => cases hbarrier'
  | dropBarrier hpc hactive hpending hold hevents hclosed => cases hbarrier'
  | cancelCompleted hpc houtcome => cases hbarrier'
  | cancelDeadline hpc => cases hbarrier'
  | joinTurn hpc houtcome => exact hsame (by rwa [join_barrier] at hbarrier')
  | _ => exact hsame hbarrier'

/-- The assumptions on the tasks: their calls of `approve` are made in them,
and each keeps its sender until its calls have ended. -/
def Attending (_ : List (Obs Message)) (s : Worker Message) (a : Action Message) : Prop :=
  inTask s a = true ∧ keepsSender s a = true

theorem run_attended (h : (machine setup).Run Attending tr s) : Attended s := by
  refine h.invariant (I := fun _ s => Attended s) (Attended.start setup) ?_
  intro tr os s s' a hrun hinv ha hstep
  exact hinv.step (RemoteApprover.run_sound (run_approver hrun)).1.unborn ha.1 ha.2
    (step_cases hstep)

theorem run_posted (h : (machine setup).Run Attending tr s) : (drawn tr).Nodup → Posted tr s := by
  refine h.invariant (I := fun tr s => (drawn tr).Nodup → Posted tr s)
    (fun _ => Posted.start setup) ?_
  intro tr os s s' a hrun hinv _ hstep hfresh
  have hfresh : (drawn tr).Nodup := by
    rw [drawn_append] at hfresh
    exact hfresh.of_append_left
  exact (hinv hfresh).step (run_started hrun) (run_attended hrun)
    (RemoteApprover.run_handles (run_approver hrun))
    (RemoteApprover.run_sound (run_approver hrun)).1.unborn hfresh (step_cases hstep)

/-- In every run in which the calls of `approve` are made in tasks that keep
their senders until these have ended, and no handle is drawn twice: the
request of a call that waits, and whose turn was not cancelled or
terminated, is at one place, once, and resolving it returns true. What is
held, and what the barrier holds, is never replaced. -/
theorem approval_in_one_place (h : (machine setup).Run Attending tr s) (hfresh : (drawn tr).Nodup) :
    (∀ c call handle, s.approver.calls c = some call → call.stage = .waiting handle →
      call.reply = none → (s.tasks call.turn).aborted = false →
        (places tr s).count handle = 1 ∧ s.approver.pending handle = some ⟨c, call.tool⟩ ∧
        ∀ decision, (s.approver.resolve handle decision).2 =
          [.resolved handle decision call.tool]) ∧
    ∀ a s' os, step setup s a = some (s', os) →
      (∀ held held', s.pendingEvent = some held → s'.pendingEvent = some held' → held' = held) ∧
      ∀ notice notice', s.approvalBarrier = some notice → s'.approvalBarrier = some notice' →
        notice' = notice := by
  have hposted := run_posted h hfresh
  refine ⟨fun c call handle hcall hstage hreply haborted => ?_, fun a s' os hstep => ⟨?_, ?_⟩⟩
  · have hopen : s.approver.Unresolved c call handle :=
      ⟨hcall, by rw [hstage]; rfl, by rw [hstage]; rfl, hreply⟩
    have hentry := hposted.enrolled c call handle hopen haborted
    have hwaits := hposted.waits c call handle hcall hstage haborted
    exact ⟨List.count_eq_one_of_mem hposted.nodup hwaits, hentry, hopen.resolve hentry⟩
  · exact fun _ _ => (step_cases hstep).held_kept
  · exact fun _ _ => (step_cases hstep).barrier_kept

/-- A request is in the barrier while an event of its turn goes out. -/
theorem approval_in_one_place_barrier : ∃ (tr : List (Obs Text)) (s : Worker Text),
    (machine (plainSetup ["bash".toList])).Run Attending tr s ∧
    s.approvalBarrier = some (0, ⟨"h".toList, "bash".toList, "null".toList⟩) ∧
    (places tr s).count "h".toList = 1 := by
  have hrun : (machine (plainSetup ["bash".toList])).Run Attending _ _ :=
    Machine.Run.exec (fun _ s a => inTask s a && keepsSender s a)
      (fun _ _ _ h => by simpa [Attending] using h)
      [.command (.input "run".toList), .startTurn, .emit 0 (.textDelta "a".toList),
        .call (.request 0 "p".toList "bash".toList .null), .call (.check 0),
        .call (.name 0 "h".toList), .call (.register 0), .call (.notify 0), .takeEvent [],
        .takeNotice]
      .start rfl
  refine ⟨_, _, hrun, rfl, ?_⟩
  exact ((approval_in_one_place hrun (by decide)).1 0 _ "h".toList rfl rfl rfl rfl).1

end Worker

end PeakcodeDaemon
