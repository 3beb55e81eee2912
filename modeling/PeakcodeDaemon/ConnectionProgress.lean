import PeakcodeDaemon.Outbound
import PeakcodeDaemon.Progress

/-!
# Commands get through

Nothing the writer awaits is in the way of a command. A peer that reads
nothing leaves the connection with its *silent* steps: the reader, the
coordinator, the writer or a call of `approve` takes one by itself, and no
byte goes out (`Step.silent_wire`). The writer's line feed is not one of
them, its refusal of a frame that is too large is. What is proved of them:

- **they end** (`Step.work`): each lowers `work`, in which a command in the
  channel counts for what it may lead to in the worker, so a schedule of
  silent steps is no longer than the work of the state it starts in;
- **they lead to rest** (`Machine.settles`, for the connection restricted to
  its silent steps);
- **rest is caught up** (`AtRest.reads`, `AtRest.commands`,
  `AtRest.reader`): in its loop the coordinator reads commands or has
  something else to do, so at rest the channel is empty, and the reader has
  nothing in its buffer but the beginning of a line.

`commands_get_through` puts the three together. The measure `work` and the
steps the connection takes by itself (`Action.own`, which has the line feed
too) are used again for the end of a connection in `EndToEnd`.
-/

namespace PeakcodeDaemon

namespace RemoteApprover

variable {s : RemoteApprover}

/-- A decision is no work; that it was received is. -/
theorem work_resolve (hunborn : ∀ c, s.nextToken ≤ c → s.calls c = none) (callId : Text)
    (decision : IpcApprovalDecision) : (s.resolve callId decision).1.work = s.work := by
  unfold resolve
  split
  · rfl
  · rename_i approval hpending
    split
    · rfl
    · rename_i call hcall
      split
      · have hsum := Machine.sum_update callWork s.calls (born hunborn hcall)
          (some { call with reply := some (s.coreDecision decision approval.tool) })
        rw [hcall] at hsum
        exact Nat.add_right_cancel hsum
      · rfl

end RemoteApprover

namespace Worker

variable {Message : Type} {setup : Setup Message} {s s' : Worker Message}
  {os : List (Obs Message)}

/-- A command makes at most as much work as an input. -/
theorem step_command_work {command : DaemonCommand}
    (hunborn : ∀ c, s.approver.nextToken ≤ c → s.approver.calls c = none)
    (h : step setup s (.command command) = some (s', os)) : s'.work ≤ s.work + 3 := by
  cases step_cases h with
  | queueInput hpc =>
      simp [work, queueInput, turnWork]
      omega
  | overflow hpc =>
      simp [work, sendOrdered, turnWork, hpc, Pc.work]
      omega
  | approve hpc =>
      have := RemoteApprover.work_resolve hunborn
      simp [work, approve, turnWork, this]
  | ignoreCancel hpc hactive => exact Nat.le_add_right _ _
  | cancel hpc hactive =>
      simp [work, turnWork, hpc, Pc.work]
      omega
  | stop hpc hactive =>
      simp [work, turnWork, hpc, Pc.work]
      omega
  | stopInactive hpc hactive =>
      simp [work, sendOrdered, turnWork, hpc, Pc.work]
      omega
  | holdEvent hpc hactive hpending hevents hown => rcases hown with hown | hown <;> cases hown

theorem breakLoop_work_lt (hpc : s.pc = .running) (result : Ended) :
    (s.breakLoop result).work < s.work := by
  have hwork := breakLoop_work s result
  rw [hpc] at hwork
  simp only [Pc.work] at hwork
  omega

theorem step_commandError_work {error : Text}
    (h : step setup s (.commandError error) = some (s', os)) : s'.work < s.work := by
  cases step_cases h with
  | commandError hpc => exact breakLoop_work_lt hpc _
  | holdEvent hpc hactive hpending hevents hown => rcases hown with hown | hown <;> cases hown

theorem step_commandsClosed_work (h : step setup s .commandsClosed = some (s', os)) :
    s'.work < s.work := by
  cases step_cases h with
  | commandsClosed hpc => exact breakLoop_work_lt hpc _
  | holdEvent hpc hactive hpending hevents hown => rcases hown with hown | hown <;> cases hown

end Worker

/-! ## The reader's part -/

/-- What the command reader has still to do by itself. -/
def ReaderTask.work : ReaderTask → Nat
  | .reading _ buffered => 1 + 20 * buffered.length
  | .sending (.ok _) buffered => 12 + 20 * buffered.length
  | .sending (.error _) _ => 12
  | .finished | .panicked _ | .aborted => 0

@[simp] theorem ReaderTask.work_reading (payload buffered : Bytes) :
    (ReaderTask.reading payload buffered).work = 1 + 20 * buffered.length := rfl

@[simp] theorem ReaderTask.work_finished : ReaderTask.finished.work = 0 := rfl

@[simp] theorem ReaderTask.work_aborted : ReaderTask.aborted.work = 0 := rfl

theorem ReaderTask.work_pos {reader : ReaderTask} (h : reader.isOver = false) :
    0 < reader.work := by
  cases reader with
  | reading payload buffered => exact Nat.lt_add_right _ Nat.one_pos
  | sending result buffered =>
      cases result with
      | ok command => exact Nat.lt_add_right _ (by decide)
      | error error => exact Nat.succ_pos 11
  | finished | panicked error | aborted => cases h

/-- A complete line takes its bytes and its line feed from the buffer. -/
theorem readRound_left {payload available line left : Bytes}
    (h : readRound payload available = .ok (.line line left)) : left.length < available.length := by
  unfold readRound at h
  split at h
  · rename_i pos hpos
    obtain ⟨hlt, -⟩ := List.idxOf?_eq_some_iff.mp hpos
    unfold usizeSub at h
    split at h
    · simp only [Except.bind] at h
      split at h
      · cases h
      · obtain ⟨-, rfl⟩ := Round.line.inj (Except.ok.inj h)
        rw [List.length_drop]
        omega
    · cases h
  · unfold usizeSub at h
    split at h
    · simp only [Except.bind] at h
      split at h <;> cases h
    · cases h

namespace Connection

variable {Message : Type} {setup : Setup Message} {fromSlice : Bytes → Except Text DaemonCommand}
  {tr os : List (Obs Message)} {s s' : Connection Message} {a : Action Message}

theorem readerRound_work {payload buffered : Bytes} (hne : buffered ≠ []) :
    (readerRound fromSlice payload buffered).work < 1 + 20 * buffered.length := by
  have hpos := List.length_pos_of_ne_nil hne
  unfold readerRound
  split
  · exact Nat.lt_add_right _ Nat.one_pos
  · simp only [ReaderTask.work]
    omega
  · rename_i line left hround
    have hless := readRound_left hround
    cases fromSlice line with
    | ok command => simp only [ReaderTask.work]; omega
    | error error => simp only [ReaderTask.work]; omega
  · simp only [ReaderTask.work, List.length_nil]
    omega

theorem afterSend_work (buffered : Bytes) (result : Except Text DaemonCommand) :
    (afterSend buffered result).work + 11 ≤ (ReaderTask.sending result buffered).work := by
  cases result with
  | ok command => simp only [afterSend, ReaderTask.work]; omega
  | error error => simp only [afterSend, ReaderTask.work]; omega

/-! ## The connection's own steps -/

/-- The reader, the coordinator, the writer or a call of `approve` takes the
step by itself: nothing arrives on the socket, no agent acts and no deadline
passes. The writer may end a line, if the socket takes the line feed. -/
def Action.own : Action Message → Bool
  | .round | .sendCommand | .readerAborted | .receive | .joinReader => true
  | .worker a => a.own
  | .fill _ | .endOfStream | .readFail _ | .joinDeadline | .write _ => false

/-- The step puts the line feed behind a frame on the wire. -/
def endsLine (s : Connection Message) : Action Message → Bool
  | .worker .writerWrite => match s.worker.writer with
      | .writing frame => frame.fits
      | _ => false
  | _ => false

/-- A step the connection takes by itself even if the socket takes no byte. -/
def silent (s : Connection Message) (a : Action Message) : Bool := a.own && !s.endsLine a

/-- What is left to do. A command in the channel counts for what it may lead
to in the worker. -/
def work (s : Connection Message) : Nat :=
  s.worker.work + 10 * s.commands.length + s.reader.work + if s.joined.isNone then 1 else 0

theorem Step.work (h : Step setup fromSlice s a s' os) (ha : a.own = true)
    (hunborn : ∀ c, s.worker.approver.nextToken ≤ c → s.worker.approver.calls c = none) :
    s'.work < s.work := by
  have hworker : ∀ {b : Worker.Action Message} {worker : Worker Message}
      {os : List (Worker.Obs Message)}, Worker.step setup s.worker b = some (worker, os) →
        b.own = true → worker.work < s.worker.work :=
    fun hs hown => Worker.step_work hs hown hunborn
  cases h with
  | @round payload bytes byte hreader =>
      have hround : (readerRound fromSlice payload (byte :: bytes)).work < _ :=
        readerRound_work (List.cons_ne_nil byte bytes)
      simp only [Connection.work, hreader, ReaderTask.work_reading]
      omega
  | @sendCommand result buffered hreader hroom =>
      have hsent := afterSend_work buffered result
      simp only [Connection.work, hreader, List.length_append, List.length_cons, List.length_nil]
      omega
  | @sendClosed result buffered returned hreader hpc =>
      have hpos : 0 < s.reader.work := ReaderTask.work_pos (by rw [hreader]; rfl)
      simp only [Connection.work, ReaderTask.work_finished]
      omega
  | readerAborted hpc hover =>
      have hpos := ReaderTask.work_pos hover
      simp only [Connection.work, ReaderTask.work_aborted]
      omega
  | @receive result rest worker os hcommands hs =>
      have hmore : worker.work ≤ s.worker.work + 3 := by
        cases result with
        | ok command => exact Worker.step_command_work hunborn hs
        | error error => exact Nat.le_add_right_of_le (Worker.step_commandError_work hs).le
      simp only [Connection.work, hcommands, List.length_cons]
      omega
  | receiveClosed hcommands hover hs =>
      have hless := Worker.step_commandsClosed_work hs
      simp only [Connection.work]
      omega
  | joinReader hpc hjoined hreader =>
      simp only [Connection.work, hjoined]
      simp
  | close hpc hjoined hwritten hs =>
      have hless := hworker hs ha
      simp only [Connection.work]
      omega
  | lineFeed hwriter hfits hsent hs =>
      have hless := hworker hs ha
      simp only [Connection.work]
      omega
  | worker hfree hs =>
      have hless := hworker hs ha
      simp only [Connection.work]
      omega
  | fill hreader => cases ha
  | endClean hreader => cases ha
  | endPartial hreader hne => cases ha
  | readFail hreader => cases ha
  | joinDeadline hpc hjoined => cases ha
  | write hwriter hfits hpos hn => cases ha

theorem silent_own (h : s.silent a = true) : a.own = true := (Bool.and_eq_true_iff.mp h).1

/-- Nothing goes out in a silent step. -/
theorem Step.silent_wire (h : Step setup fromSlice s a s' os) (ha : s.silent a = true) :
    s'.wire = s.wire := by
  cases h with
  | lineFeed hwriter hfits hsent hs => simp [silent, endsLine, hwriter, hfits] at ha
  | write hwriter hfits hpos hn => cases ha
  | _ => rfl

/-- Bytes come with a `fill`. -/
theorem Step.arrived (h : Step setup fromSlice s a s' os) (ha : ∀ bytes, a ≠ .fill bytes) :
    arrived (tr ++ os) = arrived tr := by
  cases h with
  | fill hreader => exact absurd rfl (ha _)
  | receive hcommands hs => exact (internal_shown _ _).arrived
  | receiveClosed hcommands hover hs => exact (internal_shown _ _).arrived
  | close hpc hjoined hwritten hs => exact (internal_shown _ _).arrived
  | lineFeed hwriter hfits hsent hs => exact (internal_shown _ _).arrived
  | worker hfree hs => exact (internal_shown _ _).arrived
  | _ =>
      rw [arrived_append]
      exact List.append_nil _

/-! ## At rest -/

/-- Nothing is left that the connection does by itself without the socket. -/
def AtRest (setup : Setup Message) (fromSlice : Bytes → Except Text DaemonCommand)
    (s : Connection Message) : Prop :=
  ∀ a : Action Message, s.silent a = true → step setup fromSlice s a = none

/-- The worker is at rest, where the connection has no part in its step. -/
theorem AtRest.worker (h : AtRest setup fromSlice s) {b : Worker.Action Message}
    (hsilent : s.silent (.worker b) = true) (hfree : s.stepWorker setup b = s.advance setup b) :
    Worker.step setup s.worker b = none :=
  Option.map_eq_none_iff.mp (hfree.symm.trans (h (.worker b) hsilent))

/-- In the loop the coordinator reads commands, or has something else to do. -/
theorem AtRest.reads (h : AtRest setup fromSlice s) (hpc : s.worker.pc = .running) :
    s.worker.readsCommands = true := by
  cases hpending : s.worker.pendingEvent with
  | some held =>
      cases hactive : s.worker.active <;> simp [Worker.readsCommands, hactive, hpending]
  | none =>
      cases hactive : s.worker.active with
      | none =>
          cases hqueued : s.worker.queuedInputs with
          | nil => simp [Worker.readsCommands, hactive, hpending, hqueued]
          | cons text rest =>
              have hstep := h.worker (b := .startTurn) rfl rfl
              simp [Worker.step, hpc, hactive, hpending, hqueued] at hstep
      | some turn =>
          cases hbarrier : s.worker.approvalBarrier with
          | none => simp [Worker.readsCommands, hactive, hpending, hbarrier]
          | some barrier =>
              have hstep := h.worker (b := .barrier []) rfl rfl
              simp [Worker.step, hpc, hactive, hpending, hbarrier] at hstep

/-- So the channel is empty, and there is still a sender. -/
theorem AtRest.commands (h : AtRest setup fromSlice s) (hpc : s.worker.pc = .running) :
    s.commands = [] ∧ s.reader.isOver = false := by
  have hreads := h.reads hpc
  have hreceive : s.receive setup = none := h .receive rfl
  cases hcommands : s.commands with
  | cons result rest =>
      cases result <;>
        simp [receive, hcommands, advance, Worker.step, hpc, hreads] at hreceive
  | nil =>
      refine ⟨rfl, ?_⟩
      cases hover : s.reader.isOver with
      | false => rfl
      | true => simp [receive, hcommands, hover, advance, Worker.step, hpc, hreads] at hreceive

/-- And the reader waits for the socket. -/
theorem AtRest.reader (h : AtRest setup fromSlice s) (hpc : s.worker.pc = .running) :
    ∃ payload, s.reader = .reading payload [] := by
  obtain ⟨hcommands, hover⟩ := h.commands hpc
  cases hreader : s.reader with
  | reading payload buffered =>
      cases buffered with
      | nil => exact ⟨payload, rfl⟩
      | cons byte bytes =>
          have hstep := h .round rfl
          simp [step, hreader] at hstep
  | sending result buffered =>
      have hstep := h .sendCommand rfl
      simp [step, sendCommand, hreader, hpc, hcommands, workerCommandChannelCapacity] at hstep
  | finished | panicked error | aborted => rw [hreader] at hover; cases hover

/-- The coordinator has every command whose line has arrived; what is left is
the beginning of a line. -/
def CaughtUp (fromSlice : Bytes → Except Text DaemonCommand) (tr : List (Obs Message)) : Prop :=
  ∃ (done : List DaemonCommand) (payload : Bytes), taken tr = done.map .ok ∧ lineFeed ∉ payload ∧
    Follows fromSlice (arrived tr) payload (done.map .ok)

theorem AtRest.caughtUp (h : AtRest setup fromSlice s) (hpc : s.worker.pc = .running)
    (hconveyed : Conveyed fromSlice tr s) : CaughtUp fromSlice tr := by
  obtain ⟨payload, hreader⟩ := h.reader hpc
  rw [Conveyed, hreader, (h.commands hpc).1, List.append_nil] at hconveyed
  obtain ⟨-, -, hopen, done, hdone, hfollows⟩ := hconveyed
  rw [List.append_nil] at hfollows
  exact ⟨done, payload, hdone, hopen, hfollows⟩

/-- In every run the silent steps are bounded by the work of the state, and
some of them bring the connection to rest. Not a byte comes in or goes out
meanwhile; and at rest, if the coordinator is still in its loop, it has taken
every command whose line has arrived. -/
theorem commands_get_through {C : List (Obs Message) → Connection Message → Action Message → Prop}
    (h : (machine setup fromSlice).Run C tr s) :
    (∃ as tr' s', ((machine setup fromSlice).restrict silent).Takes s as tr' s' ∧
      AtRest setup fromSlice s') ∧
    ∀ as tr' s', ((machine setup fromSlice).restrict silent).Takes s as tr' s' →
      as.length ≤ s.work ∧ s'.wire = s.wire ∧ arrived (tr ++ tr') = arrived tr ∧
      (AtRest setup fromSlice s' → s'.worker.pc = .running → CaughtUp fromSlice (tr ++ tr')) := by
  obtain ⟨hrests, hbound⟩ := Machine.settles (M := (machine setup fromSlice).restrict silent)
    (fun _ => true) work
    (P := fun now s' => (machine setup fromSlice).Run (fun _ _ _ => True) now s' ∧
      s'.wire = s.wire ∧ arrived now = arrived tr)
    (fun {now os s s' a} ⟨hrun, hwire, harrived⟩ _ hs => by
      obtain ⟨hsilent, hstep⟩ := Machine.restrict_step_eq_some.mp hs
      have hunborn := (RemoteApprover.run_sound (Worker.run_approver (run_observed hrun))).1.unborn
      have hown := silent_own hsilent
      refine ⟨⟨.step hrun True.intro hstep, ?_, ?_⟩, (step_cases hstep).work hown hunborn⟩
      · rw [(step_cases hstep).silent_wire hsilent, hwire]
      · exact ((step_cases hstep).arrived fun _ hfill => by rw [hfill] at hown; cases hown).trans
          harrived)
    ⟨h.mono fun _ _ _ _ => True.intro, rfl, rfl⟩
  constructor
  · obtain ⟨as, tr', s', htakes, -, hrest⟩ := hrests
    exact ⟨as, tr', s', htakes, fun a => Machine.restrict_step_eq_none.mp (hrest a rfl)⟩
  · intro as tr' s' htakes
    obtain ⟨hlength, hrun', hwire, harrived⟩ := hbound as tr' s' htakes fun _ _ => rfl
    exact ⟨hlength, hwire, harrived, fun hrest hpc => hrest.caughtUp hpc (run_conveyed hrun')⟩

/-- A `cancel` has arrived. -/
theorem commands_get_through_cancel : ∃ (tr : List (Obs Text)) (s : Connection Text),
    (machine (plainSetup []) cancelOrAllow).Run (fun _ _ _ => True) tr s ∧
    arrived tr = DaemonCommand.json .cancel ++ [PeakcodeDaemon.lineFeed] ∧
    ∃ as tr' s', ((machine (plainSetup []) cancelOrAllow).restrict silent).Takes s as tr' s' ∧
      as.length ≤ s.work ∧ s'.wire = s.wire ∧ AtRest (plainSetup []) cancelOrAllow s' ∧
      (s'.worker.pc = .running → CaughtUp cancelOrAllow (tr ++ tr')) := by
  have hrun : (machine (plainSetup []) cancelOrAllow).Run (fun _ _ _ => True) _ _ :=
    Machine.Run.exec (fun _ _ _ => true) (fun _ _ _ _ => trivial)
      [.fill (DaemonCommand.json .cancel ++ [PeakcodeDaemon.lineFeed])] .start rfl
  obtain ⟨⟨as, tr', s', htakes, hrest⟩, hevery⟩ := commands_get_through hrun
  obtain ⟨hlength, hwire, -, hcaught⟩ := hevery as tr' s' htakes
  exact ⟨_, _, hrun, rfl, as, tr', s', htakes, hlength, hwire, hrest, hcaught hrest⟩

end Connection

end PeakcodeDaemon
