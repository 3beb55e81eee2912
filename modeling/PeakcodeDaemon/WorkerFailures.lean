import PeakcodeDaemon.WorkerRuns

/-!
# How a connection fails

An error of the worker is announced: the last frame is the one `Crash`,
and what `run_connection` returns is a text of its own. This is followed
through the places of the coordinator and, over the event channel, through
the writer.

- **the channel** (`Written`, `Written.step`): what was put into it is
  written or about to be, as long as the daemon reads (`drains`) and each
  frame fits, so a crash put into the channel becomes the last frame;
- **the places** (`Phase`, `Phase.step`): in the loop no crash was sent
  (`Quiet`); on the way out an error stands behind the crash that
  announces it (`Failed`), and `Announced` lists which text goes with
  which;
- **tasks** (`Aborted`): a task that ended as cancelled was aborted, so a
  turn that is joined in the loop did not end that way.

Two exits announce nothing, and `reportable` rules out exactly these: a
joined task that panicked, and an event the writer does not accept. The
run `panic_unreported` shows the first. The conditions are on the step to
come, given the state before it, so `failure_reported` is about every run
whose steps meet them.
-/

namespace PeakcodeDaemon

def WorkerEvent.isCrash : WorkerEvent → Bool
  | .crash _ => true
  | _ => false

@[simp] theorem WorkerEvent.isCrash_mapTexts (f : Text → Text) (event : WorkerEvent) :
    (event.mapTexts f).isCrash = event.isCrash := by
  cases event <;> rfl

theorem WorkerEvent.isCrash_of_isTerminal {event : WorkerEvent} (h : event.isTerminal = false) :
    event.isCrash = false := by
  cases event with
  | crash message => cases h
  | _ => rfl

theorem mapAgentEvent_isTerminal (callIds : CallIdMapper) (handle : Text) (event : AgentEvent) :
    (mapAgentEvent callIds handle event).1.isTerminal = false := by
  cases event <;> rfl

/-- No item is sent as a terminal event. -/
theorem Held.isTerminal (held : Held) : held.event.isTerminal = false := by
  have hrenders := held.renders
  cases hitem : held.item with
  | core event =>
      rw [hitem] at hrenders
      obtain ⟨callIds, handle, heq⟩ := hrenders
      rw [heq]
      exact mapAgentEvent_isTerminal callIds handle event
  | approval notice =>
      rw [hitem] at hrenders
      have heq : held.event = mapApprovalNotice notice := hrenders
      rw [heq]
      rfl

def Outcome.isPanicked {Message : Type} : Outcome Message → Bool
  | .panicked _ => true
  | _ => false

/-- What the writer has taken and not yet written. -/
def WriterTask.taken : WriterTask → List WorkerEvent
  | .writing frame => [frame]
  | _ => []

namespace Worker

variable {Message : Type} {setup : Setup Message} {tr os : List (Obs Message)}
  {s s' : Worker Message} {a : Action Message} {turn : Nat}

/-- The daemon keeps the connection open, sends frames that can be read and
drains what is written within the deadlines; a task that was not aborted does
not end as cancelled. -/
def drains (s : Worker Message) : Action Message → Bool
  | .commandError _ | .writerFail _ | .closeDeadline => false
  | .terminalGiveUp => !s.writer.receives
  | .finish turn (.cancelled _) => (s.tasks turn).aborted
  | _ => true

/-- No task that is joined panicked, and the writer accepts what it is given. -/
def reportable (s : Worker Message) : Action Message → Bool
  | .joinTurn => match s.pc with
      | .joining turn => (s.tasks turn).outcome.all fun outcome => !outcome.isPanicked
      | _ => true
  | .writerWrite => match s.writer with
      | .writing frame => frame.fits
      | _ => true
  | _ => true

/-- The message a failure is announced with, and the error it ends with. -/
inductive Announced (tr : List (Obs Message)) : Text → Text → Prop
  | turn {turn : Nat} {message : Text} (hjoined : .joined turn (.failed message) ∈ tr) :
      Announced tr message agentTurnFailed
  | overflow : Announced tr queueLimitExceeded queueLimitExceeded
  | deadline : Announced tr cancellationDeadlineExceeded cancellationDeadlineExceeded

/-- If the connection has failed, its last frame is its one crash. -/
def Reported (setup : Setup Message) (tr : List (Obs Message)) (s : Worker Message) : Prop :=
  ∀ error, s.pc = .returned (.error error) → ∃ past message,
    s.frames = past ++ [.crash (setup.redactor.clean message)] ∧
    (∀ frame ∈ past, frame.isCrash = false) ∧ Announced tr message error

/-! ## The event channel -/

def event? : Obs Message → Option WorkerEvent
  | .enqueued held => some held.event
  | .terminal event => some event
  | _ => none

/-- What was put into the event channel. -/
def events (tr : List (Obs Message)) : List WorkerEvent := tr.filterMap event?

@[simp] theorem events_append : events (tr ++ os) = events tr ++ events os :=
  List.filterMap_append

@[simp] theorem events_map_approver (os : List RemoteApprover.Obs) :
    events (os.map Obs.approver : List (Obs Message)) = [] := by
  rw [events, List.filterMap_map, List.filterMap_eq_nil_iff]
  intro o _
  rfl

@[simp] theorem events_map_drew (handles : List Text) :
    events (handles.map Obs.drew : List (Obs Message)) = [] := by
  rw [events, List.filterMap_map, List.filterMap_eq_nil_iff]
  intro o _
  rfl

/-- The writer runs, or it has ended well with nothing left to write. -/
def Serving (s : Worker Message) : Prop :=
  s.writer.receives = true ∨ s.writer = .finished (.ok ()) ∧ s.outbound = [] ∧
    ∃ result, s.pc = .closing result ∨ s.pc = .returned result

/-- What was put into the event channel is written, or about to be. -/
structure Written (setup : Setup Message) (tr : List (Obs Message)) (s : Worker Message) :
    Prop where
  flow : s.frames ++ s.writer.taken ++ s.outbound.map (WorkerEvent.mapTexts setup.redactor.clean) =
    (events tr).map (WorkerEvent.mapTexts setup.redactor.clean)
  serving : Serving s

theorem Written.start (setup : Setup Message) : Written setup [] (new setup) :=
  ⟨rfl, Or.inl rfl⟩

/-- Nothing is put into the channel and the writer rests. -/
theorem Written.frame (h : Written setup tr s) (hos : events os = [])
    (hframes : s'.frames = s.frames)
    (hwriter : s'.writer = s.writer) (houtbound : s'.outbound = s.outbound)
    (hpc : ∀ result, s.pc = .closing result ∨ s.pc = .returned result →
      ∃ result, s'.pc = .closing result ∨ s'.pc = .returned result) :
      Written setup (tr ++ os) s' where
  flow := by
    rw [events_append, hos, List.append_nil, hframes, hwriter, houtbound]
    exact h.flow
  serving := by
    unfold Serving
    rw [hwriter, houtbound]
    rcases h.serving with halive | ⟨hdone, hempty, result, hat⟩
    · exact Or.inl halive
    · exact Or.inr ⟨hdone, hempty, hpc result hat⟩

/-- An event is put into the channel. -/
theorem Written.send (h : Written setup tr s) {event : WorkerEvent} (hos : events os = [event])
    (hsends : s.sends = true) (hframes : s'.frames = s.frames) (hwriter : s'.writer = s.writer)
    (houtbound : s'.outbound = s.outbound ++ [event]) : Written setup (tr ++ os) s' where
  flow := by
    rw [events_append, hos, hframes, hwriter, houtbound, List.map_append, List.map_append,
      ← List.append_assoc, h.flow]
  serving := by
    unfold Serving
    rw [hwriter]
    exact Or.inl (Bool.and_eq_true_iff.mp hsends).1

/-- Past the loop the coordinator stays there. -/
theorem Step.past_loop (h : Step setup s a s' os) {result : Ended}
    (hat : s.pc = .closing result ∨ s.pc = .returned result) :
    ∃ result, s'.pc = .closing result ∨ s'.pc = .returned result := by
  have hnot : ∀ {pc : Pc}, s.pc = pc → (∀ result, pc ≠ .closing result ∧ pc ≠ .returned result) →
      ∃ result, s'.pc = .closing result ∨ s'.pc = .returned result := by
    intro pc hpc hne
    rcases hat with hat | hat
    · exact absurd (hpc.symm.trans hat) (hne _).1
    · exact absurd (hpc.symm.trans hat) (hne _).2
  cases h with
  | closed hpc hwriter => exact ⟨_, Or.inr rfl⟩
  | closeDeadline hpc => exact ⟨_, Or.inr rfl⟩
  | overflow hpc => exact hnot hpc (by simp)
  | cancel hpc hactive => exact hnot hpc (by simp)
  | stop hpc hactive => exact hnot hpc (by simp)
  | stopInactive hpc hactive => exact hnot hpc (by simp)
  | commandsClosed hpc => exact hnot hpc (by simp)
  | commandError hpc => exact hnot hpc (by simp)
  | turnClosed hpc hactive hpending hbarrier hevents hclosed => exact hnot hpc (by simp)
  | writerGone hpc hpending hwriter => exact hnot hpc (by simp)
  | cancelCompleted hpc houtcome => exact hnot hpc (by simp)
  | cancelDeadline hpc => exact hnot hpc (by simp)
  | stopDone hpc => exact hnot hpc (by simp)
  | joinTurn hpc houtcome => exact hnot hpc (by simp)
  | terminalEvent hpc hpending hsends => exact hnot hpc (by simp)
  | terminalGiveUp hpc => exact hnot hpc (by simp)
  | abortDone hpc => exact hnot hpc (by simp)
  | _ => exact ⟨result, hat⟩

theorem join_writer (s : Worker Message) (outcome : Outcome Message) :
    (s.join outcome).frames = s.frames ∧ (s.join outcome).writer = s.writer ∧
      (s.join outcome).outbound = s.outbound := by
  cases outcome <;> exact ⟨rfl, rfl, rfl⟩

theorem Written.step (h : Written setup tr s) (hdrains : drains s a = true)
    (hreportable : reportable s a = true) (hstep : Step setup s a s' os) :
    Written setup (tr ++ os) s' := by
  have hpast : ∀ result, s.pc = .closing result ∨ s.pc = .returned result →
      ∃ result, s'.pc = .closing result ∨ s'.pc = .returned result :=
    fun _ hat => hstep.past_loop hat
  cases hstep with
  | enqueue hpc hpending hsends => exact h.send rfl hsends rfl rfl rfl
  | terminalHeld hpc hpending hsends => exact h.send rfl hsends rfl rfl rfl
  | terminalEvent hpc hpending hsends => exact h.send rfl hsends rfl rfl rfl
  | writerRecv hwriter houtbound =>
      refine ⟨?_, Or.inl rfl⟩
      have hflow := h.flow
      rw [hwriter, houtbound] at hflow
      rw [List.append_nil]
      simpa [WriterTask.taken] using hflow
  | writerWrite hwriter hfits =>
      refine ⟨?_, Or.inl rfl⟩
      have hflow := h.flow
      rw [hwriter] at hflow
      rw [List.append_nil]
      simpa [WriterTask.taken] using hflow
  | writerEnd hpc hwriter houtbound =>
      refine ⟨?_, Or.inr ⟨rfl, houtbound, _, Or.inl hpc⟩⟩
      have hflow := h.flow
      rw [hwriter] at hflow
      rw [List.append_nil]
      exact hflow
  | writerReject hwriter hfits =>
      -- the writer accepts what it is given
      simp [reportable, hwriter, hfits] at hreportable
  | writerFail hwriter => cases hdrains
  | closeDeadline hpc => cases hdrains
  | joinTurn hpc houtcome =>
      obtain ⟨hframes, hwriter, houtbound⟩ := join_writer s _
      exact h.frame rfl hframes hwriter houtbound hpast
  | approve hpc => exact h.frame (events_map_approver _) rfl rfl rfl hpast
  | call hallows hcalled => exact h.frame (events_map_approver _) rfl rfl rfl hpast
  | holdEvent hpc hactive hpending hevents ha =>
      exact h.frame (events_map_drew _) rfl rfl rfl hpast
  | _ => exact h.frame rfl rfl rfl rfl hpast

/-! ## The places of the coordinator -/

/-- No crash was put into the event channel. -/
def Quiet (tr : List (Obs Message)) : Prop := ∀ event ∈ events tr, event.isCrash = false

/-- The failure was announced last, and nothing before it was. -/
def Failed (tr : List (Obs Message)) (error : Text) : Prop :=
  ∃ past message, events tr = past ++ [.crash message] ∧ (∀ event ∈ past, event.isCrash = false) ∧
    Announced tr message error

/-- What holds where the coordinator is: an error is on its way out behind
its crash. -/
def Phase (tr : List (Obs Message)) (s : Worker Message) : Prop :=
  match s.pc with
  | .terminal event result => Quiet tr ∧ ∀ error, result = .error error →
      ∃ message, event = .crash message ∧ Announced tr message error
  | .aborting result | .closing result => ∀ error, result = .error error → Failed tr error
  | .returned result => s.writer.receives = false ∧ ∀ error, result = .error error → Failed tr error
  | _ => Quiet tr

theorem Announced.append {message error : Text} (h : Announced tr message error)
    (os : List (Obs Message)) : Announced (tr ++ os) message error := by
  cases h with
  | turn hjoined => exact .turn (List.mem_append_left _ hjoined)
  | overflow => exact .overflow
  | deadline => exact .deadline

theorem Quiet.append (h : Quiet tr) (hos : ∀ event ∈ events os, event.isCrash = false) :
    Quiet (tr ++ os) := by
  intro event hmem
  rw [events_append] at hmem
  rcases List.mem_append.mp hmem with hmem | hmem
  · exact h event hmem
  · exact hos event hmem

theorem Failed.append {error : Text} (h : Failed tr error) (hos : events os = []) :
    Failed (tr ++ os) error := by
  obtain ⟨past, message, heq, hpast, hannounced⟩ := h
  refine ⟨past, message, ?_, hpast, hannounced.append os⟩
  rw [events_append, hos, List.append_nil, heq]

/-- A step that leaves the coordinator where it is and sends nothing. -/
theorem Phase.frame (h : Phase tr s) (hpc : s'.pc = s.pc) (hos : events os = [])
    (hwriter : s.writer.receives = false → s'.writer.receives = false) : Phase (tr ++ os) s' := by
  have hquiet : Quiet tr → Quiet (tr ++ os) := fun h => h.append (by simp [hos])
  unfold Phase at h ⊢
  rw [hpc]
  cases hat : s.pc with
  | terminal event result =>
      rw [hat] at h
      refine ⟨hquiet h.1, fun error herror => ?_⟩
      obtain ⟨message, hevent, hannounced⟩ := h.2 error herror
      exact ⟨message, hevent, hannounced.append os⟩
  | aborting result =>
      rw [hat] at h
      exact fun error herror => (h error herror).append hos
  | closing result =>
      rw [hat] at h
      exact fun error herror => (h error herror).append hos
  | returned result =>
      rw [hat] at h
      exact ⟨hwriter h.1, fun error herror => (h.2 error herror).append hos⟩
  | running => rw [hat] at h; exact hquiet h
  | cancelling turn => rw [hat] at h; exact hquiet h
  | stopping turn => rw [hat] at h; exact hquiet h
  | joining turn => rw [hat] at h; exact hquiet h

theorem Phase.quiet (h : Phase tr s) (hpc : s.pc = .running ∨
    ∃ turn, s.pc = .cancelling turn ∨ s.pc = .stopping turn ∨ s.pc = .joining turn) : Quiet tr := by
  unfold Phase at h
  rcases hpc with hpc | ⟨turn, hpc | hpc | hpc⟩ <;> rw [hpc] at h <;> exact h

/-- What is held is sent, in the loop or past it. -/
theorem Phase.send (h : Phase tr s) {held : Held} (hpc : s'.pc = s.pc)
    (hat : s.pc = .running ∨ ∃ event result, s.pc = .terminal event result) :
    Phase (tr ++ [.enqueued held]) s' := by
  have hquiet : Quiet tr → Quiet (tr ++ [.enqueued held]) :=
    fun h => h.append (by simp [events, event?, WorkerEvent.isCrash_of_isTerminal held.isTerminal])
  unfold Phase at h ⊢
  rw [hpc]
  rcases hat with hat | ⟨event, result, hat⟩
  · rw [hat] at h ⊢
    exact hquiet h
  · rw [hat] at h ⊢
    refine ⟨hquiet h.1, fun error herror => ?_⟩
    obtain ⟨message, hevent, hannounced⟩ := h.2 error herror
    exact ⟨message, hevent, hannounced.append _⟩

theorem Serving.receives (h : Serving s) {pc : Pc} (hpc : s.pc = pc)
    (hne : ∀ result, pc ≠ .closing result ∧ pc ≠ .returned result) : s.writer.receives = true := by
  rcases h with halive | ⟨-, -, result, hat | hat⟩
  · exact halive
  · exact absurd (hpc.symm.trans hat) (hne result).1
  · exact absurd (hpc.symm.trans hat) (hne result).2

/-- A task that ended as cancelled was aborted. -/
def Aborted (s : Worker Message) : Prop :=
  ∀ turn error, (s.tasks turn).outcome = some (.cancelled error) → (s.tasks turn).aborted = true

/-- How a joined task ended, where no joined task panicked. -/
theorem Aborted.joined (h : Aborted s) (hcourse : Course s)
    (hreportable : reportable s .joinTurn = true)
    (hpc : s.pc = .joining turn) {outcome : Outcome Message}
    (houtcome : (s.tasks turn).outcome = some outcome) :
    (∃ finalMessages, outcome = .ok finalMessages) ∨ ∃ error, outcome = .failed error := by
  cases outcome with
  | ok finalMessages => exact Or.inl ⟨finalMessages, rfl⟩
  | failed error => exact Or.inr ⟨error, rfl⟩
  | panicked error => simp [reportable, hpc, houtcome, Outcome.isPanicked] at hreportable
  | cancelled error =>
      have haborted := h turn error houtcome
      have hlive := (hcourse.joining turn hpc).2.2.2.2.2.1
      cases hlive.symm.trans haborted

theorem Phase.step (h : Phase tr s) (hserving : Serving s) (haborted : Aborted s)
    (hcourse : Course s) (hdrains : drains s a = true) (hreportable : reportable s a = true)
    (hstep : Step setup s a s' os) : Phase (tr ++ os) s' := by
  cases hstep with
  | overflow hpc =>
      have hquiet := h.quiet (Or.inl hpc)
      refine ⟨hquiet.append (by simp [events]), fun error herror => ?_⟩
      obtain rfl := Except.error.inj herror
      exact ⟨_, rfl, .overflow⟩
  | stopInactive hpc hactive =>
      exact ⟨(h.quiet (Or.inl hpc)).append (by simp [events]), nofun⟩
  | cancel hpc hactive => exact (h.quiet (Or.inl hpc)).append (by simp [events])
  | stop hpc hactive => exact (h.quiet (Or.inl hpc)).append (by simp [events])
  | turnClosed hpc hactive hpending hbarrier hevents hclosed =>
      exact (h.quiet (Or.inl hpc)).append (by simp [events])
  | commandsClosed hpc => exact fun error herror => by cases herror
  | commandError hpc => cases hdrains
  | closeDeadline hpc => cases hdrains
  | writerFail hwriter => cases hdrains
  | writerGone hpc hpending hwriter =>
      cases hwriter.symm.trans (hserving.receives hpc (by simp))
  | terminalGiveUp hpc =>
      have hwriter : s.writer.receives = false := by simpa [drains] using hdrains
      cases hwriter.symm.trans (hserving.receives hpc (by simp))
  | enqueue hpc hpending hsends => exact h.send rfl (Or.inl hpc)
  | terminalHeld hpc hpending hsends => exact h.send rfl (Or.inr ⟨_, _, hpc⟩)
  | terminalEvent hpc hpending hsends =>
      unfold Phase at h
      rw [hpc] at h
      intro error herror
      obtain ⟨message, rfl, hannounced⟩ := h.2 error herror
      exact ⟨events tr, message, events_append, h.1, hannounced.append _⟩
  | cancelCompleted hpc houtcome =>
      exact (h.quiet (Or.inr ⟨_, Or.inl hpc⟩)).append (by simp [events, event?])
  | cancelDeadline hpc =>
      refine ⟨(h.quiet (Or.inr ⟨_, Or.inl hpc⟩)).append (by simp [events, event?]),
        fun error herror => ?_⟩
      obtain rfl := Except.error.inj herror
      exact ⟨_, rfl, .deadline⟩
  | stopDone hpc =>
      exact ⟨(h.quiet (Or.inr ⟨_, Or.inr (Or.inl hpc)⟩)).append (by simp [events, event?]), nofun⟩
  | joinTurn hpc houtcome =>
      have hquiet := h.quiet (Or.inr ⟨_, Or.inr (Or.inr hpc)⟩)
      rcases haborted.joined hcourse hreportable hpc houtcome with ⟨finalMessages, rfl⟩ |
        ⟨error, rfl⟩
      · exact hquiet.append (by simp [events, event?])
      · refine ⟨hquiet.append (by simp [events, event?]), fun error' herror => ?_⟩
        obtain rfl := Except.error.inj herror
        exact ⟨_, rfl, .turn (List.mem_append_right _ (List.mem_singleton_self _))⟩
  | abortDone hpc =>
      unfold Phase at h
      rw [hpc] at h
      exact fun error herror => (h error herror).append rfl
  | @closed result written hpc hwriter =>
      unfold Phase at h
      rw [hpc] at h
      have hdone : s.writer.receives = false := by rw [hwriter]; rfl
      refine ⟨hdone, fun error herror => ?_⟩
      rcases hserving with halive | ⟨hok, -, -⟩
      · cases hdone.symm.trans halive
      · -- the writer ended well, so the error is the coordinator's
        obtain rfl := WriterTask.finished.inj (hwriter.symm.trans hok)
        cases result with
        | ok u => cases herror
        | error e =>
            obtain rfl := Except.error.inj herror
            exact (h e rfl).append rfl
  | writerRecv hwriter houtbound => exact h.frame rfl rfl (by simp [hwriter, WriterTask.receives])
  | writerWrite hwriter hfits => exact h.frame rfl rfl (by simp [hwriter, WriterTask.receives])
  | writerReject hwriter hfits => exact h.frame rfl rfl (fun _ => rfl)
  | writerEnd hpc hwriter houtbound => exact h.frame rfl rfl (fun _ => rfl)
  | approve hpc => exact h.frame rfl (events_map_approver _) (fun h => h)
  | call hallows hcalled => exact h.frame rfl (events_map_approver _) (fun h => h)
  | holdEvent hpc hactive hpending hevents ha => exact h.frame rfl (events_map_drew _) (fun h => h)
  | _ => exact h.frame rfl rfl (fun h => h)

/-! ## Runs -/

theorem abortTask_aborted (turn' : Nat) (haborted : (s.tasks turn).aborted = true) :
    (s.abortTask turn' turn).aborted = true := by
  unfold abortTask
  by_cases hturn : turn = turn'
  · rw [hturn, Function.update_self]
  · rwa [Function.update_of_ne hturn]

theorem breakLoop_aborted (result : Ended) (haborted : (s.tasks turn).aborted = true) :
    ((s.breakLoop result).tasks turn).aborted = true := by
  unfold breakLoop
  cases hactive : s.active with
  | some turn' => exact abortTask_aborted turn' haborted
  | none => exact haborted

theorem join_aborted (outcome : Outcome Message) (haborted : (s.tasks turn).aborted = true) :
    ((s.join outcome).tasks turn).aborted = true := by
  cases outcome with
  | panicked error => exact breakLoop_aborted _ haborted
  | cancelled error => exact breakLoop_aborted _ haborted
  | _ => exact haborted

/-- A task stays aborted; only a turn that starts has a new one. -/
theorem Step.task_aborted (h : Step setup s a s' os)
    (houtcome : (s'.tasks turn).outcome.isSome = true)
    (haborted : (s.tasks turn).aborted = true) : (s'.tasks turn).aborted = true := by
  cases h with
  | startTurn hpc hactive hpending =>
      by_cases hturn : turn = s.nextTurn
      · rw [hturn] at houtcome
        cases (congrArg (fun task : AgentTask Message => task.outcome.isSome)
          (task_self s.tasks s.nextTurn _)).symm.trans houtcome
      · exact (congrArg AgentTask.aborted (Function.update_of_ne hturn ..)).trans haborted
  | holdEvent hpc hactive hpending hevents ha => exact update_task AgentTask.aborted rfl haborted
  | emit hturn hopen => exact update_task AgentTask.aborted rfl haborted
  | closeEvents hturn => exact update_task AgentTask.aborted rfl haborted
  | finish hturn hrunning => exact update_task AgentTask.aborted rfl haborted
  | cancel hpc hactive => exact abortTask_aborted _ haborted
  | stop hpc hactive => exact abortTask_aborted _ haborted
  | commandsClosed hpc => exact breakLoop_aborted _ haborted
  | commandError hpc => exact breakLoop_aborted _ haborted
  | writerGone hpc hpending hwriter => exact breakLoop_aborted _ haborted
  | @terminalEvent event result hpc hpending hsends => exact breakLoop_aborted result haborted
  | terminalGiveUp hpc => exact breakLoop_aborted _ haborted
  | joinTurn hpc houtcome => exact join_aborted _ haborted
  | _ => exact haborted

theorem Aborted.step (h : Aborted s) (hdrains : drains s a = true) (hstep : Step setup s a s' os) :
    Aborted s' := by
  intro turn error houtcome
  refine hstep.task_aborted (by rw [houtcome]; rfl) ?_
  rcases hstep.task_outcome houtcome with hold | hfinished
  · exact h turn error hold
  · obtain rfl := hstep.finished_action hfinished
    exact hdrains

/-- What the code cannot tell the daemon about is ruled out step by step. -/
def Faultless (_ : List (Obs Message)) (s : Worker Message) (a : Action Message) : Prop :=
  drains s a = true ∧ reportable s a = true

theorem Phase.start (setup : Setup Message) : Phase [] (new setup) :=
  fun _ h => absurd h (by simp [events])

theorem Aborted.start (setup : Setup Message) : Aborted (new setup) :=
  fun _ _ h => by cases h

theorem run_phase (h : (machine setup).Run Faultless tr s) :
    Written setup tr s ∧ Phase tr s ∧ Aborted s := by
  refine h.invariant (I := fun tr s => Written setup tr s ∧ Phase tr s ∧ Aborted s)
    ⟨.start setup, .start setup, .start setup⟩ ?_
  intro tr os s s' a hrun hinv ha hstep
  obtain ⟨hwritten, hphase, haborted⟩ := hinv
  obtain ⟨hdrains, hreportable⟩ := ha
  have hstep := step_cases hstep
  exact ⟨hwritten.step hdrains hreportable hstep,
    hphase.step hwritten.serving haborted (run_course hrun) hdrains hreportable hstep,
    haborted.step hdrains hstep⟩

/-- Where no joined task panics and every event fits its frame, a failure of
the worker is announced: its crash is the last frame and the only one, and
the error returned is one of the worker's own texts. -/
theorem failure_reported (h : (machine setup).Run Faultless tr s) : Reported setup tr s := by
  intro error hpc
  obtain ⟨hwritten, hphase, -⟩ := run_phase h
  unfold Phase at hphase
  rw [hpc] at hphase
  obtain ⟨hdone, hfailed⟩ := hphase
  obtain ⟨past, message, heq, hpast, hannounced⟩ := hfailed error rfl
  have hflow := hwritten.flow
  rcases hwritten.serving with halive | ⟨hok, hempty, -⟩
  · cases hdone.symm.trans halive
  · have htaken : (WriterTask.finished (.ok ())).taken = [] := rfl
    rw [hok, hempty, heq, htaken, List.map_nil, List.append_nil, List.append_nil,
      List.map_append] at hflow
    refine ⟨past.map (WorkerEvent.mapTexts setup.redactor.clean), message, hflow, ?_, hannounced⟩
    intro frame hmem
    obtain ⟨event, hin, rfl⟩ := List.mem_map.mp hmem
    rw [WorkerEvent.isCrash_mapTexts]
    exact hpast event hin

/-- A turn fails and is reported. -/
theorem failure_reported_turn : ∃ (tr : List (Obs Text)) (s : Worker Text),
    (machine (plainSetup [])).Run Faultless tr s ∧ s.pc = .returned (.error agentTurnFailed) ∧
    s.frames = [.crash "boom".toList] ∧ Reported (plainSetup []) tr s := by
  have hcheck : ∀ (tr : List (Obs Text)) (s : Worker Text) (a : Action Text),
      (drains s a && reportable s a) = true → Faultless tr s a := by
    intro tr s a h
    exact Bool.and_eq_true_iff.mp h
  have hrun : (machine (plainSetup [])).Run Faultless _ _ :=
    Machine.Run.exec (fun _ s a => drains s a && reportable s a) hcheck
      [.command (.input "go".toList), .startTurn, .closeEvents 0, .finish 0 (.failed "boom".toList),
        .takeEvent [], .joinTurn, .terminalSend, .abortDone, .writerRecv, .writerWrite, .writerEnd,
        .closed]
      .start rfl
  exact ⟨_, _, hrun, rfl, rfl, failure_reported hrun⟩

/-- A task panics and is joined: its text is returned, and no crash is written. -/
theorem panic_unreported : ¬∀ (tr : List (Obs Text)) (s : Worker Text),
    (machine (plainSetup [])).Run (fun _ s a => drains s a = true) tr s →
      Reported (plainSetup []) tr s := by
  intro hall
  have hrun : (machine (plainSetup [])).Run (fun _ s a => drains s a = true) _ _ :=
    Machine.Run.exec (fun _ s a => drains s a) (fun _ _ _ h => h)
      [.command (.input "go".toList), .startTurn, .closeEvents 0,
        .finish 0 (.panicked "boom".toList), .takeEvent [], .joinTurn, .abortDone, .writerEnd,
        .closed]
      .start rfl
  obtain ⟨past, message, hframes, -⟩ := hall _ _ hrun "boom".toList rfl
  have hnone : [] = past ++ [.crash ((plainSetup []).redactor.clean message)] := hframes
  simp at hnone

end Worker

end PeakcodeDaemon
