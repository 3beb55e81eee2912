import PeakcodeDaemon.WorkerRuns

/-!
# Turn completion and history

What the daemon is told of finished turns, against the messages the worker
goes on with. The two agree as long as no `Cancel` or `Stop` is handled
while the active turn's `TurnFinished` is past its channel: held, or sent.
There the turn is reported finished and its messages are thrown away.

- **the invariant** (`Ledger`): between turns the history is the latest
  reported one (`UpToDate`); while a turn is open its events are sent,
  held or buffered, in order (`Open`), and from its `TurnFinished` on the
  history to come is its own.
- **the exit** (`Open.upToDate`, `Open.joined`): a turn leaves the loop
  either joined, with what it reported, or with nothing reported. The
  condition `undisturbed` rules out the third way and is used nowhere
  else (`not_finished_of_undisturbed`).
- **what it says about a step** (`Ledger.agrees`): the messages a turn
  starts from, and the count in `Done`, are those of the history.

The history is read off the trace (`History`, `reported`), not off the
state: it is the daemon's view, and the state is what is to agree with it.
`reported_turn_forgotten` is the run in which they part.
-/

namespace PeakcodeDaemon

namespace Worker

variable {Message : Type} {setup : Setup Message} {tr os : List (Obs Message)}
  {s s' : Worker Message} {a : Action Message} {turn : Nat}

def finishedTurn? : Obs Message → Option Nat
  | .enqueued held => match held.item with
      | .core .turnFinished => some held.turn
      | _ => none
  | _ => none

/-- The latest turn reported finished. -/
def reported (tr : List (Obs Message)) : Option Nat := (tr.filterMap finishedTurn?).getLast?

/-- The messages are the final ones of the latest turn reported finished, or
the initial ones. -/
def History (setup : Setup Message) (tr : List (Obs Message)) (messages : List Message) : Prop :=
  match reported tr with
  | none => messages = setup.messages
  | some turn => .finished turn (.ok messages) ∈ tr

/-- A turn that succeeds emits `TurnFinished` as its last event, and then its
task returns its final messages. -/
def succeeds (tr : List (Obs Message)) (s : Worker Message) : Action Message → Bool
  | .emit turn _ => !(emitted turn tr).any AgentEvent.isTurnFinished
  | .finish turn (.ok _) => (emitted turn tr).getLast?.any AgentEvent.isTurnFinished
  | .finish turn _ =>
      !(emitted turn tr).any AgentEvent.isTurnFinished || (s.tasks turn).aborted
  | _ => true

/-- No `Cancel` or `Stop` is handled while the active turn's `TurnFinished`
is held or sent. -/
def undisturbed (tr : List (Obs Message)) (s : Worker Message) : Action Message → Bool
  | .command .cancel | .command .stop => s.active.all fun turn =>
      !(sent turn tr ++ itemsOf turn s.pendingEvent).any Item.isTurnFinished
  | _ => true

/-- A turn starts from the history and its own user message, and `Done`
counts the history. -/
def Agrees (setup : Setup Message) (past : List (Obs Message)) : Obs Message → Prop
  | .started _ input messages =>
      ∃ base, History setup past base ∧ messages = base ++ [setup.user input]
  | .terminal (.done finalMessageCount) =>
      ∃ base, History setup past base ∧ finalMessageCount = base.length
  | _ => True

/-! ## The invariant -/

theorem reported_append (hos : os.filterMap finishedTurn? = []) :
    reported (tr ++ os) = reported tr := by
  rw [reported, List.filterMap_append, hos, List.append_nil]
  rfl

theorem History.append {messages : List Message} (h : History setup tr messages)
    (hos : os.filterMap finishedTurn? = []) : History setup (tr ++ os) messages := by
  unfold History at h ⊢
  rw [reported_append hos]
  split at h
  · exact h
  · exact List.mem_append_left _ h

/-- What reports a turn finished sends something of it. -/
theorem finishedTurn_eq_nil (h : ∀ turn, sent turn os = []) : os.filterMap finishedTurn? = [] := by
  rw [List.filterMap_eq_nil_iff]
  intro o ho
  cases o with
  | enqueued held =>
      have hmem : held.item ∈ sent held.turn os := by
        refine List.mem_filterMap.mpr ⟨_, ho, ?_⟩
        exact if_pos rfl
      rw [h] at hmem
      cases hmem
  | _ => rfl

/-- No turn's messages are pending. -/
structure UpToDate (setup : Setup Message) (tr : List (Obs Message)) (s : Worker Message) :
    Prop where
  history : History setup tr s.messages
  held : ∀ held, s.pendingEvent = some held → held.item ≠ .core .turnFinished

/-- A turn's events are sent, held or buffered, in order; once it is
reported finished, its messages are the history to come. -/
structure Open (setup : Setup Message) (tr : List (Obs Message)) (s : Worker Message)
    (turn : Nat) : Prop where
  flow : emitted turn tr = (sent turn tr).filterMap Item.core? ++
    (itemsOf turn s.pendingEvent).filterMap Item.core? ++ (s.tasks turn).events
  own : ∀ held event, s.pendingEvent = some held → held.item = .core event → held.turn = turn
  before : .core .turnFinished ∉ sent turn tr → History setup tr s.messages
  after : .core .turnFinished ∈ sent turn tr → reported tr = some turn

/-- What holds where the coordinator is. Once its messages are not read
again there is nothing to keep. -/
def Ledger (setup : Setup Message) (tr : List (Obs Message)) (s : Worker Message) : Prop :=
  match s.pc, s.active with
  | .running, none => UpToDate setup tr s
  | .running, some turn => Open setup tr s turn
  | .joining turn, _ => Open setup tr s turn
  | .cancelling _, _ => UpToDate setup tr s
  | .stopping _, _ => UpToDate setup tr s
  | .terminal (.done n) _, _ => UpToDate setup tr s ∧ n = s.messages.length
  | _, _ => True

theorem Ledger.start (setup : Setup Message) : Ledger setup [] (new setup) :=
  UpToDate.mk rfl fun _ h => by cases h

/-! ## What the steps preserve -/

theorem UpToDate.frame (h : UpToDate setup tr s) (hmessages : s'.messages = s.messages)
    (hpending : ∀ held, s'.pendingEvent = some held → s.pendingEvent = some held)
    (hos : os.filterMap finishedTurn? = []) : UpToDate setup (tr ++ os) s' where
  history := by
    rw [hmessages]
    exact h.history.append hos
  held := fun held hheld => h.held held (hpending held hheld)

/-- Nothing is sent, and the flow goes on. -/
theorem Open.flowing (h : Open setup tr s turn) (hmessages : s'.messages = s.messages)
    (hsent : ∀ turn, sent turn os = [])
    (hflow : emitted turn (tr ++ os) = (sent turn tr).filterMap Item.core? ++
      (itemsOf turn s'.pendingEvent).filterMap Item.core? ++ (s'.tasks turn).events)
    (hown : ∀ held event, s'.pendingEvent = some held → held.item = .core event →
      held.turn = turn) : Open setup (tr ++ os) s' turn where
  flow := by
    rw [sent_append, hsent, List.append_nil]
    exact hflow
  own := hown
  before := by
    rw [sent_append, hsent, List.append_nil, hmessages]
    exact fun hnot => (h.before hnot).append (finishedTurn_eq_nil hsent)
  after := by
    rw [sent_append, hsent, List.append_nil, reported_append (finishedTurn_eq_nil hsent)]
    exact h.after

theorem Open.frame (h : Open setup tr s turn) (hmessages : s'.messages = s.messages)
    (hpending : s'.pendingEvent = s.pendingEvent)
    (hevents : (s'.tasks turn).events = (s.tasks turn).events) (hemitted : emitted turn os = [])
    (hsent : ∀ turn, sent turn os = []) : Open setup (tr ++ os) s' turn := by
  refine h.flowing hmessages hsent ?_ ?_
  · rw [emitted_append, hemitted, List.append_nil, hpending, hevents]
    exact h.flow
  · rw [hpending]
    exact h.own

/-- The coordinator stays where it is, and nothing of a turn moves. -/
theorem Ledger.frame (h : Ledger setup tr s) (hpc : s'.pc = s.pc) (hactive : s'.active = s.active)
    (hmessages : s'.messages = s.messages) (hpending : s'.pendingEvent = s.pendingEvent)
    (hevents : ∀ turn, (s'.tasks turn).events = (s.tasks turn).events)
    (hemitted : ∀ turn, emitted turn os = []) (hsent : ∀ turn, sent turn os = []) :
    Ledger setup (tr ++ os) s' := by
  have hupToDate : UpToDate setup tr s → UpToDate setup (tr ++ os) s' :=
    fun h => h.frame hmessages (fun _ heq => hpending.symm.trans heq) (finishedTurn_eq_nil hsent)
  have hopen : ∀ turn, Open setup tr s turn → Open setup (tr ++ os) s' turn :=
    fun turn h => h.frame hmessages hpending (hevents turn) (hemitted turn) hsent
  unfold Ledger at h ⊢
  rw [hpc, hactive, hmessages]
  split at h
  · exact hupToDate h
  · exact hopen _ h
  · exact hopen _ h
  · exact hupToDate h
  · exact hupToDate h
  · exact ⟨hupToDate h.1, h.2⟩
  · trivial

theorem finishedTurn_other {held : Held} (h : held.item ≠ .core .turnFinished) :
    [(.enqueued held : Obs Message)].filterMap finishedTurn? = [] := by
  refine List.filterMap_eq_nil_iff.mpr fun o ho => ?_
  obtain rfl := List.mem_singleton.mp ho
  rw [finishedTurn?]
  split
  · rename_i hitem
    exact absurd hitem h
  · rfl

theorem reported_finished {held : Held} (h : held.item = .core .turnFinished) :
    reported (tr ++ [.enqueued held]) = some held.turn := by
  have hsome : finishedTurn? (.enqueued held : Obs Message) = some held.turn := by
    rw [finishedTurn?, h]
  rw [reported, List.filterMap_append, List.filterMap_cons_some hsome]
  exact List.getLast?_concat

theorem UpToDate.enqueue (h : UpToDate setup tr s) {held : Held}
    (hpending : s.pendingEvent = some held) :
    UpToDate setup (tr ++ (s.enqueue held).2) (s.enqueue held).1 :=
  h.frame rfl (fun _ heq => by cases heq) (finishedTurn_other (h.held held hpending))

theorem Open.enqueue (h : Open setup tr s turn) {held : Held}
    (hpending : s.pendingEvent = some held) :
    Open setup (tr ++ (s.enqueue held).2) (s.enqueue held).1 turn := by
  have hsent : sent turn (tr ++ (s.enqueue held).2) = sent turn tr ++ itemsOf turn (some held) := by
    rw [sent_append]
    exact congrArg _ (sent_enqueued turn held)
  -- only the turn's own events are held besides notices
  have hmine : held.item = .core .turnFinished →
      itemsOf turn (some held) = [.core .turnFinished] := by
    intro hitem
    rw [itemsOf_some (h.own held _ hpending hitem), hitem]
  refine ⟨?_, ?_, ?_, ?_⟩
  · have hnone : emitted turn (s.enqueue held).2 = [] := rfl
    rw [emitted_append, hnone, List.append_nil, hsent, List.filterMap_append, h.flow, hpending]
    simp [Worker.enqueue, itemsOf]
  · intro _ _ heq
    cases heq
  · intro hnot
    rw [hsent, List.mem_append, not_or] at hnot
    refine (h.before hnot.1).append (finishedTurn_other fun hitem => hnot.2 ?_)
    rw [hmine hitem]
    exact List.mem_singleton_self _
  · intro hmem
    show reported (tr ++ [.enqueued held]) = some turn
    by_cases hitem : held.item = .core .turnFinished
    · rw [reported_finished hitem, h.own held _ hpending hitem]
    · rw [reported_append (finishedTurn_other hitem)]
      refine h.after ?_
      rw [hsent] at hmem
      rcases List.mem_append.mp hmem with hmem | hmem
      · exact hmem
      · by_cases hturn : held.turn = turn
        · rw [itemsOf_some hturn] at hmem
          exact absurd (List.mem_singleton.mp hmem).symm hitem
        · rw [itemsOf_other hturn] at hmem
          cases hmem

theorem UpToDate.start (h : UpToDate setup tr s) (hstarted : Started tr s)
    (hpending : s.pendingEvent = none) (text : Text) (rest : List Text) :
    Open setup (tr ++ (s.startTurn setup text rest).2) (s.startTurn setup text rest).1
      s.nextTurn := by
  have hsent : sent s.nextTurn (tr ++ (s.startTurn setup text rest).2) = [] := by
    rw [sent_append, hstarted.sent_eq_nil (Nat.le_refl _)]
    rfl
  refine ⟨?_, ?_, ?_, ?_⟩
  · have hnone : emitted s.nextTurn (s.startTurn setup text rest).2 = [] := rfl
    rw [emitted_append, hnone, hsent, emitted, hstarted.program _ (Nat.le_refl _)]
    simp [Worker.startTurn, itemsOf, hpending]
  · intro held _ heq
    rw [Worker.startTurn] at heq
    cases hpending.symm.trans heq
  · exact fun _ => h.history.append rfl
  · rw [hsent]
    exact fun hmem => by cases hmem

theorem Open.hold (h : Open setup tr s turn) (hpending : s.pendingEvent = none) {handle : Text}
    {event : AgentEvent} {rest : List AgentEvent}
    (hevents : (s.tasks turn).events = event :: rest) :
    Open setup (tr ++ (s.holdEvent handle turn event rest).2)
      (s.holdEvent handle turn event rest).1 turn := by
  refine h.flowing rfl (fun turn => sent_map_drew turn _) ?_ ?_
  · have hnone : emitted turn (s.holdEvent handle turn event rest).2 = [] :=
      congrArg (List.filterMap Item.core?) (program_map_drew turn _)
    have hrest : ((s.holdEvent handle turn event rest).1.tasks turn).events = rest :=
      congrArg AgentTask.events (task_self s.tasks turn _)
    have hheld : itemsOf turn (s.holdEvent handle turn event rest).1.pendingEvent = [.core event] :=
      itemsOf_some rfl
    rw [emitted_append, hnone, h.flow, hpending, hevents, hrest, hheld]
    simp [itemsOf, Item.core?]
  · intro held event' heq _
    obtain rfl := Option.some.inj heq
    rfl

theorem Open.holdNotice (h : Open setup tr s turn) (hpending : s.pendingEvent = none)
    (barrier : Nat × ApprovalNotice) : Open setup (tr ++ []) (s.holdNotice barrier) turn := by
  refine h.flowing rfl (fun _ => rfl) ?_ ?_
  · rw [List.append_nil, h.flow, hpending]
    by_cases hturn : barrier.1 = turn
    · simp [Worker.holdNotice, itemsOf, Held.itemOf, hturn, Item.core?]
    · simp [Worker.holdNotice, itemsOf, Held.itemOf, hturn]
  · intro held event heq hitem
    obtain rfl := Option.some.inj heq
    cases hitem

theorem Open.emit (h : Open setup tr s turn) (turn' : Nat) (event : AgentEvent) :
    Open setup (tr ++ [.emitted turn' event]) { s with
      tasks := Function.update s.tasks turn'
        { s.tasks turn' with events := (s.tasks turn').events ++ [event] } } turn := by
  refine h.flowing rfl (fun _ => rfl) ?_ h.own
  rw [emitted_append, h.flow]
  by_cases hturn : turn' = turn
  · subst hturn
    simp [emitted, program, programItem?, Item.core?]
  · simp [emitted, program, programItem?, hturn, Function.update_of_ne (Ne.symm hturn)]

/-- A turn whose end was neither held nor sent leaves the history as it was. -/
theorem Open.upToDate (h : Open setup tr s turn)
    (hnot : .core .turnFinished ∉ sent turn tr ++ itemsOf turn s.pendingEvent) :
    UpToDate setup tr s := by
  rw [List.mem_append, not_or] at hnot
  refine ⟨h.before hnot.1, fun held hheld hitem => hnot.2 ?_⟩
  rw [hheld, itemsOf_some (h.own held _ hheld hitem), hitem]
  exact List.mem_singleton_self _

/-- A turn that ends well was reported finished. -/
theorem Open.joined (h : Open setup tr s turn) (hpending : s.pendingEvent = none)
    (hevents : (s.tasks turn).events = []) (hfinished : .turnFinished ∈ emitted turn tr) :
    reported tr = some turn := by
  refine h.after ?_
  rw [h.flow, hpending, hevents] at hfinished
  obtain ⟨item, hmem, hitem⟩ : ∃ item ∈ sent turn tr, item.core? = some .turnFinished := by
    simpa [itemsOf] using hfinished
  cases item with
  | core event =>
      obtain rfl := Option.some.inj hitem
      exact hmem
  | approval notice => cases hitem

section Places

variable (h : Ledger setup tr s)

include h

theorem Ledger.idle (hpc : s.pc = .running) (hactive : s.active = none) : UpToDate setup tr s := by
  simpa only [Ledger, hpc, hactive] using h

theorem Ledger.active (hpc : s.pc = .running) (hactive : s.active = some turn) :
    Open setup tr s turn := by
  simpa only [Ledger, hpc, hactive] using h

theorem Ledger.joining (hpc : s.pc = .joining turn) : Open setup tr s turn := by
  simpa only [Ledger, hpc] using h

theorem Ledger.cancelling (hpc : s.pc = .cancelling turn) : UpToDate setup tr s := by
  simpa only [Ledger, hpc] using h

theorem Ledger.stopping (hpc : s.pc = .stopping turn) : UpToDate setup tr s := by
  simpa only [Ledger, hpc] using h

theorem Ledger.done {n : Nat} {result : Ended} (hpc : s.pc = .terminal (.done n) result) :
    UpToDate setup tr s ∧ n = s.messages.length := by
  simpa only [Ledger, hpc] using h

end Places

theorem Ledger.of_idle (h : UpToDate setup tr s) (hpc : s.pc = .running)
    (hactive : s.active = none) :
    Ledger setup tr s := by
  simpa only [Ledger, hpc, hactive] using h

theorem Ledger.of_active (h : Open setup tr s turn) (hpc : s.pc = .running)
    (hactive : s.active = some turn) : Ledger setup tr s := by
  simpa only [Ledger, hpc, hactive] using h

theorem Ledger.enqueue (h : Ledger setup tr s) {held : Held} (hpending : s.pendingEvent = some held)
    (hpc : s.pc = .running ∨ ∃ event result, s.pc = .terminal event result) :
    Ledger setup (tr ++ (s.enqueue held).2) (s.enqueue held).1 := by
  rcases hpc with hpc | ⟨event, result, hpc⟩
  · cases hactive : s.active with
    | none => exact .of_idle ((h.idle hpc hactive).enqueue hpending) hpc hactive
    | some turn => exact .of_active ((h.active hpc hactive).enqueue hpending) hpc hactive
  · cases event with
    | done n =>
        obtain ⟨hupToDate, hn⟩ := h.done hpc
        have : UpToDate setup (tr ++ (s.enqueue held).2) (s.enqueue held).1 ∧
          n = s.messages.length := ⟨hupToDate.enqueue hpending, hn⟩
        simpa only [Ledger, Worker.enqueue, hpc] using this
    | _ => simp only [Ledger, Worker.enqueue, hpc]

theorem Ledger.emit (h : Ledger setup tr s) (turn : Nat) (event : AgentEvent) :
    Ledger setup (tr ++ [.emitted turn event]) { s with
      tasks := Function.update s.tasks turn
        { s.tasks turn with events := (s.tasks turn).events ++ [event] } } := by
  have hupToDate : UpToDate setup tr s → UpToDate setup (tr ++ [.emitted turn event]) { s with
      tasks := Function.update s.tasks turn
        { s.tasks turn with events := (s.tasks turn).events ++ [event] } } :=
    fun h => h.frame rfl (fun _ heq => heq) rfl
  unfold Ledger at h ⊢
  dsimp only
  split at h
  · exact hupToDate h
  · exact h.emit turn event
  · exact h.emit turn event
  · exact hupToDate h
  · exact hupToDate h
  · exact ⟨hupToDate h.1, h.2⟩
  · trivial

theorem AgentEvent.any_isTurnFinished {events : List AgentEvent} :
    events.any AgentEvent.isTurnFinished = true ↔ .turnFinished ∈ events := by
  rw [List.any_eq_true]
  constructor
  · rintro ⟨event, hmem, hevent⟩
    cases event with
    | turnFinished => exact hmem
    | _ => cases hevent
  · exact fun hmem => ⟨_, hmem, rfl⟩

theorem not_finished_of_undisturbed {command : DaemonCommand}
    (hcommand : command = .cancel ∨ command = .stop)
    (h : undisturbed tr s (.command command) = true) (hactive : s.active = some turn) :
    .core .turnFinished ∉ sent turn tr ++ itemsOf turn s.pendingEvent := by
  have hall : (s.active.all fun turn =>
      !(sent turn tr ++ itemsOf turn s.pendingEvent).any Item.isTurnFinished) = true := by
    rcases hcommand with rfl | rfl <;> exact h
  rw [hactive, Option.all_some, Bool.not_eq_true', List.any_eq_false] at hall
  exact fun hmem => hall _ hmem rfl

theorem Ledger.step (h : Ledger setup tr s) (hstarted : Started tr s) (hcourse : Course s)
    (hsucceeded : ∀ turn messages, (s.tasks turn).outcome = some (.ok messages) →
      .finished turn (.ok messages) ∈ tr ∧ .turnFinished ∈ emitted turn tr)
    (hundisturbed : undisturbed tr s a = true) (hstep : Step setup s a s' os) :
    Ledger setup (tr ++ os) s' := by
  cases hstep with
  | cancel hpc hactive =>
      have hnot := not_finished_of_undisturbed (Or.inl rfl) hundisturbed hactive
      exact ((h.active hpc hactive).upToDate hnot).frame rfl (fun _ heq => heq) rfl
  | stop hpc hactive =>
      have hnot := not_finished_of_undisturbed (Or.inr rfl) hundisturbed hactive
      exact ((h.active hpc hactive).upToDate hnot).frame rfl (fun _ heq => heq) rfl
  | stopInactive hpc hactive =>
      exact ⟨(h.idle hpc hactive).frame rfl (fun _ heq => heq) rfl, rfl⟩
  | startTurn hpc hactive hpending =>
      exact .of_active ((h.idle hpc hactive).start hstarted hpending _ _) hpc rfl
  | holdEvent hpc hactive hpending hevents ha =>
      exact .of_active ((h.active hpc hactive).hold hpending hevents) hpc hactive
  | holdNotice hpc hactive hpending hbarrier hevents hopen =>
      exact .of_active ((h.active hpc hactive).holdNotice hpending _) hpc hactive
  | turnClosed hpc hactive hpending hbarrier hevents hclosed =>
      exact (h.active hpc hactive).frame rfl rfl rfl rfl (fun _ => rfl)
  | enqueue hpc hpending hsends => exact h.enqueue hpending (Or.inl hpc)
  | terminalHeld hpc hpending hsends => exact h.enqueue hpending (Or.inr ⟨_, _, hpc⟩)
  | cancelCompleted hpc houtcome =>
      refine .of_idle ?_ rfl (hcourse.cancelling _ hpc).1
      exact (h.cancelling hpc).frame rfl (fun _ heq => keepOrdinary_eq_some heq) rfl
  | stopDone hpc =>
      exact ⟨(h.stopping hpc).frame rfl (fun _ heq => keepOrdinary_eq_some heq) rfl, rfl⟩
  | @joinTurn turn outcome hpc houtcome =>
      cases outcome with
      | ok messages =>
          obtain ⟨hactive, hpending, -, hevents, -⟩ := hcourse.joining turn hpc
          obtain ⟨hfinished, hemitted⟩ := hsucceeded turn messages houtcome
          refine .of_idle ⟨?_, fun held heq => ?_⟩ rfl hactive
          · have hreported := (h.joining hpc).joined hpending hevents hemitted
            refine History.append ?_ rfl
            rw [History, hreported]
            exact hfinished
          · cases hpending.symm.trans heq
      | failed error => exact trivial
      | panicked error => exact trivial
      | cancelled error => exact trivial
  | emit hturn hopen => exact h.emit _ _
  | overflow hpc => exact trivial
  | commandsClosed hpc => exact trivial
  | commandError hpc => exact trivial
  | writerGone hpc hpending hwriter => exact trivial
  | cancelDeadline hpc => exact trivial
  | terminalEvent hpc hpending hsends => exact trivial
  | terminalGiveUp hpc => exact trivial
  | abortDone hpc => exact trivial
  | closed hpc hwriter => exact trivial
  | closeDeadline hpc => exact trivial
  | approve hpc =>
      exact h.frame rfl rfl rfl rfl (fun _ => rfl) (emitted_map_approver _)
        (fun turn => sent_map_approver turn _)
  | call hallows hstep =>
      exact h.frame rfl rfl rfl rfl (fun _ => rfl) (emitted_map_approver _)
        (fun turn => sent_map_approver turn _)
  | name hcall hstage =>
      exact h.frame rfl rfl rfl rfl (fun _ => rfl) (emitted_asked _ _ _) (fun _ => rfl)
  | closeEvents hturn =>
      exact h.frame rfl rfl rfl rfl (fun _ => update_task AgentTask.events rfl rfl) (fun _ => rfl)
        (fun _ => rfl)
  | finish hturn hrunning =>
      exact h.frame rfl rfl rfl rfl (fun _ => update_task AgentTask.events rfl rfl) (fun _ => rfl)
        (fun _ => rfl)
  | _ => exact h.frame rfl rfl rfl rfl (fun _ => rfl) (fun _ => rfl) (fun _ => rfl)

/-- What a step tells of starts and ends agrees with the history. -/
theorem Ledger.agrees (h : Ledger setup tr s) (hstep : Step setup s a s' os) :
    Always (fun past o => Agrees setup (tr ++ past) o) os := by
  cases hstep with
  | startTurn hpc hactive hpending =>
      refine always_concat (always_nil _) ?_
      rw [List.append_nil]
      exact ⟨s.messages, (h.idle hpc hactive).history, rfl⟩
  | @terminalEvent event result hpc hpending hsends =>
      refine always_concat (always_nil _) ?_
      rw [List.append_nil]
      cases event with
      | done n =>
          obtain ⟨hupToDate, hn⟩ := h.done hpc
          exact ⟨s.messages, hupToDate.history, hn⟩
      | _ => trivial
  | approve hpc => exact always_of_mem (by simp [Worker.approve, Agrees])
  | call hallows hstep => exact always_of_mem (by simp [Agrees])
  | holdEvent hpc hactive hpending hevents ha =>
      exact always_of_mem (by simp [Worker.holdEvent, Agrees])
  | enqueue hpc hpending hsends => exact always_of_mem (by simp [Worker.enqueue, Agrees])
  | terminalHeld hpc hpending hsends => exact always_of_mem (by simp [Worker.enqueue, Agrees])
  | _ => exact always_of_mem (by simp [Agrees])

/-! ## Runs -/

/-- What succeeds has emitted `TurnFinished`. -/
theorem run_succeeded {A : List (Obs Message) → Worker Message → Action Message → Prop}
    (hA : ∀ tr s a, A tr s a → succeeds tr s a = true) (h : (machine setup).Run A tr s) :
    ∀ turn messages, .finished turn (.ok messages) ∈ tr → .turnFinished ∈ emitted turn tr := by
  refine h.invariant (I := fun tr _ => ∀ turn messages, .finished turn (.ok messages) ∈ tr →
    .turnFinished ∈ emitted turn tr) (fun _ _ h => by cases h) ?_
  intro tr os s s' a _ hinv ha hstep turn messages hmem
  rw [emitted_append]
  rcases List.mem_append.mp hmem with hmem | hmem
  · exact List.mem_append_left _ (hinv turn messages hmem)
  · refine List.mem_append_left _ ?_
    obtain rfl := (step_cases hstep).finished_action hmem
    have hlast : (emitted turn tr).getLast?.any AgentEvent.isTurnFinished = true := hA _ _ _ ha
    obtain ⟨event, hevent, hfinished⟩ := (Option.any_eq_true ..).mp hlast
    rw [← AgentEvent.any_isTurnFinished, List.any_eq_true]
    exact ⟨event, List.mem_of_getLast? hevent, hfinished⟩

/-- As long as no `Cancel` or `Stop` comes between a turn's `TurnFinished`
leaving its channel and the turn's end, every turn starts from the final
messages of the latest turn reported finished, and `Done` counts them. -/
theorem history_agrees
    (h : (machine setup).Run (fun tr s a => succeeds tr s a ∧ undisturbed tr s a) tr s) :
    Always (Agrees setup) tr := by
  suffices hboth : Ledger setup tr s ∧ Always (Agrees setup) tr from hboth.2
  refine h.invariant (I := fun tr s => Ledger setup tr s ∧ Always (Agrees setup) tr)
    ⟨.start setup, always_nil _⟩ ?_
  intro tr os s s' a hrun ⟨hledger, halways⟩ ha hstep
  have hsucceeded : ∀ turn messages, (s.tasks turn).outcome = some (.ok messages) →
      .finished turn (.ok messages) ∈ tr ∧ .turnFinished ∈ emitted turn tr := by
    intro turn messages houtcome
    have hfinished := run_outcome hrun turn _ houtcome
    exact ⟨hfinished, run_succeeded (fun _ _ _ h => h.1) hrun turn messages hfinished⟩
  have hstep := step_cases hstep
  exact ⟨hledger.step (run_started hrun) (run_course hrun) hsucceeded ha.2 hstep,
    always_append halways (hledger.agrees hstep)⟩

/-- A turn is reported finished and joined, and the next starts from it. -/
theorem history_agrees_next : ∃ tr s,
    (machine (plainSetup [])).Run (fun tr s a => succeeds tr s a ∧ undisturbed tr s a) tr s ∧
    Obs.started 1 "again".toList ["go".toList, "done".toList, "again".toList] ∈ tr ∧
    Always (Agrees (plainSetup [])) tr := by
  have hrun : (machine (plainSetup [])).Run
      (fun tr s a => succeeds tr s a ∧ undisturbed tr s a)
      [.started 0 "go".toList ["go".toList], .emitted 0 .turnFinished,
        .finished 0 (.ok ["go".toList, "done".toList]),
        .enqueued ⟨0, .core .turnFinished, .turnFinished, .empty, [], rfl⟩,
        .joined 0 (.ok ["go".toList, "done".toList]),
        .started 1 "again".toList ["go".toList, "done".toList, "again".toList]] _ :=
    Machine.Run.exec (fun tr s a => succeeds tr s a && undisturbed tr s a)
      (fun tr s a h => by simpa using h)
      [.command (.input "go".toList), .startTurn, .emit 0 .turnFinished,
        .finish 0 (.ok ["go".toList, "done".toList]), .closeEvents 0, .takeEvent [], .reserve,
        .takeEvent [], .joinTurn, .command (.input "again".toList), .startTurn] .start rfl
  exact ⟨_, _, hrun, by simp, history_agrees hrun⟩

/-- A `Cancel` finds `TurnFinished` held: it is still sent, and the messages
of the turn are gone. -/
theorem reported_turn_forgotten : ¬ ∀ tr s,
    (machine (plainSetup [])).Run (fun tr s a => succeeds tr s a) tr s →
      Always (Agrees (plainSetup [])) tr := by
  intro h
  have hrun : (machine (plainSetup [])).Run (fun tr s a => succeeds tr s a)
      [.started 0 "go".toList ["go".toList], .emitted 0 .turnFinished,
        .finished 0 (.ok ["go".toList, "done".toList]), .approver .cleared,
        .enqueued ⟨0, .core .turnFinished, .turnFinished, .empty, [], rfl⟩,
        .started 1 "again".toList ["again".toList]] _ :=
    Machine.Run.exec succeeds (fun _ _ _ h => h)
      [.command (.input "go".toList), .startTurn, .emit 0 .turnFinished,
        .finish 0 (.ok ["go".toList, "done".toList]), .takeEvent [], .command .cancel,
        .cancelCompleted, .reserve, .command (.input "again".toList), .startTurn] .start rfl
  obtain ⟨base, hhistory, hmessages⟩ := h _ _ hrun [_, _, _, _, _] (.started 1 _ _) [] rfl
  obtain rfl : base = [] := by simpa [plainSetup] using hmessages
  have hmem : Obs.finished 0 (.ok []) ∈ [Obs.started 0 "go".toList ["go".toList],
      .emitted 0 .turnFinished, .finished 0 (.ok ["go".toList, "done".toList]), .approver .cleared,
      .enqueued ⟨0, .core .turnFinished, .turnFinished, .empty, [], rfl⟩] := hhistory
  simp at hmem

end Worker

end PeakcodeDaemon
