import PeakcodeDaemon.WorkerFailures

/-!
# Terminal events

`Done` and `Crash` close the stream. Nothing goes into the event channel
after one, and when one goes in, everything the coordinator has taken from
the agents is already there: an event is held only until it is sent, and a
terminal event waits for the held one. An event that is still held past
the loop keeps the terminal event back for good.

- **nothing is lost** (`Conserved`, `run_conserved`): the events of each
  turn are sent, held or buffered, in the order they were emitted. What a
  cancelled turn drops is its notice (`keepOrdinary_cases`).
- **the stream closes once** (`Stream`, `run_stream`): in the loop no
  terminal event was sent (`Ordinary`); past it one was, as the last
  (`Closed`), or the coordinator is on its way to send it and nothing else
  can be sent but what is held.
- **out** (`run_out`): once the coordinator is past these sends it stays
  there, and an event that is held then stays held.

Both invariants hold in every run, whatever the agent and the daemon do.
`TurnFinished` is no terminal event here; it closes a turn, not the
stream.
-/

namespace PeakcodeDaemon

/-- The coordinator is past its loop and the sends on its way out. -/
def Pc.isOut : Pc → Bool
  | .aborting _ | .closing _ | .returned _ => true
  | _ => false

namespace Worker

variable {Message : Type} {setup : Setup Message} {tr os : List (Obs Message)}
  {s s' : Worker Message} {a : Action Message} {turn : Nat}

/-! ## What the coordinator has taken -/

/-- The events among the items. -/
def cores (items : List Item) : List AgentEvent := items.filterMap Item.core?

/-- The events of each turn are sent, held or buffered, in order. -/
def Conserved (tr : List (Obs Message)) (s : Worker Message) : Prop :=
  ∀ turn, emitted turn tr =
    cores (sent turn tr) ++ cores (itemsOf turn s.pendingEvent) ++ (s.tasks turn).events

theorem breakLoop_events (s : Worker Message) (result : Ended) (turn : Nat) :
    ((s.breakLoop result).tasks turn).events = (s.tasks turn).events := by
  rw [breakLoop]
  split
  · exact update_task AgentTask.events rfl rfl
  · rfl

/-- What is dropped with a cancelled turn is a notice. -/
theorem keepOrdinary_cases (held : Held) : keepOrdinary (some held) = some held ∨
    keepOrdinary (some held) = none ∧ held.item.core? = none := by
  rw [keepOrdinary]
  split
  · rename_i callId tool argumentsJson hevent
    -- a core event is not sent as a `NeedsApproval`
    have hrenders := held.renders
    cases hitem : held.item with
    | core event =>
        rw [hitem, hevent] at hrenders
        obtain ⟨callIds, handle, heq⟩ := hrenders
        cases event <;> cases heq
    | approval notice => exact Or.inr ⟨rfl, rfl⟩
  · exact Or.inl rfl

theorem cores_keepOrdinary (turn : Nat) (held : Option Held) :
    cores (itemsOf turn (keepOrdinary held)) = cores (itemsOf turn held) := by
  cases held with
  | none => rfl
  | some held =>
      rcases keepOrdinary_cases held with hkept | ⟨hdropped, hcore⟩
      · rw [hkept]
      · rw [hdropped]
        by_cases hturn : held.turn = turn
        · have hnone : cores [held.item] = [] := List.filterMap_cons_none hcore
          rw [itemsOf_some hturn]
          exact hnone.symm
        · rw [itemsOf_other hturn]
          rfl

theorem Conserved.start (setup : Setup Message) : Conserved [] (new setup) :=
  fun _ => rfl

/-- Nothing is emitted or sent, and no event is taken or dropped. -/
theorem Conserved.frame (h : Conserved tr s) (hemitted : ∀ turn, emitted turn os = [])
    (hsent : ∀ turn, sent turn os = [])
    (hpending : ∀ turn, cores (itemsOf turn s'.pendingEvent) = cores (itemsOf turn s.pendingEvent))
    (hevents : ∀ turn, (s'.tasks turn).events = (s.tasks turn).events) :
    Conserved (tr ++ os) s' := by
  intro turn
  rw [emitted_append, sent_append, hemitted, hsent, List.append_nil, List.append_nil, hpending,
    hevents]
  exact h turn

theorem Conserved.enqueue (h : Conserved tr s) {held : Held}
    (hpending : s.pendingEvent = some held) :
    Conserved (tr ++ (s.enqueue held).2) (s.enqueue held).1 := by
  intro turn
  have hnone : emitted turn (s.enqueue held).2 = [] := rfl
  have hsent : sent turn (s.enqueue held).2 = itemsOf turn (some held) := sent_enqueued turn held
  have hgone : cores (itemsOf turn (s.enqueue held).1.pendingEvent) = [] := rfl
  rw [emitted_append, hnone, List.append_nil, sent_append, hsent, hgone, h turn, hpending]
  simp [cores, Worker.enqueue]

theorem Conserved.startTurn (h : Conserved tr s) (hstarted : Started tr s)
    (hpending : s.pendingEvent = none) (text : Text) (rest : List Text) :
    Conserved (tr ++ (s.startTurn setup text rest).2) (s.startTurn setup text rest).1 := by
  intro turn
  have hnone : emitted turn (s.startTurn setup text rest).2 = [] := rfl
  have hsent : sent turn (s.startTurn setup text rest).2 = [] := rfl
  have hheld : (s.startTurn setup text rest).1.pendingEvent = none := hpending
  rw [emitted_append, sent_append, hnone, hsent, List.append_nil, List.append_nil, hheld]
  by_cases hturn : turn = s.nextTurn
  · have hfresh : ((s.startTurn setup text rest).1.tasks turn).events = [] := by
      rw [hturn]
      exact congrArg AgentTask.events (task_self s.tasks s.nextTurn _)
    have hle : s.nextTurn ≤ turn := Nat.le_of_eq hturn.symm
    rw [hfresh, emitted, hstarted.program _ hle, hstarted.sent_eq_nil hle]
    rfl
  · have hsame : ((s.startTurn setup text rest).1.tasks turn).events = (s.tasks turn).events :=
      congrArg AgentTask.events (Function.update_of_ne hturn ..)
    rw [hsame, h turn, hpending]

theorem Conserved.hold (h : Conserved tr s) (hpending : s.pendingEvent = none) {handle : Text}
    {event : AgentEvent} {rest : List AgentEvent}
    (hevents : (s.tasks turn).events = event :: rest) :
    Conserved (tr ++ (s.holdEvent handle turn event rest).2)
      (s.holdEvent handle turn event rest).1 := by
  intro turn'
  have hnone : emitted turn' (s.holdEvent handle turn event rest).2 = [] :=
    congrArg (List.filterMap Item.core?) (program_map_drew turn' _)
  have hsent : sent turn' (s.holdEvent handle turn event rest).2 = [] := sent_map_drew turn' _
  have hbefore := h turn'
  rw [hpending] at hbefore
  rw [emitted_append, sent_append, hnone, hsent, List.append_nil, List.append_nil, hbefore]
  by_cases hturn : turn' = turn
  · subst hturn
    have hrest : ((s.holdEvent handle turn' event rest).1.tasks turn').events = rest :=
      congrArg AgentTask.events (task_self s.tasks turn' _)
    have hheld : itemsOf turn' (s.holdEvent handle turn' event rest).1.pendingEvent =
        [.core event] := itemsOf_some rfl
    rw [hrest, hheld, hevents]
    simp [cores, itemsOf, Item.core?]
  · have hrest : ((s.holdEvent handle turn event rest).1.tasks turn').events =
        (s.tasks turn').events :=
      congrArg AgentTask.events (Function.update_of_ne hturn ..)
    have hheld : itemsOf turn' (s.holdEvent handle turn event rest).1.pendingEvent = [] :=
      itemsOf_other (Ne.symm hturn)
    rw [hrest, hheld]
    rfl

theorem Conserved.holdNotice (h : Conserved tr s) (hpending : s.pendingEvent = none)
    (barrier : Nat × ApprovalNotice) : Conserved (tr ++ []) (s.holdNotice barrier) := by
  refine h.frame (fun _ => rfl) (fun _ => rfl) (fun turn => ?_) (fun _ => rfl)
  rw [hpending]
  by_cases hturn : barrier.1 = turn
  · have hheld : itemsOf turn (s.holdNotice barrier).pendingEvent = [.approval barrier.2] :=
      itemsOf_some hturn
    rw [hheld]
    rfl
  · exact congrArg cores (itemsOf_other hturn)

theorem Conserved.emit (h : Conserved tr s) (turn' : Nat) (event : AgentEvent) :
    Conserved (tr ++ [.emitted turn' event]) { s with
      tasks := Function.update s.tasks turn'
        { s.tasks turn' with events := (s.tasks turn').events ++ [event] } } := by
  intro turn
  have hsent : sent turn [(.emitted turn' event : Obs Message)] = [] := rfl
  rw [emitted_append, h turn, sent_append, hsent, List.append_nil]
  by_cases hturn : turn' = turn
  · subst hturn
    simp [emitted, program, programItem?, Item.core?]
  · simp [emitted, program, programItem?, hturn, Function.update_of_ne (Ne.symm hturn)]

/-- A joined turn has nothing held. -/
theorem join_pending_none {outcome : Outcome Message} (hpending : s.pendingEvent = none) :
    (s.join outcome).pendingEvent = none := by
  cases outcome with
  | failed error => rfl
  | _ => exact hpending

theorem join_events (s : Worker Message) (outcome : Outcome Message) (turn : Nat) :
    ((s.join outcome).tasks turn).events = (s.tasks turn).events := by
  cases outcome with
  | panicked error => exact breakLoop_events ..
  | cancelled error => exact breakLoop_events ..
  | _ => rfl

theorem Conserved.step (h : Conserved tr s) (hstarted : Started tr s) (hcourse : Course s)
    (hstep : Step setup s a s' os) : Conserved (tr ++ os) s' := by
  cases hstep with
  | startTurn hpc hactive hpending => exact h.startTurn hstarted hpending _ _
  | holdEvent hpc hactive hpending hevents ha => exact h.hold hpending hevents
  | holdNotice hpc hactive hpending hbarrier hevents hopen => exact h.holdNotice hpending _
  | enqueue hpc hpending hsends => exact h.enqueue hpending
  | terminalHeld hpc hpending hsends => exact h.enqueue hpending
  | emit hturn hopen => exact h.emit _ _
  | closeEvents hturn =>
      exact h.frame (fun _ => rfl) (fun _ => rfl) (fun _ => rfl)
        (fun _ => update_task AgentTask.events rfl rfl)
  | finish hturn hrunning =>
      exact h.frame (fun _ => rfl) (fun _ => rfl) (fun _ => rfl)
        (fun _ => update_task AgentTask.events rfl rfl)
  | cancel hpc hactive =>
      exact h.frame (fun _ => rfl) (fun _ => rfl) (fun _ => rfl)
        (fun _ => update_task AgentTask.events rfl rfl)
  | stop hpc hactive =>
      exact h.frame (fun _ => rfl) (fun _ => rfl) (fun _ => rfl)
        (fun _ => update_task AgentTask.events rfl rfl)
  | commandsClosed hpc =>
      exact h.frame (fun _ => rfl) (fun _ => rfl) (fun _ => rfl) (breakLoop_events s _)
  | commandError hpc =>
      exact h.frame (fun _ => rfl) (fun _ => rfl) (fun _ => rfl) (breakLoop_events s _)
  | writerGone hpc hpending hwriter =>
      exact h.frame (fun _ => rfl) (fun _ => rfl) (fun _ => rfl) (breakLoop_events s _)
  | @terminalEvent event result hpc hpending hsends =>
      exact h.frame (fun _ => rfl) (fun _ => rfl) (fun _ => rfl) (breakLoop_events s result)
  | terminalGiveUp hpc =>
      exact h.frame (fun _ => rfl) (fun _ => rfl) (fun _ => rfl) (breakLoop_events s _)
  | cancelCompleted hpc houtcome =>
      exact h.frame (fun _ => rfl) (fun _ => rfl) (fun turn => cores_keepOrdinary turn _)
        (fun _ => rfl)
  | cancelDeadline hpc =>
      exact h.frame (fun _ => rfl) (fun _ => rfl) (fun turn => cores_keepOrdinary turn _)
        (fun _ => rfl)
  | stopDone hpc =>
      exact h.frame (fun _ => rfl) (fun _ => rfl) (fun turn => cores_keepOrdinary turn _)
        (fun _ => rfl)
  | @joinTurn turn outcome hpc houtcome =>
      obtain ⟨-, hpending, -⟩ := hcourse.joining turn hpc
      refine h.frame (fun _ => rfl) (fun _ => rfl) (fun turn => ?_) (join_events s outcome)
      rw [hpending, join_pending_none hpending]
  | approve hpc =>
      exact h.frame (emitted_map_approver _) (fun turn => sent_map_approver turn _) (fun _ => rfl)
        (fun _ => rfl)
  | call hallows hcalled =>
      exact h.frame (emitted_map_approver _) (fun turn => sent_map_approver turn _) (fun _ => rfl)
        (fun _ => rfl)
  | name hcall hstage =>
      exact h.frame (emitted_asked _ _ _) (fun _ => rfl) (fun _ => rfl) (fun _ => rfl)
  | _ => exact h.frame (fun _ => rfl) (fun _ => rfl) (fun _ => rfl) (fun _ => rfl)

/-- In every run, whatever the agent and the daemon do. -/
theorem run_conserved {C : List (Obs Message) → Worker Message → Action Message → Prop}
    (h : (machine setup).Run C tr s) : Conserved tr s := by
  refine h.invariant (Conserved.start setup) ?_
  intro tr os s s' a hrun hinv _ hstep
  exact hinv.step (run_started hrun) (run_course hrun) (step_cases hstep)

/-! ## The end of the stream -/

/-- No terminal event was put into the event channel. -/
def Ordinary (tr : List (Obs Message)) : Prop := ∀ event ∈ events tr, event.isTerminal = false

/-- A terminal event was put into the event channel, last. -/
def Closed (tr : List (Obs Message)) : Prop :=
  ∃ past event, events tr = past ++ [event] ∧ event.isTerminal = true ∧
    ∀ event ∈ past, event.isTerminal = false

/-- What holds where the coordinator is: it closes the stream on its way out
of the loop, with nothing held. -/
def Stream (tr : List (Obs Message)) (s : Worker Message) : Prop :=
  match s.pc with
  | .aborting _ | .closing _ | .returned _ => Ordinary tr ∨ s.pendingEvent = none ∧ Closed tr
  | .terminal event _ => Ordinary tr ∧ event.isTerminal = true
  | _ => Ordinary tr

theorem Ordinary.append (h : Ordinary tr) (hos : ∀ event ∈ events os, event.isTerminal = false) :
    Ordinary (tr ++ os) := by
  intro event hmem
  rw [events_append] at hmem
  rcases List.mem_append.mp hmem with hmem | hmem
  · exact h event hmem
  · exact hos event hmem

theorem Ordinary.append_nil (h : Ordinary tr) (hos : events os = []) : Ordinary (tr ++ os) :=
  h.append (by simp [hos])

theorem Closed.append (h : Closed tr) (hos : events os = []) : Closed (tr ++ os) := by
  obtain ⟨past, event, heq, hevent, hpast⟩ := h
  refine ⟨past, event, ?_, hevent, hpast⟩
  rw [events_append, hos, List.append_nil, heq]

/-- In the loop, and in its branches, the stream is open. -/
theorem Stream.loop (h : Stream tr s) (hpc : s.pc = .running ∨
    ∃ turn, s.pc = .cancelling turn ∨ s.pc = .stopping turn ∨ s.pc = .joining turn) :
    Ordinary tr := by
  unfold Stream at h
  rcases hpc with hpc | ⟨turn, hpc | hpc | hpc⟩ <;> rw [hpc] at h <;> exact h

theorem Stream.past (h : Stream tr s) {result : Ended}
    (hpc : s.pc = .aborting result ∨ s.pc = .closing result ∨ s.pc = .returned result) :
    Ordinary tr ∨ s.pendingEvent = none ∧ Closed tr := by
  unfold Stream at h
  rcases hpc with hpc | hpc | hpc <;> rw [hpc] at h <;> exact h

theorem Stream.terminal (h : Stream tr s) {event : WorkerEvent} {result : Ended}
    (hpc : s.pc = .terminal event result) : Ordinary tr ∧ event.isTerminal = true := by
  unfold Stream at h
  rw [hpc] at h
  exact h

theorem Stream.of_running (h : Ordinary tr) (hpc : s.pc = .running) : Stream tr s := by
  unfold Stream
  rw [hpc]
  exact h

/-- A step that leaves the coordinator where it is and sends nothing. -/
theorem Stream.frame (h : Stream tr s) (hpc : s'.pc = s.pc) (hos : events os = [])
    (hpending : s'.pendingEvent = s.pendingEvent) : Stream (tr ++ os) s' := by
  unfold Stream at h ⊢
  rw [hpc, hpending]
  cases hat : s.pc with
  | terminal event result =>
      rw [hat] at h
      exact ⟨h.1.append_nil hos, h.2⟩
  | aborting result =>
      rw [hat] at h
      exact h.imp (fun h => h.append_nil hos) (fun h => ⟨h.1, h.2.append hos⟩)
  | closing result =>
      rw [hat] at h
      exact h.imp (fun h => h.append_nil hos) (fun h => ⟨h.1, h.2.append hos⟩)
  | returned result =>
      rw [hat] at h
      exact h.imp (fun h => h.append_nil hos) (fun h => ⟨h.1, h.2.append hos⟩)
  | running => rw [hat] at h; exact h.append_nil hos
  | cancelling turn => rw [hat] at h; exact h.append_nil hos
  | stopping turn => rw [hat] at h; exact h.append_nil hos
  | joining turn => rw [hat] at h; exact h.append_nil hos

theorem Stream.join (h : Stream tr s) (hpc : s.pc = .joining turn) (outcome : Outcome Message) :
    Stream (tr ++ [.joined turn outcome]) (s.join outcome) := by
  have hordinary : Ordinary (tr ++ [.joined turn outcome]) :=
    (h.loop (Or.inr ⟨turn, Or.inr (Or.inr hpc)⟩)).append_nil rfl
  cases outcome with
  | ok finalMessages => exact hordinary
  | failed error => exact ⟨hordinary, rfl⟩
  | panicked error => exact Or.inl hordinary
  | cancelled error => exact Or.inl hordinary

theorem Stream.step (h : Stream tr s) (hstep : Step setup s a s' os) : Stream (tr ++ os) s' := by
  cases hstep with
  | enqueue hpc hpending hsends =>
      refine .of_running ((h.loop (Or.inl hpc)).append ?_) hpc
      simp [Worker.enqueue, events, event?, Held.isTerminal]
  | @terminalHeld held event result hpc hpending hsends =>
      obtain ⟨hordinary, hevent⟩ := h.terminal hpc
      have hos : ∀ event ∈ events (s.enqueue held).2, event.isTerminal = false := by
        simp [Worker.enqueue, events, event?, Held.isTerminal]
      have hpc' : (s.enqueue held).1.pc = .terminal event result := hpc
      unfold Stream
      rw [hpc']
      exact ⟨hordinary.append hos, hevent⟩
  | terminalEvent hpc hpending hsends =>
      obtain ⟨hordinary, hevent⟩ := h.terminal hpc
      exact Or.inr ⟨hpending, events tr, _, events_append, hevent, hordinary⟩
  | terminalGiveUp hpc => exact Or.inl ((h.terminal hpc).1.append_nil rfl)
  | overflow hpc => exact ⟨(h.loop (Or.inl hpc)).append_nil rfl, rfl⟩
  | stopInactive hpc hactive => exact ⟨(h.loop (Or.inl hpc)).append_nil rfl, rfl⟩
  | cancelDeadline hpc => exact ⟨(h.loop (Or.inr ⟨_, Or.inl hpc⟩)).append_nil rfl, rfl⟩
  | stopDone hpc => exact ⟨(h.loop (Or.inr ⟨_, Or.inr (Or.inl hpc)⟩)).append_nil rfl, rfl⟩
  | joinTurn hpc houtcome => exact h.join hpc _
  | cancel hpc hactive => exact (h.loop (Or.inl hpc)).append_nil rfl
  | stop hpc hactive => exact (h.loop (Or.inl hpc)).append_nil rfl
  | turnClosed hpc hactive hpending hbarrier hevents hclosed =>
      exact (h.loop (Or.inl hpc)).append_nil rfl
  | cancelCompleted hpc houtcome => exact (h.loop (Or.inr ⟨_, Or.inl hpc⟩)).append_nil rfl
  | commandsClosed hpc => exact Or.inl ((h.loop (Or.inl hpc)).append_nil rfl)
  | commandError hpc => exact Or.inl ((h.loop (Or.inl hpc)).append_nil rfl)
  | writerGone hpc hpending hwriter => exact Or.inl ((h.loop (Or.inl hpc)).append_nil rfl)
  | abortDone hpc =>
      exact (h.past (Or.inl hpc)).imp (fun h => h.append_nil rfl) (fun h => ⟨h.1, h.2.append rfl⟩)
  | closed hpc hwriter =>
      exact (h.past (Or.inr (Or.inl hpc))).imp (fun h => h.append_nil rfl)
        (fun h => ⟨h.1, h.2.append rfl⟩)
  | closeDeadline hpc =>
      exact (h.past (Or.inr (Or.inl hpc))).imp (fun h => h.append_nil rfl)
        (fun h => ⟨h.1, h.2.append rfl⟩)
  | startTurn hpc hactive hpending => exact .of_running ((h.loop (Or.inl hpc)).append_nil rfl) hpc
  | holdEvent hpc hactive hpending hevents ha =>
      exact .of_running ((h.loop (Or.inl hpc)).append_nil (events_map_drew _)) hpc
  | holdNotice hpc hactive hpending hbarrier hevents hopen =>
      exact .of_running ((h.loop (Or.inl hpc)).append_nil rfl) hpc
  | approve hpc => exact h.frame rfl (events_map_approver _) rfl
  | call hallows hcalled => exact h.frame rfl (events_map_approver _) rfl
  | _ => exact h.frame rfl rfl rfl

theorem run_stream {C : List (Obs Message) → Worker Message → Action Message → Prop}
    (h : (machine setup).Run C tr s) : Stream tr s := by
  refine h.invariant (.of_running (fun _ hmem => by cases hmem) rfl) ?_
  intro tr os s s' a _ hinv _ hstep
  exact hinv.step (step_cases hstep)

/-- Where the stream may be closed, it is or no terminal event is in it. -/
theorem Stream.open_or_closed (h : Stream tr s) :
    Ordinary tr ∨ s.pendingEvent = none ∧ Closed tr := by
  cases hpc : s.pc with
  | aborting result => exact h.past (Or.inl hpc)
  | closing result => exact h.past (Or.inr (Or.inl hpc))
  | returned result => exact h.past (Or.inr (Or.inr hpc))
  | terminal event result => exact Or.inl (h.terminal hpc).1
  | running => exact Or.inl (h.loop (Or.inl hpc))
  | cancelling turn => exact Or.inl (h.loop (Or.inr ⟨turn, Or.inl hpc⟩))
  | stopping turn => exact Or.inl (h.loop (Or.inr ⟨turn, Or.inr (Or.inl hpc)⟩))
  | joining turn => exact Or.inl (h.loop (Or.inr ⟨turn, Or.inr (Or.inr hpc)⟩))

theorem Closed.last (h : Closed tr) {past rest : List WorkerEvent} {event : WorkerEvent}
    (hevents : events tr = past ++ event :: rest) (hterminal : event.isTerminal = true) :
    rest = [] := by
  obtain ⟨past', event', heq, -, hpast⟩ := h
  rw [heq] at hevents
  rcases List.eq_nil_or_concat rest with rfl | ⟨rest', x, rfl⟩
  · rfl
  · -- then the event is one of those before the last
    rw [List.concat_eq_append, ← List.cons_append, ← List.append_assoc] at hevents
    obtain ⟨rfl, -⟩ := List.append_inj' hevents rfl
    have hordinary := hpast event (by simp)
    cases hordinary.symm.trans hterminal

/-- Out there it stays out, and what is held then stays held. -/
theorem Step.out (h : Step setup s a s' os) (hout : s.pc.isOut = true) :
    s'.pc.isOut = true ∧ s'.pendingEvent = s.pendingEvent ∧ events os = [] := by
  cases h with
  | queueInput hpc | overflow hpc | approve hpc | ignoreCancel hpc | cancel hpc | stop hpc
  | stopInactive hpc | commandsClosed hpc | commandError hpc | startTurn hpc | holdEvent hpc
  | holdNotice hpc | dropBarrier hpc | takeNotice hpc | turnClosed hpc | enqueue hpc
  | writerGone hpc | cancelCompleted hpc | cancelDeadline hpc | stopDone hpc | joinTurn hpc
  | terminalHeld hpc | terminalEvent hpc | terminalGiveUp hpc =>
      rw [hpc] at hout
      cases hout
  | abortDone hpc | closed hpc | closeDeadline hpc => exact ⟨rfl, rfl, rfl⟩
  | call hallows hcalled => exact ⟨hout, rfl, events_map_approver _⟩
  | _ => exact ⟨hout, rfl, rfl⟩

theorem run_out {C : List (Obs Message) → Worker Message → Action Message → Prop}
    (h : ((machine setup).restart s).Run C tr s') (hout : s.pc.isOut = true) :
    s'.pc.isOut = true ∧ s'.pendingEvent = s.pendingEvent ∧ events tr = [] := by
  refine h.invariant (I := fun tr s' => s'.pc.isOut = true ∧ s'.pendingEvent = s.pendingEvent ∧
    events tr = []) ⟨hout, rfl, rfl⟩ ?_
  intro tr os s₁ s₂ a _ ⟨hat, hheld, hevents⟩ _ hstep
  obtain ⟨hat', hheld', hos⟩ := (step_cases hstep).out hat
  exact ⟨hat', hheld'.trans hheld, by rw [events_append, hevents, hos]; rfl⟩

/-- Once a terminal event is in the event channel it is the last one there,
nothing is held, and every event taken from an agent is there before it:
what a turn has emitted is what was sent of it and what its channel still
buffers. Where the coordinator gives up with an event held, no terminal
event is ever sent. -/
theorem terminal_last {C : List (Obs Message) → Worker Message → Action Message → Prop}
    (h : (machine setup).Run C tr s) :
    (∀ past rest event, events tr = past ++ event :: rest → event.isTerminal = true →
      rest = [] ∧ s.pendingEvent = none ∧
        ∀ turn, emitted turn tr =
          (sent turn tr).filterMap Item.core? ++ (s.tasks turn).events) ∧
    ∀ held s₁ os tr' s', s.pendingEvent = some held →
      step setup s .terminalGiveUp = some (s₁, os) → ((machine setup).restart s₁).Run C tr' s' →
      s'.pendingEvent = some held ∧ Ordinary (tr ++ os ++ tr') := by
  refine ⟨fun past rest event hevents hterminal => ?_, ?_⟩
  · rcases (run_stream h).open_or_closed with hordinary | ⟨hpending, hclosed⟩
    · have hnot := hordinary event (by simp [hevents])
      cases hnot.symm.trans hterminal
    · refine ⟨hclosed.last hevents hterminal, hpending, fun turn => ?_⟩
      have hflow := run_conserved h turn
      rw [hpending] at hflow
      exact hflow.trans (List.append_nil _ ▸ rfl)
  · intro held s₁ os tr' s' hheld hstep hrun
    cases step_cases hstep with
    | holdEvent hpc hactive hpending hevents ha => rcases ha with ha | ha <;> cases ha
    | terminalGiveUp hpc =>
        have hordinary := ((run_stream h).terminal hpc).1
        obtain ⟨-, hpending, hsilent⟩ := run_out hrun rfl
        exact ⟨hpending.trans hheld, (hordinary.append_nil rfl).append_nil hsilent⟩

/-- `Stop` finds an event held: the event goes out, and `Done` behind it. -/
theorem terminal_last_stop : ∃ (tr : List (Obs Text)) (s : Worker Text),
    (machine (plainSetup [])).Run (fun _ _ _ => True) tr s ∧
    events tr = [.textDelta "a".toList, .done 0] ∧ s.pendingEvent = none ∧
    emitted 0 tr = (sent 0 tr).filterMap Item.core? ++ (s.tasks 0).events := by
  have hrun : (machine (plainSetup [])).Run (fun _ _ _ => True) _ _ :=
    Machine.Run.exec (fun _ _ _ => true) (fun _ _ _ _ => trivial)
      [.command (.input "go".toList), .startTurn, .emit 0 (.textDelta "a".toList), .takeEvent [],
        .emit 0 (.textDelta "b".toList), .command .stop, .stopDone, .terminalSend, .terminalSend]
      .start rfl
  have hlast := (terminal_last hrun).1 [.textDelta "a".toList] [] (.done 0) rfl rfl
  exact ⟨_, _, hrun, rfl, hlast.2.1, hlast.2.2 0⟩

end Worker

end PeakcodeDaemon
