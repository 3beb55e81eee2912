import PeakcodeDaemon.WorkerRuns

/-!
# Inputs

Every input the coordinator receives is served or queued, in the order of
the socket. One kind of input is neither: the one that finds the queue
full. It ends the session with an error, and nothing is received after it.

A run shows here the commands it takes (`Log`), so that what was
`received` can be read off it, and what was `served` off the turns that
started. The invariant `InOrder` says that one is the other and the queue
behind it.

- **an input** (`step_input`, `InOrder.input`) goes to the end of the
  queue, or the queue is full and the session is on its way to the error;
- **a start** (`step_startTurn`, `InOrder.startTurn`) takes the first of
  the queue;
- **any other step** (`Step.queuedInputs`) touches neither, and a session
  that ends with an error goes on to end with it (`Step.endsWith`).

The bound on the queue needs no lemma of its own: it is a field of the
invariant, kept by the one rule that lets an input in.
-/

namespace PeakcodeDaemon

namespace Worker

variable {Message : Type} {setup : Setup Message} {os : List (Obs Message)}
  {s s' : Worker Message} {a : Action Message}

/-- A run with its actions. -/
abbrev Log (Message : Type) := List (Action Message ⊕ Obs Message)

def input? : Action Message ⊕ Obs Message → Option Text
  | .inl (.command (.input text)) => some text
  | _ => none

/-- The inputs received, in the order of the socket. -/
def received (log : Log Message) : List Text := log.filterMap input?

def startedText? : Action Message ⊕ Obs Message → Option Text
  | .inr (.started _ text _) => some text
  | _ => none

/-- The inputs of the turns started, in order. -/
def served (log : Log Message) : List Text := log.filterMap startedText?

/-- The session is on its way to end with the error, or has. -/
def EndsWith (error : Text) (s : Worker Message) : Prop :=
  match s.pc with
  | .terminal _ result | .aborting result | .closing result | .returned result =>
      result = .error error
  | _ => False

/-- What a step makes of an input: it is queued unless the queue is full. -/
theorem step_input {text : Text} (h : step setup s (.command (.input text)) = some (s', os)) :
    s.pc = .running ∧ os = [] ∧
      (s.queuedInputs.length = maxQueuedInputs ∧
          s' = s.sendOrdered (.crash queueLimitExceeded) (.error queueLimitExceeded) ∨
        s.queuedInputs.length ≠ maxQueuedInputs ∧ s' = s.queueInput text) := by
  have hlimited : s.queueInputLimited text = s' → (s.queuedInputs.length = maxQueuedInputs ∧
      s' = s.sendOrdered (.crash queueLimitExceeded) (.error queueLimitExceeded) ∨
      s.queuedInputs.length ≠ maxQueuedInputs ∧ s' = s.queueInput text) := by
    rintro rfl
    unfold queueInputLimited
    split
    · rename_i hfull
      exact Or.inl ⟨hfull, rfl⟩
    · rename_i hroom
      exact Or.inr ⟨hroom, rfl⟩
  rw [step] at h
  split at h
  · rename_i hpc
    refine ⟨hpc, ?_⟩
    split at h
    · rename_i hreads
      have h := Option.some.inj h
      unfold onCommand at h
      split at h
      · obtain ⟨hs', rfl⟩ := Prod.mk.inj h
        exact ⟨rfl, hlimited hs'⟩
      · obtain ⟨hs', rfl⟩ := Prod.mk.inj h
        exact ⟨rfl, hlimited hs'⟩
      · -- without a turn or a held event the queue is empty
        rename_i hactive hpending
        obtain ⟨rfl, rfl⟩ := Prod.mk.inj h
        have hempty : s.queuedInputs = [] := by
          simpa [readsCommands, hactive, hpending] using hreads
        exact ⟨rfl, Or.inr ⟨by rw [hempty]; decide, rfl⟩⟩
    · cases h
  · cases h

theorem step_startTurn (h : step setup s .startTurn = some (s', os)) :
    s.pc = .running ∧ ∃ text rest, s.queuedInputs = text :: rest ∧
      s' = (s.startTurn setup text rest).1 ∧ os = (s.startTurn setup text rest).2 := by
  rw [step] at h
  split at h
  · rename_i text rest hpc hactive hpending hqueued
    obtain ⟨rfl, rfl⟩ := Prod.mk.inj (Option.some.inj h)
    exact ⟨hpc, text, rest, hqueued, rfl, rfl⟩
  · cases h

/-- A step that takes no input and starts no turn leaves the queue alone. -/
theorem Step.queuedInputs (h : Step setup s a s' os) (hinput : ∀ text, a ≠ .command (.input text))
    (hstart : a ≠ .startTurn) :
    s'.queuedInputs = s.queuedInputs ∧ ∀ turn text messages, .started turn text messages ∉ os := by
  cases h with
  | queueInput hpc => exact absurd rfl (hinput _)
  | overflow hpc => exact absurd rfl (hinput _)
  | startTurn hpc hactive hpending => exact absurd rfl hstart
  | @joinTurn turn outcome hpc houtcome =>
      refine ⟨?_, by simp⟩
      cases outcome <;> rfl
  | approve hpc => exact ⟨rfl, by simp [Worker.approve]⟩
  | holdEvent hpc hactive hpending hevents ha => exact ⟨rfl, by simp [Worker.holdEvent]⟩
  | enqueue hpc hpending hsends => exact ⟨rfl, by simp [Worker.enqueue]⟩
  | terminalHeld hpc hpending hsends => exact ⟨rfl, by simp [Worker.enqueue]⟩
  | _ => exact ⟨rfl, by simp⟩

/-- What ends with an error goes on to end with it. -/
theorem Step.endsWith (h : Step setup s a s' os) {error : Text} (hends : EndsWith error s) :
    EndsWith error s' := by
  have hrunning : ∀ {pc : Pc}, s.pc = pc → (pc = .running ∨ ∃ turn, pc = .cancelling turn ∨
      pc = .stopping turn ∨ pc = .joining turn) → EndsWith error s' := by
    intro pc hpc hat
    unfold EndsWith at hends
    rw [hpc] at hends
    rcases hat with rfl | ⟨turn, rfl | rfl | rfl⟩ <;> exact hends.elim
  unfold EndsWith at hends
  cases h with
  | overflow hpc => exact hrunning hpc (Or.inl rfl)
  | cancel hpc hactive => exact hrunning hpc (Or.inl rfl)
  | stop hpc hactive => exact hrunning hpc (Or.inl rfl)
  | stopInactive hpc hactive => exact hrunning hpc (Or.inl rfl)
  | commandsClosed hpc => exact hrunning hpc (Or.inl rfl)
  | commandError hpc => exact hrunning hpc (Or.inl rfl)
  | turnClosed hpc hactive hpending hbarrier hevents hclosed => exact hrunning hpc (Or.inl rfl)
  | writerGone hpc hpending hwriter => exact hrunning hpc (Or.inl rfl)
  | cancelCompleted hpc houtcome => exact hrunning hpc (Or.inr ⟨_, Or.inl rfl⟩)
  | cancelDeadline hpc => exact hrunning hpc (Or.inr ⟨_, Or.inl rfl⟩)
  | stopDone hpc => exact hrunning hpc (Or.inr ⟨_, Or.inr (Or.inl rfl)⟩)
  | joinTurn hpc houtcome => exact hrunning hpc (Or.inr ⟨_, Or.inr (Or.inr rfl)⟩)
  | terminalEvent hpc hpending hsends =>
      rw [hpc] at hends
      exact hends
  | terminalGiveUp hpc =>
      rw [hpc] at hends
      exact hends
  | abortDone hpc =>
      rw [hpc] at hends
      exact hends
  | closeDeadline hpc =>
      rw [hpc] at hends
      exact hends
  | @closed result written hpc hwriter =>
      rw [hpc] at hends
      obtain rfl : result = .error error := hends
      rfl
  | _ => exact hends

/-- What was received was served, is queued, or ended the session. -/
structure InOrder (log : Log Message) (s : Worker Message) : Prop where
  order : received log = served log ++ s.queuedInputs ∨
    EndsWith queueLimitExceeded s ∧ s.queuedInputs.length = maxQueuedInputs ∧
      ∃ text, received log = served log ++ s.queuedInputs ++ [text]
  bound : s.queuedInputs.length ≤ maxQueuedInputs

theorem InOrder.start (setup : Setup Message) : InOrder [] (new setup) :=
  ⟨Or.inl rfl, Nat.zero_le _⟩

section

variable {log : Log Message}

theorem received_other (ha : ∀ text, a ≠ .command (.input text)) :
    received (log ++ .inl a :: os.map .inr) = received log := by
  have hnone : input? (.inl a : Action Message ⊕ Obs Message) = none := by
    cases a with
    | command command =>
        cases command with
        | input text => exact absurd rfl (ha text)
        | _ => rfl
    | _ => rfl
  rw [received, List.filterMap_append, List.filterMap_cons_none hnone, List.filterMap_map]
  exact (congrArg _ (List.filterMap_eq_nil_iff.mpr fun _ _ => rfl)).trans (List.append_nil _)

theorem served_other (hos : ∀ turn text messages, .started turn text messages ∉ os) :
    served (log ++ .inl a :: os.map .inr) = served log := by
  rw [served, List.filterMap_append, List.filterMap_cons_none rfl, List.filterMap_map]
  refine (congrArg _ (List.filterMap_eq_nil_iff.mpr fun o ho => ?_)).trans (List.append_nil _)
  cases o with
  | started turn text messages => exact absurd ho (hos turn text messages)
  | _ => rfl

/-- In its loop the coordinator has not met a full queue. -/
theorem InOrder.running (h : InOrder log s) (hpc : s.pc = .running) :
    received log = served log ++ s.queuedInputs := by
  rcases h.order with horder | ⟨hends, -⟩
  · exact horder
  · unfold EndsWith at hends
    rw [hpc] at hends
    exact hends.elim

theorem InOrder.input (h : InOrder log s) {text : Text}
    (hstep : step setup s (.command (.input text)) = some (s', os)) :
    InOrder (log ++ .inl (.command (.input text)) :: os.map .inr) s' := by
  obtain ⟨hpc, rfl, hcases⟩ := step_input hstep
  have horder := h.running hpc
  have hbound := h.bound
  have hreceived : received (log ++ [.inl (.command (.input text))]) = received log ++ [text] :=
    List.filterMap_append
  have hserved : served (log ++ [.inl (.command (.input text))]) = served log :=
    List.filterMap_append.trans (List.append_nil _)
  rcases hcases with ⟨hfull, rfl⟩ | ⟨hroom, rfl⟩
  · refine ⟨Or.inr ⟨rfl, hfull, text, ?_⟩, hbound⟩
    rw [List.map_nil, hreceived, hserved, horder]
    rfl
  · refine ⟨Or.inl ?_, ?_⟩
    · rw [List.map_nil, hreceived, hserved, horder, List.append_assoc]
      rfl
    · rw [queueInput, List.length_append, List.length_singleton]
      omega

theorem InOrder.startTurn (h : InOrder log s) (hstep : step setup s .startTurn = some (s', os)) :
    InOrder (log ++ .inl .startTurn :: os.map .inr) s' := by
  obtain ⟨hpc, text, rest, hqueued, rfl, rfl⟩ := step_startTurn hstep
  have horder := h.running hpc
  have hbound := h.bound
  rw [hqueued] at horder hbound
  refine ⟨Or.inl ?_, ?_⟩
  · have hreceived : received (log ++ .inl .startTurn ::
        (s.startTurn setup text rest).2.map .inr) = received log :=
      List.filterMap_append.trans (List.append_nil _)
    have hserved : served (log ++ .inl .startTurn ::
        (s.startTurn setup text rest).2.map .inr) = served log ++ [text] := List.filterMap_append
    rw [hreceived, hserved, horder, List.append_assoc]
    rfl
  · exact Nat.le_of_succ_le hbound

theorem InOrder.step (h : InOrder log s) {a : Action Message}
    (hstep : Worker.step setup s a = some (s', os)) :
    InOrder (log ++ .inl a :: os.map .inr) s' := by
  by_cases hinput : ∃ text, a = .command (.input text)
  · obtain ⟨text, rfl⟩ := hinput
    exact h.input hstep
  · by_cases hstart : a = .startTurn
    · rw [hstart] at hstep ⊢
      exact h.startTurn hstep
    · have hstep := step_cases hstep
      obtain ⟨hqueue, hos⟩ :=
        hstep.queuedInputs (fun text htext => hinput ⟨text, htext⟩) hstart
      refine ⟨?_, by rw [hqueue]; exact h.bound⟩
      rw [received_other fun text htext => hinput ⟨text, htext⟩, served_other hos, hqueue]
      rcases h.order with horder | ⟨hends, hrest⟩
      · exact Or.inl horder
      · exact Or.inr ⟨hstep.endsWith hends, hrest⟩

end

/-- In every run what was received was served or is queued, in order; the
queue is never over its limit, and the one input that is not queued is the
one that finds the queue full: it ends the session with an error. -/
theorem inputs_in_order {log : Log Message}
    (h : (machine setup).logged.Run (fun _ _ _ => True) log s) :
    (received log = served log ++ s.queuedInputs ∨
      EndsWith queueLimitExceeded s ∧ s.queuedInputs.length = maxQueuedInputs ∧
        ∃ text, received log = served log ++ s.queuedInputs ++ [text]) ∧
    s.queuedInputs.length ≤ maxQueuedInputs ∧
    ∀ text s' os, step setup s (.command (.input text)) = some (s', os) →
      s.queuedInputs.length < maxQueuedInputs ∧ s'.queuedInputs = s.queuedInputs ++ [text] ∨
      s.queuedInputs.length = maxQueuedInputs ∧ s'.queuedInputs = s.queuedInputs ∧
        EndsWith queueLimitExceeded s' := by
  have hinv : InOrder log s := by
    refine h.invariant (I := InOrder) (.start setup) ?_
    intro log os s s' a _ hinv _ hstep
    obtain ⟨os', hplain, rfl⟩ := Machine.logged_step hstep
    exact hinv.step hplain
  refine ⟨hinv.order, hinv.bound, ?_⟩
  intro text s' os hstep
  obtain ⟨-, -, ⟨hfull, rfl⟩ | ⟨hroom, rfl⟩⟩ := step_input hstep
  · exact Or.inr ⟨hfull, rfl, rfl⟩
  · exact Or.inl ⟨Nat.lt_of_le_of_ne hinv.bound hroom, rfl⟩

/-- Two inputs, of which the first has been served. -/
theorem inputs_in_order_two : ∃ (log : Log Text) (s : Worker Text),
    (machine (plainSetup [])).logged.Run (fun _ _ _ => True) log s ∧
    served log = ["a".toList] ∧ s.queuedInputs = ["b".toList] ∧
    received log = ["a".toList, "b".toList] ∧ s.queuedInputs.length ≤ maxQueuedInputs := by
  have hrun : (machine (plainSetup [])).logged.Run (fun _ _ _ => True) _ _ :=
    Machine.Run.exec (fun _ _ _ => true) (fun _ _ _ _ => trivial)
      [.command (.input "a".toList), .startTurn, .command (.input "b".toList)] .start rfl
  exact ⟨_, _, hrun, rfl, rfl, rfl, (inputs_in_order hrun).2.1⟩

end Worker

end PeakcodeDaemon
