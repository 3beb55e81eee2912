import PeakcodeDaemon.Lib.Ranking
import PeakcodeDaemon.Outbound

/-!
# The way out

What `run_connection` returns, and that it does: once the coordinator has
left its loop for good it takes no more commands and has only so many
awaits left, each of them with a deadline.

- **the awaits that are left** (`wayOut`, `Step.wayOut`): each step of the
  coordinator is one less, and no other step makes them more. First for
  the worker, then for the connection, which has the join of the reader
  in addition.
- **a deadline** (`exists_deadline`): until it has returned there is one
  that may pass, so it never depends on the peer or on an agent.
- **what is returned** (`Exits`, `run_exits`): the first error of the
  loop, the reader and the writer. The reader was aborted before it is
  awaited, so its join is not what fails (`exit_eq`).

The last result, `connection_refines`, is what the properties of the
worker are carried to the connection by: projected to its worker, a run of
the connection is a run of the worker, with the commands that the channel
brings.
-/

namespace PeakcodeDaemon

namespace Worker

variable {Message : Type} {setup : Setup Message} {s s' : Worker Message} {a : Action Message}
  {os : List (Obs Message)}

/-- A writer that is over stays so, unless it is aborted. -/
theorem Step.writer_over (h : Step setup s a s' os)
    (hover : s.writer = .finished (.ok ()) ∨ s.writer = .aborted) :
    s'.writer = .finished (.ok ()) ∨ s'.writer = .aborted := by
  cases h.writes with
  | same hwriter hframes => rwa [hwriter]
  | abort hwriter' hframes => exact Or.inr hwriter'
  | receive hwriter | finish hwriter | write hwriter | reject hwriter | fail hwriter =>
      rcases hover with hover | hover <;> cases hwriter.symm.trans hover

theorem step_closed {result written : Ended} (hpc : s.pc = .closing result)
    (hwriter : s.writer = .finished written) (h : step setup s .closed = some (s', os)) :
    s'.pc = .returned (result.bind fun _ => written) ∧ s'.writer = .finished written := by
  simp only [step, hpc, hwriter] at h
  obtain ⟨rfl, -⟩ := Prod.mk.inj (Option.some.inj h)
  exact ⟨rfl, rfl⟩

theorem step_closeDeadline {result : Ended} (hpc : s.pc = .closing result)
    (h : step setup s .closeDeadline = some (s', os)) :
    s'.pc = .returned result ∧ s'.writer = .aborted := by
  simp only [step, hpc] at h
  obtain ⟨rfl, -⟩ := Prod.mk.inj (Option.some.inj h)
  exact ⟨rfl, rfl⟩

/-! ## The awaits that are left -/

/-- The coordinator takes the step on its way out. -/
def Action.coordinates : Action Message → Bool
  | .stopDone | .terminalSend | .terminalGiveUp | .abortDone | .closed | .closeDeadline => true
  | _ => false

/-- How many steps the coordinator has left once it has left the loop. -/
def wayOut (s : Worker Message) : Nat :=
  match s.pc with
  | .stopping _ => 5
  | .terminal .. => 3 + s.pendingEvent.toList.length
  | .aborting _ => 2
  | .closing _ => 1
  | .running | .cancelling _ | .joining _ | .returned _ => 0

theorem wayOut_le (s : Worker Message) : s.wayOut ≤ 5 := by
  unfold wayOut
  split
  · exact Nat.le_refl 5
  · cases s.pendingEvent <;> simp
  · exact Nat.le_add_left 2 3
  · exact Nat.le_add_left 1 4
  all_goals exact Nat.zero_le 5

/-- On the way out each step of the coordinator is one less, and no other
step makes it longer. -/
theorem Step.wayOut (h : Step setup s a s' os) (hleaves : s.pc.leaves = true) :
    s'.wayOut + (if a.coordinates then 1 else 0) ≤ s.wayOut := by
  have hnot : ∀ {pc : Pc}, s.pc = pc → pc.leaves = false →
      s'.wayOut + (if a.coordinates then 1 else 0) ≤ s.wayOut := by
    intro pc hpc hin
    rw [hpc] at hleaves
    cases hin.symm.trans hleaves
  cases h with
  | stopDone hpc =>
      have hkept : (keepOrdinary s.pendingEvent).toList.length ≤ 1 := by
        cases keepOrdinary s.pendingEvent <;> simp
      have hout : s.wayOut = 5 := by rw [Worker.wayOut, hpc]
      rw [hout]
      show 3 + (keepOrdinary s.pendingEvent).toList.length + 1 ≤ 5
      omega
  | @terminalHeld held event result hpc hpending hsends =>
      have hout : s.wayOut = 4 := by rw [Worker.wayOut, hpc, hpending]; rfl
      have hpc' : (s.enqueue held).1.pc = .terminal event result := hpc
      have hout' : (s.enqueue held).1.wayOut = 3 := by rw [Worker.wayOut, hpc']; rfl
      rw [hout, hout']
      exact Nat.le_refl 4
  | terminalEvent hpc hpending hsends =>
      have hout : s.wayOut = 3 := by rw [Worker.wayOut, hpc, hpending]; rfl
      exact Nat.le_of_eq hout.symm
  | terminalGiveUp hpc =>
      have hout : 3 ≤ s.wayOut := by rw [Worker.wayOut, hpc]; exact Nat.le_add_right _ _
      exact hout
  | abortDone hpc =>
      have hout : s.wayOut = 2 := by rw [Worker.wayOut, hpc]
      exact Nat.le_of_eq hout.symm
  | closed hpc hwriter =>
      have hout : s.wayOut = 1 := by rw [Worker.wayOut, hpc]
      exact Nat.le_of_eq hout.symm
  | closeDeadline hpc =>
      have hout : s.wayOut = 1 := by rw [Worker.wayOut, hpc]
      exact Nat.le_of_eq hout.symm
  | queueInput hpc | overflow hpc | approve hpc | ignoreCancel hpc | cancel hpc | stop hpc
    | stopInactive hpc | commandsClosed hpc | commandError hpc | startTurn hpc | holdEvent hpc
    | holdNotice hpc | dropBarrier hpc | takeNotice hpc | turnClosed hpc | enqueue hpc
    | writerGone hpc | cancelCompleted hpc | cancelDeadline hpc | joinTurn hpc =>
      exact hnot hpc rfl
  | _ => exact Nat.le_refl _

end Worker

namespace Connection

variable {Message : Type} {setup : Setup Message} {fromSlice : Bytes → Except Text DaemonCommand}
  {tr os : List (Obs Message)} {s s' : Connection Message} {a : Action Message}

/-! ## What is returned -/

/-- The reader's join is not what fails. -/
theorem exit_eq {result written : Ended} {reader : ReaderJoin}
    (hreader : ∀ error, reader ≠ .panicked error) :
    exit result reader written = result.bind fun _ => written := by
  cases result with
  | error error => rfl
  | ok value =>
      cases reader with
      | panicked error => exact absurd rfl (hreader error)
      | _ => rfl

structure Exits (s : Connection Message) : Prop where
  joined : ∀ error, s.joined ≠ some (.panicked error)
  result : ∀ result, s.result = some result ↔ s.worker.pc = .returned result
  written : s.worker.pc = .returned (.ok ()) →
    s.worker.writer = .finished (.ok ()) ∨ s.worker.writer = .aborted

theorem Exits.start (setup : Setup Message) : Exits (new setup) where
  joined := nofun
  result := fun _ => ⟨nofun, nofun⟩
  written := nofun

/-- The worker takes a step in which it does not return. -/
theorem Exits.worker (h : Exits s) {b : Worker.Action Message} {os : List (Worker.Obs Message)}
    (hstep : Worker.step setup s.worker b = some (s'.worker, os)) (hjoined : s'.joined = s.joined)
    (hresult : s'.result = s.result) (hclosed : b ≠ .closed ∧ b ≠ .closeDeadline) : Exits s' where
  joined := by
    rw [hjoined]
    exact h.joined
  result := by
    intro result
    rw [hresult, h.result]
    constructor
    · exact (Worker.step_cases hstep).returned
    · intro hpc'
      rcases (Worker.step_cases hstep).returns hpc' with hpc | hb | hb
      · exact hpc
      · exact absurd hb hclosed.1
      · exact absurd hb hclosed.2
  written := by
    intro hpc'
    rcases (Worker.step_cases hstep).returns hpc' with hpc | hb | hb
    · exact (Worker.step_cases hstep).writer_over (h.written hpc)
    · exact absurd hb hclosed.1
    · exact absurd hb hclosed.2

theorem Exits.close (h : Exits s) {b : Worker.Action Message} {os : List (Worker.Obs Message)}
    {worker : Worker Message} {result written : Ended} {reader : ReaderJoin}
    (hpc : s.worker.pc = .closing result) (hjoined : s.joined = some reader)
    (hwritten : b = .closed ∧ s.worker.writer = .finished written ∨
      b = .closeDeadline ∧ written = .ok ())
    (hstep : Worker.step setup s.worker b = some (worker, os)) :
    Exits { s with worker := worker, result := some (exit result reader written) } := by
  have hreader : ∀ error, reader ≠ .panicked error := by
    rintro error rfl
    exact h.joined error hjoined
  rw [exit_eq hreader]
  rcases hwritten with ⟨rfl, hwriter⟩ | ⟨rfl, rfl⟩
  · obtain ⟨hpc', hwriter'⟩ := Worker.step_closed hpc hwriter hstep
    refine ⟨h.joined, fun result' => ?_, fun hok => ?_⟩
    · show some _ = some result' ↔ worker.pc = _
      rw [hpc']
      constructor <;> rintro ⟨rfl⟩ <;> rfl
    · have hok : worker.pc = .returned (.ok ()) := hok
      rw [hpc'] at hok
      cases result with
      | error error => cases hok
      | ok value =>
          obtain rfl : written = .ok () := Pc.returned.inj hok
          exact Or.inl hwriter'
  · obtain ⟨hpc', hwriter'⟩ := Worker.step_closeDeadline hpc hstep
    refine ⟨h.joined, fun result' => ?_, fun _ => Or.inr hwriter'⟩
    have hresult : (result.bind fun _ => .ok ()) = result := by
      cases result <;> rfl
    show some _ = some result' ↔ worker.pc = _
    rw [hpc', hresult]
    constructor <;> rintro ⟨rfl⟩ <;> rfl

theorem Exits.step (h : Exits s) (hconveyed : Conveyed fromSlice tr s)
    (hstep : Step setup fromSlice s a s' os) : Exits s' := by
  cases hstep with
  | @receive result rest worker os hcommands hs =>
      refine h.worker hs rfl rfl ?_
      cases result <;> simp [commandAction]
  | receiveClosed hcommands hover hs => exact h.worker hs rfl rfl (by simp)
  | joinReader hpc hjoined hreader =>
      refine ⟨fun error herror => ?_, h.result, h.written⟩
      obtain rfl := Option.some.inj herror
      rw [Conveyed] at hconveyed
      cases hat : s.reader with
      | panicked error =>
          rw [hat] at hconveyed
          exact hconveyed
      | _ => rw [hat] at hreader; cases hreader
  | joinDeadline hpc hjoined => exact ⟨by simp, h.result, h.written⟩
  | close hpc hjoined hwritten hs => exact h.close hpc hjoined hwritten hs
  | lineFeed hwriter hfits hsent hs => exact h.worker hs rfl rfl (by simp)
  | worker hfree hs => exact h.worker hs rfl rfl hfree.close
  | _ => exact ⟨h.joined, h.result, h.written⟩

theorem run_exits {C : List (Obs Message) → Connection Message → Action Message → Prop}
    (h : (machine setup fromSlice).Run C tr s) : Exits s := by
  refine h.invariant (I := fun _ s => Exits s) (Exits.start setup) ?_
  intro tr os s s' a hrun hinv _ hstep
  exact hinv.step (run_conveyed hrun) (step_cases hstep)

/-! ## The end of the connection -/

/-- The coordinator takes the step on its way out. -/
def Action.coordinates : Action Message → Bool
  | .joinReader | .joinDeadline => true
  | .worker a => a.coordinates
  | _ => false

/-- The step is taken when a deadline passes, whatever has become of what the
coordinator awaits. -/
def Action.expires : Action Message → Bool
  | .joinDeadline | .worker .stopDone | .worker .terminalGiveUp | .worker .abortDone
  | .worker .closeDeadline => true
  | _ => false

def wayOut (s : Connection Message) : Nat :=
  s.worker.wayOut + if s.joined.isNone then 1 else 0

theorem wayOut_le (s : Connection Message) : s.wayOut ≤ 6 := by
  have := s.worker.wayOut_le
  unfold wayOut
  split <;> omega

theorem Step.wayOut (h : Step setup fromSlice s a s' os) (hleaves : s.worker.pc.leaves = true) :
    s'.worker.pc.leaves = true ∧ s'.wayOut + (if a.coordinates then 1 else 0) ≤ s.wayOut ∧
      taken os = [] := by
  have hworker : ∀ {b : Worker.Action Message} {worker : Worker Message}
      {os : List (Worker.Obs Message)}, Worker.step setup s.worker b = some (worker, os) →
        worker.pc.leaves = true ∧
          worker.wayOut + (if b.coordinates then 1 else 0) ≤ s.worker.wayOut :=
    fun hs => ⟨(Worker.step_cases hs).leaves hleaves, (Worker.step_cases hs).wayOut hleaves⟩
  have hshift : ∀ {now own before joins : Nat}, now + own ≤ before →
      now + joins + own ≤ before + joins := by omega
  have hrunning : s.worker.pc = .running → False := by
    intro hpc
    rw [hpc] at hleaves
    cases hleaves
  cases h with
  | @receive result rest worker os hcommands hs =>
      cases result with
      | ok command => exact (hrunning (Worker.step_command_running hs)).elim
      | error error => exact (hrunning (Worker.step_commandError hs).1).elim
  | receiveClosed hcommands hover hs => exact (hrunning (Worker.step_commandsClosed hs).1).elim
  | joinReader hpc hjoined hreader =>
      refine ⟨hleaves, ?_, rfl⟩
      rw [Connection.wayOut, Connection.wayOut, hjoined]
      exact Nat.le_refl _
  | joinDeadline hpc hjoined =>
      refine ⟨hleaves, ?_, rfl⟩
      rw [Connection.wayOut, Connection.wayOut, hjoined]
      exact Nat.le_refl _
  | @close b result written reader worker os hpc hjoined hwritten hs =>
      obtain ⟨hleaves', hless⟩ := hworker hs
      refine ⟨hleaves', hshift hless, ?_⟩
      rw [taken_shown]
      rcases hwritten with ⟨rfl, -⟩ | ⟨rfl, -⟩ <;> rfl
  | lineFeed hwriter hfits hsent hs =>
      obtain ⟨hleaves', hless⟩ := hworker hs
      exact ⟨hleaves', hshift hless, by rw [taken_shown]; rfl⟩
  | worker hfree hs =>
      obtain ⟨hleaves', hless⟩ := hworker hs
      exact ⟨hleaves', hshift hless, by rw [taken_shown, hfree.command]; rfl⟩
  | _ => exact ⟨hleaves, Nat.le_refl _, rfl⟩

/-- Until it has returned there is a deadline that the coordinator can await. -/
theorem exists_deadline (h : Exits s) (hleaves : s.worker.pc.leaves = true)
    (hresult : s.result = none) : ∃ a : Action Message, a.expires = true ∧
      a.coordinates = true ∧ (step setup fromSlice s a).isSome = true := by
  cases hpc : s.worker.pc with
  | stopping turn =>
      refine ⟨.worker .stopDone, rfl, rfl, ?_⟩
      simp [step, stepWorker, advance, Worker.step, hpc]
  | terminal event result =>
      refine ⟨.worker .terminalGiveUp, rfl, rfl, ?_⟩
      simp [step, stepWorker, advance, Worker.step, hpc]
  | aborting result =>
      refine ⟨.worker .abortDone, rfl, rfl, ?_⟩
      simp [step, stepWorker, advance, Worker.step, hpc]
  | closing result =>
      cases hjoined : s.joined with
      | none =>
          refine ⟨.joinDeadline, rfl, rfl, ?_⟩
          simp [step, hpc, hjoined]
      | some reader =>
          refine ⟨.worker .closeDeadline, rfl, rfl, ?_⟩
          simp [step, stepWorker, close, advance, Worker.step, hpc, hjoined]
  | returned result => cases hresult.symm.trans ((h.result result).mpr hpc)
  | running | cancelling turn | joining turn => rw [hpc] at hleaves; cases hleaves

/-- Once the coordinator has left the loop it takes no command any more and
has at most six steps left, whatever the daemon, the agents, the reader and
the writer do and in whatever order; and until `run_connection` has returned
there is always one that a deadline brings about. -/
theorem shutdown_bounded {C : List (Obs Message) → Connection Message → Action Message → Prop}
    (h : (machine setup fromSlice).Run C tr s) (hleaves : s.worker.pc.leaves = true)
    {as : List (Action Message)} {tr' : List (Obs Message)} {s' : Connection Message}
    (htakes : (machine setup fromSlice).Takes s as tr' s') :
    as.countP Action.coordinates + s'.wayOut ≤ s.wayOut ∧ s.wayOut ≤ 6 ∧
    s'.worker.pc.leaves = true ∧ taken (tr ++ tr') = taken tr ∧
    (s'.result = none → ∃ a : Action Message, a.expires = true ∧ a.coordinates = true ∧
      (step setup fromSlice s' a).isSome = true) := by
  have hranked := htakes.ranked Action.coordinates wayOut
    (P := fun now s => (machine setup fromSlice).Run (fun _ _ _ => True) now s ∧
      s.worker.pc.leaves = true ∧ taken now = taken tr) ?_
    ⟨h.mono fun _ _ _ _ => True.intro, hleaves, rfl⟩ (fun _ _ => True.intro)
  · obtain ⟨⟨hrun, hleaves', htaken⟩, hcount⟩ := hranked
    exact ⟨hcount, s.wayOut_le, hleaves', htaken, exists_deadline (run_exits hrun) hleaves'⟩
  · intro now os s s' a ⟨hrun, hleaves, htaken⟩ _ hstep
    obtain ⟨hleaves', hless, hnone⟩ := (step_cases hstep).wayOut hleaves
    refine ⟨⟨.step hrun True.intro hstep, hleaves', ?_⟩, hless⟩
    rw [taken_append, htaken, hnone, List.append_nil]

/-- The daemon stops an idle worker. -/
theorem stop_run : ∃ (tr : List (Obs Text)) (s : Connection Text),
    (machine (plainSetup []) (reading [.stop])).Run (Lifts fun _ _ _ => True) tr s ∧
    s.worker.pc.leaves = true ∧ s.wayOut = 4 ∧ taken tr = [.ok .stop] ∧
    ∃ tr' s', (machine (plainSetup []) (reading [.stop])).Takes s
      [.worker .terminalSend, .worker .abortDone, .readerAborted, .joinReader,
        .worker .writerRecv, .write 39, .worker .writerWrite, .worker .writerEnd,
        .worker .closed] tr' s' ∧ s'.result = some (.ok ()) ∧
      s'.worker.writer = .finished (.ok ()) := by
  have hrun : (machine (plainSetup []) (reading [.stop])).Run (Lifts fun _ _ _ => True) _ _ :=
    Machine.Run.exec (fun _ _ _ => true) (fun tr s a _ => Lifts.trivial tr s a)
      [.fill (DaemonCommand.json .stop ++ [PeakcodeDaemon.lineFeed]), .round, .sendCommand,
        .receive]
      .start rfl
  refine ⟨_, _, hrun, rfl, rfl, by decide, _, _, .cons rfl (.cons rfl (.cons rfl (.cons rfl
    (.cons rfl (.cons rfl (.cons rfl (.cons rfl (.cons rfl (.nil _))))))))), ?_, ?_⟩
  · rfl
  · rfl

/-- Of nine steps four are the coordinator's. -/
theorem shutdown_bounded_stop : ∃ (as : List (Action Text)) (tr tr' : List (Obs Text))
    (s s' : Connection Text), (machine (plainSetup []) (reading [.stop])).Takes s as tr' s' ∧
    as.countP Action.coordinates = 4 ∧ s.wayOut = 4 ∧ s'.wayOut = 0 ∧
    taken (tr ++ tr') = [.ok .stop] := by
  obtain ⟨tr, s, hrun, hleaves, hout, htaken, tr', s', htakes, -, -⟩ := stop_run
  obtain ⟨hcount, -, -, hnone, -⟩ := shutdown_bounded hrun hleaves htakes
  have hfour : List.countP Action.coordinates ([.worker .terminalSend, .worker .abortDone,
      .readerAborted, .joinReader, .worker .writerRecv, .write 39, .worker .writerWrite,
      .worker .writerEnd, .worker .closed] : List (Action Text)) = 4 := by decide
  exact ⟨_, tr, tr', s, s', htakes, hfour, hout, by omega, hnone.trans htaken⟩

/-- The connection refines the worker: it runs as the worker does with what
the channel brings, under whatever is assumed of it. `run_connection` returns
what the coordinator ends with, never an error of the reader's task; and when
it returns without an error, and the writer was not cut off, everything that
was put into the event channel is on the wire. -/
theorem connection_refines {C : List (Worker.Action Message ⊕ Worker.Obs Message) →
      Worker Message → Worker.Action Message → Prop}
    (h : (machine setup fromSlice).Run (Lifts C) tr s) :
    (Worker.machine setup).logged.Run C (workerLog tr) s.worker ∧
    (∀ result, s.result = some result ↔ s.worker.pc = .returned result) ∧
    (s.result = some (.ok ()) → s.worker.writer = .aborted ∨
      s.wire = linesOf WorkerEvent.json (outgoing setup tr)) := by
  have hexits := run_exits h
  refine ⟨run_worker h, hexits.result, fun hresult => ?_⟩
  rcases hexits.written ((hexits.result _).mp hresult) with hdone | haborted
  · have hwired := run_wired h
    obtain ⟨piece, hwire, -, -, hpiece⟩ := hwired.wire
    rw [hdone] at hpiece
    obtain rfl : piece = [] := hpiece
    rw [hwire, hwired.clean hdone, List.append_nil]
    exact Or.inr rfl
  · exact Or.inl haborted

/-- It returns with its `done` on the wire. -/
theorem connection_refines_stop : ∃ (tr : List (Obs Text)) (s : Connection Text),
    (machine (plainSetup []) (reading [.stop])).Run (Lifts fun _ _ _ => True) tr s ∧
    (Worker.machine (plainSetup [])).logged.Run (fun _ _ _ => True) (workerLog tr) s.worker ∧
    s.worker.pc = .returned (.ok ()) ∧
    s.wire = linesOf WorkerEvent.json (outgoing (plainSetup []) tr) := by
  obtain ⟨tr, s, hrun, -, -, -, tr', s', htakes, hresult, hwriter⟩ := stop_run
  have hrun' := Machine.Run.takes Lifts.trivial htakes hrun
  obtain ⟨hworker, hreturned, hwire⟩ := connection_refines hrun'
  refine ⟨_, s', hrun', hworker, (hreturned _).mp hresult, ?_⟩
  rcases hwire hresult with haborted | hwire
  · cases hwriter.symm.trans haborted
  · exact hwire

end Connection

end PeakcodeDaemon
