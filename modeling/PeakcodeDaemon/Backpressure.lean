import PeakcodeDaemon.Outbound
import PeakcodeDaemon.WorkerInputs

/-!
# What a connection can hold

Every buffer between the socket and the agent is bounded, whatever the
peer and the agent do, and with them how far the ends of each path come
apart: a peer that does not read stops the coordinator, and one that does
not stop sending ends the session.

- **channels** (`Bounded`, `Bounded.step`): a notice is put into its
  channel, and an event into its, only where there is room;
- **inputs** (`InOrder.length_le`): one input more than the queue holds
  may be taken, the one that ends the session;
- **the writer** (`Piped.length_le`): between the channel and the wire
  there is one event at most, the one in its hand.

The reader's bound on a line is kept by the reader itself, and is cited
here (`run_conveyed`).
-/

namespace PeakcodeDaemon

namespace Worker

variable {Message : Type} {setup : Setup Message} {s s' : Worker Message} {a : Action Message}
  {os : List (Obs Message)}

/-- A notice is put into the channel only where there is room. -/
theorem approvals_room {c : Nat} (h : step setup s (.call (.notify c)) = some (s', os)) :
    s.approvals.length < workerApprovalChannelCapacity := by
  obtain ⟨call, -, h⟩ := Option.bind_eq_some_iff.mp h
  split at h
  · split at h
    · assumption
    · cases h
  · cases h

/-- The channels into the coordinator and out of it keep to their capacity. -/
structure Bounded (s : Worker Message) : Prop where
  approvals : s.approvals.length ≤ workerApprovalChannelCapacity
  outbound : s.outbound.length ≤ workerEventChannelCapacity

theorem Bounded.step (h : Bounded s) (hstep : Worker.step setup s a = some (s', os)) :
    Bounded s' := by
  have hroom : s.sends = true → s.outbound.length < workerEventChannelCapacity := by
    intro hsends
    rw [Worker.sends, Bool.and_eq_true] at hsends
    exact of_decide_eq_true hsends.2
  have happend : ∀ event, s.sends = true →
      (s.outbound ++ [event]).length ≤ workerEventChannelCapacity := by
    intro event hsends
    rw [List.length_append]
    exact hroom hsends
  cases step_cases hstep with
  | takeNotice hpc hactive hbarrier happrovals =>
      have hlength := h.approvals
      rw [happrovals] at hlength
      exact ⟨Nat.le_of_succ_le hlength, h.outbound⟩
  | enqueue hpc hpending hsends => exact ⟨h.approvals, happend _ hsends⟩
  | terminalHeld hpc hpending hsends => exact ⟨h.approvals, happend _ hsends⟩
  | terminalEvent hpc hpending hsends => exact ⟨h.approvals, happend _ hsends⟩
  | writerRecv hwriter houtbound =>
      have hlength := h.outbound
      rw [houtbound] at hlength
      exact ⟨h.approvals, Nat.le_of_succ_le hlength⟩
  | notify hcall hstage =>
      refine ⟨?_, h.outbound⟩
      rw [List.length_append]
      exact approvals_room hstep
  | cancelCompleted hpc houtcome => exact ⟨Nat.zero_le _, h.outbound⟩
  | cancelDeadline hpc => exact ⟨Nat.zero_le _, h.outbound⟩
  | stopDone hpc => exact ⟨Nat.zero_le _, h.outbound⟩
  | abortDone hpc => exact ⟨Nat.zero_le _, h.outbound⟩
  | @joinTurn turn outcome hpc houtcome =>
      cases outcome with
      | ok finalMessages => exact ⟨Nat.zero_le _, h.outbound⟩
      | _ => exact ⟨h.approvals, h.outbound⟩
  | _ => exact ⟨h.approvals, h.outbound⟩

theorem run_bounded {C : List (Obs Message) → Worker Message → Action Message → Prop}
    {tr : List (Obs Message)} (h : (machine setup).Run C tr s) : Bounded s := by
  refine h.invariant (I := fun _ s => Bounded s) ⟨Nat.zero_le _, Nat.zero_le _⟩ ?_
  intro tr os s s' a _ hinv _ hstep
  exact hinv.step hstep

theorem run_inOrder {C : Log Message → Worker Message → Action Message → Prop} {log : Log Message}
    (h : (machine setup).logged.Run C log s) : InOrder log s := by
  refine h.invariant (I := InOrder) (.start setup) ?_
  intro log os s s' a _ hinv _ hstep
  obtain ⟨os', hplain, rfl⟩ := Machine.logged_step hstep
  exact hinv.step hplain

/-- One input may be refused at a full queue. -/
theorem InOrder.length_le {log : Log Message} (h : InOrder log s) :
    (received log).length ≤ (served log).length + maxQueuedInputs + 1 := by
  have hbound := h.bound
  rcases h.order with horder | ⟨-, -, text, horder⟩
  · rw [horder, List.length_append]
    omega
  · rw [horder, List.length_append, List.length_append, List.length_singleton]
    omega

/-- The writer has at most one event in its hand. -/
theorem Piped.length_le {tr : List (Obs Message)} (h : Piped setup tr s) (hbounded : Bounded s)
    (hwriter : s.writer.receives = true) :
    (events tr).length ≤ s.frames.length + workerEventChannelCapacity + 1 := by
  have hflow := congrArg List.length (h.flow hwriter)
  have htaken : s.writer.taken.length ≤ 1 := by
    cases s.writer <;> simp [WriterTask.taken]
  have houtbound := hbounded.outbound
  rw [List.length_append, List.length_append, List.length_map, List.length_map] at hflow
  omega

end Worker

namespace Connection

variable {Message : Type} {setup : Setup Message} {fromSlice : Bytes → Except Text DaemonCommand}
  {tr : List (Obs Message)} {s : Connection Message}

/-- In every run what the reader has collected of a line is within the limit
of a frame and each channel within its capacity. No more inputs are taken than
were served, fit the queue, and one that ends the session; and as long as the
writer runs, the coordinator is ahead of the wire by no more than the channel
holds and the frame being written. -/
theorem buffers_bounded {C : List (Obs Message) → Connection Message → Action Message → Prop}
    (h : (machine setup fromSlice).Run C tr s) :
    (∀ payload buffered, s.reader = .reading payload buffered →
      payload.length ≤ maxIpcFrameBytes) ∧
    s.commands.length ≤ workerCommandChannelCapacity ∧
    s.worker.approvals.length ≤ workerApprovalChannelCapacity ∧
    s.worker.outbound.length ≤ workerEventChannelCapacity ∧
    (Worker.received (workerLog tr)).length ≤
      (Worker.served (workerLog tr)).length + maxQueuedInputs + 1 ∧
    (s.worker.writer.receives = true →
      (outgoing setup tr).length ≤ s.worker.frames.length + workerEventChannelCapacity + 1) := by
  have hbounded := Worker.run_bounded (run_observed h)
  have hlogged := run_worker (h.mono fun tr s a _ => Lifts.trivial tr s a)
  refine ⟨fun payload buffered hreader => ?_, run_capacity h, hbounded.approvals,
    hbounded.outbound, (Worker.run_inOrder hlogged).length_le, fun hwriter => ?_⟩
  · have hconveyed := run_conveyed h
    rw [Conveyed, hreader] at hconveyed
    exact hconveyed.2.1
  · rw [outgoing, List.length_map]
    exact (Worker.run_piped (run_observed h)).length_le hbounded hwriter

/-- One event is in the writer's hand, one in the channel, and part of a
command has come. -/
theorem buffers_bounded_writing : ∃ (tr : List (Obs Text)) (s : Connection Text),
    (machine (plainSetup []) (reading [.input "hi".toList])).Run (fun _ _ _ => True) tr s ∧
    s.worker.frames = [] ∧ s.worker.outbound = [.textDelta "b".toList] ∧
    (outgoing (plainSetup []) tr).length ≤ 65 ∧
    ∃ payload, s.reader = .reading payload [] ∧ payload.length = 3 ∧ payload.length ≤ 1048576 := by
  let input := DaemonCommand.json (.input "hi".toList)
  have hrun : (machine (plainSetup []) (reading [.input "hi".toList])).Run (fun _ _ _ => True)
      _ _ :=
    Machine.Run.exec (fun _ _ _ => true) (fun _ _ _ _ => trivial)
      [.fill (input ++ [PeakcodeDaemon.lineFeed] ++ input.take 3), .round, .sendCommand, .receive,
        .round, .worker .startTurn, .worker (.emit 0 (.textDelta "a".toList)),
        .worker (.emit 0 (.textDelta "b".toList)), .worker (.takeEvent []), .worker .reserve,
        .worker .writerRecv, .worker (.takeEvent []), .worker .reserve]
      .start rfl
  obtain ⟨tr, s, hframes, houtbound, hwriter, hreader, hrun⟩ : ∃ tr s,
      s.worker.frames = [] ∧ s.worker.outbound = [.textDelta "b".toList] ∧
      s.worker.writer = .writing (.textDelta "a".toList) ∧
      s.reader = .reading (input.take 3) [] ∧
      (machine (plainSetup []) (reading [.input "hi".toList])).Run (fun _ _ _ => True) tr s :=
    ⟨_, _, rfl, rfl, rfl, rfl, hrun⟩
  obtain ⟨hpayload, -, -, -, -, hahead⟩ := buffers_bounded hrun
  have hahead := hahead (by rw [hwriter]; rfl)
  rw [hframes] at hahead
  exact ⟨tr, s, hrun, hframes, houtbound, hahead, _, hreader, rfl, hpayload _ _ hreader⟩

end Connection

end PeakcodeDaemon
