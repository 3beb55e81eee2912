import PeakcodeDaemon.TerminalEvents

/-!
# Where the coordinator goes

The places of the coordinator (`Pc`), and one rule of `Advances` for each
way from one to another: from the loop into an await and back, from the
loop out by an error, a `Done` or a `Crash`, and then through the awaits
of the shutdown to the return. `Step.advances` is the only case analysis
over the steps; what holds of the coordinator once it is somewhere is read
off the rules.

- **no way back** (`Step.isOut`, `Step.closes`, `Step.leaves`): out of the
  loop it stays out, and so at each later stage;
- **the return** (`Step.returns`, `Step.returned`): it comes from closing,
  with what was kept for it, and what is returned stays.

The commands are here too, because they are the coordinator's to take: the
end of the channel and an error on it end the loop
(`step_commandsClosed`, `step_commandError`).
-/

namespace PeakcodeDaemon

/-- The coordinator has left the loop for good. -/
def Pc.leaves : Pc → Bool
  | .running | .cancelling _ | .joining _ => false
  | .stopping _ | .terminal .. | .aborting _ | .closing _ | .returned _ => true

/-- The coordinator aborts the command reader when it begins to close. -/
def Pc.closes : Pc → Bool
  | .closing _ | .returned _ => true
  | _ => false

namespace Worker

variable {Message : Type} {setup : Setup Message} {s s' : Worker Message} {a : Action Message}
  {os : List (Obs Message)}

inductive Advances : Pc → Action Message → Pc → Prop
  -- out of the loop, or into an await in it
  | cancel {turn : Nat} : Advances .running (.command .cancel) (.cancelling turn)
  | stop {turn : Nat} : Advances .running (.command .stop) (.stopping turn)
  | send {command : DaemonCommand} {event : WorkerEvent} {result : Ended} :
      Advances .running (.command command) (.terminal event result)
  | turnClosed {handle : Text} {turn : Nat} : Advances .running (.takeEvent handle) (.joining turn)
  | breakLoop {a : Action Message} {result : Ended} (ha : ∀ command, a ≠ .command command) :
      Advances .running a (.aborting result)
  -- past an await
  | cancelCompleted {turn : Nat} : Advances (.cancelling turn) .cancelCompleted .running
  | cancelDeadline {turn : Nat} {event : WorkerEvent} {result : Ended} :
      Advances (.cancelling turn) .cancelDeadline (.terminal event result)
  | stopDone {turn : Nat} {event : WorkerEvent} {result : Ended} :
      Advances (.stopping turn) .stopDone (.terminal event result)
  | joinOk {turn : Nat} : Advances (.joining turn) .joinTurn .running
  | joinFailed {turn : Nat} {event : WorkerEvent} {result : Ended} :
      Advances (.joining turn) .joinTurn (.terminal event result)
  | joinBroken {turn : Nat} {result : Ended} : Advances (.joining turn) .joinTurn (.aborting result)
  -- past the loop
  | terminalSend {event : WorkerEvent} {result : Ended} :
      Advances (.terminal event result) .terminalSend (.aborting result)
  | terminalGiveUp {event : WorkerEvent} {result : Ended} :
      Advances (.terminal event result) .terminalGiveUp (.aborting result)
  | abortDone {result : Ended} : Advances (.aborting result) .abortDone (.closing result)
  | closed {result result' : Ended} : Advances (.closing result) .closed (.returned result')
  | closeDeadline {result : Ended} : Advances (.closing result) .closeDeadline (.returned result)

theorem Step.advances (h : Step setup s a s' os) : s'.pc = s.pc ∨ Advances s.pc a s'.pc := by
  cases h with
  | overflow hpc => exact Or.inr (hpc ▸ .send)
  | cancel hpc hactive => exact Or.inr (hpc ▸ .cancel)
  | stop hpc hactive => exact Or.inr (hpc ▸ .stop)
  | stopInactive hpc hactive => exact Or.inr (hpc ▸ .send)
  | commandsClosed hpc => exact Or.inr (hpc ▸ .breakLoop nofun)
  | commandError hpc => exact Or.inr (hpc ▸ .breakLoop nofun)
  | turnClosed hpc hactive hpending hbarrier hevents hclosed => exact Or.inr (hpc ▸ .turnClosed)
  | writerGone hpc hpending hwriter => exact Or.inr (hpc ▸ .breakLoop nofun)
  | cancelCompleted hpc houtcome => exact Or.inr (hpc ▸ .cancelCompleted)
  | cancelDeadline hpc => exact Or.inr (hpc ▸ .cancelDeadline)
  | stopDone hpc => exact Or.inr (hpc ▸ .stopDone)
  | @joinTurn turn outcome hpc houtcome =>
      rw [hpc]
      cases outcome with
      | ok finalMessages => exact Or.inr .joinOk
      | failed error => exact Or.inr .joinFailed
      | panicked error => exact Or.inr .joinBroken
      | cancelled error => exact Or.inr .joinBroken
  | terminalEvent hpc hpending hsends => exact Or.inr (hpc ▸ .terminalSend)
  | terminalGiveUp hpc => exact Or.inr (hpc ▸ .terminalGiveUp)
  | abortDone hpc => exact Or.inr (hpc ▸ .abortDone)
  | closed hpc hwriter => exact Or.inr (hpc ▸ .closed)
  | closeDeadline hpc => exact Or.inr (hpc ▸ .closeDeadline)
  | _ => exact Or.inl rfl

theorem Advances.isOut {pc pc' : Pc} (h : Advances pc a pc') (hout : pc.isOut = true) :
    pc'.isOut = true := by
  cases h with
  | abortDone | closed | closeDeadline => rfl
  | _ => cases hout

theorem Advances.closes {pc pc' : Pc} (h : Advances pc a pc') (hcloses : pc.closes = true) :
    pc'.closes = true := by
  cases h with
  | closed | closeDeadline => rfl
  | _ => cases hcloses

theorem Advances.leaves {pc pc' : Pc} (h : Advances pc a pc') (hleaves : pc.leaves = true) :
    pc'.leaves = true := by
  cases h with
  | stopDone | terminalSend | terminalGiveUp | abortDone | closed | closeDeadline => rfl
  | _ => cases hleaves

theorem Advances.returns {pc : Pc} {result : Ended} (h : Advances pc a (.returned result)) :
    a = .closed ∨ a = .closeDeadline := by
  cases h with
  | closed => exact Or.inl rfl
  | closeDeadline => exact Or.inr rfl

theorem Step.isOut (h : Step setup s a s' os) (hout : s.pc.isOut = true) : s'.pc.isOut = true := by
  rcases h.advances with hpc | hpc
  · rwa [hpc]
  · exact hpc.isOut hout

theorem Step.closes (h : Step setup s a s' os) (hcloses : s.pc.closes = true) :
    s'.pc.closes = true := by
  rcases h.advances with hpc | hpc
  · rwa [hpc]
  · exact hpc.closes hcloses

theorem Step.leaves (h : Step setup s a s' os) (hleaves : s.pc.leaves = true) :
    s'.pc.leaves = true := by
  rcases h.advances with hpc | hpc
  · rwa [hpc]
  · exact hpc.leaves hleaves

/-- How the coordinator comes to return. -/
theorem Step.returns (h : Step setup s a s' os) {result : Ended} (hpc' : s'.pc = .returned result) :
    s.pc = .returned result ∨ a = .closed ∨ a = .closeDeadline := by
  rcases h.advances with hpc | hpc
  · exact Or.inl (hpc.symm.trans hpc')
  · rw [hpc'] at hpc
    exact Or.inr hpc.returns

/-- What is returned stays. -/
theorem Step.returned (h : Step setup s a s' os) {result : Ended} (hat : s.pc = .returned result) :
    s'.pc = .returned result := by
  rcases h.advances with hpc | hpc
  · exact hpc.trans hat
  · rw [hat] at hpc
    cases hpc

/-! ## Commands -/

/-- Commands are taken in the loop, and the channel's end or an error ends it. -/
theorem step_commandsClosed (h : step setup s .commandsClosed = some (s', os)) :
    s.pc = .running ∧ s'.pc.isOut = true := by
  simp only [step] at h
  split at h
  · rename_i hpc
    split at h
    · obtain ⟨rfl, -⟩ := Prod.mk.inj (Option.some.inj h)
      exact ⟨hpc, rfl⟩
    · cases h
  · cases h

theorem step_commandError {error : Text} (h : step setup s (.commandError error) = some (s', os)) :
    s.pc = .running ∧ s'.pc.isOut = true := by
  simp only [step] at h
  split at h
  · rename_i hpc
    split at h
    · obtain ⟨rfl, -⟩ := Prod.mk.inj (Option.some.inj h)
      exact ⟨hpc, rfl⟩
    · cases h
  · cases h

theorem step_command_running {command : DaemonCommand}
    (h : step setup s (.command command) = some (s', os)) : s.pc = .running := by
  simp only [step] at h
  split at h
  · assumption
  · cases h

end Worker

end PeakcodeDaemon
