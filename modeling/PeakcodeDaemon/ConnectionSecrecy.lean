import PeakcodeDaemon.Inbound
import PeakcodeDaemon.Secrecy

/-!
# What the peer cannot tell

The relation between two workers, carried to their connections. On the
same bytes from the socket, chunked and scheduled alike, two connections
whose agents say what redacts to the same put the same bytes on the wire
and return the same.

Everything about the connection but its worker is equal on both sides
(`Similar`), so each step of the reader, the channel and the writer is the
same step (`sendCommand`, `write`, `endFrame`), and each step of the
worker is answered by a similar one (`advance`, from
`Worker.Similar.step`). The writer's bytes are those of a redacted frame,
which is where similar events become equal.

`only_redacted_shows` is about one schedule and its counterpart. That the
counterpart exists at all, step by step, is part of what is said: what the
connection is ready to do next does not tell the two apart either.
-/

namespace PeakcodeDaemon

open Lockstep

theorem Pc.Similar.closes {R R' : Redactor} {pc pc' : Pc} (h : Pc.Similar R R' pc pc') :
    pc'.closes = pc.closes := by
  cases h <;> rfl

namespace Connection

variable {Message : Type} (R R' : Redactor)

structure Similar (s t : Connection Message) : Prop where
  worker : s.worker.Similar R R' t.worker
  rest : t = { s with worker := t.worker }

/-- The action is one of the worker's. -/
def Action.works : Action Message → Bool
  | .worker _ => true
  | _ => false

inductive Action.Similar : Action Message → Action Message → Prop
  | worker {a b : Worker.Action Message} (h : Worker.Action.Similar R R' a b) :
      Similar (.worker a) (.worker b)
  | other {a : Action Message} (ha : a.works = false) : Similar a a

variable {R R'} {setup setup' : Setup Message} {fromSlice : Bytes → Except Text DaemonCommand}
  {s t : Connection Message}

namespace Similar

/-- The worker's step, on both sides. -/
theorem advance (hsetup : Setup.Similar setup setup')
    (h : Similar setup.redactor setup'.redactor s t) {a b : Worker.Action Message}
    (ha : Worker.Action.Similar setup.redactor setup'.redactor a b)
    {r : Connection Message × List (Obs Message)} (hstep : s.advance setup a = some r) :
    ∃ r', t.advance setup' b = some r' ∧ Similar setup.redactor setup'.redactor r.1 r'.1 := by
  obtain ⟨⟨worker, os⟩, hworker, rfl⟩ := Option.map_eq_some_iff.mp hstep
  obtain ⟨⟨worker', os'⟩, hworker', hsimilar⟩ := h.worker.step hsetup ha hworker
  refine ⟨_, by rw [Connection.advance, hworker', Option.map_some], hsimilar, ?_⟩
  rw [h.rest]

/-- The other connection is this one with the other's worker. -/
theorem exists_worker (h : Similar R R' s t) :
    ∃ worker, s.worker.Similar R R' worker ∧ t = { s with worker := worker } :=
  ⟨t.worker, h.worker, h.rest⟩

theorem receive (hsetup : Setup.Similar setup setup')
    (h : Similar setup.redactor setup'.redactor s t)
    {r : Connection Message × List (Obs Message)} (hstep : s.receive setup = some r) :
    ∃ r', t.receive setup' = some r' ∧ Similar setup.redactor setup'.redactor r.1 r'.1 := by
  obtain ⟨worker, hworker, rfl⟩ := h.exists_worker
  have htaken : ∀ rest, Similar setup.redactor setup'.redactor { s with commands := rest }
      { s with commands := rest, worker := worker } := fun rest => ⟨hworker, rfl⟩
  rw [Connection.receive] at hstep ⊢
  split at hstep
  · rename_i command rest hcommands
    simp only [hcommands]
    exact (htaken rest).advance hsetup (.other rfl) hstep
  · rename_i error rest hcommands
    simp only [hcommands]
    exact (htaken rest).advance hsetup (.other rfl) hstep
  · rename_i hcommands
    split at hstep
    · rename_i hover
      obtain ⟨r', hstep', hsimilar⟩ := h.advance hsetup (.other rfl) hstep
      exact ⟨r', by simpa only [hcommands, if_pos hover] using hstep', hsimilar⟩
    · cases hstep

theorem sendCommand (h : Similar R R' s t) {r : Connection Message × List (Obs Message)}
    (hstep : s.sendCommand = some r) : ∃ r', t.sendCommand = some r' ∧ Similar R R' r.1 r'.1 := by
  obtain ⟨worker, hworker, rfl⟩ := h.exists_worker
  rw [Connection.sendCommand] at hstep ⊢
  split at hstep
  · rename_i result buffered hreader
    simp only [hreader]
    split at hstep
    · rename_i returned hpc
      obtain rfl := Option.some.inj hstep
      simp only [hworker.at_pc hpc rfl]
      exact ⟨_, rfl, hworker, rfl⟩
    · rename_i hnot
      split at hstep
      · rename_i hroom
        obtain rfl := Option.some.inj hstep
        have hopen : ∀ result, worker.pc ≠ .returned result :=
          fun result hpc => hnot result (hworker.returned hpc)
        simp only [if_pos hroom]
        exact ⟨_, rfl, hworker, rfl⟩
      · cases hstep
  · cases hstep

theorem write (h : Similar R R' s t) {n : Nat} {r : Connection Message × List (Obs Message)}
    (hstep : s.write n = some r) : ∃ r', t.write n = some r' ∧ Similar R R' r.1 r'.1 := by
  obtain ⟨worker, hworker, rfl⟩ := h.exists_worker
  rw [Connection.write] at hstep ⊢
  split at hstep
  · rename_i frame hwriter
    simp only [hworker.writer, hwriter]
    split at hstep
    · rename_i hroom
      obtain rfl := Option.some.inj hstep
      exact ⟨_, if_pos hroom, hworker, rfl⟩
    · cases hstep
  · cases hstep

theorem endFrame (hsetup : Setup.Similar setup setup')
    (h : Similar setup.redactor setup'.redactor s t)
    {r : Connection Message × List (Obs Message)} (hstep : s.endFrame setup = some r) :
    ∃ r', t.endFrame setup' = some r' ∧ Similar setup.redactor setup'.redactor r.1 r'.1 := by
  obtain ⟨worker, hworker, rfl⟩ := h.exists_worker
  rw [Connection.endFrame] at hstep ⊢
  split at hstep
  · rename_i frame hwriter
    simp only [hworker.writer, hwriter]
    split at hstep
    · rename_i hfits
      rw [if_pos hfits]
      split at hstep
      · rename_i hsent
        rw [if_pos hsent]
        have hended : Similar setup.redactor setup'.redactor
            { s with sent := 0, wire := s.wire ++ [lineFeed] }
            { s with sent := 0, wire := s.wire ++ [lineFeed], worker := worker } := ⟨hworker, rfl⟩
        exact hended.advance hsetup (.other rfl) hstep
      · cases hstep
    · rename_i hlong
      rw [if_neg hlong]
      exact h.advance hsetup (.other rfl) hstep
  · cases hstep

theorem close (hsetup : Setup.Similar setup setup')
    (h : Similar setup.redactor setup'.redactor s t) {a : Worker.Action Message}
    (ha : a.speaks = false) {written : Ended} {r : Connection Message × List (Obs Message)}
    (hstep : s.close setup a written = some r) :
    ∃ r', t.close setup' a written = some r' ∧
      Similar setup.redactor setup'.redactor r.1 r'.1 := by
  obtain ⟨worker, hworker, rfl⟩ := h.exists_worker
  rw [Connection.close] at hstep ⊢
  split at hstep
  · rename_i result reader hpc hjoined
    have hclosed : Similar setup.redactor setup'.redactor
        { s with result := some (exit result reader written) }
        { s with result := some (exit result reader written), worker := worker } := ⟨hworker, rfl⟩
    obtain ⟨r', hstep', hsimilar⟩ := hclosed.advance hsetup (.other ha) hstep
    exact ⟨r', by simpa only [hworker.at_pc hpc rfl, hjoined] using hstep', hsimilar⟩
  · cases hstep

theorem stepWorker (hsetup : Setup.Similar setup setup')
    (h : Similar setup.redactor setup'.redactor s t) {a b : Worker.Action Message}
    (ha : Worker.Action.Similar setup.redactor setup'.redactor a b)
    {r : Connection Message × List (Obs Message)} (hstep : s.stepWorker setup a = some r) :
    ∃ r', t.stepWorker setup' b = some r' ∧
      Similar setup.redactor setup'.redactor r.1 r'.1 := by
  obtain ⟨worker, hworker, rfl⟩ := h.exists_worker
  cases ha with
  | emit hevent => exact h.advance hsetup (.emit hevent) hstep
  | finish houtcome => exact h.advance hsetup (.finish houtcome) hstep
  | call haction => exact h.advance hsetup (.call haction) hstep
  | other hother =>
      cases a with
      | emit | finish | call => cases hother
      | command | commandsClosed | commandError => cases hstep
      | writerWrite => exact h.endFrame hsetup hstep
      | writerFail error =>
          rw [Connection.stepWorker] at hstep ⊢
          split at hstep
          · rename_i frame hwriter
            split at hstep
            · rename_i hfits
              simp only [hworker.writer, hwriter, if_pos hfits]
              exact h.advance hsetup (.other rfl) hstep
            · cases hstep
          · cases hstep
      | writerEnd =>
          rw [Connection.stepWorker] at hstep ⊢
          split at hstep
          · rename_i hjoined
            rw [if_pos hjoined]
            exact h.advance hsetup (.other rfl) hstep
          · cases hstep
      | closed =>
          rw [Connection.stepWorker] at hstep ⊢
          split at hstep
          · rename_i written hwriter
            simp only [hworker.writer, hwriter]
            exact h.close hsetup rfl hstep
          · cases hstep
      | closeDeadline => exact h.close hsetup rfl hstep
      | _ => exact h.advance hsetup (.other rfl) hstep

/-- What the one connection does the other does. -/
theorem step (hsetup : Setup.Similar setup setup')
    (h : Similar setup.redactor setup'.redactor s t) {a b : Action Message}
    (ha : Action.Similar setup.redactor setup'.redactor a b)
    {r : Connection Message × List (Obs Message)}
    (hstep : Connection.step setup fromSlice s a = some r) :
    ∃ r', Connection.step setup' fromSlice t b = some r' ∧
      Similar setup.redactor setup'.redactor r.1 r'.1 := by
  cases ha with
  | worker ha => exact h.stepWorker hsetup ha hstep
  | other hother =>
      obtain ⟨worker, hworker, rfl⟩ := h.exists_worker
      cases a with
      | worker a => cases hother
      | receive => exact h.receive hsetup hstep
      | sendCommand => exact h.sendCommand hstep
      | write n => exact h.write hstep
      | fill bytes =>
          simp only [Connection.step] at hstep ⊢
          split at hstep
          · rename_i payload byte bytes hreader
            obtain rfl := Option.some.inj hstep
            exact ⟨_, rfl, hworker, rfl⟩
          · cases hstep
      | round =>
          simp only [Connection.step] at hstep ⊢
          split at hstep
          · rename_i payload byte bytes hreader
            obtain rfl := Option.some.inj hstep
            exact ⟨_, rfl, hworker, rfl⟩
          · cases hstep
      | endOfStream =>
          simp only [Connection.step] at hstep ⊢
          split at hstep
          · rename_i hreader
            obtain rfl := Option.some.inj hstep
            exact ⟨_, rfl, hworker, rfl⟩
          · rename_i byte payload hreader
            obtain rfl := Option.some.inj hstep
            exact ⟨_, rfl, hworker, rfl⟩
          · cases hstep
      | readFail error =>
          simp only [Connection.step] at hstep ⊢
          split at hstep
          · rename_i payload hreader
            obtain rfl := Option.some.inj hstep
            exact ⟨_, rfl, hworker, rfl⟩
          · cases hstep
      | readerAborted =>
          simp only [Connection.step, hworker.pc.closes] at hstep ⊢
          split at hstep
          · rename_i hopen
            obtain rfl := Option.some.inj hstep
            exact ⟨_, if_pos hopen, hworker, rfl⟩
          · cases hstep
      | joinReader =>
          simp only [Connection.step] at hstep ⊢
          split at hstep
          · rename_i result hpc hjoined
            obtain ⟨join, hreader, rfl⟩ := Option.map_eq_some_iff.mp hstep
            simp only [hworker.at_pc hpc rfl, hjoined, hreader, Option.map_some]
            exact ⟨_, rfl, hworker, rfl⟩
          · cases hstep
      | joinDeadline =>
          simp only [Connection.step] at hstep ⊢
          split at hstep
          · rename_i result hpc hjoined
            obtain rfl := Option.some.inj hstep
            simp only [hworker.at_pc hpc rfl, hjoined]
            exact ⟨_, rfl, hworker, rfl⟩
          · cases hstep

end Similar

theorem similar_new (hsetup : Setup.Similar setup setup') :
    Similar setup.redactor setup'.redactor (new setup) (new setup') where
  worker := Worker.similar_new hsetup
  rest := rfl

/-- A worker with a key, and the schedule in which its agent gives it away. -/
def keySetup (key : Text) : Setup Text := { plainSetup [] with redactor := .fromNamedValues key [] }

def giveAway (key : Text) : List (Action Text) :=
  [.fill (DaemonCommand.json (.input "hi".toList) ++ [PeakcodeDaemon.lineFeed]), .round,
    .sendCommand, .receive, .worker .startTurn,
    .worker (.emit 0 (.textDelta ("my key is ".toList ++ key))), .worker (.takeEvent []),
    .worker .reserve, .worker .writerRecv, .write 51, .worker .writerWrite]

end Connection

end PeakcodeDaemon
