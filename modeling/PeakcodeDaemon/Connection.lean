import PeakcodeDaemon.Coordinator
import PeakcodeDaemon.FrameRoundTrip

/-!
# The connection of a worker

The worker with the tasks at both ends of its socket: the command reader,
which fills the command channel, and the writer's `write_frame`, which
goes out in parts. Bytes come as they are found in the socket, in any
chunks, and go as the socket takes them. What the coordinator does it does
as in `Worker`, with what it finds in the channel.

- **the reader** (`ReaderTask`): in `read_frame`, with what it has
  collected of a line and what is left in its buffer; awaiting room in the
  channel with a result in its hand; or over. A round of the loop and what
  becomes of its result are one step (`readerRound`), since nothing is
  awaited in between.
- **the writer** (`write`, `endFrame`): the payload goes out in pieces of
  any size, the line feed behind it. A frame that does not fit puts
  nothing on the wire, because the buffer refuses it before anything is
  sent.
- **the end** (`close`, `exit`): the reader is aborted and awaited, the
  writer awaited, and the first error returned.

`Step` and `step_cases` turn the step function into rules, as in
`WorkerSteps`. The rule `worker` covers every step of the worker that the
connection has no part in (`Free`), so that an invariant of the socket
has one case for all of them; and `run_worker` says that the worker of a
connection runs as it does by itself.
-/

namespace PeakcodeDaemon

/-- `WORKER_COMMAND_CHANNEL_CAPACITY` -/
def workerCommandChannelCapacity : Nat := 64

/-- What the error shows, the panic's message included. -/
def Fault.message : Fault → Text
  | .invalidData message => message
  | .underflow => "attempt to subtract with overflow".toList

/-- The command reader: in `read_frame`, with what it has collected of a line
and what is left in its buffer, or awaiting room in the channel, or past its
loop. -/
inductive ReaderTask where
  | reading (payload buffered : Bytes)
  | sending (result : Except Text DaemonCommand) (buffered : Bytes)
  | finished
  | panicked (error : Text)
  | aborted

/-- The task is over, and with it the sender of the command channel. -/
def ReaderTask.isOver : ReaderTask → Bool
  | .reading .. | .sending .. => false
  | .finished | .panicked _ | .aborted => true

/-- What the coordinator gets to know of the command reader. -/
inductive ReaderJoin where
  | finished
  | panicked (error : Text)
  | cancelled
  | elapsed

/-- The await of the task, when it is over. -/
def ReaderTask.join? : ReaderTask → Option ReaderJoin
  | .reading .. | .sending .. => none
  | .finished => some .finished
  | .panicked error => some (.panicked error)
  | .aborted => some .cancelled

def readerFailed : Text := "worker command reader task failed: ".toList

structure Connection (Message : Type) where
  worker : Worker Message
  reader : ReaderTask
  commands : List (Except Text DaemonCommand)
  joined : Option ReaderJoin
  /-- How much of the frame that is being written is on the wire. -/
  sent : Nat
  wire : Bytes
  result : Option Ended

namespace Connection

variable {Message : Type}

inductive Action (Message : Type) where
  | fill (bytes : Bytes)
  | round
  | endOfStream
  | readFail (error : Text)
  | sendCommand
  | readerAborted
  | receive
  | joinReader
  | joinDeadline
  | write (n : Nat)
  | worker (action : Worker.Action Message)

/-- What is observed: the worker's actions and observations, and what came on
the socket. -/
inductive Obs (Message : Type) where
  | worker (o : Worker.Action Message ⊕ Worker.Obs Message)
  | arrived (bytes : Bytes)
  | ended
  | failed (error : Text)

def new (setup : Setup Message) : Connection Message where
  worker := .new setup
  reader := .reading [] []
  commands := []
  joined := none
  sent := 0
  wire := []
  result := none

/-- One round of the loop of `read_frame`, and what becomes of its result. -/
def readerRound (fromSlice : Bytes → Except Text DaemonCommand) (payload buffered : Bytes) :
    ReaderTask :=
  match readRound payload buffered with
  | .error .underflow => .panicked Fault.underflow.message
  | .error (.invalidData message) => .sending (.error message) buffered
  | .ok (.line line left) => .sending (fromSlice line) left
  | .ok (.more payload) => .reading payload []

/-- The channel takes the result; the loop ends behind an error. -/
def afterSend (buffered : Bytes) : Except Text DaemonCommand → ReaderTask
  | .ok _ => .reading [] buffered
  | .error _ => .finished

/-- What `run_connection` returns: the first error of the loop, the reader
and the writer. -/
def exit (result : Ended) (reader : ReaderJoin) (written : Ended) : Ended :=
  match result, reader with
  | .error error, _ => .error error
  | .ok _, .panicked error => .error (readerFailed ++ error)
  | .ok _, _ => written

section Operations

variable (setup : Setup Message) (fromSlice : Bytes → Except Text DaemonCommand)
  (s : Connection Message)

/-- The worker takes a step, and it shows. -/
def advance (a : Worker.Action Message) : Option (Connection Message × List (Obs Message)) :=
  (Worker.step setup s.worker a).map fun (worker, os) =>
    ({ s with worker := worker }, (.inl a :: os.map .inr).map .worker)

/-- `command_rx.recv()` -/
def receive : Option (Connection Message × List (Obs Message)) :=
  match s.commands with
  | .ok command :: rest => { s with commands := rest }.advance setup (.command command)
  | .error error :: rest => { s with commands := rest }.advance setup (.commandError error)
  | [] => if s.reader.isOver then s.advance setup .commandsClosed else none

/-- The reader's `send`, which fails when the receiver is gone. -/
def sendCommand : Option (Connection Message × List (Obs Message)) :=
  match s.reader with
  | .sending result buffered => match s.worker.pc with
      | .returned _ => some ({ s with reader := .finished }, [])
      | _ =>
          if s.commands.length < workerCommandChannelCapacity then
            some ({ s with
              reader := afterSend buffered result
              commands := s.commands ++ [result] }, [])
          else none
  | _ => none

/-- `write_frame` puts the next bytes of the payload on the wire. -/
def write (n : Nat) : Option (Connection Message × List (Obs Message)) :=
  match s.worker.writer with
  | .writing frame =>
      if frame.fits ∧ 0 < n ∧ s.sent + n ≤ frame.json.length then
        some ({ s with
          sent := s.sent + n
          wire := s.wire ++ (frame.json.drop s.sent).take n }, [])
      else none
  | _ => none

/-- The end of `write_frame`: the line feed is on the wire behind the payload,
or the frame did not fit and nothing is. -/
def endFrame : Option (Connection Message × List (Obs Message)) :=
  match s.worker.writer with
  | .writing frame =>
      if frame.fits then
        if s.sent = frame.json.length then
          { s with sent := 0, wire := s.wire ++ [lineFeed] }.advance setup .writerWrite
        else none
      else s.advance setup .writerWrite
  | _ => none

/-- The rest of `run_connection` once the writer is awaited. -/
def close (a : Worker.Action Message) (written : Ended) :
    Option (Connection Message × List (Obs Message)) :=
  match s.worker.pc, s.joined with
  | .closing result, some reader =>
      { s with result := some (exit result reader written) }.advance setup a
  | _, _ => none

/-- A step of the worker where the connection has a part in it, and where it
has none. Commands come from the channel only. -/
def stepWorker : Worker.Action Message → Option (Connection Message × List (Obs Message))
  | .command _ | .commandsClosed | .commandError _ => none
  | .writerWrite => s.endFrame setup
  | .writerFail error => match s.worker.writer with
      | .writing frame => if frame.fits then s.advance setup (.writerFail error) else none
      | _ => none
  | .writerEnd => if s.joined.isSome then s.advance setup .writerEnd else none
  | .closed => match s.worker.writer with
      | .finished written => s.close setup .closed written
      | _ => none
  | .closeDeadline => s.close setup .closeDeadline (.ok ())
  | a => s.advance setup a

def step : Action Message → Option (Connection Message × List (Obs Message))
  | .fill bytes => match s.reader, bytes with
      | .reading payload [], byte :: bytes =>
          some ({ s with reader := .reading payload (byte :: bytes) }, [.arrived (byte :: bytes)])
      | _, _ => none
  | .round => match s.reader with
      | .reading payload (byte :: bytes) =>
          some ({ s with reader := readerRound fromSlice payload (byte :: bytes) }, [])
      | _ => none
  | .endOfStream => match s.reader with
      | .reading [] [] => some ({ s with reader := .finished }, [.ended])
      | .reading (_ :: _) [] =>
          some ({ s with reader := .sending (.error missingNewline) [] }, [.ended])
      | _ => none
  | .readFail error => match s.reader with
      | .reading _ [] => some ({ s with reader := .sending (.error error) [] }, [.failed error])
      | _ => none
  | .sendCommand => s.sendCommand
  | .readerAborted =>
      if s.worker.pc.closes ∧ s.reader.isOver = false then
        some ({ s with reader := .aborted }, [])
      else none
  | .receive => s.receive setup
  | .joinReader => match s.worker.pc, s.joined with
      | .closing _, none => s.reader.join?.map fun join => ({ s with joined := some join }, [])
      | _, _ => none
  | .joinDeadline => match s.worker.pc, s.joined with
      | .closing _, none => some ({ s with joined := some .elapsed }, [])
      | _, _ => none
  | .write n => s.write n
  | .worker a => s.stepWorker setup a

end Operations

def machine (setup : Setup Message) (fromSlice : Bytes → Except Text DaemonCommand) :
    Machine (Connection Message) (Action Message) (Obs Message) where
  start := new setup
  step := step setup fromSlice

/-! ## What a step can do -/

/-- The worker's step for what it finds in the channel. -/
def commandAction : Except Text DaemonCommand → Worker.Action Message
  | .ok command => .command command
  | .error error => .commandError error

/-- What the worker took from the channel. -/
def command? : Worker.Action Message → Option (Except Text DaemonCommand)
  | .command command => some (.ok command)
  | .commandError error => some (.error error)
  | _ => none

@[simp] theorem command?_commandAction (result : Except Text DaemonCommand) :
    command? (commandAction result : Worker.Action Message) = some result := by
  cases result <;> rfl

/-- What shows of a step of the worker. -/
def shown (a : Worker.Action Message) (os : List (Worker.Obs Message)) : List (Obs Message) :=
  (.inl a :: os.map .inr).map .worker

/-- The worker's steps that the connection has no part in. -/
structure Free (s : Connection Message) (a : Worker.Action Message) : Prop where
  command : command? a = none
  commands : a ≠ .commandsClosed
  write : a = .writerWrite → ∃ frame, s.worker.writer = .writing frame ∧ frame.fits = false
  close : a ≠ .closed ∧ a ≠ .closeDeadline

inductive Step (setup : Setup Message) (fromSlice : Bytes → Except Text DaemonCommand)
    (s : Connection Message) : Action Message → Connection Message → List (Obs Message) → Prop
  -- the command reader
  | fill {payload bytes : Bytes} {byte : UInt8} (hreader : s.reader = .reading payload []) :
      Step setup fromSlice s (.fill (byte :: bytes))
        { s with reader := .reading payload (byte :: bytes) } [.arrived (byte :: bytes)]
  | round {payload bytes : Bytes} {byte : UInt8}
      (hreader : s.reader = .reading payload (byte :: bytes)) :
      Step setup fromSlice s .round
        { s with reader := readerRound fromSlice payload (byte :: bytes) } []
  | endClean (hreader : s.reader = .reading [] []) :
      Step setup fromSlice s .endOfStream { s with reader := .finished } [.ended]
  | endPartial {payload : Bytes} (hreader : s.reader = .reading payload []) (hne : payload ≠ []) :
      Step setup fromSlice s .endOfStream
        { s with reader := .sending (.error missingNewline) [] } [.ended]
  | readFail {payload : Bytes} {error : Text} (hreader : s.reader = .reading payload []) :
      Step setup fromSlice s (.readFail error)
        { s with reader := .sending (.error error) [] } [.failed error]
  | sendCommand {result : Except Text DaemonCommand} {buffered : Bytes}
      (hreader : s.reader = .sending result buffered)
      (hroom : s.commands.length < workerCommandChannelCapacity) :
      Step setup fromSlice s .sendCommand
        { s with reader := afterSend buffered result, commands := s.commands ++ [result] } []
  | sendClosed {result : Except Text DaemonCommand} {buffered : Bytes} {returned : Ended}
      (hreader : s.reader = .sending result buffered) (hpc : s.worker.pc = .returned returned) :
      Step setup fromSlice s .sendCommand { s with reader := .finished } []
  | readerAborted (hpc : s.worker.pc.closes = true) (hover : s.reader.isOver = false) :
      Step setup fromSlice s .readerAborted { s with reader := .aborted } []
  -- the coordinator and the channel
  | receive {result : Except Text DaemonCommand} {rest : List (Except Text DaemonCommand)}
      {worker : Worker Message} {os : List (Worker.Obs Message)}
      (hcommands : s.commands = result :: rest)
      (hstep : Worker.step setup s.worker (commandAction result) = some (worker, os)) :
      Step setup fromSlice s .receive { s with commands := rest, worker := worker }
        (shown (commandAction result) os)
  | receiveClosed {worker : Worker Message} {os : List (Worker.Obs Message)}
      (hcommands : s.commands = []) (hover : s.reader.isOver = true)
      (hstep : Worker.step setup s.worker .commandsClosed = some (worker, os)) :
      Step setup fromSlice s .receive { s with worker := worker } (shown .commandsClosed os)
  | joinReader {result : Ended} {join : ReaderJoin} (hpc : s.worker.pc = .closing result)
      (hjoined : s.joined = none) (hreader : s.reader.join? = some join) :
      Step setup fromSlice s .joinReader { s with joined := some join } []
  | joinDeadline {result : Ended} (hpc : s.worker.pc = .closing result)
      (hjoined : s.joined = none) :
      Step setup fromSlice s .joinDeadline { s with joined := some .elapsed } []
  | close {a : Worker.Action Message} {result written : Ended} {reader : ReaderJoin}
      {worker : Worker Message} {os : List (Worker.Obs Message)}
      (hpc : s.worker.pc = .closing result) (hjoined : s.joined = some reader)
      (hwritten : a = .closed ∧ s.worker.writer = .finished written ∨
        a = .closeDeadline ∧ written = .ok ())
      (hstep : Worker.step setup s.worker a = some (worker, os)) :
      Step setup fromSlice s (.worker a)
        { s with worker := worker, result := some (exit result reader written) } (shown a os)
  -- the writer
  | write {frame : WorkerEvent} {n : Nat} (hwriter : s.worker.writer = .writing frame)
      (hfits : frame.fits = true) (hpos : 0 < n) (hn : s.sent + n ≤ frame.json.length) :
      Step setup fromSlice s (.write n)
        { s with sent := s.sent + n, wire := s.wire ++ (frame.json.drop s.sent).take n } []
  | lineFeed {frame : WorkerEvent} {worker : Worker Message} {os : List (Worker.Obs Message)}
      (hwriter : s.worker.writer = .writing frame) (hfits : frame.fits = true)
      (hsent : s.sent = frame.json.length)
      (hstep : Worker.step setup s.worker .writerWrite = some (worker, os)) :
      Step setup fromSlice s (.worker .writerWrite)
        { s with worker := worker, sent := 0, wire := s.wire ++ [PeakcodeDaemon.lineFeed] }
        (shown .writerWrite os)
  | worker {a : Worker.Action Message} {worker : Worker Message}
      {os : List (Worker.Obs Message)} (hfree : s.Free a)
      (hstep : Worker.step setup s.worker a = some (worker, os)) :
      Step setup fromSlice s (.worker a) { s with worker := worker } (shown a os)

section

variable {setup : Setup Message} {fromSlice : Bytes → Except Text DaemonCommand}
  {s s' : Connection Message} {a : Action Message} {os : List (Obs Message)}

theorem advance_eq_some {a : Worker.Action Message} (h : s.advance setup a = some (s', os)) :
    ∃ worker os', Worker.step setup s.worker a = some (worker, os') ∧
      s' = { s with worker := worker } ∧ os = shown a os' := by
  obtain ⟨⟨worker, os'⟩, hstep, heq⟩ := Option.map_eq_some_iff.mp h
  obtain ⟨rfl, rfl⟩ := Prod.mk.inj heq
  exact ⟨worker, os', hstep, rfl, rfl⟩

theorem receive_cases (h : s.receive setup = some (s', os)) :
    Step setup fromSlice s .receive s' os := by
  rw [receive] at h
  split at h
  · rename_i command rest hcommands
    obtain ⟨worker, os', hstep, rfl, rfl⟩ := advance_eq_some h
    exact .receive hcommands hstep
  · rename_i error rest hcommands
    obtain ⟨worker, os', hstep, rfl, rfl⟩ := advance_eq_some h
    exact .receive hcommands hstep
  · rename_i hcommands
    split at h
    · rename_i hover
      obtain ⟨worker, os', hstep, rfl, rfl⟩ := advance_eq_some h
      exact .receiveClosed hcommands hover hstep
    · cases h

theorem sendCommand_cases (h : s.sendCommand = some (s', os)) :
    Step setup fromSlice s .sendCommand s' os := by
  rw [sendCommand] at h
  split at h
  · rename_i result buffered hreader
    split at h
    · rename_i returned hpc
      obtain ⟨rfl, rfl⟩ := Prod.mk.inj (Option.some.inj h)
      exact .sendClosed hreader hpc
    · split at h
      · rename_i hroom
        obtain ⟨rfl, rfl⟩ := Prod.mk.inj (Option.some.inj h)
        exact .sendCommand hreader hroom
      · cases h
  · cases h

theorem write_cases {n : Nat} (h : s.write n = some (s', os)) :
    Step setup fromSlice s (.write n) s' os := by
  rw [write] at h
  split at h
  · rename_i frame hwriter
    split at h
    · rename_i hn
      obtain ⟨rfl, rfl⟩ := Prod.mk.inj (Option.some.inj h)
      exact .write hwriter hn.1 hn.2.1 hn.2.2
    · cases h
  · cases h

theorem endFrame_cases (h : s.endFrame setup = some (s', os)) :
    Step setup fromSlice s (.worker .writerWrite) s' os := by
  rw [endFrame] at h
  split at h
  · rename_i frame hwriter
    split at h
    · rename_i hfits
      split at h
      · rename_i hsent
        obtain ⟨worker, os', hstep, rfl, rfl⟩ := advance_eq_some h
        exact .lineFeed hwriter hfits hsent hstep
      · cases h
    · rename_i hfits
      obtain ⟨worker, os', hstep, rfl, rfl⟩ := advance_eq_some h
      refine .worker ⟨rfl, nofun, fun _ => ⟨frame, hwriter, ?_⟩, nofun, nofun⟩ hstep
      exact Bool.not_eq_true _ ▸ hfits
  · cases h

theorem close_cases {a : Worker.Action Message} {written : Ended}
    (hwritten : a = .closed ∧ s.worker.writer = .finished written ∨
      a = .closeDeadline ∧ written = .ok ())
    (h : s.close setup a written = some (s', os)) : Step setup fromSlice s (.worker a) s' os := by
  rw [close] at h
  split at h
  · rename_i result reader hpc hjoined
    obtain ⟨worker, os', hstep, rfl, rfl⟩ := advance_eq_some h
    exact .close hpc hjoined hwritten hstep
  · cases h

theorem stepWorker_cases {a : Worker.Action Message} (h : s.stepWorker setup a = some (s', os)) :
    Step setup fromSlice s (.worker a) s' os := by
  have hplain : (h : s.advance setup a = some (s', os)) → s.Free a →
      Step setup fromSlice s (.worker a) s' os := by
    intro h hfree
    obtain ⟨worker, os', hstep, rfl, rfl⟩ := advance_eq_some h
    exact .worker hfree hstep
  cases a with
  | command command => cases h
  | commandsClosed => cases h
  | commandError error => cases h
  | writerWrite => exact endFrame_cases h
  | writerFail error =>
      rw [stepWorker] at h
      split at h
      · split at h
        · exact hplain h ⟨rfl, nofun, nofun, nofun, nofun⟩
        · cases h
      · cases h
  | writerEnd =>
      rw [stepWorker] at h
      split at h
      · exact hplain h ⟨rfl, nofun, nofun, nofun, nofun⟩
      · cases h
  | closed =>
      rw [stepWorker] at h
      split at h
      · rename_i written hwriter
        exact close_cases (Or.inl ⟨rfl, hwriter⟩) h
      · cases h
  | closeDeadline => exact close_cases (Or.inr ⟨rfl, rfl⟩) h
  | _ => exact hplain h ⟨rfl, nofun, nofun, nofun, nofun⟩

theorem step_cases (h : step setup fromSlice s a = some (s', os)) :
    Step setup fromSlice s a s' os := by
  cases a with
  | fill bytes =>
      simp only [step] at h
      split at h
      · rename_i payload byte bytes hreader
        obtain ⟨rfl, rfl⟩ := Prod.mk.inj (Option.some.inj h)
        exact .fill hreader
      · cases h
  | round =>
      simp only [step] at h
      split at h
      · rename_i payload byte bytes hreader
        obtain ⟨rfl, rfl⟩ := Prod.mk.inj (Option.some.inj h)
        exact .round hreader
      · cases h
  | endOfStream =>
      simp only [step] at h
      split at h
      · rename_i hreader
        obtain ⟨rfl, rfl⟩ := Prod.mk.inj (Option.some.inj h)
        exact .endClean hreader
      · rename_i byte payload hreader
        obtain ⟨rfl, rfl⟩ := Prod.mk.inj (Option.some.inj h)
        exact .endPartial hreader (List.cons_ne_nil _ _)
      · cases h
  | readFail error =>
      simp only [step] at h
      split at h
      · rename_i payload hreader
        obtain ⟨rfl, rfl⟩ := Prod.mk.inj (Option.some.inj h)
        exact .readFail hreader
      · cases h
  | sendCommand => exact sendCommand_cases h
  | readerAborted =>
      simp only [step] at h
      split at h
      · rename_i hopen
        obtain ⟨rfl, rfl⟩ := Prod.mk.inj (Option.some.inj h)
        exact .readerAborted hopen.1 hopen.2
      · cases h
  | receive => exact receive_cases h
  | joinReader =>
      simp only [step] at h
      split at h
      · rename_i result hpc hjoined
        obtain ⟨join, hreader, heq⟩ := Option.map_eq_some_iff.mp h
        obtain ⟨rfl, rfl⟩ := Prod.mk.inj heq
        exact .joinReader hpc hjoined hreader
      · cases h
  | joinDeadline =>
      simp only [step] at h
      split at h
      · rename_i result hpc hjoined
        obtain ⟨rfl, rfl⟩ := Prod.mk.inj (Option.some.inj h)
        exact .joinDeadline hpc hjoined
      · cases h
  | write n => exact write_cases h
  | worker a => exact stepWorker_cases h

/-! ## The worker in it -/

/-- What the worker does in the step. -/
def workerAction? (s : Connection Message) : Action Message → Option (Worker.Action Message)
  | .receive => some (match s.commands with
      | result :: _ => commandAction result
      | [] => .commandsClosed)
  | .worker a => some a
  | _ => none

def workerLog? : Obs Message → Option (Worker.Action Message ⊕ Worker.Obs Message)
  | .worker o => some o
  | _ => none

/-- What is observed of the worker. -/
def workerLog (tr : List (Obs Message)) : List (Worker.Action Message ⊕ Worker.Obs Message) :=
  tr.filterMap workerLog?

theorem workerLog_append (tr os : List (Obs Message)) :
    workerLog (tr ++ os) = workerLog tr ++ workerLog os :=
  List.filterMap_append

@[simp] theorem workerLog_shown (a : Worker.Action Message) (os : List (Worker.Obs Message)) :
    workerLog (shown a os) = .inl a :: os.map .inr := by
  rw [workerLog, shown, List.filterMap_map]
  exact List.filterMap_some

/-- The worker takes the step, or has no part in it. -/
theorem Step.worker_step (h : Step setup fromSlice s a s' os) :
    s.workerAction? a = none ∧ s'.worker = s.worker ∧ workerLog os = [] ∨
    ∃ b os', s.workerAction? a = some b ∧
      Worker.step setup s.worker b = some (s'.worker, os') ∧ os = shown b os' := by
  cases h with
  | receive hcommands hstep => exact Or.inr ⟨_, _, by rw [workerAction?, hcommands], hstep, rfl⟩
  | receiveClosed hcommands hover hstep =>
      exact Or.inr ⟨_, _, by rw [workerAction?, hcommands], hstep, rfl⟩
  | close hpc hjoined hwritten hstep => exact Or.inr ⟨_, _, rfl, hstep, rfl⟩
  | lineFeed hwriter hfits hsent hstep => exact Or.inr ⟨_, _, rfl, hstep, rfl⟩
  | worker hfree hstep => exact Or.inr ⟨_, _, rfl, hstep, rfl⟩
  | _ => exact Or.inl ⟨rfl, rfl, rfl⟩

/-- What is assumed of the worker's steps. -/
def Lifts (C : List (Worker.Action Message ⊕ Worker.Obs Message) → Worker Message →
      Worker.Action Message → Prop)
    (tr : List (Obs Message)) (s : Connection Message) (a : Action Message) : Prop :=
  ∀ b, s.workerAction? a = some b → C (workerLog tr) s.worker b

/-- The worker of a connection runs as it does by itself. -/
theorem run_worker {C : List (Worker.Action Message ⊕ Worker.Obs Message) → Worker Message →
      Worker.Action Message → Prop} {tr : List (Obs Message)}
    (h : (machine setup fromSlice).Run (Lifts C) tr s) :
    (Worker.machine setup).logged.Run C (workerLog tr) s.worker := by
  refine h.project (f := Connection.worker) (g := workerLog?) rfl ?_
  intro tr os s s' a _ ha hstep
  rcases (step_cases hstep).worker_step with ⟨-, hworker, hos⟩ | ⟨b, os', hb, hs, rfl⟩
  · exact Or.inl ⟨hworker, hos⟩
  · refine Or.inr ⟨b, ha b hb, ?_⟩
    have hlog := workerLog_shown b os'
    rw [workerLog] at hlog
    rw [hlog]
    show (Worker.step setup s.worker b).map _ = _
    rw [hs]
    rfl

end

end Connection

end PeakcodeDaemon
