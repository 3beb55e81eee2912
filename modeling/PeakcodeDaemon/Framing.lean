import PeakcodeDaemon.Ipc
import PeakcodeDaemon.Lib.Chunks

/-!
# Frames on the internal socket

One JSON value a line, of at most `MAX_IPC_FRAME_BYTES` bytes before its
line feed. The writer serializes into a buffer that refuses to grow past
the limit; the reader collects a line from the chunks it finds in its
buffer. Serialization and parsing are those of `serde_json`: the pieces in
which a value is written, and the function that reads a line, are
parameters.

Two things are modelled more closely than a decoder would need. The
subtractions on `usize` may panic (`usizeSub`), so that their not doing so
is a result; and the loop of `read_frame` shows the states it goes
through (`Visits`), so that the bound on what is collected is one on every
moment of a call and not only on its result.
-/

namespace PeakcodeDaemon

abbrev Bytes := List UInt8

def lineFeed : UInt8 := 10

/-- An `io::Error` of kind `InvalidData`, or the panic of a subtraction on
`usize` that would go below zero. -/
inductive Fault where
  | invalidData (message : Text)
  | underflow
deriving DecidableEq, Repr

/-- `a - b` on `usize` -/
def usizeSub (a b : Nat) : Except Fault Nat := if b ≤ a then .ok (a - b) else .error .underflow

/-! ## Writing -/

structure CappedBuffer where
  bytes : Bytes
  limit : Nat
  peakLen : Nat
deriving DecidableEq, Repr

namespace CappedBuffer

def new (limit : Nat) : CappedBuffer := ⟨[], limit, 0⟩

def write (buffer : CappedBuffer) (input : Bytes) : Except Fault CappedBuffer :=
  (usizeSub buffer.limit buffer.bytes.length).bind fun room =>
    if room < input.length then .error (.invalidData frameTooLarge)
    else .ok { buffer with
      bytes := buffer.bytes ++ input
      peakLen := max buffer.peakLen (buffer.bytes ++ input).length }

end CappedBuffer

/-- `serde_json::to_writer`, by the pieces it writes: it stops at an error. -/
def toWriter (buffer : CappedBuffer) : List Bytes → Except Fault CappedBuffer
  | [] => .ok buffer
  | piece :: pieces => (buffer.write piece).bind fun buffer => toWriter buffer pieces

/-- `write_frame`: what it returns, and the stream after it. -/
def writeFrame (stream : Bytes) (pieces : List Bytes) : Except Fault Unit × Bytes :=
  match toWriter (.new maxIpcFrameBytes) pieces with
  | .error fault => (.error fault, stream)
  | .ok line => (.ok (), stream ++ line.bytes ++ [lineFeed])

/-- Frames are written in turn, those after one that failed too. -/
def writeFrames (stream : Bytes) : List (List Bytes) → List (Except Fault Unit) × Bytes
  | [] => ([], stream)
  | pieces :: frames =>
      let (result, stream) := writeFrame stream pieces
      let (results, stream) := writeFrames stream frames
      (result :: results, stream)

/-! ## Reading -/

/-- What one round of the loop comes to: the line is complete, with what is
left of the chunk, or the loop goes on. -/
inductive Round where
  | line (payload left : Bytes)
  | more (payload : Bytes)
deriving DecidableEq, Repr

/-- One round of the loop of `read_frame`, on what `fill_buf` returned. -/
def readRound (payload available : Bytes) : Except Fault Round :=
  match available.idxOf? lineFeed with
  | some pos => (usizeSub maxIpcFrameBytes payload.length).bind fun room =>
      if room < pos then .error (.invalidData frameTooLarge)
      else .ok (.line (payload ++ available.take pos) (available.drop (pos + 1)))
  | none => (usizeSub maxIpcFrameBytes payload.length).bind fun room =>
      if room < available.length then .error (.invalidData frameTooLarge)
      else .ok (.more (payload ++ available))

/-- The loop of `read_frame`: the payload of the next line, none at the end
of the stream. A chunk that is not accepted is not consumed. -/
def readLoop (payload : Bytes) : Chunks UInt8 → Except Fault (Option Bytes) × Chunks UInt8
  | .done => (if payload.isEmpty then .ok none else .error (.invalidData missingNewline), .done)
  | .chunk byte bytes rest => match readRound payload (byte :: bytes) with
      | .error fault => (.error fault, .chunk byte bytes rest)
      | .ok (.line payload left) => (.ok (some payload), .push left rest)
      | .ok (.more payload) => readLoop payload rest

section Read

variable {T : Type} (fromSlice : Bytes → Except Text T)

def readFrame (reader : Chunks UInt8) : Except Fault (Option T) × Chunks UInt8 :=
  match readLoop [] reader with
  | (.error fault, reader) => (.error fault, reader)
  | (.ok none, reader) => (.ok none, reader)
  | (.ok (some payload), reader) => match fromSlice payload with
      | .ok frame => (.ok (some frame), reader)
      | .error error => (.error (.invalidData error), reader)

/-- The command reader of `run_connection`: the results it delivers when the
receiver takes that many before it is dropped. -/
def commandReader : Nat → Chunks UInt8 → List (Except Fault T)
  | 0, _ => []
  | n + 1, reader => match readFrame fromSlice reader with
      | (.ok (some command), reader) => .ok command :: commandReader n reader
      | (.ok none, _) => []
      | (.error fault, _) => [.error fault]

/-- The states of the loop of `read_frame` over all calls that read on: what
is collected of a line, and what is still to be read. -/
inductive Visits (reader : Chunks UInt8) : Bytes → Chunks UInt8 → Prop
  | start : Visits reader [] reader
  | more {payload payload' bytes : Bytes} {byte : UInt8} {rest : Chunks UInt8}
      (h : Visits reader payload (.chunk byte bytes rest))
      (hround : readRound payload (byte :: bytes) = .ok (.more payload')) :
      Visits reader payload' rest
  | line {payload payload' bytes left : Bytes} {byte : UInt8} {rest : Chunks UInt8}
      (h : Visits reader payload (.chunk byte bytes rest))
      (hround : readRound payload (byte :: bytes) = .ok (.line payload' left)) :
      Visits reader [] (.push left rest)

end Read

end PeakcodeDaemon
