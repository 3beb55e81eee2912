import PeakcodeDaemon.Framing

/-!
# What the frame reader accepts

The reference decoder (`decode`) looks at the whole stream, line by line,
up to the first error. The reader delivers the same results from any
chunks: each of its rounds is a step of the decoder on what it has
collected and what is still to come.

- **one round** (`readRound_line`, `readRound_more`): as the delimiter
  cuts the chunk, the line is complete or the chunk is collected whole;
- **one call** (`Agrees`, `readLoop_agrees`): from any chunks, and with
  part of the line collected, the loop returns the next line of the
  stream, and leaves the reader right behind it. The induction is on the
  chunks; the collected part is general in it;
- **all calls** (`commandReader_eq`): the results are those of the
  decoder, as far as the receiver takes them.

A line that is too long is refused before it is complete: `nextLine_long`
says that more than the limit without a line feed is too much, whatever
follows, which is why the reader may stop there. That no subtraction goes
below zero is in `reader_decodes`, with the bound on what is collected
(`Visits.fits`).
-/

namespace PeakcodeDaemon

open Chunks

/-- The first line of a stream and what follows it, none at the end. -/
def nextLine (stream : Bytes) : Except Fault (Option (Bytes × Bytes)) :=
  match cut lineFeed stream with
  | some (line, rest) =>
      if maxIpcFrameBytes < line.length then .error (.invalidData frameTooLarge)
      else .ok (some (line, rest))
  | none =>
      if stream = [] then .ok none
      else if maxIpcFrameBytes < stream.length then .error (.invalidData frameTooLarge)
      else .error (.invalidData missingNewline)

theorem nextLine_length {stream line rest : Bytes} (h : nextLine stream = .ok (some (line, rest))) :
    rest.length < stream.length := by
  unfold nextLine at h
  split at h
  · rename_i line' rest' hcut
    split at h
    · cases h
    · obtain ⟨rfl, rfl⟩ := Prod.mk.inj (Option.some.inj (Except.ok.inj h))
      have := cut_length hcut
      omega
  · split at h
    · cases h
    · split at h <;> cases h

theorem nextLine_eq_some {stream line rest : Bytes}
    (h : nextLine stream = .ok (some (line, rest))) :
    stream = line ++ lineFeed :: rest ∧ lineFeed ∉ line ∧ line.length ≤ maxIpcFrameBytes := by
  unfold nextLine at h
  split at h
  · rename_i line' rest' hcut
    split at h
    · cases h
    · rename_i hfits
      obtain ⟨rfl, rfl⟩ := Prod.mk.inj (Option.some.inj (Except.ok.inj h))
      obtain ⟨hstream, hopen⟩ := eq_of_cut hcut
      exact ⟨hstream, hopen, Nat.le_of_not_lt hfits⟩
  · split at h
    · cases h
    · split at h <;> cases h

section Lines

variable {stream line rest front : Bytes}

theorem nextLine_line (h : cut lineFeed stream = some (line, rest))
    (hfits : line.length ≤ maxIpcFrameBytes) : nextLine stream = .ok (some (line, rest)) := by
  unfold nextLine
  rw [h]
  exact if_neg (by omega)

/-- More than the limit without a line feed is too much, whatever follows. -/
theorem nextLine_long (hopen : lineFeed ∉ front) (hlong : maxIpcFrameBytes < front.length)
    (more : Bytes) : nextLine (front ++ more) = .error (.invalidData frameTooLarge) := by
  unfold nextLine
  cases hcut : cut lineFeed more with
  | some pair =>
      obtain ⟨line, rest⟩ := pair
      rw [cut_append_left hopen hcut]
      exact if_pos (by rw [List.length_append]; omega)
  | none =>
      have hclosed : lineFeed ∉ front ++ more := by
        rw [List.mem_append, not_or]
        exact ⟨hopen, cut_eq_none.mp hcut⟩
      have hlength : maxIpcFrameBytes < (front ++ more).length := by
        rw [List.length_append]
        omega
      have hne : front ++ more ≠ [] := by
        intro h
        rw [h] at hlength
        cases hlength
      rw [cut_eq_none.mpr hclosed]
      show (if _ then _ else _) = _
      rw [if_neg hne, if_pos hlength]

/-- The stream ends within a line. -/
theorem nextLine_missing (hopen : lineFeed ∉ stream) (hne : stream ≠ [])
    (hfits : stream.length ≤ maxIpcFrameBytes) :
    nextLine stream = .error (.invalidData missingNewline) := by
  unfold nextLine
  rw [cut_eq_none.mpr hopen]
  show (if _ then _ else _) = _
  rw [if_neg hne, if_neg (by omega)]

end Lines

section Decode

variable {T : Type} (fromSlice : Bytes → Except Text T)

/-- The reference decoder: line by line, up to the first error. -/
def decode (stream : Bytes) : List (Except Fault T) :=
  match _h : nextLine stream with
  | .error fault => [.error fault]
  | .ok none => []
  | .ok (some (line, rest)) => match fromSlice line with
      | .ok frame => .ok frame :: decode rest
      | .error error => [.error (.invalidData error)]
termination_by stream.length
decreasing_by exact nextLine_length ‹_›

/-! ## One round -/

theorem usizeSub_of_le {a b : Nat} (h : b ≤ a) : usizeSub a b = .ok (a - b) := if_pos h

variable {payload available stream : Bytes} {reader : Chunks UInt8}

/-- A round of the loop, as the delimiter cuts the chunk. -/
theorem readRound_line {line left : Bytes} (hpayload : payload.length ≤ maxIpcFrameBytes)
    (hcut : cut lineFeed available = some (line, left)) :
    readRound payload available =
      if maxIpcFrameBytes < payload.length + line.length then .error (.invalidData frameTooLarge)
      else .ok (.line (payload ++ line) left) := by
  cases hpos : available.idxOf? lineFeed with
  | none =>
      rw [List.idxOf?_eq_none_iff, ← cut_eq_none, hcut] at hpos
      cases hpos
  | some pos =>
      obtain ⟨rfl, rfl⟩ := Prod.mk.inj (Option.some.inj (hcut.symm.trans (cut_of_position hpos)))
      obtain ⟨hlt, -⟩ := List.idxOf?_eq_some_iff.mp hpos
      unfold readRound
      rw [hpos, usizeSub_of_le hpayload]
      have hlength : (available.take pos).length = pos := List.length_take_of_le (by omega)
      show (if _ then _ else _) = _
      rw [hlength]
      congr 1
      exact propext (by omega)

theorem readRound_more (hpayload : payload.length ≤ maxIpcFrameBytes)
    (hopen : lineFeed ∉ available) :
    readRound payload available =
      if maxIpcFrameBytes < payload.length + available.length then
        .error (.invalidData frameTooLarge)
      else .ok (.more (payload ++ available)) := by
  unfold readRound
  rw [List.idxOf?_eq_none_iff.mpr hopen, usizeSub_of_le hpayload]
  show (if _ then _ else _) = _
  congr 1
  exact propext (by omega)

/-! ## One call -/

/-- What the loop returns for a line of the stream. -/
structure Agrees (result : Except Fault (Option Bytes) × Chunks UInt8)
    (reference : Except Fault (Option (Bytes × Bytes))) : Prop where
  value : result.1 = reference.map (Option.map Prod.fst)
  rest : ∀ line rest, reference = .ok (some (line, rest)) → result.2.all = rest

theorem Agrees.fault {fault : Fault} {reference : Except Fault (Option (Bytes × Bytes))}
    (reader : Chunks UInt8) (h : reference = .error fault) :
    Agrees (.error fault, reader) reference := by
  rw [h]
  exact ⟨rfl, fun _ _ heq => by cases heq⟩

/-- From any chunks, and with part of the line collected, the loop returns
the next line of the stream. -/
theorem readLoop_agrees (reader : Chunks UInt8) : ∀ payload : Bytes,
    payload.length ≤ maxIpcFrameBytes → lineFeed ∉ payload →
      Agrees (readLoop payload reader) (nextLine (payload ++ reader.all)) := by
  induction reader with
  | done =>
      intro payload hpayload hopen
      rw [all, List.append_nil, readLoop]
      cases payload with
      | nil => exact ⟨rfl, fun _ _ heq => by cases heq⟩
      | cons byte payload => exact .fault _ (nextLine_missing hopen (List.cons_ne_nil _ _) hpayload)
  | chunk byte bytes rest ih =>
      intro payload hpayload hopen
      have hstream : payload ++ (Chunks.chunk byte bytes rest).all =
          payload ++ ((byte :: bytes) ++ rest.all) := rfl
      rw [hstream, readLoop]
      cases hcut : cut lineFeed (byte :: bytes) with
      | some pair =>
          -- the line ends in this chunk
          obtain ⟨line, left⟩ := pair
          rw [readRound_line hpayload hcut]
          obtain ⟨hbytes, hline⟩ := eq_of_cut hcut
          by_cases hlong : maxIpcFrameBytes < payload.length + line.length
          · rw [if_pos hlong]
            refine .fault _ ?_
            rw [hbytes, List.append_assoc, ← List.append_assoc payload]
            refine nextLine_long ?_ (by rwa [List.length_append]) _
            rw [List.mem_append, not_or]
            exact ⟨hopen, hline⟩
          · rw [if_neg hlong, nextLine_line (cut_append_left hopen (cut_append_right hcut rest.all))
              (by rw [List.length_append]; omega)]
            refine ⟨rfl, fun line' rest' heq => ?_⟩
            obtain ⟨rfl, rfl⟩ := Prod.mk.inj (Option.some.inj (Except.ok.inj heq))
            exact all_push left rest
      | none =>
          have hclosed : lineFeed ∉ payload ++ (byte :: bytes) := by
            rw [List.mem_append, not_or]
            exact ⟨hopen, cut_eq_none.mp hcut⟩
          rw [readRound_more hpayload (cut_eq_none.mp hcut), ← List.append_assoc]
          by_cases hlong : maxIpcFrameBytes < payload.length + (byte :: bytes).length
          · rw [if_pos hlong]
            exact .fault _ (nextLine_long hclosed (by rwa [List.length_append]) _)
          · rw [if_neg hlong]
            exact ih _ (by rw [List.length_append]; omega) hclosed

section

variable {line rest : Bytes} {fault : Fault} {frame : T} {error : Text}

theorem readLoop_fault (hnext : nextLine reader.all = .error fault) :
    ∃ reader', readLoop [] reader = (.error fault, reader') := by
  have hvalue := (readLoop_agrees reader [] (Nat.zero_le _) List.not_mem_nil).value
  rw [List.nil_append, hnext] at hvalue
  exact ⟨_, Prod.ext hvalue rfl⟩

theorem readLoop_end (hnext : nextLine reader.all = .ok none) :
    ∃ reader', readLoop [] reader = (.ok none, reader') := by
  have hvalue := (readLoop_agrees reader [] (Nat.zero_le _) List.not_mem_nil).value
  rw [List.nil_append, hnext] at hvalue
  exact ⟨_, Prod.ext hvalue rfl⟩

/-- A line is collected, and the reader is right behind it. -/
theorem readLoop_line (hnext : nextLine reader.all = .ok (some (line, rest))) :
    ∃ reader', readLoop [] reader = (.ok (some line), reader') ∧ reader'.all = rest := by
  obtain ⟨hvalue, hrest⟩ := readLoop_agrees reader [] (Nat.zero_le _) List.not_mem_nil
  rw [List.nil_append] at hvalue hrest
  rw [hnext] at hvalue
  exact ⟨_, Prod.ext hvalue rfl, hrest line rest hnext⟩

theorem readFrame_fault (hnext : nextLine reader.all = .error fault) :
    ∃ reader', readFrame fromSlice reader = (.error fault, reader') := by
  obtain ⟨reader', hloop⟩ := readLoop_fault hnext
  unfold readFrame
  rw [hloop]
  exact ⟨reader', rfl⟩

theorem readFrame_end (hnext : nextLine reader.all = .ok none) :
    ∃ reader', readFrame fromSlice reader = (.ok none, reader') := by
  obtain ⟨reader', hloop⟩ := readLoop_end hnext
  unfold readFrame
  rw [hloop]
  exact ⟨reader', rfl⟩

theorem readFrame_frame (hnext : nextLine reader.all = .ok (some (line, rest)))
    (hparse : fromSlice line = .ok frame) :
    ∃ reader', readFrame fromSlice reader = (.ok (some frame), reader') ∧ reader'.all = rest := by
  obtain ⟨reader', hloop, hrest⟩ := readLoop_line hnext
  unfold readFrame
  simp only [hloop, hparse]
  exact ⟨reader', rfl, hrest⟩

theorem readFrame_reject (hnext : nextLine reader.all = .ok (some (line, rest)))
    (hparse : fromSlice line = .error error) :
    ∃ reader', readFrame fromSlice reader = (.error (.invalidData error), reader') := by
  obtain ⟨reader', hloop, -⟩ := readLoop_line hnext
  unfold readFrame
  simp only [hloop, hparse]
  exact ⟨reader', rfl⟩

/-! ## All calls -/

theorem decode_fault (hnext : nextLine stream = .error fault) :
    decode fromSlice stream = [.error fault] := by
  rw [decode]
  split
  · rename_i fault' heq
    obtain rfl := Except.error.inj (hnext.symm.trans heq)
    rfl
  · rename_i heq
    cases hnext.symm.trans heq
  · rename_i heq
    cases hnext.symm.trans heq

theorem decode_end (hnext : nextLine stream = .ok none) : decode fromSlice stream = [] := by
  rw [decode]
  split
  · rename_i heq
    cases hnext.symm.trans heq
  · rfl
  · rename_i heq
    cases hnext.symm.trans heq

/-- What becomes of a line is what the parser makes of it. -/
theorem decode_line (hnext : nextLine stream = .ok (some (line, rest))) :
    decode fromSlice stream = match fromSlice line with
      | .ok frame => .ok frame :: decode fromSlice rest
      | .error error => [.error (.invalidData error)] := by
  rw [decode]
  split
  · rename_i heq
    cases hnext.symm.trans heq
  · rename_i heq
    cases hnext.symm.trans heq
  · rename_i line' rest' heq
    obtain ⟨rfl, rfl⟩ := Prod.mk.inj (Option.some.inj (Except.ok.inj (hnext.symm.trans heq)))
    rfl

theorem decode_frame (hnext : nextLine stream = .ok (some (line, rest)))
    (hparse : fromSlice line = .ok frame) :
    decode fromSlice stream = .ok frame :: decode fromSlice rest := by
  rw [decode_line fromSlice hnext, hparse]

theorem decode_reject (hnext : nextLine stream = .ok (some (line, rest)))
    (hparse : fromSlice line = .error error) :
    decode fromSlice stream = [.error (.invalidData error)] := by
  rw [decode_line fromSlice hnext, hparse]

end

/-- The results of the command reader are those of the decoder on the whole
stream, as far as the receiver takes them. -/
theorem commandReader_eq (n : Nat) : ∀ reader : Chunks UInt8,
    commandReader fromSlice n reader = (decode fromSlice reader.all).take n := by
  induction n with
  | zero => exact fun _ => rfl
  | succ n ih =>
      intro reader
      rw [commandReader]
      cases hnext : nextLine reader.all with
      | error fault =>
          obtain ⟨reader', hcall⟩ := readFrame_fault fromSlice hnext
          rw [hcall, decode_fault fromSlice hnext, List.take_succ_cons, List.take_nil]
      | ok found =>
          cases found with
          | none =>
              obtain ⟨reader', hcall⟩ := readFrame_end fromSlice hnext
              rw [hcall, decode_end fromSlice hnext]
              rfl
          | some pair =>
              obtain ⟨line, rest⟩ := pair
              cases hparse : fromSlice line with
              | error error =>
                  obtain ⟨reader', hcall⟩ := readFrame_reject fromSlice hnext hparse
                  rw [hcall, decode_reject fromSlice hnext hparse, List.take_succ_cons,
                    List.take_nil]
              | ok frame =>
                  obtain ⟨reader', hcall, hrest⟩ := readFrame_frame fromSlice hnext hparse
                  rw [hcall, decode_frame fromSlice hnext hparse, List.take_succ_cons, ← hrest]
                  exact congrArg _ (ih reader')

/-- What is collected of a line fits the limit and has no line feed. -/
theorem Visits.fits {payload : Bytes} {rest : Chunks UInt8} (h : Visits reader payload rest) :
    payload.length ≤ maxIpcFrameBytes ∧ lineFeed ∉ payload := by
  induction h with
  | start => exact ⟨Nat.zero_le _, List.not_mem_nil⟩
  | line h hround ih => exact ⟨Nat.zero_le _, List.not_mem_nil⟩
  | @more payload payload' bytes byte rest h hround ih =>
      cases hcut : cut lineFeed (byte :: bytes) with
      | some pair =>
          rw [readRound_line ih.1 hcut] at hround
          split at hround <;> cases hround
      | none =>
          rw [readRound_more ih.1 (cut_eq_none.mp hcut)] at hround
          split at hround
          · cases hround
          · obtain rfl := Round.more.inj (Except.ok.inj hround)
            rw [List.length_append, List.mem_append, not_or]
            exact ⟨by omega, ih.2, cut_eq_none.mp hcut⟩

/-- From any chunks the command reader delivers what the reference decoder
finds in the whole stream. Throughout, what is collected of a line fits the
limit, no subtraction goes below zero, and a chunk that takes an unfinished
line past the limit is refused whatever follows it. -/
theorem reader_decodes (reader : Chunks UInt8) :
    (∀ n, commandReader fromSlice n reader = (decode fromSlice reader.all).take n) ∧
    (∀ payload rest, Visits reader payload rest → payload.length ≤ maxIpcFrameBytes ∧
      usizeSub maxIpcFrameBytes payload.length = .ok (maxIpcFrameBytes - payload.length)) ∧
    ∀ payload byte bytes rest, Visits reader payload (.chunk byte bytes rest) →
      lineFeed ∉ byte :: bytes → maxIpcFrameBytes < payload.length + (byte :: bytes).length →
        ∀ later, readLoop payload (.chunk byte bytes later) =
          (.error (.invalidData frameTooLarge), .chunk byte bytes later) := by
  refine ⟨fun n => commandReader_eq fromSlice n reader, fun payload rest h => ?_, ?_⟩
  · exact ⟨h.fits.1, usizeSub_of_le h.fits.1⟩
  · intro payload byte bytes rest h hopen hlong later
    rw [readLoop, readRound_more h.fits.1 hopen, if_pos hlong]

end Decode

end PeakcodeDaemon
