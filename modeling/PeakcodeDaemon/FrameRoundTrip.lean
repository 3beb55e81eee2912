import PeakcodeDaemon.FrameDecoder

/-!
# What is written comes back

The buffer of the writer takes a value exactly if its JSON is within the
limit, however it is written in pieces; otherwise nothing reaches the
stream. Read back from any chunks, the stream holds the values that fit,
in order, and then ends.

- **the buffer** (`toWriter_fits`, `toWriter_over`): only the sum of the
  pieces counts, so the way in which the serializer cuts a value up does
  not matter;
- **the stream** (`writeFrames_eq`, `linesOf`): every frame is written
  whole or not at all;
- **back again** (`reads_lines`, `decode_lines`): the decoder finds the
  values of these lines, and goes on behind them.

The values are of any type. What is asked of the parser is that it undoes
the serializer on the values written, and that no line feed is in what is
written; for the worker's events both hold (`lineFeed_not_mem_json`).
-/

namespace PeakcodeDaemon

open Chunks

/-! ## The capped buffer -/

namespace CappedBuffer

variable {buffer : CappedBuffer}

theorem write_fits {input : Bytes} (h : buffer.bytes.length + input.length ≤ buffer.limit) :
    buffer.write input = .ok { buffer with
      bytes := buffer.bytes ++ input
      peakLen := max buffer.peakLen (buffer.bytes ++ input).length } := by
  unfold write
  rw [usizeSub_of_le (by omega)]
  exact if_neg (by omega)

theorem write_over {input : Bytes} (hbuffer : buffer.bytes.length ≤ buffer.limit)
    (h : buffer.limit < buffer.bytes.length + input.length) :
    buffer.write input = .error (.invalidData frameTooLarge) := by
  unfold write
  rw [usizeSub_of_le hbuffer]
  exact if_pos (by omega)

end CappedBuffer

/-- The pieces are taken if they fit together. -/
theorem toWriter_fits (pieces : List Bytes) : ∀ buffer : CappedBuffer,
    buffer.bytes.length + pieces.flatten.length ≤ buffer.limit →
      ∃ buffer', toWriter buffer pieces = .ok buffer' ∧
        buffer'.bytes = buffer.bytes ++ pieces.flatten := by
  induction pieces with
  | nil =>
      intro buffer _
      exact ⟨buffer, rfl, (List.append_nil _).symm⟩
  | cons piece pieces ih =>
      intro buffer h
      rw [List.flatten_cons, List.length_append] at h
      rw [toWriter, CappedBuffer.write_fits (by omega)]
      obtain ⟨buffer', hrest, hbytes⟩ := ih { buffer with
          bytes := buffer.bytes ++ piece
          peakLen := max buffer.peakLen (buffer.bytes ++ piece).length }
        (by
          show (buffer.bytes ++ piece).length + pieces.flatten.length ≤ buffer.limit
          rw [List.length_append]
          omega)
      refine ⟨buffer', hrest, hbytes.trans ?_⟩
      rw [List.flatten_cons, List.append_assoc]

theorem toWriter_over (pieces : List Bytes) : ∀ buffer : CappedBuffer,
    buffer.bytes.length ≤ buffer.limit →
      buffer.limit < buffer.bytes.length + pieces.flatten.length →
      toWriter buffer pieces = .error (.invalidData frameTooLarge) := by
  induction pieces with
  | nil =>
      intro buffer hbuffer h
      rw [List.flatten_nil, List.length_nil] at h
      omega
  | cons piece pieces ih =>
      intro buffer hbuffer h
      rw [List.flatten_cons, List.length_append] at h
      rw [toWriter]
      by_cases hpiece : buffer.bytes.length + piece.length ≤ buffer.limit
      · rw [CappedBuffer.write_fits hpiece]
        refine ih _ ?_ ?_
        · show (buffer.bytes ++ piece).length ≤ buffer.limit
          rwa [List.length_append]
        · show buffer.limit < (buffer.bytes ++ piece).length + _
          rw [List.length_append]
          omega
      · rw [CappedBuffer.write_over hbuffer (by omega)]
        rfl

section

variable {pieces : List Bytes}

theorem writeFrame_fits (h : pieces.flatten.length ≤ maxIpcFrameBytes) (stream : Bytes) :
    writeFrame stream pieces = (.ok (), stream ++ (pieces.flatten ++ [lineFeed])) := by
  obtain ⟨buffer, hbuffer, hbytes⟩ := toWriter_fits pieces (.new maxIpcFrameBytes)
    (by rw [CappedBuffer.new]; simpa using h)
  unfold writeFrame
  rw [hbuffer]
  show (_, stream ++ buffer.bytes ++ [lineFeed]) = _
  rw [hbytes, List.append_assoc]
  rfl

/-- A frame that is too large leaves the stream as it was. -/
theorem writeFrame_over (h : maxIpcFrameBytes < pieces.flatten.length) (stream : Bytes) :
    writeFrame stream pieces = (.error (.invalidData frameTooLarge), stream) := by
  unfold writeFrame
  rw [toWriter_over pieces (.new maxIpcFrameBytes) (Nat.zero_le _)
    (by rw [CappedBuffer.new]; simpa using h)]

end

/-! ## Streams of frames -/

section RoundTrip

variable {T : Type} (json : T → Bytes) (fromSlice : Bytes → Except Text T)

/-- The JSON of the value is within the limit. -/
def fitsFrame (value : T) : Bool := decide ((json value).length ≤ maxIpcFrameBytes)

/-- What `write_frame` returns for the value. -/
def writeResult (value : T) : Except Fault Unit :=
  if fitsFrame json value then .ok () else .error (.invalidData frameTooLarge)

/-- The lines of the values that fit. -/
def linesOf (values : List T) : Bytes :=
  ((values.filter (fitsFrame json)).map fun value => json value ++ [lineFeed]).flatten

/-- The values that calls of `read_frame` return one after the other. -/
inductive Reads : Chunks UInt8 → List T → Chunks UInt8 → Prop
  | nil (reader : Chunks UInt8) : Reads reader [] reader
  | cons {reader reader' reader'' : Chunks UInt8} {value : T} {values : List T}
      (hcall : readFrame fromSlice reader = (.ok (some value), reader'))
      (hrest : Reads reader' values reader'') : Reads reader (value :: values) reader''

variable {json}

/-- Every frame is written whole or not at all, whatever pieces it comes in. -/
theorem writeFrames_eq (frames : List (T × List Bytes)) : ∀ stream : Bytes,
    (∀ frame ∈ frames, frame.2.flatten = json frame.1) →
      writeFrames stream (frames.map Prod.snd) =
        (frames.map fun frame => writeResult json frame.1,
          stream ++ linesOf json (frames.map Prod.fst)) := by
  induction frames with
  | nil =>
      intro stream _
      exact Prod.ext rfl (List.append_nil _).symm
  | cons frame frames ih =>
      intro stream hsplit
      obtain ⟨value, pieces⟩ := frame
      have hpieces : pieces.flatten = json value := hsplit _ (List.mem_cons_self ..)
      have ih := fun stream => ih stream fun frame hmem =>
          hsplit frame (List.mem_cons_of_mem _ hmem)
      rw [List.map_cons, writeFrames]
      by_cases hfits : (json value).length ≤ maxIpcFrameBytes
      · have hfits' : fitsFrame json value = true := decide_eq_true hfits
        rw [writeFrame_fits (by rwa [hpieces]) stream, hpieces]
        simp only [ih]
        simp [writeResult, linesOf, hfits']
      · have hfits' : fitsFrame json value = false := decide_eq_false hfits
        rw [writeFrame_over (by rw [hpieces]; omega) stream]
        simp only [ih]
        simp [writeResult, linesOf, hfits']

variable {fromSlice}

/-- The lines of values that fit are read back. -/
theorem reads_lines (values : List T) (hline : ∀ value ∈ values, lineFeed ∉ json value)
    (hinverts : ∀ value ∈ values, fromSlice (json value) = .ok value) :
    ∀ reader : Chunks UInt8, reader.all = linesOf json values → ∃ reader' reader'',
      Reads fromSlice reader (values.filter (fitsFrame json)) reader' ∧
        readFrame fromSlice reader' = (.ok none, reader'') := by
  induction values with
  | nil =>
      intro reader hreader
      have hnext : nextLine reader.all = .ok none := by
        rw [hreader]
        rfl
      obtain ⟨reader'', hcall⟩ := readFrame_end fromSlice hnext
      exact ⟨reader, reader'', .nil reader, hcall⟩
  | cons value values ih =>
      intro reader hreader
      have ih := ih (fun value hmem => hline value (List.mem_cons_of_mem _ hmem))
        (fun value hmem => hinverts value (List.mem_cons_of_mem _ hmem))
      cases hfits : fitsFrame json value with
      | false =>
          rw [linesOf, List.filter_cons, hfits] at hreader
          rw [List.filter_cons, hfits]
          exact ih reader hreader
      | true =>
          rw [linesOf, List.filter_cons, hfits] at hreader
          rw [List.filter_cons, hfits]
          have hcut : cut lineFeed reader.all = some (json value, linesOf json values) := by
            rw [hreader]
            show cut lineFeed (json value ++ [lineFeed] ++ linesOf json values) = _
            rw [List.append_assoc]
            exact cut_append (hline value (List.mem_cons_self ..)) _
          obtain ⟨reader₁, hcall, hrest⟩ := readFrame_frame fromSlice
            (nextLine_line hcut (of_decide_eq_true hfits)) (hinverts value (List.mem_cons_self ..))
          obtain ⟨reader', reader'', hreads, hend⟩ := ih reader₁ hrest
          exact ⟨reader', reader'', .cons hcall hreads, hend⟩

/-- The decoder finds the values of these lines, and goes on behind them. -/
theorem decode_lines (values : List T) (hline : ∀ value ∈ values, lineFeed ∉ json value)
    (hinverts : ∀ value ∈ values, fromSlice (json value) = .ok value) (rest : Bytes) :
    decode fromSlice (linesOf json values ++ rest) =
      (values.filter (fitsFrame json)).map .ok ++ decode fromSlice rest := by
  induction values with
  | nil => rfl
  | cons value values ih =>
      have ih := ih (fun value hmem => hline value (List.mem_cons_of_mem _ hmem))
        (fun value hmem => hinverts value (List.mem_cons_of_mem _ hmem))
      cases hfits : fitsFrame json value with
      | false =>
          rw [linesOf, List.filter_cons, hfits]
          exact ih
      | true =>
          have hstream : linesOf json (value :: values) ++ rest =
              json value ++ lineFeed :: (linesOf json values ++ rest) := by
            rw [linesOf, List.filter_cons, hfits]
            simp [linesOf]
          have hnext := nextLine_line (cut_append (hline value (List.mem_cons_self ..))
            (linesOf json values ++ rest)) (of_decide_eq_true hfits)
          rw [hstream, decode_frame fromSlice hnext (hinverts value (List.mem_cons_self ..)), ih,
            List.filter_cons, hfits]
          rfl

/-- Values are written in turn, each in any pieces, and the stream is read
in any chunks: the values that fit come back in order, and then the end. One
that does not fit fails and puts no byte on the stream. -/
theorem frames_round_trip (frames : List (T × List Bytes))
    (hsplit : ∀ frame ∈ frames, frame.2.flatten = json frame.1)
    (hline : ∀ frame ∈ frames, lineFeed ∉ json frame.1)
    (hinverts : ∀ frame ∈ frames, fromSlice (json frame.1) = .ok frame.1) :
    (writeFrames [] (frames.map Prod.snd)).1 = frames.map (fun frame => writeResult json frame.1) ∧
    (∀ frame ∈ frames, fitsFrame json frame.1 = false → ∀ stream,
      writeFrame stream frame.2 = (.error (.invalidData frameTooLarge), stream)) ∧
    ∀ reader : Chunks UInt8, reader.all = (writeFrames [] (frames.map Prod.snd)).2 →
      ∃ reader' reader'', Reads fromSlice reader
      ((frames.map Prod.fst).filter (fitsFrame json)) reader' ∧
        readFrame fromSlice reader' = (.ok none, reader'') := by
  have hwritten := writeFrames_eq frames [] hsplit
  refine ⟨congrArg Prod.fst hwritten, fun frame hmem hover stream => ?_, fun reader hreader => ?_⟩
  · have hover := of_decide_eq_false hover
    exact writeFrame_over (by rw [hsplit frame hmem]; omega) stream
  · rw [hwritten] at hreader
    refine reads_lines (frames.map Prod.fst) ?_ ?_ reader hreader
    · intro value hmem
      obtain ⟨frame, hframe, rfl⟩ := List.mem_map.mp hmem
      exact hline frame hframe
    · intro value hmem
      obtain ⟨frame, hframe, rfl⟩ := List.mem_map.mp hmem
      exact hinverts frame hframe

end RoundTrip

/-! ## Events -/

namespace WorkerEvent

/-- The bytes of the event's JSON. -/
def json (event : WorkerEvent) : Bytes := Utf8.encode event.payload

/-- The writer task's test is that of the capped buffer. -/
theorem fitsFrame_json (event : WorkerEvent) : fitsFrame json event = event.fits := by
  rw [fitsFrame, fits, json, Utf8.length_encode]

/-- Line feeds in an event are escaped. -/
theorem lineFeed_not_mem_json (event : WorkerEvent) : lineFeed ∉ json event := by
  intro h
  have := Utf8.le_of_mem_encode (Json.render_printable event.toValue) (by decide) lineFeed h
  exact absurd this (by decide)

theorem payload_textDelta (text : Text) : payload (.textDelta text) =
    '{' :: (Json.quote "kind".toList ++ ':' :: (Json.quote "text_delta".toList ++
      ',' :: (Json.quote "text".toList ++ ':' :: Json.quote text)) ++ ['}']) := rfl

end WorkerEvent

/-- A text of the size of the limit does not fit with its quotes. -/
theorem WorkerEvent.textDelta_over {text : Text} (h : text.length = maxIpcFrameBytes)
    (hplain : ∀ c ∈ text, Json.special c = false) : fitsFrame json (.textDelta text) = false := by
  have hlength := Utf8.length_le_byteLen (payload (.textDelta text))
  have hquote : (Json.quote text).length = text.length + 2 := by
    rw [Json.quote, Json.escapeAll_of_not_special hplain]
    simp
  have hlong : maxIpcFrameBytes < (payload (.textDelta text)).length := by
    rw [payload_textDelta]
    simp only [List.length_append, List.length_cons, hquote]
    omega
  rw [fitsFrame_json]
  exact decide_eq_false (by omega)

/-- A text of the size of the limit between two small events, the first of
them written in two pieces: it fails, and the others come back. -/
theorem frames_round_trip_over : ∃ (text : Text) (frames : List (WorkerEvent × List Bytes))
    (fromSlice : Bytes → Except Text WorkerEvent),
    text.length = maxIpcFrameBytes ∧
    frames.map Prod.fst = [.turnFinished, .textDelta text, .assistantMessage []] ∧
    ∀ reader : Chunks UInt8, reader.all = (writeFrames [] (frames.map Prod.snd)).2 →
      ∃ reader' reader'', Reads fromSlice reader [.turnFinished, .assistantMessage []] reader' ∧
        readFrame fromSlice reader' = (.ok none, reader'') := by
  obtain ⟨text, htext, hplain⟩ : ∃ text : Text, text.length = maxIpcFrameBytes ∧
      ∀ c ∈ text, Json.special c = false := by
    refine ⟨List.replicate maxIpcFrameBytes 'x', List.length_replicate, fun c hc => ?_⟩
    rw [List.eq_of_mem_replicate hc]
    decide
  have hover := WorkerEvent.textDelta_over htext hplain
  have hfinished : fitsFrame WorkerEvent.json .turnFinished = true := by decide
  have hmessage : fitsFrame WorkerEvent.json (.assistantMessage []) = true := by decide
  have hne : WorkerEvent.json (.assistantMessage []) ≠ WorkerEvent.json .turnFinished := by decide
  let frames : List (WorkerEvent × List Bytes) :=
    [(.turnFinished,
        [(WorkerEvent.json .turnFinished).take 1, (WorkerEvent.json .turnFinished).drop 1]),
      (.textDelta text, [WorkerEvent.json (.textDelta text)]),
      (.assistantMessage [], [WorkerEvent.json (.assistantMessage [])])]
  let fromSlice : Bytes → Except Text WorkerEvent := fun line =>
    if maxIpcFrameBytes < line.length then .ok (.textDelta text)
    else if line = WorkerEvent.json .turnFinished then .ok .turnFinished
    else if line = WorkerEvent.json (.assistantMessage []) then .ok (.assistantMessage [])
    else .error "expected value".toList
  have hsplit : ∀ frame ∈ frames, frame.2.flatten = WorkerEvent.json frame.1 := by
    intro frame hmem
    simp only [frames, List.mem_cons, List.not_mem_nil, or_false] at hmem
    rcases hmem with rfl | rfl | rfl
    · show _ ++ (_ ++ []) = _
      rw [List.append_nil, List.take_append_drop]
    · exact List.append_nil _
    · exact List.append_nil _
  have hinverts : ∀ frame ∈ frames, fromSlice (WorkerEvent.json frame.1) = .ok frame.1 := by
    have hover := of_decide_eq_false hover
    have hfinished := of_decide_eq_true hfinished
    have hmessage := of_decide_eq_true hmessage
    intro frame hmem
    simp only [frames, List.mem_cons, List.not_mem_nil, or_false] at hmem
    rcases hmem with rfl | rfl | rfl
    · exact (if_neg (Nat.not_lt.mpr hfinished)).trans (if_pos rfl)
    · exact if_pos (Nat.lt_of_not_le hover)
    · exact (if_neg (Nat.not_lt.mpr hmessage)).trans ((if_neg hne).trans (if_pos rfl))
  refine ⟨text, frames, fromSlice, htext, rfl, fun reader hreader => ?_⟩
  have hround := (frames_round_trip frames hsplit
    (fun frame _ => WorkerEvent.lineFeed_not_mem_json frame.1) hinverts).2.2 reader hreader
  have hfilter : (frames.map Prod.fst).filter (fitsFrame WorkerEvent.json) =
      [.turnFinished, .assistantMessage []] := by
    simp [frames, hover, hfinished, hmessage]
  rwa [hfilter] at hround

end PeakcodeDaemon
