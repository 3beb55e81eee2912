import PeakcodeDaemon.Inbound
import PeakcodeDaemon.StreamedText

/-!
# From the writer to the socket

The bytes on the wire are the lines of the frames that were written, and
what has gone out of the one that is being written. So a peer that reads
them in any chunks meets the frames, in order, and a piece of a frame only
at the end, where it is refused.

- **the wire** (`Wired`, `Wired.step`, `run_wired`): lines, and behind
  them a `Piece` by what the writer is doing. The step that puts bytes on
  the wire and the one that ends a frame are the only two to prove
  (`Wired.write`, `Wired.lineFeed`); for the others the writer's part is
  one of three things (`Writes`).
- **what was put into the channel** (`outgoing`): the frames are a
  beginning of it, redacted, and what is being written comes next
  (`next_outgoing`).
- **a peer that reads** (`decode_wire`, `Wired.reads`): these lines and a
  piece of another, from any chunks, are these frames and an error.

The wire is in the state of the connection and only grows, so a property
of it is one of everything a peer could have read so far.
-/

namespace PeakcodeDaemon

namespace Worker

variable {Message : Type} {setup : Setup Message} {s s' : Worker Message} {a : Action Message}
  {os : List (Obs Message)}

/-- What a step does to the writer and the frames. -/
inductive Writes (s s' : Worker Message) : Action Message → Prop
  | same {a : Action Message} (hwriter : s'.writer = s.writer) (hframes : s'.frames = s.frames) :
      Writes s s' a
  | receive {frame : WorkerEvent} (hwriter : s.writer = .receiving)
      (hwriter' : s'.writer = .writing frame) (hframes : s'.frames = s.frames) :
      Writes s s' .writerRecv
  | finish (hwriter : s.writer = .receiving) (houtbound : s.outbound = [])
      (hwriter' : s'.writer = .finished (.ok ())) (hframes : s'.frames = s.frames) :
      Writes s s' .writerEnd
  | write {frame : WorkerEvent} (hwriter : s.writer = .writing frame) (hfits : frame.fits = true)
      (hwriter' : s'.writer = .receiving) (hframes : s'.frames = s.frames ++ [frame]) :
      Writes s s' .writerWrite
  | reject {frame : WorkerEvent} (hwriter : s.writer = .writing frame) (hfits : frame.fits = false)
      (hwriter' : s'.writer = .finished (.error frameTooLarge)) (hframes : s'.frames = s.frames) :
      Writes s s' .writerWrite
  | fail {frame : WorkerEvent} {error : Text} (hwriter : s.writer = .writing frame)
      (hwriter' : s'.writer = .finished (.error error)) (hframes : s'.frames = s.frames) :
      Writes s s' (.writerFail error)
  | abort (hwriter' : s'.writer = .aborted) (hframes : s'.frames = s.frames) :
      Writes s s' .closeDeadline

theorem Step.writes (h : Step setup s a s' os) : Writes s s' a := by
  cases h with
  | joinTurn hpc houtcome =>
      obtain ⟨hframes, hwriter, -⟩ := join_writer s _
      exact .same hwriter hframes
  | writerRecv hwriter houtbound => exact .receive hwriter rfl rfl
  | writerEnd hpc hwriter houtbound => exact .finish hwriter houtbound rfl rfl
  | writerWrite hwriter hfits => exact .write hwriter hfits rfl rfl
  | writerReject hwriter hfits => exact .reject hwriter hfits rfl rfl
  | writerFail hwriter => exact .fail hwriter rfl rfl
  | closeDeadline hpc => exact .abort rfl rfl
  | _ => exact .same rfl rfl

/-- Nothing is put into a channel without a receiver. -/
theorem Step.events_eq_nil (h : Step setup s a s' os) (hdead : s.writer.receives = false) :
    events os = [] := by
  have hsends : s.sends = true → events os = [] := by
    intro hsends
    rw [Worker.sends, hdead] at hsends
    cases hsends
  cases h with
  | enqueue hpc hpending h => exact hsends h
  | terminalHeld hpc hpending h => exact hsends h
  | terminalEvent hpc hpending h => exact hsends h
  | approve hpc => exact events_map_approver _
  | call hallows hcalled => exact events_map_approver _
  | holdEvent hpc hactive hpending hevents hown => exact events_map_drew _
  | _ => rfl

/-- The end of a frame that fits. -/
theorem step_writerWrite {frame : WorkerEvent} (hwriter : s.writer = .writing frame)
    (hfits : frame.fits = true) (h : step setup s .writerWrite = some (s', os)) :
    s'.writer = .receiving ∧ s'.frames = s.frames ++ [frame] := by
  simp only [step, hwriter, hfits, if_true] at h
  obtain ⟨rfl, -⟩ := Prod.mk.inj (Option.some.inj h)
  exact ⟨rfl, rfl⟩

theorem Step.writerEnd_obs (h : Step setup s .writerEnd s' os) : os = [] := by
  cases h with
  | holdEvent hpc hactive hpending hevents hown => rcases hown with hown | hown <;> cases hown
  | _ => rfl

end Worker

namespace Connection

variable {Message : Type} {setup : Setup Message} {fromSlice : Bytes → Except Text DaemonCommand}
  {tr os : List (Obs Message)} {s s' : Connection Message} {a : Action Message}

/-! ## Lines -/

section Lines

variable {frames more : List WorkerEvent} {frame : WorkerEvent} {n : Nat}

theorem linesOf_append : linesOf WorkerEvent.json (frames ++ more) =
    linesOf WorkerEvent.json frames ++ linesOf WorkerEvent.json more := by
  rw [linesOf, List.filter_append, List.map_append, List.flatten_append]
  rfl

theorem linesOf_concat (hfits : frame.fits = true) :
    linesOf WorkerEvent.json (frames ++ [frame]) =
      linesOf WorkerEvent.json frames ++ frame.json ++ [lineFeed] := by
  have hfits' : fitsFrame WorkerEvent.json frame = true := by rwa [WorkerEvent.fitsFrame_json]
  rw [linesOf_append, List.append_assoc]
  simp [linesOf, hfits']

theorem linesOf_mono (h : frames <+: more) :
    linesOf WorkerEvent.json frames <+: linesOf WorkerEvent.json more := by
  obtain ⟨rest, rfl⟩ := h
  rw [linesOf_append]
  exact List.prefix_append _ _

/-- What has gone out of a frame is a piece of a line. -/
theorem lineFeed_not_mem_take : lineFeed ∉ frame.json.take n :=
  fun h => frame.lineFeed_not_mem_json (List.mem_of_mem_take h)

theorem length_take_le (hfits : frame.fits = true) :
    (frame.json.take n).length ≤ maxIpcFrameBytes := by
  rw [← WorkerEvent.fitsFrame_json] at hfits
  have := of_decide_eq_true hfits
  rw [List.length_take]
  omega

end Lines

/-! ## What is on the wire -/

/-- The worker's observations. -/
def observed (tr : List (Obs Message)) : List (Worker.Obs Message) :=
  (workerLog tr).filterMap Sum.getRight?

theorem observed_append : observed (tr ++ os) = observed tr ++ observed os := by
  rw [observed, workerLog_append, List.filterMap_append]
  rfl

@[simp] theorem observed_shown (a : Worker.Action Message) (os : List (Worker.Obs Message)) :
    observed (shown a os) = os := by
  rw [observed, workerLog_shown]
  exact Machine.filterMap_inr a os

/-- What was put into the event channel, as the writer sends it. -/
def outgoing (setup : Setup Message) (tr : List (Obs Message)) : List WorkerEvent :=
  (Worker.events (observed tr)).map (WorkerEvent.mapTexts setup.redactor.clean)

theorem outgoing_mono (tr os : List (Obs Message)) :
    outgoing setup tr <+: outgoing setup (tr ++ os) := by
  rw [outgoing, outgoing, observed_append, Worker.events_append, List.map_append]
  exact List.prefix_append _ _

/-- The piece behind the lines, by what the writer is doing. -/
def Piece (sent : Nat) (piece : Bytes) : WriterTask → Prop
  | .receiving => piece = [] ∧ sent = 0
  | .writing frame => piece = frame.json.take sent ∧ sent ≤ frame.json.length ∧
      (frame.fits = false → sent = 0)
  | .finished (.ok _) => piece = []
  | .finished (.error _) | .aborted => True

structure Wired (setup : Setup Message) (tr : List (Obs Message)) (s : Connection Message) :
    Prop where
  fits : ∀ frame ∈ s.worker.frames, frame.fits = true
  wire : ∃ piece, s.wire = linesOf WorkerEvent.json s.worker.frames ++ piece ∧
    lineFeed ∉ piece ∧ piece.length ≤ maxIpcFrameBytes ∧ Piece s.sent piece s.worker.writer
  ahead : s.wire <+: linesOf WorkerEvent.json (outgoing setup tr)
  clean : s.worker.writer = .finished (.ok ()) → s.worker.frames = outgoing setup tr

theorem Wired.start (setup : Setup Message) : Wired setup [] (new setup) where
  fits := fun _ h => by cases h
  wire := ⟨[], rfl, List.not_mem_nil, Nat.zero_le _, rfl, rfl⟩
  ahead := List.nil_prefix
  clean := fun h => by cases h

theorem Piece.writing {frame : WorkerEvent} {sent : Nat} {piece : Bytes}
    (h : Piece sent piece (.writing frame)) :
    piece = frame.json.take sent ∧ lineFeed ∉ piece ∧ piece.length ≤ maxIpcFrameBytes := by
  obtain ⟨rfl, -, hnone⟩ := h
  refine ⟨rfl, lineFeed_not_mem_take, ?_⟩
  cases hfits : frame.fits with
  | true => exact length_take_le hfits
  | false =>
      rw [hnone hfits, List.take_zero]
      exact Nat.zero_le _

/-- The frame that is being written comes next. -/
theorem next_outgoing (hpiped : Worker.Piped setup (observed tr) s.worker) {frame : WorkerEvent}
    (hwriter : s.worker.writer = .writing frame) :
    s.worker.frames ++ [frame] <+: outgoing setup tr := by
  have hflow := hpiped.flow (by rw [hwriter]; rfl)
  rw [hwriter] at hflow
  rw [outgoing, ← hflow]
  exact List.prefix_append _ _

theorem Wired.write (h : Wired setup tr s) (hpiped : Worker.Piped setup (observed tr) s.worker)
    {frame : WorkerEvent} {n : Nat} (hwriter : s.worker.writer = .writing frame)
    (hfits : frame.fits = true) (hn : s.sent + n ≤ frame.json.length) :
    Wired setup tr
      { s with sent := s.sent + n, wire := s.wire ++ (frame.json.drop s.sent).take n } := by
  obtain ⟨piece, hwire, -, -, hpiece⟩ := h.wire
  rw [hwriter] at hpiece
  obtain ⟨rfl, -, -⟩ := hpiece
  have hgrown : s.wire ++ (frame.json.drop s.sent).take n =
      linesOf WorkerEvent.json s.worker.frames ++ frame.json.take (s.sent + n) := by
    rw [hwire, List.append_assoc, ← List.take_add]
  refine ⟨h.fits, ⟨_, hgrown, lineFeed_not_mem_take, length_take_le hfits, ?_⟩, ?_, h.clean⟩
  · show Piece _ _ s.worker.writer
    rw [hwriter]
    exact ⟨rfl, hn, fun hnot => by cases hfits.symm.trans hnot⟩
  · show s.wire ++ _ <+: _
    refine List.IsPrefix.trans ?_ (linesOf_mono (next_outgoing hpiped hwriter))
    rw [hgrown, linesOf_concat hfits, List.append_assoc]
    refine (List.prefix_append_right_inj _).mpr ?_
    exact (List.take_prefix _ _).trans (List.prefix_append _ _)

/-- The frame is complete. -/
theorem Wired.lineFeed (h : Wired setup tr s) (hpiped : Worker.Piped setup (observed tr) s.worker)
    {frame : WorkerEvent} {worker : Worker Message} {os : List (Worker.Obs Message)}
    (hwriter : s.worker.writer = .writing frame) (hfits : frame.fits = true)
    (hsent : s.sent = frame.json.length) (hwriter' : worker.writer = .receiving)
    (hframes : worker.frames = s.worker.frames ++ [frame]) (a : Worker.Action Message) :
    Wired setup (tr ++ shown a os)
      { s with worker := worker, sent := 0, wire := s.wire ++ [PeakcodeDaemon.lineFeed] } := by
  obtain ⟨piece, hwire, -, -, hpiece⟩ := h.wire
  rw [hwriter] at hpiece
  obtain ⟨rfl, -, -⟩ := hpiece
  have hgrown : s.wire ++ [PeakcodeDaemon.lineFeed] = linesOf WorkerEvent.json worker.frames := by
    rw [hwire, hsent, List.take_length, hframes, linesOf_concat hfits]
  refine ⟨?_, ⟨[], by rw [List.append_nil]; exact hgrown, List.not_mem_nil, Nat.zero_le _, ?_⟩,
    ?_, fun hdone => ?_⟩
  · intro frame' hmem
    rw [hframes] at hmem
    rcases List.mem_append.mp hmem with hmem | hmem
    · exact h.fits frame' hmem
    · rwa [List.mem_singleton.mp hmem]
  · show Piece _ _ worker.writer
    rw [hwriter']
    exact ⟨rfl, rfl⟩
  · show s.wire ++ _ <+: _
    rw [hgrown, hframes]
    exact linesOf_mono ((next_outgoing hpiped hwriter).trans (outgoing_mono tr _))
  · cases hwriter'.symm.trans hdone

/-- The worker takes a step that puts nothing on the wire. -/
theorem Wired.worker (h : Wired setup tr s) (hpiped : Worker.Piped setup (observed tr) s.worker)
    {b : Worker.Action Message} {os : List (Worker.Obs Message)}
    (hstep : Worker.Step setup s.worker b s'.worker os) (hwire : s'.wire = s.wire)
    (hsent : s'.sent = s.sent)
    (hwrite : b = .writerWrite → ∃ frame, s.worker.writer = .writing frame ∧ frame.fits = false) :
    Wired setup (tr ++ shown b os) s' := by
  have hahead : s'.wire <+: linesOf WorkerEvent.json (outgoing setup (tr ++ shown b os)) := by
    rw [hwire]
    exact h.ahead.trans (linesOf_mono (outgoing_mono tr _))
  have hstill : s.worker.writer.receives = false →
      outgoing setup (tr ++ shown b os) = outgoing setup tr := by
    intro hdead
    rw [outgoing, observed_append, observed_shown, Worker.events_append,
      hstep.events_eq_nil hdead, List.append_nil]
    rfl
  obtain ⟨piece, hspelled, hopen, hlength, hpiece⟩ := h.wire
  have hframes : s'.worker.frames = s.worker.frames → s'.wire =
      linesOf WorkerEvent.json s'.worker.frames ++ piece := by
    intro heq
    rw [heq, hwire, hspelled]
  have hfits : s'.worker.frames = s.worker.frames → ∀ frame ∈ s'.worker.frames,
      frame.fits = true := by
    intro heq
    rw [heq]
    exact h.fits
  have hmade : s'.worker.frames = s.worker.frames → Piece s'.sent piece s'.worker.writer →
      (s'.worker.writer = .finished (.ok ()) →
        s'.worker.frames = outgoing setup (tr ++ shown b os)) →
      Wired setup (tr ++ shown b os) s' := fun heq hpiece' hclean =>
    ⟨hfits heq, ⟨piece, hframes heq, hopen, hlength, hpiece'⟩, hahead, hclean⟩
  cases hstep.writes with
  | same hwriter heq =>
      refine hmade heq (by rwa [hsent, hwriter]) fun hdone => ?_
      rw [hwriter] at hdone
      rw [heq, h.clean hdone, hstill (by rw [hdone]; rfl)]
  | receive hwriter hwriter' heq =>
      rw [hwriter] at hpiece
      obtain ⟨rfl, hzero⟩ := hpiece
      refine hmade heq ?_ fun hdone => by cases hwriter'.symm.trans hdone
      rw [hwriter', hsent, hzero]
      exact ⟨rfl, Nat.zero_le _, fun _ => rfl⟩
  | finish hwriter houtbound hwriter' heq =>
      rw [hwriter] at hpiece
      obtain ⟨rfl, -⟩ := hpiece
      refine hmade heq (by rw [hwriter']; rfl) fun _ => ?_
      have hflow := hpiped.flow (by rw [hwriter]; rfl)
      rw [hwriter, houtbound] at hflow
      rw [heq, outgoing, observed_append, observed_shown, hstep.writerEnd_obs, List.append_nil]
      simpa [WriterTask.taken] using hflow
  | write hwriter hfit hwriter' heq =>
      obtain ⟨frame, hwriter₁, hnot⟩ := hwrite rfl
      obtain rfl := WriterTask.writing.inj (hwriter.symm.trans hwriter₁)
      cases hfit.symm.trans hnot
  | reject hwriter hfit hwriter' heq =>
      exact hmade heq (by rw [hwriter']; trivial) fun hdone => by cases hwriter'.symm.trans hdone
  | fail hwriter hwriter' heq =>
      exact hmade heq (by rw [hwriter']; trivial) fun hdone => by cases hwriter'.symm.trans hdone
  | abort hwriter' heq =>
      exact hmade heq (by rw [hwriter']; trivial) fun hdone => by cases hwriter'.symm.trans hdone

/-- A step of the reader or of the coordinator's joins. -/
theorem Wired.frame (h : Wired setup tr s) (hworker : s'.worker = s.worker)
    (hwire : s'.wire = s.wire) (hsent : s'.sent = s.sent) (hos : workerLog os = []) :
    Wired setup (tr ++ os) s' := by
  have hsame : outgoing setup (tr ++ os) = outgoing setup tr := by
    rw [outgoing, observed, workerLog_append, hos, List.append_nil]
    rfl
  refine ⟨?_, ?_, ?_, ?_⟩
  · rw [hworker]
    exact h.fits
  · rw [hworker, hwire, hsent]
    exact h.wire
  · rw [hwire, hsame]
    exact h.ahead
  · rw [hworker, hsame]
    exact h.clean

theorem Wired.step (h : Wired setup tr s) (hpiped : Worker.Piped setup (observed tr) s.worker)
    (hstep : Step setup fromSlice s a s' os) : Wired setup (tr ++ os) s' := by
  cases hstep with
  | receive hcommands hs =>
      refine h.worker hpiped (Worker.step_cases hs) rfl rfl fun heq => ?_
      rename_i result rest worker os
      cases result <;> cases heq
  | receiveClosed hcommands hover hs =>
      exact h.worker hpiped (Worker.step_cases hs) rfl rfl nofun
  | @close a result written reader worker os hpc hjoined hwritten hs =>
      refine h.worker hpiped (Worker.step_cases hs) rfl rfl fun heq => ?_
      rcases hwritten with ⟨rfl, -⟩ | ⟨rfl, -⟩ <;> cases heq
  | write hwriter hfits hpos hn =>
      rw [List.append_nil]
      exact h.write hpiped hwriter hfits hn
  | lineFeed hwriter hfits hsent hs =>
      obtain ⟨hwriter', hframes⟩ := Worker.step_writerWrite hwriter hfits hs
      exact h.lineFeed hpiped hwriter hfits hsent hwriter' hframes _
  | worker hfree hs => exact h.worker hpiped (Worker.step_cases hs) rfl rfl hfree.write
  | _ => exact h.frame rfl rfl rfl rfl

theorem Lifts.trivial (tr : List (Obs Message)) (s : Connection Message) (a : Action Message) :
    Lifts (fun _ _ _ => True) tr s a :=
  fun _ _ => True.intro

/-- The worker of a connection runs, whatever else is assumed. -/
theorem run_observed {C : List (Obs Message) → Connection Message → Action Message → Prop}
    (h : (machine setup fromSlice).Run C tr s) :
    (Worker.machine setup).Run (fun _ _ _ => True) (observed tr) s.worker :=
  (run_worker (h.mono fun tr s a _ => Lifts.trivial tr s a)).of_logged fun _ _ _ _ => True.intro

theorem run_wired {C : List (Obs Message) → Connection Message → Action Message → Prop}
    (h : (machine setup fromSlice).Run C tr s) : Wired setup tr s := by
  refine h.invariant (I := Wired setup) (Wired.start setup) ?_
  intro tr os s s' a hrun hinv _ hstep
  exact hinv.step (Worker.run_piped (run_observed hrun)) (step_cases hstep)

/-! ## What the peer reads -/

/-- The frames, and the error for what broke off. -/
def resultsOf {T : Type} (frames : List T) (piece : Bytes) : List (Except Fault T) :=
  frames.map .ok ++ if piece = [] then [] else [.error (.invalidData missingNewline)]

/-- A reader that finds these lines, and a piece of another behind them. -/
theorem decode_wire {T : Type} {json : T → Bytes} {fromSlice : Bytes → Except Text T}
    {frames : List T} {piece : Bytes} (hfits : ∀ frame ∈ frames, fitsFrame json frame = true)
    (hline : ∀ frame ∈ frames, lineFeed ∉ json frame)
    (hinverts : ∀ frame ∈ frames, fromSlice (json frame) = .ok frame) (hopen : lineFeed ∉ piece)
    (hlength : piece.length ≤ maxIpcFrameBytes) :
    decode fromSlice (linesOf json frames ++ piece) = resultsOf frames piece := by
  rw [decode_lines frames hline hinverts piece, List.filter_eq_self.mpr hfits, resultsOf]
  split
  · rename_i hnil
    rw [hnil, decode_end fromSlice rfl]
  · rename_i hne
    rw [decode_fault fromSlice (nextLine_missing hopen hne hlength)]

/-- A peer that reads the wire with `read_frame`, in any chunks, gets the
frames that were written. -/
theorem Wired.reads (h : Wired setup tr s) {parse : Bytes → Except Text WorkerEvent}
    (hinverts : ∀ frame ∈ s.worker.frames, parse frame.json = .ok frame) :
    ∃ piece, s.wire = linesOf WorkerEvent.json s.worker.frames ++ piece ∧
      Piece s.sent piece s.worker.writer ∧
      ∀ reader : Chunks UInt8, reader.all = s.wire → ∀ n,
        commandReader parse n reader = (resultsOf s.worker.frames piece).take n := by
  obtain ⟨piece, hwire, hopen, hlength, hpiece⟩ := h.wire
  refine ⟨piece, hwire, hpiece, fun reader hreader n => ?_⟩
  have hfits : ∀ frame ∈ s.worker.frames, fitsFrame WorkerEvent.json frame = true := by
    intro frame hmem
    rw [WorkerEvent.fitsFrame_json]
    exact h.fits frame hmem
  rw [commandReader_eq, hreader, hwire, decode_wire hfits
    (fun frame _ => frame.lineFeed_not_mem_json) hinverts hopen hlength]

/-- In every run the bytes on the wire are a prefix of the lines of all that
was put into the event channel, redacted. A peer that reads them with
`read_frame`, in any chunks, gets the frames that were written, in order, and
an error only for a frame that broke off at the end. When the writer has
ended well, the frames are all there was, and nothing broke off. -/
theorem wire_delivers {C : List (Obs Message) → Connection Message → Action Message → Prop}
    (h : (machine setup fromSlice).Run C tr s) (parse : Bytes → Except Text WorkerEvent)
    (hinverts : ∀ frame ∈ s.worker.frames, parse frame.json = .ok frame) :
    s.wire <+: linesOf WorkerEvent.json (outgoing setup tr) ∧
    s.worker.frames <+: outgoing setup tr ∧
    ∃ piece, s.wire = linesOf WorkerEvent.json s.worker.frames ++ piece ∧
      (∀ reader : Chunks UInt8, reader.all = s.wire → ∀ n,
        commandReader parse n reader = (resultsOf s.worker.frames piece).take n) ∧
      (s.worker.writer = .finished (.ok ()) →
        piece = [] ∧ s.worker.frames = outgoing setup tr) := by
  have hwired := run_wired h
  obtain ⟨piece, hwire, hpiece, hreads⟩ := hwired.reads hinverts
  refine ⟨hwired.ahead, (Worker.run_piped (run_observed h)).frames, piece, hwire, hreads,
    fun hdone => ⟨?_, hwired.clean hdone⟩⟩
  rw [hdone] at hpiece
  exact hpiece

/-- A frame is on the wire and four bytes of the next. -/
theorem wire_delivers_broken : ∃ (tr : List (Obs Text)) (s : Connection Text)
    (fromSlice : Bytes → Except Text DaemonCommand) (parse : Bytes → Except Text WorkerEvent),
    (machine (plainSetup []) fromSlice).Run (fun _ _ _ => True) tr s ∧
    ∀ reader : Chunks UInt8, reader.all = s.wire → commandReader parse 2 reader =
      [.ok (.textDelta "a".toList), .error (.invalidData missingNewline)] := by
  let input := DaemonCommand.json (.input "hi".toList)
  let frame := WorkerEvent.json (.textDelta "a".toList)
  let fromSlice : Bytes → Except Text DaemonCommand := fun line =>
    if line = input then .ok (.input "hi".toList) else .error "expected value".toList
  let parse : Bytes → Except Text WorkerEvent := fun line =>
    if line = frame then .ok (.textDelta "a".toList) else .error "expected value".toList
  have hrun : (machine (plainSetup []) fromSlice).Run (fun _ _ _ => True) _ _ :=
    Machine.Run.exec (fun _ _ _ => true) (fun _ _ _ _ => trivial)
      [.fill (input ++ [PeakcodeDaemon.lineFeed]), .round, .sendCommand, .receive,
        .worker .startTurn, .worker (.emit 0 (.textDelta "a".toList)),
        .worker (.emit 0 (.textDelta "b".toList)), .worker (.takeEvent []), .worker .reserve,
        .worker .writerRecv, .write 10, .write (frame.length - 10), .worker .writerWrite,
        .worker (.takeEvent []), .worker .reserve, .worker .writerRecv, .write 4]
      .start rfl
  obtain ⟨tr, s, hframes, hlength, hrun⟩ : ∃ tr s, s.worker.frames = [.textDelta "a".toList] ∧
      s.wire.length = 37 ∧
      (machine (plainSetup []) fromSlice).Run (fun _ _ _ => True) tr s :=
    ⟨_, _, rfl, rfl, hrun⟩
  obtain ⟨-, -, piece, hwire, hreads, -⟩ := wire_delivers hrun parse (by
    intro event hmem
    rw [hframes] at hmem
    rw [List.mem_singleton.mp hmem]
    exact if_pos rfl)
  refine ⟨tr, s, fromSlice, parse, hrun, fun reader hreader => ?_⟩
  have hne : piece ≠ [] := by
    rintro rfl
    rw [hframes, List.append_nil] at hwire
    rw [hwire] at hlength
    revert hlength
    decide
  rw [hreads reader hreader 2, resultsOf, if_neg hne, hframes]
  rfl

end Connection

end PeakcodeDaemon
