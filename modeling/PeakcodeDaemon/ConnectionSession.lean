import PeakcodeDaemon.SessionRefinement
import PeakcodeDaemon.Shutdown

/-!
# What the peer has to do with

From the socket a connection is a session: the inputs that were taken from
the bytes that came, and on the wire what the session says, redacted and
as far as it got. A peer that meets a `Done` or a `Crash` has met all of
it.

The proof is the three refinements in a row. A run of the connection is
one of its worker (`run_worker`), that is explained by a session
(`run_explained`), and the wire is a beginning of the lines of what was
put into the channel (`run_wired`). What is added here is the end: a
terminal event is the last thing a session says (`speech_complete`), so
where one is among the frames nothing is missing (`Wired.complete`).
-/

namespace PeakcodeDaemon

theorem WorkerEvent.isTerminal_mapTexts (f : Text → Text) (event : WorkerEvent) :
    (event.mapTexts f).isTerminal = event.isTerminal := by
  cases event <;> rfl

namespace Session

variable {Message : Type} {setup : Setup Message} {σ : Session Message}

theorem farewell_length (setup : Setup Message) (σ : Session Message) :
    (σ.farewell setup).length ≤ 1 := by
  rw [farewell]
  split <;> simp

theorem spoken_isTerminal {event : WorkerEvent} (h : event ∈ σ.spoken) :
    event.isTerminal = false := by
  obtain ⟨turn, -, hevent⟩ := List.mem_flatMap.mp h
  obtain ⟨held, -, rfl⟩ := List.mem_map.mp hevent
  exact held.isTerminal

/-- Who has heard a terminal event has heard it all. -/
theorem speech_complete {frames : List WorkerEvent} {f : Text → Text}
    (hframes : frames <+: (σ.speech setup).map (WorkerEvent.mapTexts f)) {frame : WorkerEvent}
    (hmem : frame ∈ frames) (hterminal : frame.isTerminal = true) :
    frames = (σ.speech setup).map (WorkerEvent.mapTexts f) := by
  refine hframes.eq_of_length_le ?_
  by_contra hshort
  have hlength := σ.farewell_length setup
  rw [List.length_map, speech, List.length_append] at hshort
  -- a shorter piece has nothing of the farewell
  have hspoken : frames <+: σ.spoken.map (WorkerEvent.mapTexts f) := by
    refine List.prefix_of_prefix_length_le hframes ?_ ?_
    · rw [speech, List.map_append]
      exact List.prefix_append _ _
    · rw [List.length_map]
      omega
  obtain ⟨event, hevent, rfl⟩ := List.mem_map.mp (hspoken.subset hmem)
  rw [WorkerEvent.isTerminal_mapTexts, spoken_isTerminal hevent] at hterminal
  cases hterminal

end Session

namespace Connection

variable {Message : Type} {setup : Setup Message} {fromSlice : Bytes → Except Text DaemonCommand}
  {tr : List (Obs Message)} {s : Connection Message}

def inputOf? : Except Text DaemonCommand → Option Text
  | .ok (.input text) => some text
  | _ => none

/-- The inputs among the commands that were taken. -/
def inputs (tr : List (Obs Message)) : List Text := (taken tr).filterMap inputOf?

theorem received_workerLog (tr : List (Obs Message)) :
    Worker.received (workerLog tr) = inputs tr := by
  rw [inputs, taken, List.filterMap_filterMap]
  refine congrArg (fun f => List.filterMap f (workerLog tr)) (funext fun x => ?_)
  cases x with
  | inr o => rfl
  | inl a =>
      cases a with
      | command command => cases command <;> rfl
      | _ => rfl

/-- What the session says, as the writer sends it. -/
def redactedSpeech (setup : Setup Message) (σ : Session Message) : List WorkerEvent :=
  (σ.speech setup).map (WorkerEvent.mapTexts setup.redactor.clean)

/-- Frames that are all there is leave nothing else on the wire. -/
theorem Wired.complete (h : Wired setup tr s) {all : List WorkerEvent}
    (hahead : outgoing setup tr <+: all) (hframes : s.worker.frames <+: outgoing setup tr)
    (hall : s.worker.frames = all) : s.wire = linesOf WorkerEvent.json all := by
  obtain ⟨piece, hwire, -⟩ := h.wire
  have hout : outgoing setup tr = all :=
    hahead.eq_of_length_le (by rw [← hall]; exact hframes.length_le)
  refine h.ahead.eq_of_length_le ?_ |>.trans (by rw [hout])
  rw [hwire, hout, hall, List.length_append]
  exact Nat.le_add_right _ _

/-- Every run of the connection is explained by a session that came about
step by step. Its inputs are those that were taken from the socket, and its
turns are the ones that were started, each from the messages that the turns
before it left. A turn says what its own agent emitted and the approval
requests passed on while it was at work, each of which an agent had asked
(`Worker.Kept.asked`); it leaves what its task returned. What is on the wire
is what the session says, in its order and as far as it got; and where a
`Done` or a `Crash` is among the frames, nothing is missing and nothing is
behind it. -/
theorem session_explains {C : List (Obs Message) → Connection Message → Action Message → Prop}
    (h : (machine setup fromSlice).Run C tr s) : ∃ σ : Session Message, σ.Reached ∧
      inputs tr = σ.inputs ∧ Worker.began (observed tr) = σ.starts setup ∧
      s.worker.messages = σ.history setup ∧
      (∀ n turn, σ.turns[n]? = some turn →
        Worker.Kept (observed tr) (s.worker.tasks n) n turn) ∧
      (s.result ≠ none → σ.ending ≠ none) ∧
      s.worker.frames <+: redactedSpeech setup σ ∧
      s.wire <+: linesOf WorkerEvent.json (redactedSpeech setup σ) ∧
      ∀ frame ∈ s.worker.frames, frame.isTerminal = true →
        s.worker.frames = redactedSpeech setup σ ∧
        s.wire = linesOf WorkerEvent.json (redactedSpeech setup σ) := by
  have hlogged := run_worker (h.mono fun tr s a _ => Lifts.trivial tr s a)
  obtain ⟨σ, hreached, hexplains⟩ := Worker.run_explained hlogged
  have hwired := run_wired h
  have hframes := (Worker.run_piped (run_observed h)).frames
  have hahead : outgoing setup tr <+: redactedSpeech setup σ := hexplains.sent_le.map _
  refine ⟨σ, hreached, ?_, hexplains.recorded.starts, hexplains.recorded.messages,
    hexplains.recorded.turns, ?_, hframes.trans hahead, hwired.ahead.trans (linesOf_mono hahead),
    fun frame hmem hterminal => ?_⟩
  · rw [← received_workerLog, hexplains.recorded.inputs]
  · intro hresult
    obtain ⟨result, hresult⟩ := Option.ne_none_iff_exists'.mp hresult
    have hpc := (run_exits h).result result |>.mp hresult
    exact (hexplains.out (by rw [hpc]; rfl)).1
  · have hall := Session.speech_complete (hframes.trans hahead) hmem hterminal
    exact ⟨hall, hwired.complete hahead hframes hall⟩

/-- A session of one turn, which has said one thing. -/
theorem session_explains_delta : ∃ (tr : List (Obs Text)) (s : Connection Text)
    (σ : Session Text), (machine (plainSetup []) (reading [.input "hi".toList])).Run
      (fun _ _ _ => True) tr s ∧ s.worker.frames = [.textDelta "a".toList] ∧ σ.Reached ∧
    σ.inputs = ["hi".toList] ∧ σ.starts (plainSetup []) = [(0, "hi".toList, ["hi".toList])] ∧
    [.textDelta "a".toList] <+: redactedSpeech (plainSetup []) σ := by
  have hrun : (machine (plainSetup []) (reading [.input "hi".toList])).Run
      (fun _ _ _ => True) _ _ :=
    Machine.Run.exec (fun _ _ _ => true) (fun _ _ _ _ => trivial)
      [.fill (DaemonCommand.json (.input "hi".toList) ++ [lineFeed]), .round, .sendCommand,
        .receive, .worker .startTurn, .worker (.emit 0 (.textDelta "a".toList)),
        .worker (.takeEvent []), .worker .reserve, .worker .writerRecv,
        .write (WorkerEvent.json (.textDelta "a".toList)).length, .worker .writerWrite]
      .start rfl
  obtain ⟨tr, s, hframes, hinputs, hbegan, hrun⟩ : ∃ tr s,
      s.worker.frames = [.textDelta "a".toList] ∧ inputs tr = ["hi".toList] ∧
      Worker.began (observed tr) = [(0, "hi".toList, ["hi".toList])] ∧
      (machine (plainSetup []) (reading [.input "hi".toList])).Run (fun _ _ _ => True) tr s :=
    ⟨_, _, rfl, rfl, rfl, hrun⟩
  obtain ⟨σ, hreached, htaken, hstarts, -, -, -, hahead, -⟩ := session_explains hrun
  exact ⟨tr, s, σ, hrun, hframes, hreached, by rw [← htaken, hinputs], by rw [← hstarts, hbegan],
    by rwa [← hframes]⟩

end Connection

end PeakcodeDaemon
