import PeakcodeDaemon.Connection

/-!
# From the socket to the coordinator

What the coordinator takes from the command channel is what the reference
decoder finds in all that came on the socket, in order, however it came
and whatever ran beside: what has arrived is taken, in the channel, in the
reader's hand or still to be read. The end of the channel and an error are
seen behind everything that came before them.

- **the reader** (`Yields`, `Follows`, `readerRound_yields`): what a round
  makes of its bytes is what the decoder makes of them, whatever comes
  later. A statement about all futures is what lets the reader stop in
  the middle of a line.
- **what is delivered** (`Conveyed`, `Conveyed.step`, `run_conveyed`):
  what was taken and what is in the channel comes first in the results of
  the stream (`Ahead`), and once the reader is over it is all of them
  (`Concludes`).
- **the end** (`Ending`, `run_ending`): as long as the coordinator is in
  its loop, what it has seen of the channel's end is the end of all that
  came.

`commands_conveyed` is about every stream. Where the daemon writes
commands that fit, `written_commands_taken` has them taken in order, from
the same invariant and the decoder's reading of lines.
-/

namespace PeakcodeDaemon

/-- The bytes of the command's JSON. -/
def DaemonCommand.json (command : DaemonCommand) : Bytes :=
  Utf8.encode (Json.render command.toValue)

theorem DaemonCommand.lineFeed_not_mem_json (command : DaemonCommand) :
    lineFeed ∉ command.json := by
  intro h
  have := Utf8.le_of_mem_encode (Json.render_printable command.toValue) (by decide) lineFeed h
  exact absurd this (by decide)

namespace Connection

variable {Message : Type} {setup : Setup Message} {fromSlice : Bytes → Except Text DaemonCommand}
  {tr os : List (Obs Message)} {s s' : Connection Message} {a : Action Message}
  {payload buffered : Bytes} {done : List DaemonCommand}

/-! ## What came and what was taken -/

/-- What an observation adds to the bytes that arrived. -/
def arrivedBytes : Obs Message → Bytes
  | .arrived bytes => bytes
  | _ => []

/-- All that came on the socket. -/
def arrived (tr : List (Obs Message)) : Bytes := tr.flatMap arrivedBytes

def taken? : Worker.Action Message ⊕ Worker.Obs Message → Option (Except Text DaemonCommand)
  | .inl a => command? a
  | .inr _ => none

/-- What the coordinator took from the command channel, in order. -/
def taken (tr : List (Obs Message)) : List (Except Text DaemonCommand) :=
  (workerLog tr).filterMap taken?

/-- The socket can still bring something. -/
def Open (tr : List (Obs Message)) : Prop := .ended ∉ tr ∧ ∀ error, .failed error ∉ tr

theorem arrived_append : arrived (tr ++ os) = arrived tr ++ arrived os := List.flatMap_append

theorem taken_append : taken (tr ++ os) = taken tr ++ taken os := by
  rw [taken, workerLog_append, List.filterMap_append]
  rfl

@[simp] theorem taken_shown (a : Worker.Action Message) (os : List (Worker.Obs Message)) :
    taken (shown a os) = (command? a).toList := by
  have hos : (os.map Sum.inr).filterMap
      (taken? : Worker.Action Message ⊕ Worker.Obs Message → _) = [] := by
    rw [List.filterMap_map, List.filterMap_eq_nil_iff]
    exact fun _ _ => rfl
  rw [taken, workerLog_shown, List.filterMap_cons, hos, taken?]
  cases command? a <;> rfl

/-! ## The results of a stream -/

/-- What calls of `read_frame` return for the stream, up to its end. -/
def results (fromSlice : Bytes → Except Text DaemonCommand) (stream : Bytes) :
    List (Except Text DaemonCommand) :=
  (decode fromSlice stream).map (Except.mapError Fault.message)

/-- The reader reads on where it is in the stream. -/
def Follows (fromSlice : Bytes → Except Text DaemonCommand) (stream rest : Bytes)
    (done : List (Except Text DaemonCommand)) : Prop :=
  ∀ future, results fromSlice (stream ++ future) = done ++ results fromSlice (rest ++ future)

/-- What the reader makes of a round, whatever comes later. -/
def Yields (fromSlice : Bytes → Except Text DaemonCommand) (stream : Bytes) : ReaderTask → Prop
  | .reading payload buffered => stream = payload ++ buffered ∧
      payload.length ≤ maxIpcFrameBytes ∧ lineFeed ∉ payload
  | .sending (.ok command) buffered => Follows fromSlice stream buffered [.ok command]
  | .sending (.error error) _ => ∀ future, results fromSlice (stream ++ future) = [.error error]
  | .finished | .panicked _ | .aborted => False

/-- A fault of the framing is the last result. -/
theorem results_fault {stream : Bytes} {message : Text}
    (h : nextLine stream = .error (.invalidData message)) :
    results fromSlice stream = [.error message] := by
  rw [results, decode_fault fromSlice h]
  rfl

/-- One round of the reader gives what its line gives. -/
theorem readerRound_yields (hpayload : payload.length ≤ maxIpcFrameBytes)
    (hopen : lineFeed ∉ payload) :
    Yields fromSlice (payload ++ buffered) (readerRound fromSlice payload buffered) := by
  rw [readerRound]
  cases hcut : Chunks.cut lineFeed buffered with
  | some pair =>
      obtain ⟨line, left⟩ := pair
      rw [readRound_line hpayload hcut]
      obtain ⟨hbuffered, hline⟩ := Chunks.eq_of_cut hcut
      have hclosed : lineFeed ∉ payload ++ line := by
        rw [List.mem_append, not_or]
        exact ⟨hopen, hline⟩
      by_cases hlong : maxIpcFrameBytes < payload.length + line.length
      · rw [if_pos hlong]
        intro future
        rw [hbuffered, ← List.append_assoc, List.append_assoc _ _ future]
        exact results_fault (nextLine_long hclosed (by rwa [List.length_append]) _)
      · rw [if_neg hlong]
        have hnext : ∀ future, nextLine (payload ++ buffered ++ future) =
            .ok (some (payload ++ line, left ++ future)) := by
          intro future
          rw [List.append_assoc]
          refine nextLine_line
            (Chunks.cut_append_left hopen (Chunks.cut_append_right hcut future)) ?_
          rw [List.length_append]
          omega
        show Yields fromSlice _ (.sending (fromSlice (payload ++ line)) left)
        cases hparse : fromSlice (payload ++ line) with
        | ok command =>
            intro future
            rw [results, decode_frame fromSlice (hnext future) hparse]
            rfl
        | error error =>
            intro future
            rw [results, decode_reject fromSlice (hnext future) hparse]
            rfl
  | none =>
      have hbuffered := Chunks.cut_eq_none.mp hcut
      have hclosed : lineFeed ∉ payload ++ buffered := by
        rw [List.mem_append, not_or]
        exact ⟨hopen, hbuffered⟩
      rw [readRound_more hpayload hbuffered]
      by_cases hlong : maxIpcFrameBytes < payload.length + buffered.length
      · rw [if_pos hlong]
        intro future
        exact results_fault (nextLine_long hclosed (by rwa [List.length_append]) _)
      · rw [if_neg hlong]
        refine ⟨(List.append_nil _).symm, ?_, hclosed⟩
        rw [List.length_append]
        omega

theorem Follows.nil (stream : Bytes) : Follows fromSlice stream stream [] := fun _ => rfl

/-- What comes of a stream comes of its parts in turn. -/
theorem Follows.trans {stream rest rest' : Bytes} {first more : List (Except Text DaemonCommand)}
    (h : Follows fromSlice stream rest first) (h' : Follows fromSlice rest rest' more) :
    Follows fromSlice stream rest' (first ++ more) := by
  intro future
  rw [h future, h' future, List.append_assoc]

/-- More bytes go behind what is left. -/
theorem Follows.fill {stream rest : Bytes} {first : List (Except Text DaemonCommand)}
    (h : Follows fromSlice stream rest first) (bytes : Bytes) :
    Follows fromSlice (stream ++ bytes) (rest ++ bytes) first := by
  intro future
  rw [List.append_assoc, List.append_assoc]
  exact h (bytes ++ future)

/-- When the stream is over, what comes of it is what came so far and what is left.
-/
theorem Follows.ended {stream rest : Bytes} {first : List (Except Text DaemonCommand)}
    (h : Follows fromSlice stream rest first) :
    results fromSlice stream = first ++ results fromSlice rest := by
  have hnow := h []
  rwa [List.append_nil, List.append_nil] at hnow

/-! ## What is delivered in all -/

/-- The commands, and the error behind them if there is one. -/
def outcome (done : List DaemonCommand) (error : Option Text) :
    List (Except Text DaemonCommand) :=
  done.map .ok ++ (error.map .error).toList

/-- The reader has delivered all it ever will: the stream has ended behind
the commands, or there is an error in it, whatever follows, or at its end, or
the socket failed within a line. -/
def Concludes (fromSlice : Bytes → Except Text DaemonCommand) (tr : List (Obs Message))
    (done : List DaemonCommand) : Option Text → Prop
  | none => .ended ∈ tr ∧ results fromSlice (arrived tr) = done.map .ok
  | some error =>
      (∀ future, results fromSlice (arrived tr ++ future) = done.map .ok ++ [.error error]) ∨
      .ended ∈ tr ∧ results fromSlice (arrived tr) = done.map .ok ++ [.error error] ∨
      .failed error ∈ tr ∧ ∃ payload, lineFeed ∉ payload ∧
        Follows fromSlice (arrived tr) payload (done.map .ok)

/-- What is delivered so far comes first in what will be in all. -/
def Ahead (fromSlice : Bytes → Except Text DaemonCommand) (tr : List (Obs Message))
    (out : List (Except Text DaemonCommand)) : Prop :=
  (∃ done error, out <+: outcome done error ∧ Concludes fromSlice tr done error) ∨
    Open tr ∧ ∀ future, out <+: results fromSlice (arrived tr ++ future)

/-- What was taken or is in the channel, by what the reader is doing. -/
def Delivered (fromSlice : Bytes → Except Text DaemonCommand) (tr : List (Obs Message))
    (out : List (Except Text DaemonCommand)) (closes : Bool) : ReaderTask → Prop
  | .reading payload buffered => Open tr ∧ payload.length ≤ maxIpcFrameBytes ∧
      lineFeed ∉ payload ∧ ∃ done : List DaemonCommand, out = done.map .ok ∧
        Follows fromSlice (arrived tr) (payload ++ buffered) (done.map .ok)
  | .sending (.ok command) buffered => Open tr ∧ ∃ done : List DaemonCommand, out = done.map .ok ∧
      Follows fromSlice (arrived tr) buffered (done.map .ok ++ [.ok command])
  | .sending (.error error) _ => ∃ done : List DaemonCommand, out = done.map .ok ∧
      Concludes fromSlice tr done (some error)
  | .finished => (∃ done error, out = outcome done error ∧ Concludes fromSlice tr done error) ∨
      closes = true ∧ Ahead fromSlice tr out
  | .panicked _ => False
  | .aborted => closes = true ∧ Ahead fromSlice tr out

/-- Everything taken was read, in order, and the rest is on its way. -/
def Conveyed (fromSlice : Bytes → Except Text DaemonCommand) (tr : List (Obs Message))
    (s : Connection Message) : Prop :=
  Delivered fromSlice tr (taken tr ++ s.commands) s.worker.pc.closes s.reader

/-- Nothing came on the socket. -/
def Internal (os : List (Obs Message)) : Prop := ∀ o ∈ os, ∃ w, o = .worker w

theorem internal_shown (a : Worker.Action Message) (os : List (Worker.Obs Message)) :
    Internal (shown a os) := by
  intro o ho
  obtain ⟨w, -, rfl⟩ := List.mem_map.mp ho
  exact ⟨w, rfl⟩

/-- No byte arrives by what the worker does. -/
theorem Internal.arrived (h : Internal os) : arrived (tr ++ os) = arrived tr := by
  have hnil : Connection.arrived os = [] := by
    refine List.flatMap_eq_nil_iff.mpr fun o ho => ?_
    obtain ⟨w, rfl⟩ := h o ho
    rfl
  rw [arrived_append, hnil, List.append_nil]

theorem Open.append (h : Open tr) (hos : Internal os) : Open (tr ++ os) := by
  refine ⟨fun hmem => ?_, fun error hmem => ?_⟩
  · rcases List.mem_append.mp hmem with hmem | hmem
    · exact h.1 hmem
    · obtain ⟨w, hw⟩ := hos _ hmem
      cases hw
  · rcases List.mem_append.mp hmem with hmem | hmem
    · exact h.2 error hmem
    · obtain ⟨w, hw⟩ := hos _ hmem
      cases hw

theorem Concludes.append {error : Option Text} (h : Concludes fromSlice tr done error)
    (hos : arrived (tr ++ os) = arrived tr) : Concludes fromSlice (tr ++ os) done error := by
  cases error with
  | none => exact ⟨List.mem_append_left _ h.1, by rw [hos]; exact h.2⟩
  | some error =>
      rcases h with hrefused | ⟨hended, hresults⟩ | ⟨hfailed, payload, hopen, hfollows⟩
      · exact Or.inl fun future => by rw [hos]; exact hrefused future
      · exact Or.inr (Or.inl ⟨List.mem_append_left _ hended, by rw [hos]; exact hresults⟩)
      · refine Or.inr (Or.inr ⟨List.mem_append_left _ hfailed, payload, hopen, ?_⟩)
        rw [hos]
        exact hfollows

theorem Ahead.append {out : List (Except Text DaemonCommand)} (h : Ahead fromSlice tr out)
    (hos : Internal os) : Ahead fromSlice (tr ++ os) out := by
  rcases h with ⟨done, error, hout, hconcludes⟩ | ⟨hopen, hout⟩
  · exact Or.inl ⟨done, error, hout, hconcludes.append hos.arrived⟩
  · refine Or.inr ⟨hopen.append hos, fun future => ?_⟩
    rw [hos.arrived]
    exact hout future

variable {out : List (Except Text DaemonCommand)} {closes : Bool} {reader : ReaderTask}

/-- However the reader goes on, what it has delivered comes first. -/
theorem Delivered.ahead (h : Delivered fromSlice tr out closes reader) :
    Ahead fromSlice tr out := by
  cases reader with
  | reading payload buffered =>
      obtain ⟨hopen, -, -, done, hdone, hfollows⟩ := h
      refine Or.inr ⟨hopen, fun future => ?_⟩
      rw [hfollows future, hdone]
      exact List.prefix_append _ _
  | sending result buffered =>
      cases result with
      | ok command =>
          obtain ⟨hopen, done, hdone, hfollows⟩ := h
          refine Or.inr ⟨hopen, fun future => ?_⟩
          rw [hfollows future, hdone, List.append_assoc]
          exact List.prefix_append _ _
      | error error =>
          obtain ⟨done, hdone, hconcludes⟩ := h
          refine Or.inl ⟨done, some error, ?_, hconcludes⟩
          rw [hdone]
          exact List.prefix_append _ _
  | finished =>
      rcases h with ⟨done, error, hdone, hconcludes⟩ | ⟨-, hahead⟩
      · refine Or.inl ⟨done, error, ?_, hconcludes⟩
        rw [hdone]
      · exact hahead
  | panicked error => exact h.elim
  | aborted => exact h.2

theorem Delivered.append (h : Delivered fromSlice tr out closes reader) (hos : Internal os)
    {closes' : Bool} (hcloses : closes = true → closes' = true) :
    Delivered fromSlice (tr ++ os) out closes' reader := by
  cases reader with
  | reading payload buffered =>
      rw [Delivered, hos.arrived]
      exact ⟨h.1.append hos, h.2⟩
  | sending result buffered =>
      cases result with
      | ok command =>
          rw [Delivered, hos.arrived]
          exact ⟨h.1.append hos, h.2⟩
      | error error =>
          obtain ⟨done, hdone, hconcludes⟩ := h
          exact ⟨done, hdone, hconcludes.append hos.arrived⟩
  | finished =>
      rcases h with ⟨done, error, hdone, hconcludes⟩ | ⟨hclosed, hahead⟩
      · exact Or.inl ⟨done, error, hdone, hconcludes.append hos.arrived⟩
      · exact Or.inr ⟨hcloses hclosed, hahead.append hos⟩
  | panicked error => exact h
  | aborted => exact ⟨hcloses h.1, h.2.append hos⟩

/-! ## The command reader -/

@[simp] theorem results_nil : results fromSlice [] = [] := by
  rw [results, decode_end fromSlice rfl]
  rfl

theorem arrived_concat (bytes : Bytes) :
    arrived (tr ++ [.arrived bytes] : List (Obs Message)) = arrived tr ++ bytes := by
  rw [arrived_append]
  exact congrArg _ (List.append_nil _)

/-- Bytes arrive. -/
theorem Delivered.fill (h : Delivered fromSlice tr out closes (.reading payload []))
    (bytes : Bytes) :
    Delivered fromSlice (tr ++ [.arrived bytes]) out closes (.reading payload bytes) := by
  obtain ⟨hopen, hpayload, hclosed, done, hdone, hfollows⟩ := h
  rw [List.append_nil] at hfollows
  refine ⟨by simpa [Open] using hopen, hpayload, hclosed, done, hdone, ?_⟩
  rw [arrived_concat]
  exact hfollows.fill bytes

/-- The reader looks at what it has. -/
theorem Delivered.round (h : Delivered fromSlice tr out closes (.reading payload buffered)) :
    Delivered fromSlice tr out closes (readerRound fromSlice payload buffered) := by
  obtain ⟨hopen, hpayload, hclosed, done, hdone, hfollows⟩ := h
  have hyields : Yields fromSlice (payload ++ buffered)
      (readerRound fromSlice payload buffered) := readerRound_yields hpayload hclosed
  cases hround : readerRound fromSlice payload buffered with
  | reading payload' buffered' =>
      rw [hround] at hyields
      obtain ⟨hstream, hpayload', hclosed'⟩ := hyields
      exact ⟨hopen, hpayload', hclosed', done, hdone, hstream ▸ hfollows⟩
  | sending result left =>
      rw [hround] at hyields
      cases result with
      | ok command => exact ⟨hopen, done, hdone, hfollows.trans hyields⟩
      | error error =>
          refine ⟨done, hdone, Or.inl fun future => ?_⟩
          rw [hfollows future, hyields future]
  | finished => rw [hround] at hyields; exact hyields.elim
  | panicked error => rw [hround] at hyields; exact hyields.elim
  | aborted => rw [hround] at hyields; exact hyields.elim

/-- The stream ends between two lines. -/
theorem Delivered.endClean (h : Delivered fromSlice tr out closes (.reading [] [])) :
    Delivered fromSlice (tr ++ [.ended]) out closes .finished := by
  obtain ⟨-, -, -, done, hdone, hfollows⟩ := h
  refine Or.inl ⟨done, none, by rw [hdone, outcome]; exact (List.append_nil _).symm, ?_, ?_⟩
  · exact List.mem_append_right _ (List.mem_singleton_self _)
  · rw [arrived_append]
    have hended := hfollows.ended
    rw [List.append_nil, results_nil, List.append_nil] at hended
    exact (congrArg (results fromSlice) (List.append_nil _)).trans hended

/-- The stream has ended within a line. -/
theorem Delivered.endPartial (h : Delivered fromSlice tr out closes (.reading payload []))
    (hne : payload ≠ []) :
    Delivered fromSlice (tr ++ [.ended]) out closes (.sending (.error missingNewline) []) := by
  obtain ⟨-, hpayload, hclosed, done, hdone, hfollows⟩ := h
  refine ⟨done, hdone, Or.inr (Or.inl ⟨List.mem_append_right _ (List.mem_singleton_self _), ?_⟩)⟩
  have hended := hfollows.ended
  rw [List.append_nil, results_fault (nextLine_missing hclosed hne hpayload)] at hended
  rw [arrived_append]
  exact (congrArg (results fromSlice) (List.append_nil _)).trans hended

/-- A read fails. -/
theorem Delivered.readFail (h : Delivered fromSlice tr out closes (.reading payload []))
    (error : Text) :
    Delivered fromSlice (tr ++ [.failed error]) out closes (.sending (.error error) []) := by
  obtain ⟨-, -, hclosed, done, hdone, hfollows⟩ := h
  rw [List.append_nil] at hfollows
  refine ⟨done, hdone, Or.inr (Or.inr ⟨List.mem_append_right _ (List.mem_singleton_self _),
    payload, hclosed, ?_⟩)⟩
  rw [arrived_append]
  exact (congrArg (fun stream => Follows fromSlice stream payload _) (List.append_nil _)).mpr
    hfollows

/-- The channel takes what the reader holds. -/
theorem Delivered.send {result : Except Text DaemonCommand}
    (h : Delivered fromSlice tr out closes (.sending result buffered)) :
    Delivered fromSlice tr (out ++ [result]) closes (afterSend buffered result) := by
  cases result with
  | ok command =>
      obtain ⟨hopen, done, hdone, hfollows⟩ := h
      refine ⟨hopen, Nat.zero_le _, List.not_mem_nil, done ++ [command], ?_, ?_⟩
      · rw [hdone, List.map_append]
        rfl
      · rw [List.map_append]
        exact hfollows
  | error error =>
      obtain ⟨done, hdone, hconcludes⟩ := h
      refine Or.inl ⟨done, some error, ?_, hconcludes⟩
      rw [hdone]
      rfl

/-! ## Runs -/

/-- A step that leaves the reader alone, and takes at most the channel's first. -/
theorem Conveyed.frame (h : Conveyed fromSlice tr s) (hos : Internal os)
    (hreader : s'.reader = s.reader)
    (htaken : taken (tr ++ os) ++ s'.commands = taken tr ++ s.commands)
    (hpc : s.worker.pc.closes = true → s'.worker.pc.closes = true) :
    Conveyed fromSlice (tr ++ os) s' := by
  rw [Conveyed, hreader, htaken]
  exact h.append hos hpc

/-- A step of the worker that takes nothing from the channel. -/
theorem Conveyed.worker (h : Conveyed fromSlice tr s) {a : Worker.Action Message}
    {os : List (Worker.Obs Message)} (hstep : Worker.step setup s.worker a = some (s'.worker, os))
    (ha : command? a = none) (hreader : s'.reader = s.reader)
    (hcommands : s'.commands = s.commands) :
    Conveyed fromSlice (tr ++ shown a os) s' := by
  refine h.frame (internal_shown a os) hreader ?_ (Worker.step_cases hstep).closes
  rw [taken_append, taken_shown, ha, hcommands]
  exact congrArg (· ++ s.commands) (List.append_nil _)

/-- Every step keeps what is taken a part of what was read. -/
theorem Conveyed.step (h : Conveyed fromSlice tr s) (hstep : Step setup fromSlice s a s' os) :
    Conveyed fromSlice (tr ++ os) s' := by
  have hsilent : ∀ {o : Obs Message}, workerLog? o = none → taken (tr ++ [o]) = taken tr := by
    intro o ho
    have hnone : taken [o] = [] :=
      congrArg (List.filterMap taken?) (List.filterMap_cons_none ho)
    rw [taken_append, hnone, List.append_nil]
  cases hstep with
  | fill hreader =>
      rw [Conveyed, hsilent rfl]
      rw [Conveyed, hreader] at h
      exact h.fill _
  | round hreader =>
      rw [List.append_nil]
      rw [Conveyed, hreader] at h
      exact h.round
  | endClean hreader =>
      rw [Conveyed, hsilent rfl]
      rw [Conveyed, hreader] at h
      exact h.endClean
  | endPartial hreader hne =>
      rw [Conveyed, hsilent rfl]
      rw [Conveyed, hreader] at h
      exact h.endPartial hne
  | readFail hreader =>
      rw [Conveyed, hsilent rfl]
      rw [Conveyed, hreader] at h
      exact h.readFail _
  | sendCommand hreader hroom =>
      rw [List.append_nil]
      rw [Conveyed, hreader] at h
      rw [Conveyed]
      show Delivered fromSlice tr (taken tr ++ (s.commands ++ [_])) _ _
      rw [← List.append_assoc]
      exact h.send
  | sendClosed hreader hpc =>
      rw [List.append_nil]
      exact Or.inr ⟨by rw [hpc]; rfl, h.ahead⟩
  | readerAborted hpc hover =>
      rw [List.append_nil]
      exact ⟨hpc, h.ahead⟩
  | @receive result rest worker os hcommands hs =>
      refine h.frame (internal_shown _ os) rfl ?_ (Worker.step_cases hs).closes
      rw [taken_append, taken_shown, command?_commandAction, hcommands, List.append_assoc]
      rfl
  | receiveClosed hcommands hover hs => exact h.worker hs rfl rfl rfl
  | joinReader hpc hjoined hreader => simpa [Conveyed] using h
  | joinDeadline hpc hjoined => simpa [Conveyed] using h
  | write hwriter hfits hpos hn => simpa [Conveyed] using h
  | @close a result written reader worker os hpc hjoined hwritten hs =>
      refine h.worker hs ?_ rfl rfl
      rcases hwritten with ⟨rfl, -⟩ | ⟨rfl, -⟩ <;> rfl
  | lineFeed hwriter hfits hsent hs => exact h.worker hs rfl rfl rfl
  | worker hfree hs => exact h.worker hs hfree.command rfl rfl

/-- In every run. -/
theorem run_conveyed {C : List (Obs Message) → Connection Message → Action Message → Prop}
    (h : (machine setup fromSlice).Run C tr s) : Conveyed fromSlice tr s := by
  refine h.invariant (I := Conveyed fromSlice) ?_ ?_
  · refine ⟨⟨by simp, by simp⟩, Nat.zero_le _, List.not_mem_nil, [], rfl, ?_⟩
    exact .nil _
  · intro tr os s s' a _ hinv _ hstep
    exact hinv.step (step_cases hstep)

/-! ## The end of the channel -/

/-- The coordinator saw the end of the channel, or took an error from it. -/
def Sees (tr : List (Obs Message)) : Option Text → Prop
  | none => .worker (.inl .commandsClosed) ∈ tr
  | some error => .error error ∈ taken tr

theorem Sees.of_silent {o : Obs Message} (ho : workerLog? o = none) {error : Option Text}
    (h : Sees (tr ++ [o]) error) : Sees tr error := by
  cases error with
  | none =>
      rcases List.mem_append.mp h with hmem | hmem
      · exact hmem
      · obtain rfl := List.mem_singleton.mp hmem
        cases ho
  | some error =>
      have hnone : taken [o] = [] :=
        congrArg (List.filterMap taken?) (List.filterMap_cons_none ho)
      rw [Sees, taken_append, hnone, List.append_nil] at h
      exact h

theorem Sees.of_shown {a : Worker.Action Message} {os : List (Worker.Obs Message)}
    {error : Option Text} (h : Sees (tr ++ shown a os) error) :
    Sees tr error ∨ error = none ∧ a = .commandsClosed ∨
      ∃ e, error = some e ∧ command? a = some (.error e) := by
  cases error with
  | none =>
      rcases List.mem_append.mp h with hmem | hmem
      · exact Or.inl hmem
      · obtain ⟨w, hw, heq⟩ := List.mem_map.mp hmem
        obtain rfl := Obs.worker.inj heq
        rcases List.mem_cons.mp hw with hw | hw
        · exact Or.inr (Or.inl ⟨rfl, (Sum.inl.inj hw).symm⟩)
        · obtain ⟨_, -, hne⟩ := List.mem_map.mp hw
          cases hne
  | some error =>
      rw [Sees, taken_append, taken_shown] at h
      rcases List.mem_append.mp h with hmem | hmem
      · exact Or.inl hmem
      · exact Or.inr (Or.inr ⟨error, rfl, by simpa using hmem⟩)

/-- An error is the last result, behind the commands. -/
theorem outcome_eq_append {error : Option Text} {e : Text}
    {rest : List (Except Text DaemonCommand)} : ∀ {done : List DaemonCommand}
      {front : List (Except Text DaemonCommand)}, front ++ .error e :: rest = outcome done error →
    rest = [] ∧ error = some e ∧ front = done.map .ok
  | [], front, h => by
      cases error with
      | none => cases front <;> cases h
      | some error =>
          cases front with
          | nil =>
              obtain ⟨hx, hrest⟩ := List.cons.inj h
              obtain rfl := Except.error.inj hx
              exact ⟨hrest, rfl, rfl⟩
          | cons x front =>
              have htail : front ++ .error e :: rest = [] := (List.cons.inj h).2
              cases front <;> cases htail
  | command :: done, [], h => by cases (List.cons.inj h).1
  | command :: done, x :: front, h => by
      obtain ⟨rfl, htail⟩ := List.cons.inj h
      obtain ⟨hrest, herror, hfront⟩ := outcome_eq_append htail
      exact ⟨hrest, herror, by rw [hfront]; rfl⟩

/-- In the loop the coordinator has seen neither, and what it has seen is the
end of all that came. -/
structure Ending (fromSlice : Bytes → Except Text DaemonCommand) (tr : List (Obs Message))
    (s : Connection Message) : Prop where
  inside : s.worker.pc.isOut = false → ∀ error, ¬Sees tr error
  seen : ∀ error, Sees tr error → s.commands = [] ∧ s.reader.isOver = true ∧
    ∃ done, taken tr = outcome done error ∧ Concludes fromSlice tr done error

/-- A step in which nothing is seen, of a reader that goes on or a worker that
takes nothing. -/
theorem Ending.frame (h : Ending fromSlice tr s)
    (hsees : ∀ error, Sees (tr ++ os) error → Sees tr error)
    (hpc : s'.worker.pc.isOut = false → s.worker.pc.isOut = false)
    (hover : s.reader.isOver = true → s.commands = [] → s'.reader.isOver = true ∧
      s'.commands = [] ∧ taken (tr ++ os) = taken tr ∧ arrived (tr ++ os) = arrived tr) :
    Ending fromSlice (tr ++ os) s' where
  inside := fun hin error hnow => h.inside (hpc hin) error (hsees error hnow)
  seen := by
    intro error hnow
    obtain ⟨hcommands, hreader, done, hdone, hconcludes⟩ := h.seen error (hsees error hnow)
    obtain ⟨hreader', hcommands', htaken, harrived⟩ := hover hreader hcommands
    exact ⟨hcommands', hreader', done, htaken.trans hdone, hconcludes.append harrived⟩

/-- The reader takes a step: it is not over. -/
theorem Ending.reads (h : Ending fromSlice tr s) (hover : s.reader.isOver = false)
    (hos : ∀ o ∈ os, workerLog? o = none) (hone : os.length ≤ 1)
    (hworker : s'.worker = s.worker) : Ending fromSlice (tr ++ os) s' := by
  refine h.frame (fun error hnow => ?_) (by rw [hworker]; exact id) (fun hnot => ?_)
  · rcases os with - | ⟨o, - | ⟨o', os⟩⟩
    · rwa [List.append_nil] at hnow
    · exact hnow.of_silent (hos o (List.mem_singleton_self o))
    · simp at hone
  · cases hover.symm.trans hnot

/-- The worker takes a step other than from the channel. -/
theorem Ending.worker (h : Ending fromSlice tr s) {a : Worker.Action Message}
    {os : List (Worker.Obs Message)} (hstep : Worker.step setup s.worker a = some (s'.worker, os))
    (ha : command? a = none) (hclosed : a ≠ .commandsClosed) (hreader : s'.reader = s.reader)
    (hcommands : s'.commands = s.commands) : Ending fromSlice (tr ++ shown a os) s' := by
  refine h.frame (fun error hnow => ?_) (fun hin => ?_) (fun hover hnil => ?_)
  · rcases hnow.of_shown with hold | ⟨-, rfl⟩ | ⟨e, -, he⟩
    · exact hold
    · exact absurd rfl hclosed
    · cases ha.symm.trans he
  · cases hout : s.worker.pc.isOut with
    | false => rfl
    | true => cases hin.symm.trans ((Worker.step_cases hstep).isOut hout)
  · refine ⟨by rwa [hreader], by rwa [hcommands], ?_, (internal_shown a os).arrived⟩
    rw [taken_append, taken_shown, ha]
    exact List.append_nil _

theorem isOut_of_running {pc : Pc} (h : pc = .running) : pc.isOut = false := by
  rw [h]
  rfl

/-- In the loop nothing is lost of what the reader has delivered. -/
theorem Conveyed.inside (h : Conveyed fromSlice tr s) (hpc : s.worker.pc = .running) :
    (∃ done : List DaemonCommand, taken tr ++ s.commands = done.map .ok) ∧
        s.reader.isOver = false ∨
      s.reader.isOver = true ∧ ∃ done error, taken tr ++ s.commands = outcome done error ∧
        Concludes fromSlice tr done error := by
  have hcloses : s.worker.pc.closes = false := by
    rw [hpc]
    rfl
  rw [Conveyed] at h
  cases hreader : s.reader with
  | reading payload buffered =>
      rw [hreader] at h
      obtain ⟨-, -, -, done, hdone, -⟩ := h
      exact Or.inl ⟨⟨done, hdone⟩, rfl⟩
  | sending result buffered =>
      rw [hreader] at h
      cases result with
      | ok command =>
          obtain ⟨-, done, hdone, -⟩ := h
          exact Or.inl ⟨⟨done, hdone⟩, rfl⟩
      | error error =>
          obtain ⟨done, hdone, -⟩ := h
          exact Or.inl ⟨⟨done, hdone⟩, rfl⟩
  | finished =>
      rw [hreader] at h
      rcases h with hdone | ⟨hclosed, -⟩
      · exact Or.inr ⟨rfl, hdone⟩
      · cases hcloses.symm.trans hclosed
  | panicked error =>
      rw [hreader] at h
      exact h.elim
  | aborted =>
      rw [hreader] at h
      cases hcloses.symm.trans h.1

/-- The worker takes a result. -/
theorem Ending.receive (h : Ending fromSlice tr s) (hconveyed : Conveyed fromSlice tr s)
    {result : Except Text DaemonCommand} {rest : List (Except Text DaemonCommand)}
    {worker : Worker Message} {os : List (Worker.Obs Message)}
    (hcommands : s.commands = result :: rest)
    (hstep : Worker.step setup s.worker (commandAction result) = some (worker, os)) :
    Ending fromSlice (tr ++ shown (commandAction result) os)
      { s with commands := rest, worker := worker } := by
  cases result with
  | ok command =>
      have hnone := h.inside (isOut_of_running (Worker.step_command_running hstep))
      have hstill : ∀ error, ¬Sees (tr ++ shown (.command command) os) error := by
        intro error hnow
        rcases hnow.of_shown with hold | ⟨-, hne⟩ | ⟨e, -, hne⟩
        · exact hnone error hold
        · cases hne
        · cases hne
      exact ⟨fun _ => hstill, fun error hnow => absurd hnow (hstill error)⟩
  | error error =>
      obtain ⟨hpc, hout⟩ := Worker.step_commandError hstep
      have hnone := h.inside (isOut_of_running hpc)
      refine ⟨fun hin => ?_, fun error' hnow => ?_⟩
      · cases hin.symm.trans hout
      obtain rfl : error' = some error := by
        rcases hnow.of_shown with hold | ⟨-, hne⟩ | ⟨e, rfl, he⟩
        · exact absurd hold (hnone error')
        · cases hne
        · rw [Except.error.inj (Option.some.inj he)]
      rcases hconveyed.inside hpc with ⟨⟨done, hdone⟩, -⟩ | ⟨hover, done, error', hdone, hconcludes⟩
      · have hmem : .error error ∈ (done.map .ok : List (Except Text DaemonCommand)) := by
          rw [← hdone, hcommands]
          simp
        simp at hmem
      · rw [hcommands] at hdone
        obtain ⟨rfl, rfl, htaken⟩ := outcome_eq_append hdone
        refine ⟨rfl, hover, done, ?_, hconcludes.append (internal_shown _ os).arrived⟩
        rw [taken_append, taken_shown, htaken]
        rfl

/-- The worker finds the channel closed. -/
theorem Ending.receiveClosed (h : Ending fromSlice tr s) (hconveyed : Conveyed fromSlice tr s)
    {worker : Worker Message} {os : List (Worker.Obs Message)} (hcommands : s.commands = [])
    (hover : s.reader.isOver = true)
    (hstep : Worker.step setup s.worker .commandsClosed = some (worker, os)) :
    Ending fromSlice (tr ++ shown .commandsClosed os) { s with worker := worker } := by
  obtain ⟨hpc, hout⟩ := Worker.step_commandsClosed hstep
  have hnone := h.inside (isOut_of_running hpc)
  refine ⟨fun hin => ?_, fun error hnow => ⟨hcommands, hover, ?_⟩⟩
  · cases hin.symm.trans hout
  obtain rfl : error = none := by
    rcases hnow.of_shown with hold | ⟨rfl, -⟩ | ⟨e, -, he⟩
    · exact absurd hold (hnone error)
    · rfl
    · cases he
  rcases hconveyed.inside hpc with ⟨-, hopen⟩ | ⟨-, done, error, hdone, hconcludes⟩
  · cases hopen.symm.trans hover
  · rw [hcommands, List.append_nil] at hdone
    cases error with
    | some e =>
        refine absurd ?_ (hnone (some e))
        rw [Sees, hdone]
        exact List.mem_append_right _ (List.mem_singleton_self _)
    | none =>
        refine ⟨done, ?_, hconcludes.append (internal_shown _ os).arrived⟩
        rw [taken_append, taken_shown, hdone]
        exact List.append_nil _

/-- Every step keeps how the commands ended. -/
theorem Ending.step (h : Ending fromSlice tr s) (hconveyed : Conveyed fromSlice tr s)
    (hstep : Step setup fromSlice s a s' os) : Ending fromSlice (tr ++ os) s' := by
  cases hstep with
  | fill hreader => exact h.reads (by rw [hreader]; rfl) (by simp [workerLog?]) (by simp) rfl
  | round hreader => exact h.reads (by rw [hreader]; rfl) (by simp) (by simp) rfl
  | endClean hreader => exact h.reads (by rw [hreader]; rfl) (by simp [workerLog?]) (by simp) rfl
  | endPartial hreader hne =>
      exact h.reads (by rw [hreader]; rfl) (by simp [workerLog?]) (by simp) rfl
  | readFail hreader => exact h.reads (by rw [hreader]; rfl) (by simp [workerLog?]) (by simp) rfl
  | sendCommand hreader hroom => exact h.reads (by rw [hreader]; rfl) (by simp) (by simp) rfl
  | sendClosed hreader hpc => exact h.reads (by rw [hreader]; rfl) (by simp) (by simp) rfl
  | readerAborted hpc hover => exact h.reads hover (by simp) (by simp) rfl
  | receive hcommands hs => exact h.receive hconveyed hcommands hs
  | receiveClosed hcommands hover hs => exact h.receiveClosed hconveyed hcommands hover hs
  | joinReader hpc hjoined hreader => simpa using ⟨h.inside, h.seen⟩
  | joinDeadline hpc hjoined => simpa using ⟨h.inside, h.seen⟩
  | write hwriter hfits hpos hn => simpa using ⟨h.inside, h.seen⟩
  | @close a result written reader worker os hpc hjoined hwritten hs =>
      refine h.worker hs ?_ ?_ rfl rfl
      · rcases hwritten with ⟨rfl, -⟩ | ⟨rfl, -⟩ <;> rfl
      · rcases hwritten with ⟨rfl, -⟩ | ⟨rfl, -⟩ <;> nofun
  | lineFeed hwriter hfits hsent hs => exact h.worker hs rfl nofun rfl rfl
  | worker hfree hs => exact h.worker hs hfree.command hfree.commands rfl rfl

/-- In every run. -/
theorem run_ending {C : List (Obs Message) → Connection Message → Action Message → Prop}
    (h : (machine setup fromSlice).Run C tr s) : Ending fromSlice tr s := by
  refine h.invariant (I := Ending fromSlice) ?_ ?_
  · refine ⟨fun _ error h => ?_, fun error h => ?_⟩ <;> cases error <;> cases h
  · intro tr os s s' a hrun hinv _ hstep
    exact hinv.step (run_conveyed hrun) (step_cases hstep)

/-- The channel never holds more than its capacity. -/
theorem run_capacity {C : List (Obs Message) → Connection Message → Action Message → Prop}
    (h : (machine setup fromSlice).Run C tr s) :
    s.commands.length ≤ workerCommandChannelCapacity := by
  refine h.invariant (I := fun _ s => s.commands.length ≤ workerCommandChannelCapacity)
    (Nat.zero_le _) ?_
  intro tr os s s' a _ hinv _ hstep
  cases step_cases hstep with
  | sendCommand hreader hroom =>
      rw [List.length_append]
      exact hroom
  | receive hcommands hs =>
      rw [hcommands] at hinv
      exact Nat.le_of_succ_le hinv
  | _ => exact hinv

/-- In every run what was taken from the command channel, and what is in it,
is what the reference decoder finds first in all that came on the socket,
whatever follows: no result is lost, repeated, invented or out of place, in
whatever chunks the bytes came and whatever ran between them. The channel
keeps to its capacity and the reader never panics. The coordinator sees the
end of the channel when the stream has ended behind the commands it took, and
takes an error behind all of them. -/
theorem commands_conveyed {C : List (Obs Message) → Connection Message → Action Message → Prop}
    (h : (machine setup fromSlice).Run C tr s) :
    Ahead fromSlice tr (taken tr ++ s.commands) ∧
    s.commands.length ≤ workerCommandChannelCapacity ∧
    (∀ error, s.reader ≠ .panicked error) ∧
    (.worker (.inl .commandsClosed) ∈ tr → s.commands = [] ∧ .ended ∈ tr ∧
      ∃ done : List DaemonCommand, taken tr = done.map .ok ∧
        results fromSlice (arrived tr) = done.map .ok) ∧
    ∀ error, .error error ∈ taken tr → s.commands = [] ∧
      ∃ done : List DaemonCommand, taken tr = done.map .ok ++ [.error error] ∧
        Concludes fromSlice tr done (some error) := by
  have hconveyed := run_conveyed h
  have hending := run_ending h
  refine ⟨hconveyed.ahead, run_capacity h, fun error hreader => ?_, fun hseen => ?_,
    fun error hseen => ?_⟩
  · rw [Conveyed, hreader] at hconveyed
    exact hconveyed
  · obtain ⟨hcommands, -, done, hdone, hended, hresults⟩ := hending.seen none hseen
    exact ⟨hcommands, hended, done, by rw [hdone]; exact List.append_nil _, hresults⟩
  · obtain ⟨hcommands, -, done, hdone, hconcludes⟩ := hending.seen (some error) hseen
    exact ⟨hcommands, done, hdone, hconcludes⟩

/-- Reads these commands and no others. -/
def reading : List DaemonCommand → Bytes → Except Text DaemonCommand
  | [], _ => .error "expected value".toList
  | command :: commands, line =>
      if line = command.json then .ok command else reading commands line

/-- The two commands that are read. -/
def cancelOrAllow : Bytes → Except Text DaemonCommand :=
  reading [.cancel, .approve "h".toList .allow]

/-- The commands with their pieces. -/
def cancelThenAllow : List (DaemonCommand × List Bytes) :=
  [(.cancel, [(DaemonCommand.json .cancel).take 1, (DaemonCommand.json .cancel).drop 1]),
    (.approve "h".toList .allow, [DaemonCommand.json (.approve "h".toList .allow)])]

/-- They come in three chunks, and then the end. -/
theorem cancelThenAllow_run : ∃ (tr : List (Obs Text)) (s : Connection Text),
    (machine (plainSetup []) cancelOrAllow).Run (fun _ _ _ => True) tr s ∧
    arrived tr = (writeFrames [] (cancelThenAllow.map Prod.snd)).2 ∧
    (∀ error, .failed error ∉ tr) ∧ .worker (.inl .commandsClosed) ∈ tr := by
  have hrun : (machine (plainSetup []) cancelOrAllow).Run (fun _ _ _ => True) _ _ :=
    Machine.Run.exec (fun _ _ _ => true) (fun _ _ _ _ => trivial)
      [.fill ((DaemonCommand.json .cancel).take 3), .round,
        .fill ((DaemonCommand.json .cancel).drop 3 ++ [lineFeed] ++
          (DaemonCommand.json (.approve "h".toList .allow)).take 1),
        .round, .sendCommand, .receive, .round,
        .fill ((DaemonCommand.json (.approve "h".toList .allow)).drop 1 ++ [lineFeed]), .round,
        .sendCommand, .endOfStream, .receive, .receive]
      .start rfl
  refine ⟨_, _, hrun, by decide, fun error hmem => by simp at hmem, ?_⟩
  exact List.mem_append_right _ (List.mem_cons_self ..)

theorem commands_conveyed_cancel : ∃ (tr : List (Obs Text)) (s : Connection Text),
    (machine (plainSetup []) cancelOrAllow).Run (fun _ _ _ => True) tr s ∧ .ended ∈ tr ∧
    results cancelOrAllow (arrived tr) = taken tr := by
  obtain ⟨tr, s, hrun, -, -, hseen⟩ := cancelThenAllow_run
  obtain ⟨-, -, -, hclosed, -⟩ := commands_conveyed hrun
  obtain ⟨-, hended, done, hdone, hresults⟩ := hclosed hseen
  exact ⟨tr, s, hrun, hended, hresults.trans hdone.symm⟩

/-! ## Commands that were written -/

theorem error_not_mem_map_ok {error : Text} :
    .error error ∉ (done.map .ok : List (Except Text DaemonCommand)) := by
  simp

/-- Where all that comes are commands, these are what is delivered first. -/
theorem Ahead.prefix_of_results {out : List (Except Text DaemonCommand)} {future : Bytes}
    (h : Ahead fromSlice tr out)
    (hresults : results fromSlice (arrived tr ++ future) = done.map .ok)
    (hended : .ended ∈ tr → future = []) (hfailed : ∀ error, .failed error ∉ tr) :
    out <+: done.map .ok := by
  have hnot : ∀ {done' : List DaemonCommand} {error : Text},
      (done.map .ok : List (Except Text DaemonCommand)) ≠ done'.map .ok ++ [.error error] := by
    intro done' error heq
    have hmem : .error error ∈ (done.map .ok : List (Except Text DaemonCommand)) := by
      rw [heq]
      exact List.mem_append_right _ (List.mem_singleton_self _)
    exact error_not_mem_map_ok hmem
  have hnow : .ended ∈ tr → results fromSlice (arrived tr) = done.map .ok := by
    intro hmem
    rw [hended hmem, List.append_nil] at hresults
    exact hresults
  rcases h with ⟨done', error, hout, hconcludes⟩ | ⟨-, hout⟩
  · cases error with
    | none =>
        obtain ⟨hmem, hdone⟩ := hconcludes
        rw [outcome, ← hdone, hnow hmem] at hout
        simpa using hout
    | some error =>
        rcases hconcludes with hrefused | ⟨hmem, hrefused⟩ | ⟨hmem, -⟩
        · exact absurd (hresults.symm.trans (hrefused future)) hnot
        · exact absurd ((hnow hmem).symm.trans hrefused) hnot
        · exact absurd hmem (hfailed error)
  · rw [← hresults]
    exact hout future

/-- The daemon writes commands in turn, each in any pieces: those that fit are
taken in order, and when the channel's end is seen behind all that was
written, all of them were. -/
theorem written_commands_taken {C : List (Obs Message) → Connection Message → Action Message → Prop}
    (frames : List (DaemonCommand × List Bytes))
    (hsplit : ∀ frame ∈ frames, frame.2.flatten = frame.1.json)
    (hinverts : ∀ frame ∈ frames, fromSlice frame.1.json = .ok frame.1) {future : Bytes}
    (h : (machine setup fromSlice).Run C tr s)
    (harrived : arrived tr ++ future = (writeFrames [] (frames.map Prod.snd)).2)
    (hended : .ended ∈ tr → future = []) (hfailed : ∀ error, .failed error ∉ tr) :
    taken tr ++ s.commands <+:
      ((frames.map Prod.fst).filter (fitsFrame DaemonCommand.json)).map .ok ∧
    (.worker (.inl .commandsClosed) ∈ tr →
      taken tr = ((frames.map Prod.fst).filter (fitsFrame DaemonCommand.json)).map .ok) := by
  have hresults : results fromSlice (arrived tr ++ future) =
      ((frames.map Prod.fst).filter (fitsFrame DaemonCommand.json)).map .ok := by
    have hlines := decode_lines (frames.map Prod.fst)
      (fun value _ => value.lineFeed_not_mem_json)
      (fun value hmem => by
        obtain ⟨frame, hframe, rfl⟩ := List.mem_map.mp hmem
        exact hinverts frame hframe) []
    have hend : decode fromSlice [] = [] := decode_end fromSlice rfl
    rw [List.append_nil, hend, List.append_nil] at hlines
    rw [harrived, writeFrames_eq frames [] hsplit, List.nil_append, results, hlines, List.map_map]
    rfl
  refine ⟨(run_conveyed h).ahead.prefix_of_results hresults hended hfailed, fun hseen => ?_⟩
  obtain ⟨-, -, done, hdone, hmem, hdone'⟩ := (run_ending h).seen none hseen
  rw [hended hmem, List.append_nil] at hresults
  rw [hdone, outcome, ← hdone', hresults]
  exact List.append_nil _

theorem written_commands_taken_cancel : ∃ (tr : List (Obs Text)) (s : Connection Text),
    (machine (plainSetup []) cancelOrAllow).Run (fun _ _ _ => True) tr s ∧
    taken tr = [.ok .cancel, .ok (.approve "h".toList .allow)] := by
  obtain ⟨tr, s, hrun, harrived, hfailed, hseen⟩ := cancelThenAllow_run
  have hsplit : ∀ frame ∈ cancelThenAllow, frame.2.flatten = frame.1.json := by decide
  have hinverts : ∀ frame ∈ cancelThenAllow, cancelOrAllow frame.1.json = .ok frame.1 := by
    simp only [cancelThenAllow, List.forall_mem_cons, List.not_mem_nil, false_implies,
      implies_true, and_true]
    rw [cancelOrAllow, reading, reading, reading]
    exact ⟨if_pos rfl, (if_neg (by decide)).trans (if_pos rfl)⟩
  have hclosed := (written_commands_taken cancelThenAllow hsplit hinverts hrun
    ((List.append_nil _).trans harrived) (fun _ => rfl) hfailed).2
  exact ⟨tr, s, hrun, (hclosed hseen).trans (by decide)⟩

end Connection

end PeakcodeDaemon
