import PeakcodeDaemon.ConnectionProgress
import PeakcodeDaemon.IssuedHandles
import PeakcodeDaemon.RedactionFixpoints
import PeakcodeDaemon.Shutdown

/-!
# From one end to the other

What the daemon can rely on that only sees the two byte streams: what it
finds on the wire is redacted, whatever is permitted it has asked for, and
when it says `stop` the connection ends.

- **redacted** (`wire_clear`): a frame on the wire is an event that the
  writer redacted, and redacted texts are fixpoints; this is
  `redaction_fixpoints` carried through `Wired`.
- **asked for** (`permission_arrived`): a permission rests on a `resolve`
  that found its call, a `resolve` comes with a command that was taken
  (`Step.resolved`, `run_resolved`), and a command that was taken is a
  complete line of what arrived (`Says`, `says_of_mem_results`).
- **it ends** (`stop_ends`): the connection's own steps and its deadlines
  have only so much to do (`Step.internal_work`), and where none of them
  is left (`Settled`) it has returned, or it awaits a task that does not
  come to its end (`Settled.waits`, `Settled.ends`).

Each result puts invariants of both halves of the connection side by side
and has none of its own.
-/

namespace PeakcodeDaemon

@[simp] theorem WorkerEvent.callId?_mapTexts (f : Text → Text) (event : WorkerEvent) :
    (event.mapTexts f).callId? = event.callId? := by
  cases event <;> rfl

theorem RemoteApprover.resolved_mem {s : RemoteApprover} {callId handle tool : Text}
    {decided decision : IpcApprovalDecision}
    (hmem : .resolved handle decision tool ∈ (s.resolve callId decided).2) :
    callId = handle ∧ decided = decision := by
  unfold resolve at hmem
  split at hmem
  · simp at hmem
  · split at hmem
    · simp at hmem
    · split at hmem
      · obtain ⟨rfl, rfl, -⟩ := Obs.resolved.inj (List.mem_singleton.mp hmem)
        exact ⟨rfl, rfl⟩
      · simp at hmem

namespace Worker

variable {Message : Type} {setup : Setup Message} {s s' : Worker Message} {a : Action Message}
  {os : List (Obs Message)}

/-- Only a command resolves a request. -/
theorem Step.resolved (h : Step setup s a s' os) {handle tool : Text}
    {decision : IpcApprovalDecision} (hmem : .approver (.resolved handle decision tool) ∈ os) :
    a = .command (.approve handle decision) := by
  cases h with
  | @approve callId decided hpc =>
      obtain ⟨o, ho, heq⟩ := List.mem_map.mp hmem
      rw [Obs.approver.inj heq] at ho
      obtain ⟨rfl, rfl⟩ := RemoteApprover.resolved_mem ho
      rfl
  | @call action approver os hallows hcalled =>
      obtain ⟨o, ho, heq⟩ := List.mem_map.mp hmem
      rw [Obs.approver.inj heq] at ho
      cases RemoteApprover.step_cases hcalled with
      | resolve hpending hcall halive => exact hallows.elim
      | move hcall hmoves => cases hmoves <;> simp at ho
      | @dropGuard c call handle outcome hcall hstage => cases outcome <;> simp at ho
      | _ => simp at ho
  | holdEvent hpc hactive hpending hevents ha => simp [Worker.holdEvent] at hmem
  | _ => simp [Worker.startTurn, Worker.enqueue] at hmem

/-- A deadline takes from the work as well. -/
theorem step_deadline_work (h : step setup s a = some (s', os))
    (ha : a = .cancelDeadline ∨ a = .terminalGiveUp ∨ a = .closeDeadline) :
    s'.work < s.work := by
  cases step_cases h with
  | cancelDeadline hpc =>
      have hkept := keepOrdinary_length s.pendingEvent
      simp [work, Worker.cancelled, release, sendOrdered, turnWork, hpc, Pc.work]
      omega
  | terminalGiveUp hpc =>
      have hwork := breakLoop_work s
      rw [hpc] at hwork
      simp only [Pc.work] at hwork
      exact Nat.lt_of_add_lt_add_right (Nat.lt_of_le_of_lt (Nat.le_of_eq (hwork _)) (by omega))
  | closeDeadline hpc =>
      simp [work, turnWork, hpc, Pc.work, WriterTask.work]
      omega
  | holdEvent hpc hactive hpending hevents hown =>
      rcases ha with rfl | rfl | rfl <;> rcases hown with hown | hown <;> cases hown
  | _ => rcases ha with ha | ha | ha <;> cases ha

/-- With `stop` the coordinator leaves its loop for good. -/
theorem step_stop (h : step setup s (.command .stop) = some (s', os)) : s'.pc.leaves = true := by
  cases step_cases h with
  | stop hpc hactive => rfl
  | stopInactive hpc hactive => rfl
  | holdEvent hpc hactive hpending hevents hown => rcases hown with hown | hown <;> cases hown

end Worker

namespace Connection

variable {Message : Type} {setup : Setup Message} {fromSlice : Bytes → Except Text DaemonCommand}
  {tr os : List (Obs Message)} {s s' : Connection Message} {a : Action Message}

/-! ## What is on the wire -/

/-- Whatever the peer reads is redacted. In marker mode, with secrets free of
brackets, each text of a frame that `read_frame` finds on the wire has nothing
to redact, and redacting the frame once more changes nothing; its call id, if
it has one, is a handle the worker drew. -/
theorem wire_clear {C : List (Obs Message) → Connection Message → Action Message → Prop}
    (h : (machine setup fromSlice).Run C tr s) (hbracketless : setup.redactor.Bracketless)
    {parse : Bytes → Except Text WorkerEvent}
    (hinverts : ∀ frame ∈ s.worker.frames, parse frame.json = .ok frame) {reader : Chunks UInt8}
    (hreader : reader.all = s.wire) (n : Nat) : ∀ frame, .ok frame ∈ commandReader parse n reader →
      (∀ text ∈ frame.texts, setup.redactor.Clear text) ∧
      setup.redactor.redactEvent frame = some frame ∧
      ∀ handle, frame.callId? = some handle → handle ∈ Worker.drawn (observed tr) := by
  intro frame hmem
  obtain ⟨piece, -, -, hreads⟩ := (run_wired h).reads hinverts
  rw [hreads reader hreader n] at hmem
  have hwritten : frame ∈ s.worker.frames := by
    rcases List.mem_append.mp (List.mem_of_mem_take hmem) with hok | herror
    · obtain ⟨frame', hframe, heq⟩ := List.mem_map.mp hok
      rwa [← Except.ok.inj heq]
    · split at herror
      · cases herror
      · cases List.mem_singleton.mp herror
  obtain ⟨event, hevent, rfl⟩ :=
    List.mem_map.mp ((Worker.run_piped (run_observed h)).frames.subset hwritten)
  have hclear : ∀ text ∈ (event.mapTexts setup.redactor.clean).texts,
      setup.redactor.Clear text := by
    intro text htext
    rw [WorkerEvent.texts_mapTexts] at htext
    obtain ⟨before, -, rfl⟩ := List.mem_map.mp htext
    exact hbracketless.clear before
  refine ⟨hclear, ?_, fun handle hid => ?_⟩
  · rw [Redactor.redactEvent_eq, WorkerEvent.mapTexts_eq_self fun text htext =>
      (hclear text htext).clean_eq hbracketless.replacement]
  · rw [WorkerEvent.callId?_mapTexts] at hid
    exact (Worker.run_issued (run_observed h)).sent event hevent handle hid

/-- A worker that holds the secret `secret1`. -/
def secretSetup : Setup Text :=
  { plainSetup [] with redactor := .fromNamedValues "secret1".toList [] }

/-- The provider gives the secret away; the daemon reads the marker. -/
theorem wire_clear_secret : ∃ (tr : List (Obs Text)) (s : Connection Text),
    (machine secretSetup (reading [.input "hi".toList])).Run (fun _ _ _ => True) tr s ∧
    .emitted 0 (.textDelta "my secret1".toList) ∈ observed tr ∧
    s.worker.frames = [.textDelta "my [REDACTED]".toList] ∧
    ∀ reader : Chunks UInt8, reader.all = s.wire → ∀ frame,
      .ok frame ∈ commandReader (fun _ => .ok (.textDelta "my [REDACTED]".toList)) 2 reader →
        secretSetup.redactor.redactEvent frame = some frame := by
  have hrun : (machine secretSetup (reading [.input "hi".toList])).Run (fun _ _ _ => True) _ _ :=
    Machine.Run.exec (fun _ _ _ => true) (fun _ _ _ _ => trivial)
      [.fill (DaemonCommand.json (.input "hi".toList) ++ [PeakcodeDaemon.lineFeed]), .round,
        .sendCommand, .receive, .worker .startTurn,
        .worker (.emit 0 (.textDelta "my secret1".toList)), .worker (.takeEvent []),
        .worker .reserve, .worker .writerRecv, .write 44, .worker .writerWrite]
      .start rfl
  obtain ⟨tr, s, hemitted, hframes, hrun⟩ : ∃ (tr : List (Obs Text)) (s : Connection Text),
      (observed tr)[1]? = some (.emitted 0 (.textDelta "my secret1".toList)) ∧
      s.worker.frames = [.textDelta "my [REDACTED]".toList] ∧
      (machine secretSetup (reading [.input "hi".toList])).Run (fun _ _ _ => True) tr s :=
    ⟨_, _, rfl, rfl, hrun⟩
  have hbracketless : secretSetup.redactor.Bracketless := by
    unfold Redactor.Bracketless
    decide
  refine ⟨tr, s, hrun, List.mem_of_getElem? hemitted, hframes, fun reader hreader frame hmem => ?_⟩
  refine (wire_clear hrun hbracketless (fun frame' hmem' => ?_) hreader 2 frame hmem).2.1
  rw [hframes] at hmem'
  rw [List.mem_singleton.mp hmem']

/-! ## What is permitted -/

/-- A complete line of the stream is the command: it starts where the stream
does or behind a line feed, and the next line feed ends it. -/
def Says (fromSlice : Bytes → Except Text DaemonCommand) (stream : Bytes)
    (command : DaemonCommand) : Prop :=
  ∃ before line after, stream = before ++ line ++ lineFeed :: after ∧
    (before = [] ∨ [lineFeed] <:+ before) ∧ lineFeed ∉ line ∧
    line.length ≤ maxIpcFrameBytes ∧ fromSlice line = .ok command

/-- What comes out of a stream stands in it. -/
theorem says_of_mem_results {command : DaemonCommand} : ∀ {stream : Bytes},
    .ok command ∈ results fromSlice stream → Says fromSlice stream command := by
  intro stream hmem
  induction hn : stream.length using Nat.strong_induction_on generalizing stream with
  | h n ih =>
      rw [results] at hmem
      cases hnext : nextLine stream with
      | error fault =>
          rw [decode_fault fromSlice hnext] at hmem
          cases fault <;> simp [Except.mapError] at hmem
      | ok next =>
          cases next with
          | none =>
              rw [decode_end fromSlice hnext] at hmem
              cases hmem
          | some pair =>
              obtain ⟨line, rest⟩ := pair
              obtain ⟨hstream, hopen, hfits⟩ := nextLine_eq_some hnext
              cases hparse : fromSlice line with
              | error error =>
                  rw [decode_reject fromSlice hnext hparse] at hmem
                  simp [Except.mapError] at hmem
              | ok first =>
                  rw [decode_frame fromSlice hnext hparse, List.map_cons] at hmem
                  rcases List.mem_cons.mp hmem with hfirst | hmem
                  · obtain rfl := Except.ok.inj hfirst
                    exact ⟨[], line, rest, hstream, Or.inl rfl, hopen, hfits, hparse⟩
                  · have hshorter := nextLine_length hnext
                    obtain ⟨before, line', after, hrest, hbefore, hline⟩ :=
                      ih rest.length (by omega) hmem rfl
                    refine ⟨line ++ lineFeed :: before, line', after, ?_, Or.inr ?_, hline⟩
                    · rw [hstream, hrest]
                      simp
                    · rcases hbefore with rfl | hsuffix
                      · exact List.suffix_append _ _
                      · exact (hsuffix.trans (List.suffix_cons _ _)).trans (List.suffix_append _ _)

/-- What is delivered has arrived. -/
theorem Ahead.ok_mem {out : List (Except Text DaemonCommand)} (h : Ahead fromSlice tr out)
    {command : DaemonCommand} (hmem : .ok command ∈ out) :
    .ok command ∈ results fromSlice (arrived tr) := by
  rcases h with ⟨done, error, hout, hconcludes⟩ | ⟨-, hout⟩
  · have hdone : .ok command ∈ (done.map .ok : List (Except Text DaemonCommand)) := by
      rcases List.mem_append.mp (hout.subset hmem) with hdone | herror
      · exact hdone
      · cases error <;> simp at herror
    cases error with
    | none =>
        obtain ⟨-, hresults⟩ := hconcludes
        rwa [hresults]
    | some error =>
        rcases hconcludes with hresults | ⟨-, hresults⟩ | ⟨-, payload, -, hfollows⟩
        · have hnow := hresults []
          rw [List.append_nil] at hnow
          rw [hnow]
          exact List.mem_append_left _ hdone
        · rw [hresults]
          exact List.mem_append_left _ hdone
        · rw [hfollows.ended]
          exact List.mem_append_left _ hdone
  · have hnow := hout []
    rw [List.append_nil] at hnow
    exact hnow.subset hmem

theorem run_resolved {C : List (Obs Message) → Connection Message → Action Message → Prop}
    (h : (machine setup fromSlice).Run C tr s) : ∀ handle decision tool,
      .approver (.resolved handle decision tool) ∈ observed tr →
        .ok (.approve handle decision) ∈ taken tr := by
  refine h.invariant (I := fun tr _ => ∀ handle decision tool,
      .approver (.resolved handle decision tool) ∈ observed tr →
        .ok (.approve handle decision) ∈ taken tr) (fun _ _ _ hmem => by cases hmem) ?_
  intro tr os s s' a _ hinv _ hstep handle decision tool hmem
  rw [observed_append] at hmem
  rw [taken_append]
  rcases List.mem_append.mp hmem with hpast | hnow
  · exact List.mem_append_left _ (hinv handle decision tool hpast)
  · rcases (step_cases hstep).worker_step with ⟨-, -, hos⟩ | ⟨b, os', -, hs, rfl⟩
    · rw [observed, hos] at hnow
      cases hnow
    · rw [observed_shown] at hnow
      obtain rfl := (Worker.step_cases hs).resolved hnow
      refine List.mem_append_right _ ?_
      rw [taken_shown]
      exact List.mem_singleton_self _

/-- Nothing is permitted that the daemon has not asked for on the socket. When
a call of `approve` comes back with a permission, a complete line has arrived
that is a decision: an allow for the handle under which this very call has
registered, or an allow for the session that was given to a request of the
same, registered tool. -/
theorem permission_arrived {C : List (Obs Message) → Connection Message → Action Message → Prop}
    (h : (machine setup fromSlice).Run C tr s) {c : Nat} {tool : Text}
    {decision : ApprovalDecision} (hreturned : .approver (.returned c tool decision) ∈ observed tr)
    (hne : decision ≠ .deny) :
    ∃ handle granted, Says fromSlice (arrived tr) (.approve handle granted) ∧
      ((granted = .allow ∨ granted = .allowAll) ∧
          .approver (.registered c handle) ∈ observed tr ∨
        granted = .allowAll ∧ tool ∈ setup.registeredTools ∧
          .approver (.resolved handle .allowAll tool) ∈ observed tr) := by
  have hjustified := (RemoteApprover.run_sound (Worker.run_approver (run_observed h))).2
  have hsays : ∀ {handle : Text} {granted : IpcApprovalDecision} {tool : Text},
      .approver (.resolved handle granted tool) ∈ observed tr →
        Says fromSlice (arrived tr) (.approve handle granted) := by
    intro handle granted tool hmem
    have htaken := run_resolved h _ _ _ hmem
    exact says_of_mem_results ((run_conveyed h).ahead.ok_mem (List.mem_append_left _ htaken))
  obtain ⟨past, rest, htrace⟩ := List.append_of_mem (Worker.mem_approverTrace.mpr hreturned)
  have hpast : ∀ {o : RemoteApprover.Obs}, o ∈ past → .approver o ∈ observed tr := by
    intro o ho
    refine Worker.mem_approverTrace.mp ?_
    rw [htrace]
    exact List.mem_append_left _ ho
  rcases hjustified past _ rest htrace hne with ⟨htool, handle, hmem⟩ | ⟨handle, hgranted⟩
  · exact ⟨handle, .allowAll, hsays (hpast hmem), Or.inr ⟨rfl, htool, hpast hmem⟩⟩
  · have hregistered := hpast hgranted.registered_mem
    obtain ⟨before, mid, after, granted, heq, -, hallow⟩ := hgranted
    have hmem : .resolved handle granted tool ∈ past := by
      rw [heq]
      simp
    exact ⟨handle, granted, hsays (hpast hmem), Or.inl ⟨hallow, hregistered⟩⟩

/-- The daemon allows the one call, and the line that did is found. -/
theorem permission_arrived_allow : ∃ (tr : List (Obs Text)) (s : Connection Text),
    (machine (plainSetup ["bash".toList])
      (reading [.input "run".toList, .approve "h".toList .allow])).Run (fun _ _ _ => True) tr s ∧
    .approver (.returned 0 "bash".toList .allow) ∈ observed tr ∧
    ∃ handle granted, Says (reading [.input "run".toList, .approve "h".toList .allow])
      (arrived tr) (.approve handle granted) := by
  have hrun : (machine (plainSetup ["bash".toList])
      (reading [.input "run".toList, .approve "h".toList .allow])).Run (fun _ _ _ => True) _ _ :=
    Machine.Run.exec (fun _ _ _ => true) (fun _ _ _ _ => trivial)
      [.fill (DaemonCommand.json (.input "run".toList) ++ [PeakcodeDaemon.lineFeed]), .round,
        .sendCommand, .receive, .worker .startTurn,
        .worker (.call (.request 0 "p".toList "bash".toList .null)), .worker (.call (.check 0)),
        .worker (.call (.name 0 "h".toList)), .worker (.call (.register 0)),
        .worker (.call (.notify 0)),
        .fill (DaemonCommand.json (.approve "h".toList .allow) ++ [PeakcodeDaemon.lineFeed]),
        .round, .sendCommand, .receive, .worker (.call (.receive 0)),
        .worker (.call (.dropGuard 0))]
      .start rfl
  obtain ⟨tr, s, hobserved, hrun⟩ : ∃ (tr : List (Obs Text)) (s : Connection Text),
      observed tr = [.started 0 "run".toList ["run".toList], .approver (.named 0 "h".toList),
        .asked 0 ⟨"h".toList, "bash".toList, "null".toList⟩,
        .approver (.registered 0 "h".toList), .approver (.resolved "h".toList .allow "bash".toList),
        .approver (.returned 0 "bash".toList .allow)] ∧
      (machine (plainSetup ["bash".toList])
        (reading [.input "run".toList, .approve "h".toList .allow])).Run (fun _ _ _ => True) tr s :=
    ⟨_, _, rfl, hrun⟩
  have hreturned : .approver (.returned 0 "bash".toList .allow) ∈ observed tr := by
    rw [hobserved]
    simp
  obtain ⟨handle, granted, hsays, -⟩ := permission_arrived hrun hreturned (by decide)
  exact ⟨tr, s, hrun, hreturned, handle, granted, hsays⟩

/-! ## When it ends -/

/-- The connection takes the step by itself, or a deadline of its own brings
it about. -/
def Action.internal : Action Message → Bool
  | .worker .cancelDeadline => true
  | a => a.own || a.expires

/-- There is nothing left that goes on without the peer or an agent. -/
def Settled (setup : Setup Message) (fromSlice : Bytes → Except Text DaemonCommand)
    (s : Connection Message) : Prop :=
  ∀ a : Action Message, a.internal = true → step setup fromSlice s a = none

theorem Action.internal_of_own (ha : a.own = true) : a.internal = true := by
  unfold internal
  split
  · rfl
  · rw [ha]
    rfl

theorem Action.internal_of_expires (ha : a.expires = true) : a.internal = true := by
  unfold internal
  split
  · rfl
  · rw [ha, Bool.or_true]

theorem Settled.atRest (h : Settled setup fromSlice s) : AtRest setup fromSlice s :=
  fun a ha => h a (Action.internal_of_own (silent_own ha))

theorem Action.internal_cases (ha : a.internal = true) : a.own = true ∨ a = .joinDeadline ∨
    ∃ b : Worker.Action Message, a = .worker b ∧
      (b = .cancelDeadline ∨ b = .terminalGiveUp ∨ b = .closeDeadline) := by
  cases a with
  | worker b =>
      cases b with
      | cancelDeadline => exact Or.inr (Or.inr ⟨_, rfl, Or.inl rfl⟩)
      | terminalGiveUp => exact Or.inr (Or.inr ⟨_, rfl, Or.inr (Or.inl rfl)⟩)
      | closeDeadline => exact Or.inr (Or.inr ⟨_, rfl, Or.inr (Or.inr rfl)⟩)
      | stopDone | abortDone => exact Or.inl rfl
      | _ => exact Or.inl (by simpa [internal, expires] using ha)
  | joinDeadline => exact Or.inr (Or.inl rfl)
  | _ => exact Or.inl (by simpa [internal, expires] using ha)

theorem Step.internal_work (h : Step setup fromSlice s a s' os) (ha : a.internal = true)
    (hunborn : ∀ c, s.worker.approver.nextToken ≤ c → s.worker.approver.calls c = none) :
    s'.work < s.work := by
  rcases Action.internal_cases ha with hown | rfl | ⟨b, rfl, hb⟩
  · exact h.work hown hunborn
  · cases h with
    | joinDeadline hpc hjoined =>
        simp only [Connection.work, hjoined]
        simp
  · have hless : ∀ {worker os}, Worker.step setup s.worker b = some (worker, os) →
        worker.work < s.worker.work := fun hs => Worker.step_deadline_work hs hb
    cases h with
    | close hpc hjoined hwritten hs =>
        have := hless hs
        simp only [Connection.work]
        omega
    | lineFeed hwriter hfits hsent hs => rcases hb with hb | hb | hb <;> cases hb
    | worker hfree hs =>
        have := hless hs
        simp only [Connection.work]
        omega

/-- Once it has taken a `stop` the coordinator is on its way out. -/
theorem run_stopped {C : List (Obs Message) → Connection Message → Action Message → Prop}
    (h : (machine setup fromSlice).Run C tr s) :
    .ok .stop ∈ taken tr → s.worker.pc.leaves = true := by
  refine h.invariant (I := fun tr s => .ok .stop ∈ taken tr → s.worker.pc.leaves = true)
    (fun hmem => by cases hmem) ?_
  intro tr os s s' a _ hinv _ hstep hmem
  rw [taken_append] at hmem
  rcases (step_cases hstep).worker_step with ⟨-, hworker, hos⟩ | ⟨b, os', -, hs, rfl⟩
  · have hnone : taken os = [] := by rw [taken, hos]; rfl
    rw [hnone, List.append_nil] at hmem
    rw [hworker]
    exact hinv hmem
  · rw [taken_shown] at hmem
    rcases List.mem_append.mp hmem with hpast | hnow
    · exact (Worker.step_cases hs).leaves (hinv hpast)
    · cases b with
      | command command =>
          obtain rfl : DaemonCommand.stop = command := by simpa [command?] using hnow
          exact Worker.step_stop hs
      | _ => simp [command?] at hnow

theorem says_of_take_open {command : DaemonCommand} {payload : Bytes}
    (hopen : lineFeed ∉ payload) : .ok command ∉ results fromSlice payload := by
  intro hmem
  obtain ⟨before, line, after, rfl, -⟩ := says_of_mem_results hmem
  exact hopen (by simp)

/-- A coordinator that has settled in its loop waits for the socket. -/
theorem Settled.waits (h : Settled setup fromSlice s) (hpc : s.worker.pc = .running)
    (hconveyed : Conveyed fromSlice tr s) :
    Open tr ∧ ∀ command, .ok command ∈ results fromSlice (arrived tr) → .ok command ∈ taken tr := by
  obtain ⟨payload, hreader⟩ := h.atRest.reader hpc
  rw [Conveyed, hreader, (h.atRest.commands hpc).1, List.append_nil] at hconveyed
  obtain ⟨hopen, -, hclosed, done, hdone, hfollows⟩ := hconveyed
  rw [List.append_nil] at hfollows
  refine ⟨hopen, fun command hmem => ?_⟩
  rw [hfollows.ended] at hmem
  rw [hdone]
  exact (List.mem_append.mp hmem).resolve_right (says_of_take_open hclosed)

/-- Anywhere else it has returned, or awaits a task. -/
theorem Settled.ends (h : Settled setup fromSlice s) (hexits : Exits s)
    (hpc : s.worker.pc ≠ .running) : (∃ result, s.result = some result) ∨
      ∃ turn, s.worker.pc = .joining turn ∧ (s.worker.tasks turn).outcome = none := by
  have hleft : s.worker.pc.leaves = true → ∃ result, s.result = some result := by
    intro hleaves
    cases hresult : s.result with
    | some result => exact ⟨result, rfl⟩
    | none =>
        obtain ⟨a, hexpires, -, hsome⟩ : ∃ a : Action Message, a.expires = true ∧
            a.coordinates = true ∧ (step setup fromSlice s a).isSome = true :=
          exists_deadline hexits hleaves hresult
        rw [h a (Action.internal_of_expires hexpires)] at hsome
        cases hsome
  cases hat : s.worker.pc with
  | running => exact absurd hat hpc
  | cancelling turn =>
      have hnone := h (.worker .cancelDeadline) rfl
      simp [step, stepWorker, advance, Worker.step, hat] at hnone
  | joining turn =>
      have hnone := h (.worker .joinTurn) rfl
      refine Or.inr ⟨turn, rfl, ?_⟩
      simpa [step, stepWorker, advance, Worker.step, hat] using hnone
  | _ => exact Or.inl (hleft (by rw [hat]; rfl))

/-- When a `stop` has arrived, or the stream has ended or failed, the
connection ends: what it still does by itself and on its deadlines is bounded
by its work, and when none of it is left `run_connection` has returned.
The one thing that can keep it is an agent's task that has closed its events
and does not end. -/
theorem stop_ends {C : List (Obs Message) → Connection Message → Action Message → Prop}
    (h : (machine setup fromSlice).Run C tr s)
    (hends : .ok .stop ∈ results fromSlice (arrived tr) ∨ ¬Open tr) :
    (∃ as tr' s', (machine setup fromSlice).Takes s as tr' s' ∧ (∀ a ∈ as, a.internal = true) ∧
      Settled setup fromSlice s') ∧
    ∀ as tr' s', (machine setup fromSlice).Takes s as tr' s' → (∀ a ∈ as, a.internal = true) →
      as.length ≤ s.work ∧
      (Settled setup fromSlice s' → (∃ result, s'.result = some result) ∨
        ∃ turn, s'.worker.pc = .joining turn ∧ (s'.worker.tasks turn).outcome = none) := by
  obtain ⟨hsettles, hbound⟩ := Machine.settles (M := machine setup fromSlice) Action.internal work
    (P := fun now s => (machine setup fromSlice).Run (fun _ _ _ => True) now s ∧
      arrived now = arrived tr)
    (fun {now os s s' a} ⟨hrun, harrived⟩ ha hstep => by
      have hnow : arrived (now ++ os) = arrived now := (step_cases hstep).arrived fun _ hfill => by
        rw [hfill] at ha
        cases ha
      refine ⟨⟨.step hrun True.intro hstep, hnow.trans harrived⟩,
        (step_cases hstep).internal_work ha ?_⟩
      exact (RemoteApprover.run_sound (Worker.run_approver (run_observed hrun))).1.unborn)
    ⟨h.mono fun _ _ _ _ => True.intro, rfl⟩
  refine ⟨hsettles, fun as tr' s' htakes hinternal => ?_⟩
  obtain ⟨hlength, hrun', harrived⟩ := hbound as tr' s' htakes hinternal
  refine ⟨hlength, fun hsettled => hsettled.ends (run_exits hrun') fun hpc => ?_⟩
  obtain ⟨hopen, htaken⟩ := hsettled.waits hpc (run_conveyed hrun')
  rcases hends with hstop | hclosed
  · have hleaves := run_stopped hrun' (htaken .stop (by rwa [harrived]))
    rw [hpc] at hleaves
    cases hleaves
  · refine hclosed ⟨fun hmem => ?_, fun error hmem => ?_⟩
    · exact hopen.1 (List.mem_append_left _ hmem)
    · exact hopen.2 error (List.mem_append_left _ hmem)

/-- A `stop` has arrived. -/
theorem stop_ends_stop : ∃ (tr : List (Obs Text)) (s : Connection Text),
    (machine (plainSetup []) (reading [.stop])).Run (fun _ _ _ => True) tr s ∧
    arrived tr = DaemonCommand.json .stop ++ [PeakcodeDaemon.lineFeed] ∧
    ∃ as tr' s', (machine (plainSetup []) (reading [.stop])).Takes s as tr' s' ∧
      as.length ≤ s.work ∧ ((∃ result, s'.result = some result) ∨
        ∃ turn, s'.worker.pc = .joining turn ∧ (s'.worker.tasks turn).outcome = none) := by
  have hrun : (machine (plainSetup []) (reading [.stop])).Run (fun _ _ _ => True) _ _ :=
    Machine.Run.exec (fun _ _ _ => true) (fun _ _ _ _ => trivial)
      [.fill (DaemonCommand.json .stop ++ [PeakcodeDaemon.lineFeed])] .start rfl
  obtain ⟨tr, s, harrived, hrun⟩ : ∃ (tr : List (Obs Text)) (s : Connection Text),
      arrived tr = DaemonCommand.json .stop ++ [PeakcodeDaemon.lineFeed] ∧
      (machine (plainSetup []) (reading [.stop])).Run (fun _ _ _ => True) tr s := ⟨_, _, rfl, hrun⟩
  have hstop : .ok .stop ∈ results (reading [.stop]) (arrived tr) := by
    have hnext : nextLine (arrived tr) = .ok (some (DaemonCommand.json .stop, [])) := by
      rw [harrived]
      exact nextLine_line (by decide) (by decide)
    have hparse : reading [.stop] (DaemonCommand.json .stop) = .ok .stop := if_pos rfl
    rw [results, decode_frame (reading [.stop]) hnext hparse]
    exact List.mem_cons_self ..
  obtain ⟨⟨as, tr', s', htakes, hinternal, hsettled⟩, hevery⟩ := stop_ends hrun (Or.inl hstop)
  obtain ⟨hlength, hends⟩ := hevery as tr' s' htakes hinternal
  exact ⟨tr, s, hrun, harrived, as, tr', s', htakes, hlength, hends hsettled⟩

end Connection

end PeakcodeDaemon
