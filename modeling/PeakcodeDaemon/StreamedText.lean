import PeakcodeDaemon.RedactionSecrets
import PeakcodeDaemon.TerminalEvents

/-!
# The text of a turn, as it is streamed

Each text delta is redacted by itself, and the peer reads them one after
another. A secret shows in the streamed text just where the provider has
split it: what redaction leaves of the ends of some deltas spells it
across their seams.

- **across seams** (`shown_iff_split`): the redacted deltas, none of which
  shows the secret by itself, show it together exactly if it is `Split`:
  an end of one delta, all of those between and a start of a later one
  spell it. A secret without brackets has no piece of the marker in it, so
  what a delta contributes is as the provider sent it
  (`split_of_across`).
- **frames of a turn** (`Piped`, `run_piped`): the frames are what was put
  into the event channel as far as the writer got, one by one, so the
  deltas of a turn the peer reads are the first ones its agent emitted
  (`Piped.deltaFrames_eq`), each redacted.

The two meet in `streamed_shows_iff`, which says of every run what the
peer can put together. `split_key_streamed` is a key in two deltas.
-/

namespace PeakcodeDaemon

open Splice

namespace Redactor

/-- The secret is split: an end of one delta, the deltas that follow and a
start of another spell it, and redaction leaves them as they are. -/
def Split (R : Redactor) (secret : Text) (deltas : List Text) : Prop :=
  ∃ before first between last after x y,
    deltas = before ++ first :: (between ++ last :: after) ∧ x ≠ [] ∧ y ≠ [] ∧
    secret = x ++ between.flatten ++ y ∧ x <:+ first ∧ y <+: last ∧
    x <:+ R.clean first ∧ (∀ delta ∈ between, R.clean delta = delta) ∧ y <+: R.clean last

section

variable {providerApiKey : Text} {values : List (Text × Text)}

theorem map_clean_eq {R : Redactor} {deltas : List Text}
    (h : ∀ delta ∈ deltas, R.clean delta = delta) : deltas.map R.clean = deltas :=
  (List.map_congr_left h).trans (List.map_id' deltas)

theorem Split.across {R : Redactor} {secret : Text} {deltas : List Text}
    (h : R.Split secret deltas) : Across secret (deltas.map R.clean) := by
  obtain ⟨before, first, between, last, after, x, y, rfl, hx, hy, rfl, -, -, hfirst, hbetween,
    hlast⟩ := h
  refine ⟨before.map R.clean, R.clean first, between, R.clean last, after.map R.clean, x, y, ?_,
    hx, hy, rfl, hfirst, hlast⟩
  rw [List.map_append, List.map_cons, List.map_append, List.map_cons, map_clean_eq hbetween]

/-- What is spelled across the seams of the redacted deltas is spelled across
those of the deltas. -/
theorem split_of_across {R : Redactor} (hr : R.replacement = redactedMarker) {secret : Text}
    (hopen : '[' ∉ secret) (hclose : ']' ∉ secret) {deltas : List Text}
    (h : Across secret (deltas.map R.clean)) : R.Split secret deltas := by
  obtain ⟨before, first, between, last, after, x, y, heq, hx, hy, rfl, hfirst, hlast⟩ := h
  obtain ⟨before, rest, rfl, -, hrest⟩ := List.map_eq_append_iff.mp heq
  obtain ⟨first, rest, rfl, rfl, hmid⟩ := List.map_eq_cons_iff.mp hrest
  obtain ⟨between, rest, rfl, rfl, hend⟩ := List.map_eq_append_iff.mp hmid
  obtain ⟨last, after, rfl, rfl, -⟩ := List.map_eq_cons_iff.mp hend
  have hmarker : redactedMarker = '[' :: "REDACTED]".toList := rfl
  have hmarker' : redactedMarker = "[REDACTED".toList ++ [']'] := rfl
  have hwhole : ∀ delta ∈ between, R.clean delta = delta := by
    intro delta hmem
    have hchain := R.clean_chain delta
    rw [hr, hmarker] at hchain
    refine hchain.eq_of_not_mem fun hin => hopen ?_
    have hflat : '[' ∈ (between.map R.clean).flatten :=
      List.mem_flatten.mpr ⟨_, List.mem_map_of_mem hmem, hin⟩
    simp [hflat]
  rw [map_clean_eq hwhole] at hopen hclose
  refine ⟨before, first, between, last, after, x, y, rfl, hx, hy, ?_, ?_, ?_, hfirst, hwhole, hlast⟩
  · rw [map_clean_eq hwhole]
  · have hchain := R.clean_chain first
    rw [hr, hmarker'] at hchain
    exact hchain.suffix_kept hfirst fun hin => hclose (by simp [hin])
  · have hchain := R.clean_chain last
    rw [hr, hmarker] at hchain
    exact hchain.prefix_kept hlast fun hin => hopen (by simp [hin])

/-- The redacted deltas show a secret together just if it is split. -/
theorem shown_iff_split
    (h : ∀ s, Configured providerApiKey values s →
      ¬s <:+: redactedMarker ∧ '[' ∉ s ∧ ']' ∉ s)
    {secret : Text} (hsecret : Configured providerApiKey values secret) (deltas : List Text) :
    secret <:+: (deltas.map (fromNamedValues providerApiKey values).clean).flatten ↔
      (fromNamedValues providerApiKey values).Split secret deltas := by
  constructor
  · intro hin
    rcases infix_flatten hin hsecret.1 with ⟨text, hmem, hin⟩ | hacross
    · obtain ⟨delta, -, rfl⟩ := List.mem_map.mp hmem
      exact absurd hin (clean_hidden h hsecret delta)
    · obtain ⟨-, hopen, hclose⟩ := h secret hsecret
      exact split_of_across (replacement_marker fun s hs => (h s hs).1) hopen hclose hacross
  · exact fun hsplit => hsplit.across.infix_flatten

end

end Redactor

def WorkerEvent.delta? : WorkerEvent → Option Text
  | .textDelta text => some text
  | _ => none

def AgentEvent.delta? : AgentEvent → Option Text
  | .textDelta text => some text
  | _ => none

@[simp] theorem WorkerEvent.delta?_mapTexts (f : Text → Text) (event : WorkerEvent) :
    (event.mapTexts f).delta? = event.delta?.map f := by
  cases event <;> rfl

/-- An item is sent as a delta just if it is one, with the text it has. -/
theorem Item.Renders.delta? {item : Item} {event : WorkerEvent} (h : item.Renders event) :
    event.delta? = item.core?.bind AgentEvent.delta? := by
  cases item with
  | core event =>
      obtain ⟨callIds, handle, rfl⟩ := h
      cases event <;> rfl
  | approval notice =>
      obtain rfl := h
      rfl

namespace Worker

open Redactor (Configured mem_secrets)

variable {Message : Type} {setup : Setup Message} {tr os : List (Obs Message)}
  {s s' : Worker Message} {a : Action Message}

/-! ## What the peer reads of a turn -/

/-- The text deltas a turn's agent emitted. -/
def deltas (turn : Nat) (tr : List (Obs Message)) : List Text :=
  (emitted turn tr).filterMap AgentEvent.delta?

/-- What was put into the event channel, with its turn if it has one. -/
def turnEvent? : Obs Message → Option (Option Nat × WorkerEvent)
  | .enqueued held => some (some held.turn, held.event)
  | .terminal event => some (none, event)
  | _ => none

def turnEvents (tr : List (Obs Message)) : List (Option Nat × WorkerEvent) :=
  tr.filterMap turnEvent?

/-- The text of a delta of the turn. -/
def turnDelta? (turn : Nat) (event : Option Nat × WorkerEvent) : Option Text :=
  if event.1 = some turn then event.2.delta? else none

/-- The texts of the turn's `text_delta` frames. The writer takes the events
in order, so a frame is of the turn its event is of. -/
def deltaFrames (turn : Nat) (tr : List (Obs Message)) (s : Worker Message) : List Text :=
  ((turnEvents tr).zip s.frames).filterMap fun (event, frame) => turnDelta? turn (event.1, frame)

/-- The text the peer has read of the turn. -/
def streamed (turn : Nat) (tr : List (Obs Message)) (s : Worker Message) : Text :=
  (deltaFrames turn tr s).flatten

theorem map_turnEvents (tr : List (Obs Message)) : (turnEvents tr).map Prod.snd = events tr := by
  rw [turnEvents, events, List.map_filterMap]
  refine List.filterMap_congr fun o _ => ?_
  cases o <;> rfl

/-- The frames are what was put into the channel, as far as the writer got. -/
structure Piped (setup : Setup Message) (tr : List (Obs Message)) (s : Worker Message) : Prop where
  flow : s.writer.receives = true →
    s.frames ++ s.writer.taken ++ s.outbound.map (WorkerEvent.mapTexts setup.redactor.clean) =
      (events tr).map (WorkerEvent.mapTexts setup.redactor.clean)
  frames : s.frames <+: (events tr).map (WorkerEvent.mapTexts setup.redactor.clean)

theorem Piped.start (setup : Setup Message) : Piped setup [] (new setup) :=
  ⟨fun _ => rfl, List.prefix_rfl⟩

/-- As long as the writer runs, what it has yet to write goes behind its frames. -/
theorem Piped.of_flow
    (h : s.frames ++ s.writer.taken ++ s.outbound.map (WorkerEvent.mapTexts setup.redactor.clean) =
      (events tr).map (WorkerEvent.mapTexts setup.redactor.clean)) : Piped setup tr s where
  flow := fun _ => h
  frames := by
    rw [← h, List.append_assoc]
    exact List.prefix_append ..

/-- Nothing is put into the channel or written. -/
theorem Piped.frame (h : Piped setup tr s) (hos : events os = []) (hframes : s'.frames = s.frames)
    (hwriter : s'.writer = s.writer ∨ s'.writer.receives = false)
    (houtbound : s'.outbound = s.outbound) : Piped setup (tr ++ os) s' where
  flow := by
    intro hreceives
    rcases hwriter with hwriter | hwriter
    · rw [hwriter] at hreceives
      rw [events_append, hos, List.append_nil, hframes, hwriter, houtbound]
      exact h.flow hreceives
    · cases hwriter.symm.trans hreceives
  frames := by
    rw [events_append, hos, List.append_nil, hframes]
    exact h.frames

theorem Piped.send (h : Piped setup tr s) {event : WorkerEvent} (hos : events os = [event])
    (hsends : s.sends = true) (hframes : s'.frames = s.frames) (hwriter : s'.writer = s.writer)
    (houtbound : s'.outbound = s.outbound ++ [event]) : Piped setup (tr ++ os) s' := by
  have hflow := h.flow (Bool.and_eq_true_iff.mp hsends).1
  refine .of_flow ?_
  rw [events_append, hos, hframes, hwriter, houtbound, List.map_append, List.map_append,
    ← List.append_assoc, hflow]

theorem Piped.step (h : Piped setup tr s) (hstep : Step setup s a s' os) :
    Piped setup (tr ++ os) s' := by
  cases hstep with
  | enqueue hpc hpending hsends => exact h.send rfl hsends rfl rfl rfl
  | terminalHeld hpc hpending hsends => exact h.send rfl hsends rfl rfl rfl
  | terminalEvent hpc hpending hsends => exact h.send rfl hsends rfl rfl rfl
  | writerRecv hwriter houtbound =>
      have hflow := h.flow (by rw [hwriter]; rfl)
      rw [hwriter, houtbound] at hflow
      refine .of_flow ?_
      rw [List.append_nil]
      simpa [WriterTask.taken] using hflow
  | writerWrite hwriter hfits =>
      have hflow := h.flow (by rw [hwriter]; rfl)
      rw [hwriter] at hflow
      refine .of_flow ?_
      rw [List.append_nil]
      simpa [WriterTask.taken] using hflow
  | writerReject hwriter hfits => exact h.frame rfl rfl (Or.inr rfl) rfl
  | writerFail hwriter => exact h.frame rfl rfl (Or.inr rfl) rfl
  | writerEnd hpc hwriter houtbound => exact h.frame rfl rfl (Or.inr rfl) rfl
  | closeDeadline hpc => exact h.frame rfl rfl (Or.inr rfl) rfl
  | joinTurn hpc houtcome =>
      obtain ⟨hframes, hwriter, houtbound⟩ := join_writer s _
      exact h.frame rfl hframes (Or.inl hwriter) houtbound
  | approve hpc => exact h.frame (events_map_approver _) rfl (Or.inl rfl) rfl
  | call hallows hcalled => exact h.frame (events_map_approver _) rfl (Or.inl rfl) rfl
  | holdEvent hpc hactive hpending hevents ha =>
      exact h.frame (events_map_drew _) rfl (Or.inl rfl) rfl
  | _ => exact h.frame rfl rfl (Or.inl rfl) rfl

theorem run_piped {C : List (Obs Message) → Worker Message → Action Message → Prop}
    (h : (machine setup).Run C tr s) : Piped setup tr s := by
  refine h.invariant (Piped.start setup) ?_
  intro tr os s s' a _ hinv _ hstep
  exact hinv.step (step_cases hstep)

/-- The deltas of the turn that went into the channel are the first it emitted. -/
theorem Conserved.first_deltas (h : Conserved tr s) (turn : Nat) :
    (turnEvents tr).filterMap (turnDelta? turn) <+: deltas turn tr := by
  have hsent : (turnEvents tr).filterMap (turnDelta? turn) =
      (cores (sent turn tr)).filterMap AgentEvent.delta? := by
    rw [turnEvents, cores, sent, List.filterMap_filterMap, List.filterMap_filterMap,
      List.filterMap_filterMap]
    refine List.filterMap_congr fun o _ => ?_
    cases o with
    | enqueued held =>
        by_cases hturn : held.turn = turn
        · simp [turnEvent?, turnDelta?, sentItem?, Held.itemOf, hturn, held.renders.delta?]
        · simp [turnEvent?, turnDelta?, sentItem?, Held.itemOf, hturn]
    | _ => rfl
  rw [hsent, deltas, h turn, List.append_assoc, List.filterMap_append]
  exact List.prefix_append ..

theorem zip_map_take {α β : Type*} (f : α → β) : ∀ (l : List α) (n : Nat),
    l.zip ((l.take n).map f) = (l.take n).map fun x => (x, f x)
  | [], n => by simp
  | x :: l, 0 => by simp
  | x :: l, n + 1 => by
      rw [List.take_succ_cons, List.map_cons, List.map_cons, List.zip_cons_cons, zip_map_take f l n]

/-- Frame by frame, the peer reads the first deltas of the turn, redacted. -/
theorem Piped.deltaFrames_eq (h : Piped setup tr s) (turn : Nat) :
    ∃ sent, sent <+: (turnEvents tr).filterMap (turnDelta? turn) ∧
      deltaFrames turn tr s = sent.map setup.redactor.clean := by
  obtain ⟨n, hn⟩ : ∃ n, s.frames =
      ((turnEvents tr).take n).map fun event => event.2.mapTexts setup.redactor.clean := by
    refine ⟨s.frames.length, ?_⟩
    have hframes := List.prefix_iff_eq_take.mp h.frames
    rw [← map_turnEvents, List.map_map, ← List.map_take] at hframes
    exact hframes
  refine ⟨((turnEvents tr).take n).filterMap (turnDelta? turn),
    (List.take_prefix n _).filterMap _, ?_⟩
  rw [deltaFrames, hn, zip_map_take, List.filterMap_map, List.map_filterMap]
  refine List.filterMap_congr fun event _ => ?_
  by_cases hturn : event.1 = some turn
  · simp [turnDelta?, hturn]
  · simp [turnDelta?, hturn]

/-- In marker mode, with secrets free of brackets, the streamed text of a turn
shows a secret just if the provider has split it over the deltas that were
sent, and redaction leaves the parts. -/
theorem streamed_shows_iff {providerApiKey : Text} {values : List (Text × Text)}
    (hsecrets : ∀ secret, Configured providerApiKey values secret →
      ¬secret <:+: redactedMarker ∧ '[' ∉ secret ∧ ']' ∉ secret)
    (hredactor : setup.redactor = .fromNamedValues providerApiKey values)
    {C : List (Obs Message) → Worker Message → Action Message → Prop}
    (h : (machine setup).Run C tr s) (turn : Nat) :
    ∃ sent, sent <+: deltas turn tr ∧ deltaFrames turn tr s = sent.map setup.redactor.clean ∧
      ∀ secret, Configured providerApiKey values secret →
        (secret <:+: streamed turn tr s ↔ setup.redactor.Split secret sent) := by
  obtain ⟨sent, hsent, hframes⟩ := (run_piped h).deltaFrames_eq turn
  refine ⟨sent, hsent.trans ((run_conserved h).first_deltas turn), hframes,
    fun secret hsecret => ?_⟩
  rw [streamed, hframes, hredactor]
  exact Redactor.shown_iff_split hsecrets hsecret sent

/-- A setup that hides a key. -/
def keyedSetup : Setup Text := ⟨id, [], [], .fromNamedValues "hunter22".toList []⟩

theorem keyed_secrets : ∀ secret, Configured "hunter22".toList [] secret →
    ¬secret <:+: redactedMarker ∧ '[' ∉ secret ∧ ']' ∉ secret := by
  have hall : ∀ secret ∈ (Redactor.fromNamedValues "hunter22".toList []).secrets,
      ¬secret <:+: redactedMarker ∧ '[' ∉ secret ∧ ']' ∉ secret := by decide
  exact fun secret hsecret => hall secret (mem_secrets.mpr hsecret)

/-- A turn that emits the key in two deltas. -/
def splitTrace : List (Obs Text) :=
  [.started 0 "go".toList ["go".toList], .emitted 0 (.textDelta "hunt".toList),
    .emitted 0 (.textDelta "er22".toList),
    .enqueued ⟨0, .core (.textDelta "hunt".toList), .textDelta "hunt".toList, .empty, [], rfl⟩,
    .enqueued ⟨0, .core (.textDelta "er22".toList), .textDelta "er22".toList, .empty, [], rfl⟩]

theorem splitTrace_run : ∃ s, (machine keyedSetup).Run (fun _ _ _ => True) splitTrace s ∧
    streamed 0 splitTrace s = "hunter22".toList := by
  have hrun := Machine.Run.exec (fun _ _ _ => true) (fun _ _ _ _ => trivial)
    [.command (.input "go".toList), .startTurn, .emit 0 (.textDelta "hunt".toList),
      .emit 0 (.textDelta "er22".toList), .takeEvent [], .reserve, .takeEvent [], .reserve,
      .writerRecv, .writerWrite, .writerRecv, .writerWrite]
    (.start : (machine keyedSetup).Run (fun _ _ _ => True) _ _) rfl
  exact ⟨_, hrun, rfl⟩

/-- The two deltas spell the key, and the peer reads it. -/
theorem streamed_shows_iff_key : ∃ s, (machine keyedSetup).Run (fun _ _ _ => True) splitTrace s ∧
    ∃ sent, sent <+: deltas 0 splitTrace ∧
      deltaFrames 0 splitTrace s = sent.map keyedSetup.redactor.clean ∧
      ∀ secret, Configured "hunter22".toList [] secret →
        (secret <:+: streamed 0 splitTrace s ↔ keyedSetup.redactor.Split secret sent) := by
  obtain ⟨s, hrun, -⟩ := splitTrace_run
  exact ⟨s, hrun, streamed_shows_iff keyed_secrets rfl hrun 0⟩

/-- Split over two deltas, the key is streamed whole. -/
theorem split_key_streamed : ¬∀ (providerApiKey : Text) (values : List (Text × Text))
    (setup : Setup Text), (∀ secret, Configured providerApiKey values secret →
      ¬secret <:+: redactedMarker ∧ '[' ∉ secret ∧ ']' ∉ secret) →
    setup.redactor = .fromNamedValues providerApiKey values →
    ∀ tr s, (machine setup).Run (fun _ _ _ => True) tr s →
      ∀ turn secret, Configured providerApiKey values secret → ¬secret <:+: streamed turn tr s := by
  intro hall
  obtain ⟨s, hrun, hstreamed⟩ := splitTrace_run
  refine hall _ _ keyedSetup keyed_secrets rfl _ s hrun 0 "hunter22".toList ⟨?_, Or.inl rfl⟩ ?_
  · exact List.cons_ne_nil _ _
  · rw [hstreamed]

end Worker

end PeakcodeDaemon
