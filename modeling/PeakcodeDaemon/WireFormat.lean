import PeakcodeDaemon.Outbound
import PeakcodeDaemon.Lib.JsonInjective

/-!
# What the wire says

The bytes of a frame say which message it is, and the bytes of a stream
say which messages they are and how many: what is over the limit is the
only thing that is lost between the two ends. In particular some parser
inverts every frame, as the results on both ends of the socket ask for.

- **messages** (`WorkerEvent.json_injective`,
  `DaemonCommand.json_injective`): the kind tells the constructors apart,
  the fields are all there, and the rendering of JSON is injective;
- **streams** (`lines_prefix`, `linesOf_prefix_iff`): a line feed is in no
  frame, so the line breaks are where the frames end, and one stream is a
  prefix of another just when the messages on it are.
-/

namespace PeakcodeDaemon

open Chunks

/-! ## Messages -/

/-- The kind tells the constructors apart, and the fields are all there. -/
theorem WorkerEvent.toValue_injective : Function.Injective WorkerEvent.toValue := by
  intro event event' h
  cases event <;> cases event' <;>
    simp [toValue, tagged, Json.Number.ofNat_injective.eq_iff] at h ⊢
  all_goals exact h

theorem WorkerEvent.json_injective : Function.Injective WorkerEvent.json :=
  fun _ _ h => toValue_injective (Json.render_injective (Utf8.encode_injective h))

theorem IpcApprovalDecision.name_inj {decision decision' : IpcApprovalDecision}
    (h : decision.name.toList = decision'.name.toList) : decision = decision' := by
  cases decision <;> cases decision' <;> first | rfl | exact absurd h (by decide)

theorem DaemonCommand.toValue_injective : Function.Injective DaemonCommand.toValue := by
  intro command command' h
  cases command <;> cases command' <;> simp [toValue, tagged] at h ⊢
  case input => exact h
  case approve => exact ⟨h.1, IpcApprovalDecision.name_inj h.2⟩

theorem DaemonCommand.json_injective : Function.Injective DaemonCommand.json :=
  fun _ _ h => toValue_injective (Json.render_injective (Utf8.encode_injective h))

/-! ## Streams -/

section Streams

variable {T : Type} {json : T → Bytes}

/-- A stream that goes on, or breaks off in a line, says what a shorter one said. -/
theorem lines_prefix (hinj : Function.Injective json) (hline : ∀ value, lineFeed ∉ json value)
    {piece' : Bytes} (hopen : lineFeed ∉ piece') : ∀ {values values' : List T} {piece : Bytes},
      (values.map fun value => json value ++ [lineFeed]).flatten ++ piece <+:
        (values'.map fun value => json value ++ [lineFeed]).flatten ++ piece' → values <+: values'
  | [], _, _, _ => List.nil_prefix
  | value :: values, [], piece, h => by
      refine absurd (h.subset ?_) hopen
      simp
  | value :: values, value' :: values', piece, h => by
      obtain ⟨more, hmore⟩ := h
      simp only [List.map_cons, List.flatten_cons, List.append_assoc, List.cons_append,
        List.nil_append] at hmore
      have hcut := congrArg (cut lineFeed) hmore
      rw [cut_append (hline value), cut_append (hline value')] at hcut
      obtain ⟨hvalue, hrest⟩ := Prod.mk.inj (Option.some.inj hcut)
      obtain rfl := hinj hvalue
      have hrest := lines_prefix hinj hline hopen ⟨more, by rw [List.append_assoc, hrest]⟩
      exact List.cons_prefix_cons.mpr ⟨rfl, hrest⟩

theorem linesOf_prefix_iff (hinj : Function.Injective json)
    (hline : ∀ value, lineFeed ∉ json value) (values values' : List T) :
    linesOf json values <+: linesOf json values' ↔
      values.filter (fitsFrame json) <+: values'.filter (fitsFrame json) := by
  constructor
  · intro h
    refine lines_prefix hinj hline List.not_mem_nil (?_ : _ ++ [] <+: _ ++ [])
    simpa only [List.append_nil, linesOf] using h
  · rintro ⟨more, hmore⟩
    rw [linesOf, linesOf, ← hmore, List.map_append, List.flatten_append]
    exact List.prefix_append _ _

end Streams

/-- One stream of events is a prefix of another just when the events on it,
those within the limit, are a prefix of the other's, and so for commands: no
two sequences of messages look alike, on the wire or where it was cut. -/
theorem wire_lossless (events events' : List WorkerEvent)
    (commands commands' : List DaemonCommand) :
    (linesOf WorkerEvent.json events <+: linesOf WorkerEvent.json events' ↔
      events.filter WorkerEvent.fits <+: events'.filter WorkerEvent.fits) ∧
    (linesOf DaemonCommand.json commands <+: linesOf DaemonCommand.json commands' ↔
      commands.filter (fitsFrame DaemonCommand.json) <+:
        commands'.filter (fitsFrame DaemonCommand.json)) := by
  have hfits : fitsFrame WorkerEvent.json = WorkerEvent.fits := funext WorkerEvent.fitsFrame_json
  refine ⟨?_, ?_⟩
  · rw [← hfits]
    exact linesOf_prefix_iff WorkerEvent.json_injective WorkerEvent.lineFeed_not_mem_json _ _
  · exact linesOf_prefix_iff DaemonCommand.json_injective DaemonCommand.lineFeed_not_mem_json _ _

/-- What two workers wrote, whole frames only, compares as the bytes do,
however their runs went and wherever they broke off. -/
theorem Connection.frames_of_wire {Message : Type} {setup setup' : Setup Message}
    {fromSlice fromSlice' : Bytes → Except Text DaemonCommand}
    {C C' : List (Obs Message) → Connection Message → Action Message → Prop}
    {tr tr' : List (Obs Message)} {s s' : Connection Message}
    (h : (machine setup fromSlice).Run C tr s) (h' : (machine setup' fromSlice').Run C' tr' s')
    (hbytes : s.wire <+: s'.wire) : s.worker.frames <+: s'.worker.frames := by
  have hwhole : ∀ {setup : Setup Message} {tr : List (Obs Message)} {s : Connection Message},
      Wired setup tr s → ∃ piece, lineFeed ∉ piece ∧
        s.wire = (s.worker.frames.map fun frame => frame.json ++ [lineFeed]).flatten ++ piece := by
    intro setup tr s hwired
    obtain ⟨piece, hwire, hopen, -, -⟩ := hwired.wire
    have hfits : s.worker.frames.filter (fitsFrame WorkerEvent.json) = s.worker.frames :=
      List.filter_eq_self.mpr fun frame hmem => by
        rw [WorkerEvent.fitsFrame_json]
        exact hwired.fits frame hmem
    refine ⟨piece, hopen, ?_⟩
    rw [hwire, linesOf, hfits]
  obtain ⟨piece, -, hwire⟩ := hwhole (run_wired h)
  obtain ⟨piece', hopen', hwire'⟩ := hwhole (run_wired h')
  rw [hwire, hwire'] at hbytes
  exact lines_prefix WorkerEvent.json_injective WorkerEvent.lineFeed_not_mem_json hopen' hbytes

end PeakcodeDaemon
