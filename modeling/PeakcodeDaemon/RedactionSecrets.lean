import PeakcodeDaemon.RedactionPasses

/-!
# Configured secrets

What the passes leave of the configured secrets. A sweep removes its own
secret; from then on a cut is the only thing that can bring it back.

- **one sweep** (`Scans.sweep_rule`): each of its cuts takes the first
  occurrence there is, so an invariant may use that on the text before the
  cut. It ends with no occurrence left, unless a replacement spelled one
  anew (`Scans.sweep_gone`).
- **with the marker** (`clean_separated`, `clean_hidden`): a secret
  without brackets cannot be spelled across one, so a secret that is gone
  after its sweep stays so (`separates_marker`).

The rule is stated for any invariant, with a second one for what is to
hold after a replacement has spelled the secret anew. `RedactionTurns`
uses it with both; for the marker neither is needed.
-/

namespace PeakcodeDaemon

open Splice

theorem redactedMarker_eq : redactedMarker = '[' :: "REDACTED".toList ++ [']'] := by decide

/-! ## One sweep -/

theorem sweeper_next {s : Text} (hs : s ≠ []) (t : Text) :
    (sweeper s).next t = splitFirst id s t :=
  if_neg (by simpa using hs)

theorem sweeper_next_none {s t : Text} (hs : s ≠ []) (h : (sweeper s).next t = none) :
    ¬s <:+: t := by
  rw [sweeper_next hs] at h
  simpa using splitFirst_eq_none h

/-- A hit of the sweeper: the secret itself, and none of it in what precedes. -/
theorem sweeper_next_some {s t skip span rest : Text} (hs : s ≠ [])
    (h : (sweeper s).next t = some (skip, span, rest)) :
    t = skip ++ s ++ rest ∧ span = s ∧ ¬s <:+: skip := by
  rw [sweeper_next hs] at h
  obtain ⟨rfl, hspan⟩ := splitFirst_eq_some h
  have hleft := splitFirst_left h (List.prefix_refl skip) hs
  rw [List.map_id] at hspan hleft
  exact ⟨by rw [hspan], hspan, hleft⟩

/-- Where the secret does not occur, its sweep changes nothing. -/
theorem sweep_eq_self {s r t : Text} (hs : s ≠ []) (ht : ¬s <:+: t) :
    (sweeper s).scan r t = t := by
  have hscan := (sweeper s).scans r [] t
  refine hscan.chain.eq_self fun c hc hsource => ?_
  obtain ⟨-, t', skip, hnext⟩ := hscan.exists_hit c hc
  obtain ⟨-, hspan, -⟩ := sweeper_next_some hs hnext
  exact absurd ⟨c.left, c.right, by rw [← hspan]; exact hsource⟩ ht

/-- With a replacement that keeps its neighbours apart, a sweep leaves nothing. -/
theorem Scans.sweep_separated {s r done t out : Text} {cs : List (Cut Char)} (hs : s ≠ [])
    (hsep : Separates r s) (hr : ¬s <:+: r) (h : (sweeper s).Scans r done t cs out) :
    ¬s <:+: out := by
  induction h with
  | stop hnext => exact sweeper_next_none hs hnext
  | keep hnext =>
      obtain ⟨-, hspan, -⟩ := sweeper_next_some hs hnext
      exact absurd hspan.symm hs
  | cut _ hnext _ ih =>
      obtain ⟨-, -, hskip⟩ := sweeper_next_some hs hnext
      intro hin
      rcases hsep _ _ hin with hin | hin | hin
      · exact hskip hin
      · exact hr hin
      · exact ih hin

/-- The rule of a sweep. Each of its cuts takes the first occurrence there is,
so a good text stays good, and the sweep ends with no occurrence left, unless
a cut spells the secret anew, from where on the text is lost. -/
theorem Scans.sweep_rule {s r : Text} (hs : s ≠ []) (Good Lost : Text → Prop)
    (Q : Cut Char → Prop)
    {done t out : Text} {cs : List (Cut Char)} (h : (sweeper s).Scans r done t cs out)
    (hgood : ∀ c ∈ cs, c.span = s → ¬s <:+: (c.left ++ s).dropLast → Good c.source →
      Q c ∧ (Good (c.result r) ∧ ¬Meets r s c ∨ Lost (c.result r)))
    (hlost : ∀ c ∈ cs, c.span = s → Lost c.source → Q c ∧ Lost (c.result r))
    (hinv : Good (done ++ t) ∧ ¬s <:+: done ∧ ¬Joins s done t ∨ Lost (done ++ t)) :
    (∀ c ∈ cs, Q c) ∧ (Good (done ++ out) ∧ ¬s <:+: done ++ out ∨ Lost (done ++ out)) := by
  induction h with
  | stop hnext =>
      refine ⟨by simp, hinv.imp_left fun ⟨hsrc, hdone, hseam⟩ => ⟨hsrc, fun hin => ?_⟩⟩
      rcases infix_append_iff_joins.mp hin with hin | hin | hin
      · exact hdone hin
      · exact sweeper_next_none hs hnext hin
      · exact hseam hin
  | keep hnext =>
      obtain ⟨-, hspan, -⟩ := sweeper_next_some hs hnext
      exact absurd hspan.symm hs
  | @cut done t skip span rest out cs _ hnext _ ih =>
      obtain ⟨rfl, rfl, hskip⟩ := sweeper_next_some hs hnext
      have hsource : done ++ (skip ++ span ++ rest)
          = Cut.source ⟨done ++ skip, span, rest⟩ := by simp [Cut.source]
      have hstep : Q ⟨done ++ skip, span, rest⟩ ∧
          (Good (done ++ skip ++ r ++ rest) ∧ ¬span <:+: done ++ skip ++ r ∧
              ¬Joins span (done ++ skip ++ r) rest ∨ Lost (done ++ skip ++ r ++ rest)) := by
        rw [hsource] at hinv
        rcases hinv with ⟨hsrc, hdone, hseam⟩ | hsrc
        · have hfirst : ¬span <:+: (done ++ skip ++ span).dropLast := by
            have hmatch := splitFirst_first ((sweeper_next hs _).symm.trans hnext) hs
            rw [List.append_assoc, List.dropLast_append_of_ne_nil
              (List.append_ne_nil_of_right_ne_nil skip hs)]
            intro hin
            rcases infix_append_iff_joins.mp hin with hin | hin | ⟨x, y, hx, hy, heq, hsuf, hpre⟩
            · exact hdone hin
            · exact hmatch hin
            · refine hseam ⟨x, y, hx, hy, heq, hsuf, hpre.trans ?_⟩
              exact (List.dropLast_prefix _).trans (List.prefix_append ..)
          obtain ⟨hq, ⟨hres, hmeets⟩ | hres⟩ := hgood _ (List.mem_cons_self ..) rfl hfirst hsrc
          · refine ⟨hq, Or.inl ⟨hres, fun hin => ?_, fun hjoin => hmeets hjoin.meets⟩⟩
            rcases Cut.infix_left (c := ⟨done ++ skip, span, rest⟩) hs hin with hin | hin
            · refine hfirst (hin.trans ?_)
              rw [List.dropLast_append_of_ne_nil hs]
              exact List.infix_append_left
            · exact hmeets hin
          · exact ⟨hq, Or.inr hres⟩
        · obtain ⟨hq, hres⟩ := hlost _ (List.mem_cons_self ..) rfl hsrc
          exact ⟨hq, Or.inr hres⟩
      obtain ⟨hcs, hout⟩ := ih (fun c hc => hgood c (List.mem_cons_of_mem _ hc))
        (fun c hc => hlost c (List.mem_cons_of_mem _ hc)) hstep.2
      refine ⟨?_, by simpa using hout⟩
      rintro c hc
      rcases List.mem_cons.mp hc with rfl | hc
      · exact hstep.1
      · exact hcs c hc

/-- A sweep that spells its secret nowhere anew leaves nothing of it. -/
theorem Scans.sweep_gone {s r t out : Text} {cs : List (Cut Char)} (hs : s ≠ [])
    (h : (sweeper s).Scans r [] t cs out) (hcuts : ∀ c ∈ cs, ¬Meets r s c) : ¬s <:+: out := by
  obtain ⟨-, ⟨-, hout⟩ | hout⟩ := Scans.sweep_rule hs (fun _ => True) (fun _ => False)
    (fun _ => True) h (fun c hc _ _ _ => ⟨trivial, Or.inl ⟨trivial, hcuts c hc⟩⟩)
    (fun _ _ _ hlost => hlost.elim)
    (Or.inl ⟨trivial, fun hin => hs (List.infix_nil.mp hin), not_joins_nil s t⟩)
  · exact hout
  · exact hout.elim

/-! ## Separated secrets -/

namespace Redactor

variable {R : Redactor}

/-- A secret the replacement separates is gone after its own sweep, and stays so. -/
theorem clean_separated {s : Text} (hs : s ∈ R.secrets) (hsep : Separates R.replacement s)
    (hr : ¬s <:+: R.replacement) (text : Text) : ¬s <:+: R.clean text := by
  have hmem : R.sweep s ∈ R.passes := List.mem_append_left _ (List.mem_map.mpr ⟨s, hs, rfl⟩)
  refine Pass.runAll_avoids hmem hsep hr (fun t => ?_) text
  exact Scans.sweep_separated (R.nonempty s hs) hsep hr ((sweeper s).scans R.replacement [] t)

variable {providerApiKey : Text} {values : List (Text × Text)}

/-- The marker starts and ends with a bracket, so it separates what has none. -/
theorem separates_marker {s : Text} (hopen : '[' ∉ s) (hclose : ']' ∉ s) :
    Separates redactedMarker s := by
  rw [redactedMarker_eq]
  exact separates_of_delimiters hopen hclose

/-- And it shields what does not occur in it. -/
theorem shields_marker {s : Text} (hopen : '[' ∉ s) (hclose : ']' ∉ s)
    (hmarker : ¬s <:+: redactedMarker) : Shields redactedMarker s := by
  rw [redactedMarker_eq] at hmarker ⊢
  exact shields_of_delimiters hopen hclose hmarker

/-- In marker mode, secrets free of brackets do not get through. -/
theorem clean_hidden
    (h : ∀ s, Configured providerApiKey values s →
      ¬s <:+: redactedMarker ∧ '[' ∉ s ∧ ']' ∉ s)
    {s : Text} (hs : Configured providerApiKey values s) (text : Text) :
    ¬s <:+: (fromNamedValues providerApiKey values).clean text := by
  have hr := replacement_marker fun s hs => (h s hs).1
  obtain ⟨hmarker, hopen, hclose⟩ := h s hs
  refine clean_separated (mem_secrets.mpr hs) ?_ ?_ text
  · rw [hr]
    exact separates_marker hopen hclose
  · rwa [hr]

/-- In marker mode, with secrets free of brackets, no redacted text and no
redacted event shows a configured secret. -/
theorem secrets_hidden_by_marker
    (h : ∀ s, Configured providerApiKey values s →
      ¬s <:+: redactedMarker ∧ '[' ∉ s ∧ ']' ∉ s) :
    (∀ text, ∃ out, (fromNamedValues providerApiKey values).redactText text = some out ∧
      ∀ s, Configured providerApiKey values s → ¬s <:+: out) ∧
    ∀ event, ∃ event', (fromNamedValues providerApiKey values).redactEvent event = some event' ∧
      ∀ field ∈ event'.texts, ∀ s, Configured providerApiKey values s → ¬s <:+: field := by
  have hclean := fun text s hs => clean_hidden h (s := s) hs text
  refine ⟨fun text => ⟨_, redactText_eq _ text, hclean text⟩,
    fun event => ⟨_, redactEvent_eq _ event, ?_⟩⟩
  intro field hfield s hs
  rw [WorkerEvent.texts_mapTexts] at hfield
  obtain ⟨text, -, rfl⟩ := List.mem_map.mp hfield
  exact hclean text s hs

/-- An API key and one sensitive value, both free of brackets. -/
theorem secrets_hidden_by_marker_password :
    (∀ text, ∃ out, (fromNamedValues "provider-secret".toList
        [("DATABASE_PASSWORD".toList, "hunter22".toList)]).redactText text = some out ∧
      ∀ s, Configured "provider-secret".toList
        [("DATABASE_PASSWORD".toList, "hunter22".toList)] s → ¬s <:+: out) ∧
    ∀ event, ∃ event', (fromNamedValues "provider-secret".toList
        [("DATABASE_PASSWORD".toList, "hunter22".toList)]).redactEvent event = some event' ∧
      ∀ field ∈ event'.texts, ∀ s, Configured "provider-secret".toList
        [("DATABASE_PASSWORD".toList, "hunter22".toList)] s → ¬s <:+: field :=
  secrets_hidden_by_marker fun s hs => by
    have hall : ∀ s ∈ (fromNamedValues "provider-secret".toList
        [("DATABASE_PASSWORD".toList, "hunter22".toList)]).secrets,
        ¬s <:+: redactedMarker ∧ '[' ∉ s ∧ ']' ∉ s := by decide
    exact hall s (mem_secrets.mpr hs)

end Redactor

end PeakcodeDaemon
