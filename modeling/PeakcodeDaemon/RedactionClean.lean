import PeakcodeDaemon.RedactionRewriting
import PeakcodeDaemon.RedactionSecrets

/-!
# Clean outputs

With the marker as replacement a redacted text matches no pattern any
more. Each pass leaves none of its own matches; no later pass brings one
back.

- **key headers** (`clean_headers`): the loop of a label ends only when no
  header of it is left, and none reaches across a marker.
- **bearer words** (`BearersCovered`, `clean_bearers`): behind each the
  text ends, whitespace follows, or the marker and one of these. The pass
  sees to it (`Scans.bearers_covered`), and a token that is cut later
  starts with its lead, which is neither whitespace nor part of the marker
  (`bearers_covered_cut`).
- **tokens** (`IsToken`, `clean_tokens`): what the cursor steps over is
  too short to match and stays so, since the marker in front of which it
  ends is no part of a token (`Scans.tokens_gone`).

The secrets may be anything here, brackets included, as long as the marker
is the replacement.
-/

namespace PeakcodeDaemon

open Splice Utf8 Scanner

/-! ## What may follow the bearer word -/

/-- The text ends, or whitespace follows. -/
def Breaks (R : Text) : Prop := ∀ c ∈ R.head?, isWhitespace c = true

/-- What a redacted text may have after a bearer word: the end, whitespace, or
the marker and one of these. -/
def Covered (R : Text) : Prop := Breaks R ∨ ∃ R', R = redactedMarker ++ R' ∧ Breaks R'

/-- Every bearer word, in whatever case, is followed so. -/
def BearersCovered (t : Text) : Prop :=
  ∀ L w R, t = L ++ w ++ R → w.map Char.toLower = bearer → Covered R

theorem breaks_cons {c : Char} {t : Text} : Breaks (c :: t) ↔ isWhitespace c = true := by
  simp [Breaks]

theorem breaks_append {x t : Text} (hx : x ≠ []) (t' : Text) :
    Breaks (x ++ t) ↔ Breaks (x ++ t') := by
  obtain ⟨c, x, rfl⟩ := List.exists_cons_of_ne_nil hx
  rw [List.cons_append, List.cons_append, breaks_cons, breaks_cons]

theorem breaks_dropWhile (t : Text) : Breaks (t.dropWhile fun c => !isWhitespace c) := by
  intro c hc
  have hnot := List.head?_dropWhile_not (fun c => !isWhitespace c) t
  rw [Option.mem_def.mp hc] at hnot
  simpa using hnot

theorem not_mem_of_lower_bearer {w : Text} (hw : w.map Char.toLower = bearer) {c : Char}
    (hc : c.toLower ∉ bearer) : c ∉ w := by
  intro hmem
  rw [← hw] at hc
  exact hc (List.mem_map_of_mem hmem)

/-- The marker is no part of a bearer word. -/
theorem shields_bearer {w : Text} (hw : w.map Char.toLower = bearer) :
    Shields redactedMarker w := by
  have hin : ¬w <:+: redactedMarker := by
    intro hin
    have hmap := hin.map Char.toLower
    rw [hw] at hmap
    exact absurd hmap (by decide)
  rw [redactedMarker_eq] at hin ⊢
  exact shields_of_delimiters (not_mem_of_lower_bearer hw (by decide))
    (not_mem_of_lower_bearer hw (by decide)) hin

/-! ## The bearer pass -/

theorem bearerScanner_skip_ne_nil {t skip span rest : Text}
    (hnext : bearerScanner.next t = some (skip, span, rest)) : skip ≠ [] := by
  obtain ⟨a, m, b, hsplit, rfl, -, -⟩ := bearerScanner_next hnext
  have := length_of_lower_bearer (splitFirst_eq_some hsplit).2
  rintro hnil
  obtain ⟨-, rfl⟩ := List.append_eq_nil_iff.mp hnil
  cases this

/-- The pass keeps the first letter, for the word found is kept. -/
theorem Scans.breaks {r done t out : Text} {cs : List (Cut Char)}
    (h : bearerScanner.Scans r done t cs out) (ht : Breaks t) : Breaks out := by
  cases h with
  | stop hnext => exact ht
  | keep hnext tail =>
      rw [bearerScanner.next_append hnext, List.append_assoc] at ht
      exact (breaks_append (bearerScanner_skip_ne_nil hnext) _).mp ht
  | cut hne hnext tail =>
      rw [bearerScanner.next_append hnext, List.append_assoc] at ht
      rw [List.append_assoc]
      exact (breaks_append (bearerScanner_skip_ne_nil hnext) _).mp ht

theorem Scans.bearers_covered {done t out : Text} {cs : List (Cut Char)}
    (h : bearerScanner.Scans redactedMarker done t cs out) : BearersCovered out := by
  induction h with
  | stop hnext =>
      intro L w R ht hw
      refine absurd ?_ (splitFirst_eq_none (Option.map_eq_none_iff.mp hnext))
      rw [ht, List.map_append, List.map_append, hw]
      exact ⟨_, _, rfl⟩
  | keep hnext tail ih =>
      intro L w R hout hw
      obtain ⟨a, m, b, hsplit, rfl, hspan, rfl⟩ := bearerScanner_next hnext
      rcases occurrence_from_first unbordered_bearer hsplit hw hout.symm with
        ⟨-, -, rfl⟩ | ⟨x, -, hx⟩
      · exact Or.inl (Scans.breaks tail (breaks_dropWhile b))
      · exact ih x w R hx hw
  | cut hne hnext tail ih =>
      intro L w R hout hw
      obtain ⟨a, m, b, hsplit, rfl, hspan, rfl⟩ := bearerScanner_next hnext
      rw [List.append_assoc] at hout
      rcases occurrence_from_first unbordered_bearer hsplit hw hout.symm with
        ⟨-, -, rfl⟩ | ⟨x, -, hx⟩
      · exact Or.inr ⟨_, rfl, Scans.breaks tail (breaks_dropWhile b)⟩
      · rcases shields_bearer hw x R [] _ hx.symm with ⟨y, hnil, -⟩ | ⟨y, -, hy⟩
        · have := length_of_lower_bearer hw
          have := congrArg List.length hnil
          simp only [List.length_append, List.length_nil] at this
          omega
        · exact ih y w R hy hw

/-- A cut of a span that starts neither with whitespace nor with a letter of
the marker keeps the words covered. -/
theorem bearers_covered_cut {c : Cut Char} (hne : c.span ≠ [])
    (hhead : ∀ d ∈ c.span.head?, isWhitespace d = false ∧ d ∉ redactedMarker)
    (h : BearersCovered c.source) : BearersCovered (c.result redactedMarker) := by
  obtain ⟨d, span, hspan⟩ := List.exists_cons_of_ne_nil hne
  obtain ⟨hspace, hmarker⟩ := hhead d (by rw [hspan]; exact Option.mem_some_self d)
  have hstop : ∀ {y : Text}, ¬Breaks (d :: y) := by
    intro y hbreaks
    rw [breaks_cons, hspace] at hbreaks
    cases hbreaks
  intro L w R hout hw
  rcases shields_bearer hw L R c.left c.right hout.symm with ⟨x, hleft, rfl⟩ | ⟨x, -, hright⟩
  · -- the word stands on the left, and the span came after `x`
    have hcovered := h L w (x ++ c.span ++ c.right) (by rw [Cut.source, hleft]; simp) hw
    rw [hspan, List.append_assoc] at hcovered
    rw [List.append_assoc]
    rcases hcovered with hbreaks | ⟨R', hR', hbreaks⟩
    · have hx : x ≠ [] := by
        rintro rfl
        exact hstop hbreaks
      exact Or.inl ((breaks_append hx _).mp hbreaks)
    · rcases List.append_eq_append_iff.mp hR' with ⟨y, hy, hd⟩ | ⟨y, hx, hd⟩
      · cases y with
        | nil =>
            obtain rfl : R' = _ := hd.symm
            exact absurd hbreaks hstop
        | cons e y =>
            obtain ⟨rfl, -⟩ := List.cons.inj hd
            exact absurd (hy ▸ List.mem_append_right _ (List.mem_cons_self ..)) hmarker
      · subst hx
        rw [hd] at hbreaks
        have hy : y ≠ [] := by
          rintro rfl
          exact hstop hbreaks
        exact Or.inr ⟨_, List.append_assoc .., (breaks_append hy _).mp hbreaks⟩
  · refine h (c.left ++ c.span ++ x) w R ?_ hw
    rw [Cut.source, hright]
    simp

/-! ## The token passes -/

theorem unbordered_lead : ∀ lead ∈ tokenPrefixes, Unbordered lead := by
  have hall : ∀ lead ∈ tokenPrefixes, ∀ n < lead.length, 0 < n → ¬lead.drop n <+: lead := by decide
  exact fun lead hlead => unbordered_of_drop (hall lead hlead)

theorem lead_head : ∀ lead ∈ tokenPrefixes, ∀ d ∈ lead.head?,
    isWhitespace d = false ∧ d ∉ redactedMarker := by
  have hall : ∀ lead ∈ tokenPrefixes, (lead.head?.all fun d =>
      !isWhitespace d && !redactedMarker.contains d) = true := by decide
  intro lead hlead d hd
  have hlead := hall lead hlead
  rw [hd, Option.all_some] at hlead
  simpa using hlead

/-- What a token pass cuts starts with the lead. -/
theorem token_cuts_head {lead : Text} (hlead : lead ∈ tokenPrefixes) {done t out : Text}
    {cs : List (Cut Char)}
    (h : (tokenScanner lead (tokenPrefixes_ne_nil lead hlead)).Scans redactedMarker done t cs out) :
    ∀ c ∈ cs, c.span ≠ [] ∧
      ∀ d ∈ c.span.head?, isWhitespace d = false ∧ d ∉ redactedMarker := by
  intro c hc
  obtain ⟨hne, t', skip, hnext⟩ := h.exists_hit c hc
  obtain ⟨rest, hrest⟩ := (tokenSpan_of_hit hnext hne (tokenPrefixes_chars lead hlead)).starts
  refine ⟨hne, fun d hd => lead_head lead hlead d ?_⟩
  rwa [← hrest, List.head?_append_of_ne_nil _ (tokenPrefixes_ne_nil lead hlead)] at hd

/-- A token of the service: the lead and at least twelve characters more. -/
def IsToken (lead body : Text) : Prop :=
  lead ∈ tokenPrefixes ∧ (∀ c ∈ body, isTokenChar c = true) ∧ 12 ≤ body.length

section Token

variable {lead body : Text}

theorem IsToken.chars (h : IsToken lead body) : ∀ c ∈ lead ++ body, isTokenChar c = true := by
  intro c hc
  rcases List.mem_append.mp hc with hc | hc
  · exact tokenPrefixes_chars lead h.1 c hc
  · exact h.2.1 c hc

theorem IsToken.not_mem (h : IsToken lead body) {c : Char} (hc : isTokenChar c = false) :
    c ∉ lead ++ body := by
  intro hmem
  rw [h.chars c hmem] at hc
  cases hc

theorem IsToken.separates (h : IsToken lead body) : Separates redactedMarker (lead ++ body) :=
  Redactor.separates_marker (h.not_mem (by decide)) (h.not_mem (by decide))

theorem IsToken.not_in_marker (h : IsToken lead body) : ¬lead ++ body <:+: redactedMarker := by
  intro hin
  have hlen := hin.length_le
  have hpos := List.length_pos_iff.mpr (tokenPrefixes_ne_nil lead h.1)
  have hbody := h.2.2
  rw [List.length_append, show redactedMarker.length = 10 by decide] at hlen
  omega

/-- A run that starts with a token is long enough to be replaced. -/
theorem IsToken.long (h : IsToken lead body) (b : Text) (hbody : body <+: b) :
    byteLen lead + 12 ≤ byteLen ((lead ++ b).takeWhile isTokenChar) := by
  obtain ⟨rest, rfl⟩ := hbody
  have hbytes := length_le_byteLen body
  have hlen := h.2.2
  rw [← List.append_assoc, List.takeWhile_append_of_pos h.chars]
  simp only [byteLen_append]
  omega

theorem Scans.tokens_gone (h : IsToken lead body) {done t out : Text} {cs : List (Cut Char)}
    (hscan : (tokenScanner lead (tokenPrefixes_ne_nil lead h.1)).Scans redactedMarker done t cs
      out) : ¬lead ++ body <:+: out := by
  have hlead : ∀ {u : Text}, lead ++ body <:+: u → lead <:+: u :=
    fun hin => (List.prefix_append lead body).isInfix.trans hin
  induction hscan with
  | stop hnext =>
      have hnone := splitFirst_eq_none (Option.map_eq_none_iff.mp hnext)
      rw [List.map_id] at hnone
      exact fun hin => hnone (hlead hin)
  | @keep done t skip rest out cs hnext tail ih =>
      obtain ⟨a, b, hsplit, ⟨-, hne, -⟩ | ⟨hshort, -, rfl, rfl⟩⟩ := tokenScanner_next hnext
      · exact absurd rfl hne
      · rintro ⟨L, R, hout⟩
        rw [← List.append_assoc, List.append_assoc] at hout
        rcases occurrence_from_first (unbordered_lead lead h.1) hsplit (List.map_id lead) hout with
          ⟨-, -, hR⟩ | ⟨x, -, hx⟩
        · -- the marker that a later cut leaves is not part of the run
          have hrest := (tokenScanner lead (tokenPrefixes_ne_nil lead h.1)).scans
            redactedMarker [] rest
          have hchain := hrest.chain
          rw [← tail.out_eq hrest, redactedMarker_eq] at hchain
          have hbody : body <+: rest := by
            refine hchain.prefix_kept ⟨R, hR⟩ ?_
            exact fun hmem => h.not_mem (by decide) (List.mem_append_right lead hmem)
          exact hshort (h.long rest hbody)
        · exact ih ⟨x, R, by rw [hx]; simp⟩
  | cut hne hnext tail ih =>
      obtain ⟨a, b, hsplit, ⟨-, -, rfl, -, -⟩ | ⟨-, hnil, -, -⟩⟩ := tokenScanner_next hnext
      · intro hin
        rcases h.separates _ _ hin with hin | hin | hin
        · refine splitFirst_left hsplit (List.prefix_refl _) (tokenPrefixes_ne_nil lead h.1) ?_
          rw [List.map_id]
          exact hlead hin
        · exact h.not_in_marker hin
        · exact ih hin
      · exact absurd hnil hne

end Token

/-! ## The redacted text -/

theorem header_free : ∀ label ∈ privateKeyLabels, '[' ∉ beginHeader label ∧
    ']' ∉ beginHeader label ∧ ¬beginHeader label <:+: redactedMarker := by decide

namespace Redactor

variable {R : Redactor}

/-- The pass of a label ends only when no header of it is left. -/
theorem clean_headers (hr : R.replacement = redactedMarker) {label : Text}
    (hlabel : label ∈ privateKeyLabels) (text : Text) : ¬beginHeader label <:+: R.clean text := by
  obtain ⟨hopen, hclose, hmarker⟩ := header_free label hlabel
  have hshrinks := privateKeyScanner_shrinks label R.replacement_length
  have hmem : Pass.ofDrain (privateKeyScanner label) hshrinks ∈ R.passes := by
    refine List.mem_append_right _ (List.mem_append_left _ (List.mem_append_left _ ?_))
    exact List.mem_map.mpr ⟨label, hlabel, rfl⟩
  refine Pass.runAll_avoids hmem ?_ (by rwa [hr]) (fun t => ?_) text
  · rw [hr]
    exact separates_marker hopen hclose
  · have hdrains := (privateKeyScanner label).drains R.replacement hshrinks t
    have hnone := splitFirst_eq_none (Option.map_eq_none_iff.mp hdrains.next_eq_none)
    rwa [List.map_id] at hnone

theorem clean_bearers (hr : R.replacement = redactedMarker) (text : Text) :
    BearersCovered (R.clean text) := by
  have hbearer : ∀ t, BearersCovered (bearerScanner.scan R.replacement t) := by
    rw [hr]
    exact fun t => Scans.bearers_covered (bearerScanner.scans redactedMarker [] t)
  have htoken : ∀ lead (hlead : lead ∈ tokenPrefixes), ∀ t, BearersCovered t →
      BearersCovered ((tokenScanner lead (tokenPrefixes_ne_nil lead hlead)).scan R.replacement t) :=
        by
    rw [hr]
    intro lead hlead t ht
    have hscan := (tokenScanner lead (tokenPrefixes_ne_nil lead hlead)).scans redactedMarker [] t
    refine hscan.chain.preserves (P := BearersCovered) (fun c hc => ?_) ht
    obtain ⟨hne, hhead⟩ := token_cuts_head hlead hscan c hc
    exact bearers_covered_cut hne hhead
  rw [clean, passes, patternPasses, Pass.runAll_append, Pass.runAll_append, Pass.runAll_append]
  refine Pass.runAll_preserves (P := BearersCovered) (fun p hp t ht => ?_) (hbearer _)
  obtain ⟨⟨lead, hlead⟩, -, rfl⟩ := List.mem_map.mp hp
  exact htoken lead hlead t ht

theorem clean_tokens (hr : R.replacement = redactedMarker) {lead body : Text}
    (h : IsToken lead body) (text : Text) : ¬lead ++ body <:+: R.clean text := by
  have hmem : Pass.ofScan (tokenScanner lead (tokenPrefixes_ne_nil lead h.1)) R.replacement
      ∈ R.passes := by
    refine List.mem_append_right _ (List.mem_append_right _ (List.mem_map.mpr ?_))
    exact ⟨⟨lead, h.1⟩, List.mem_attach _ _, rfl⟩
  have hgone : ∀ t, ¬lead ++ body <:+:
      (tokenScanner lead (tokenPrefixes_ne_nil lead h.1)).scan R.replacement t := by
    rw [hr]
    exact fun t => Scans.tokens_gone h
      ((tokenScanner lead (tokenPrefixes_ne_nil lead h.1)).scans redactedMarker [] t)
  refine Pass.runAll_avoids hmem ?_ ?_ hgone text
  · rw [hr]
    exact h.separates
  · rw [hr]
    exact h.not_in_marker

/-- In marker mode, whatever the secrets and the text: what comes out has no
key header, no bearer word with anything but the marker behind it, and no
token of a service. -/
theorem output_clean {providerApiKey : Text} {values : List (Text × Text)}
    (hr : (fromNamedValues providerApiKey values).replacement = redactedMarker) (text : Text) :
    ∃ out, (fromNamedValues providerApiKey values).redactText text = some out ∧
      (∀ label ∈ privateKeyLabels, ¬beginHeader label <:+: out) ∧
      (∀ L w R, out = L ++ w ++ R → w.map Char.toLower = bearer → Covered R) ∧
      ∀ lead ∈ tokenPrefixes, ∀ body, (∀ c ∈ body, isTokenChar c = true) → 12 ≤ body.length →
        ¬lead ++ body <:+: out :=
  ⟨_, redactText_eq _ text, fun _ hlabel => clean_headers hr hlabel text, clean_bearers hr text,
    fun _ hlead _ hchars hlen => clean_tokens hr ⟨hlead, hchars, hlen⟩ text⟩

/-- A key that is not part of the marker, and a text with two patterns in a row. -/
theorem output_clean_provider : ∃ out, (fromNamedValues "provider-secret".toList []).redactText
      "bearer sk-0123456789ab bearer".toList = some out ∧
    (∀ label ∈ privateKeyLabels, ¬beginHeader label <:+: out) ∧
    (∀ L w R, out = L ++ w ++ R → w.map Char.toLower = bearer → Covered R) ∧
    ∀ lead ∈ tokenPrefixes, ∀ body, (∀ c ∈ body, isTokenChar c = true) → 12 ≤ body.length →
      ¬lead ++ body <:+: out :=
  output_clean (by decide) _

end Redactor

end PeakcodeDaemon
