import PeakcodeDaemon.RedactionFixpoints

/-!
# What the redactor looks for

What `redact_text` takes out of a text can be said without running it. Its
targets are the configured secrets, the key blocks by label, the runs
behind a bearer word and the tokens by lead, in this order (`targets`). A
cut `Hits` a target if its span is one, a text still holds a target
(`StandsIn`) if some span of it is not the replacement yet, and a hit is
the `First` if none starts earlier.

Each pass is for one target (`TakesOut`): its cuts are first hits, and it
leaves none standing. The second is not so for a secret, which a sweep can
spell anew behind its back; the other three are:

- **key blocks** (`keyPass_takes`): the loop takes the first header there
  is, until there is none;
- **bearer runs** (`bearerPass_takes`): every open run of the text is
  ahead of the cursor (`bearer_ahead`). A word behind it has an empty run,
  or the replacement, and none comes about across the seam, since
  whitespace follows and no replacement ends in `r`;
- **tokens** (`tokenPass_takes`): the same (`token_ahead`). Around a cut
  nothing becomes a token that was none (`token_of_result`): what
  follows the span, and the marker, break off every run before them.
-/

namespace PeakcodeDaemon

open Splice Utf8 Scanner

/-! ## Credentials where they stand -/

/-- A key block: from a header of the label on, up to the footer that comes first,
or to the end if none does. -/
structure KeySpan (label : Text) (c : Cut Char) : Prop where
  starts : beginHeader label <+: c.span ++ c.right
  ends : endHeader label <:+ c.span ∧ ¬endHeader label <:+: c.span.dropLast ∨
    ¬endHeader label <:+: c.span ∧ c.right = []

/-- The cut takes a credential of one of the three forms. -/
inductive CredentialSpan (c : Cut Char) : Prop
  | privateKey {label : Text} (hlabel : label ∈ privateKeyLabels) (h : KeySpan label c)
  | bearer (h : BearerSpan c.left c.span c.right)
  | token {lead : Text} (hlead : lead ∈ tokenPrefixes) (h : TokenSpan lead c.left c.span c.right)

theorem endHeader_ne_nil (label : Text) : endHeader label ≠ [] := by
  intro hnil
  have := congrArg List.length hnil
  rw [length_endHeader] at this
  simp only [List.length_nil] at this
  omega

theorem beginHeader_ne_nil (label : Text) : beginHeader label ≠ [] := by
  intro hnil
  have := congrArg List.length hnil
  rw [length_beginHeader] at this
  simp only [List.length_nil] at this
  omega

/-- What the scanner hits is a block. -/
theorem keySpan_of_hit {label t skip span rest : Text}
    (h : (privateKeyScanner label).next t = some (skip, span, rest)) :
    KeySpan label ⟨skip, span, rest⟩ := by
  obtain ⟨b, -, hblock⟩ := privateKeyScanner_next h
  rcases hblock with ⟨hend, rfl, rfl⟩ | ⟨x, hend, rfl⟩
  · have hnone := splitFirst_eq_none hend
    rw [List.map_id] at hnone
    exact ⟨⟨b, by simp⟩, Or.inr ⟨hnone, rfl⟩⟩
  · obtain ⟨happ, -⟩ := splitFirst_eq_some hend
    have hfirst := splitFirst_first hend (endHeader_ne_nil label)
    exact ⟨⟨b, happ⟩, Or.inl ⟨List.suffix_append .., hfirst⟩⟩

/-- A block starts with its header. -/
theorem KeySpan.source {label : Text} {c : Cut Char} (h : KeySpan label c) :
    ∃ z, c.source = c.left ++ beginHeader label ++ z := by
  obtain ⟨⟨z, hz⟩, -⟩ := h
  exact ⟨z, by rw [Cut.source, List.append_assoc, ← hz, List.append_assoc]⟩

/-- A run has its word in front of it. -/
theorem BearerSpan.source {c : Cut Char} (h : BearerSpan c.left c.span c.right) :
    ∃ a m, c.left = a ++ m ∧ m.map Char.toLower = bearer ∧
      c.source = a ++ m ++ (c.span ++ c.right) := by
  obtain ⟨a, m, hleft, hm⟩ := h.word
  exact ⟨a, m, hleft, hm, by rw [Cut.source, hleft, List.append_assoc (a ++ m)]⟩

/-- A maximal run is one because of what follows it. -/
theorem stops_of_run {p : Char → Bool} {span rest : Text}
    (h : (span ++ rest).takeWhile p = span) : ∀ d ∈ rest.head?, p d = false := by
  have hchars : ∀ c ∈ span, p c = true := by
    rw [← h]
    exact fun c hc => List.all_eq_true.mp List.all_takeWhile c hc
  rw [List.takeWhile_append_of_pos hchars, List.append_right_eq_self] at h
  intro d hd
  cases rest with
  | nil => cases hd
  | cons e rest =>
      obtain rfl := Option.some.inj hd
      by_contra hpos
      rw [List.takeWhile_cons_of_pos (by simpa using hpos)] at h
      cases h

theorem TokenSpan.chars {lead kept span rest : Text} (h : TokenSpan lead kept span rest) :
    ∀ c ∈ span, isTokenChar c = true := by
  rw [← h.run]
  exact fun c hc => List.all_eq_true.mp List.all_takeWhile c hc

theorem TokenSpan.breaks {lead kept span rest : Text} (h : TokenSpan lead kept span rest) :
    ∀ d ∈ rest.head?, isTokenChar d = false := stops_of_run h.run

theorem BearerSpan.breaks {kept span rest : Text} (h : BearerSpan kept span rest) :
    Breaks rest := fun d hd => by simpa using stops_of_run h.run d hd

/-- What follows a break does not make a run longer. -/
theorem run_before_break {y z : Text} (hz : ∀ d ∈ z.head?, isTokenChar d = false) :
    (y ++ z).takeWhile isTokenChar = y.takeWhile isTokenChar := by
  have hnil : z.takeWhile isTokenChar = [] := by
    cases z with
    | nil => rfl
    | cons d z => rw [List.takeWhile_cons_of_neg]; simp [hz d (by simp)]
  rw [List.takeWhile_append, hnil, List.append_nil]
  split
  · rename_i hlen
    exact ((List.takeWhile_prefix _).eq_of_length hlen).symm
  · rfl

/-- A credential takes some room: a word or a lead, and what is to be hidden. -/
theorem CredentialSpan.seven_lt {c : Cut Char} (h : CredentialSpan c) :
    7 < c.source.length := by
  have hsource : c.source.length = c.left.length + c.span.length + c.right.length := by
    rw [Cut.source, List.length_append, List.length_append]
  cases h with
  | @privateKey label _ h =>
      have hle := h.starts.length_le
      rw [length_beginHeader, List.length_append] at hle
      omega
  | bearer h =>
      obtain ⟨⟨a, m, hleft, hm⟩, hne, -⟩ := h
      have hlen := length_of_lower_bearer hm
      have hpos := List.length_pos_iff.mpr hne
      rw [hleft, List.length_append] at hsource
      omega
  | token hlead h =>
      obtain ⟨body, hspan, -, -, hlen⟩ := isToken_of_span hlead h
      rw [hspan, List.length_append] at hsource
      omega

/-- A bearer word ends with its one blank. -/
theorem bearer_last {m : Text} (hm : m.map Char.toLower = bearer) : m.getLast? = some ' ' := by
  have hlast := congrArg List.getLast? hm
  rw [List.getLast?_map, show bearer.getLast? = some ' ' by decide,
    Option.map_eq_some_iff] at hlast
  obtain ⟨d, hd, hlower⟩ := hlast
  rcases toLower_cases d with hsame | ⟨hge, -, hnat⟩
  · rw [hd, ← hsame, hlower]
  · rw [hlower, show ' '.toNat = 32 by decide] at hnat
    omega

/-- And one of three letters. -/
theorem CredentialSpan.letter {c : Cut Char} (h : CredentialSpan c) :
    ∃ d ∈ ['-', '_', ' '], d ∈ c.source := by
  cases h with
  | @privateKey label _ h =>
      have hmem : '-' ∈ c.span ++ c.right :=
        h.starts.subset (List.mem_append_right _ (by decide))
      refine ⟨'-', by simp, ?_⟩
      rw [Cut.source, List.append_assoc]
      exact List.mem_append_right _ hmem
  | bearer h =>
      obtain ⟨⟨a, m, hleft, hm⟩, -, -⟩ := h
      refine ⟨' ', by simp, ?_⟩
      rw [Cut.source, hleft]
      simp [List.mem_of_getLast? (bearer_last hm)]
  | @token lead hlead h =>
      have hall : (tokenPrefixes.all fun lead =>
          lead.any fun d => d == '-' || d == '_') = true := by decide
      obtain ⟨d, hd, hmem⟩ := List.any_eq_true.mp (List.all_eq_true.mp hall lead hlead)
      refine ⟨d, by simpa [or_assoc] using Or.inl hmem, ?_⟩
      rw [Cut.source]
      exact List.mem_append_left _ (List.mem_append_right _ (h.starts.subset hd))

/-! ## The targets -/

/-- What the redactor looks for. -/
inductive Target
  | secret (s : Text)
  | privateKey (label : Text)
  | bearer
  | token (lead : Text)

namespace Redactor

/-- The credentials, in the order of the passes. -/
def patternTargets : List Target :=
  privateKeyLabels.map .privateKey ++ .bearer :: tokenPrefixes.map .token

/-- All targets, in the order of their passes. -/
def targets (R : Redactor) : List Target := R.secrets.map .secret ++ patternTargets

/-- The span is one of the target. -/
def Hits (c : Cut Char) : Target → Prop
  | .secret s => c.span = s
  | .privateKey label => KeySpan label c
  | .bearer => BearerSpan c.left c.span c.right
  | .token lead => TokenSpan lead c.left c.span c.right

/-- The target stands in the text, and not as the replacement. -/
def StandsIn (R : Redactor) (t : Text) (x : Target) : Prop :=
  ∃ c : Cut Char, c.source = t ∧ Hits c x ∧ c.span ≠ R.replacement

/-- No hit of the target starts earlier. -/
def First (R : Redactor) (c : Cut Char) (x : Target) : Prop :=
  ∀ d : Cut Char, d.source = c.source → Hits d x → d.span ≠ R.replacement →
    c.left.length ≤ d.left.length

/-- The pass takes the target out, the first hit first. -/
structure TakesOut (R : Redactor) (x : Target) (p : Pass R.replacement) : Prop where
  hits : ∀ t, ∀ c ∈ p.cuts t, Hits c x ∧ R.First c x
  out : ∀ t, ¬R.StandsIn (p.out t) x

variable {R : Redactor}

theorem replacement_cases (R : Redactor) :
    R.replacement = [] ∨ R.replacement = redactedMarker := by
  rw [R.replacement_eq]
  exact replacementFor_cases R.secrets

/-- The marker is the replacement only where no secret is part of it. -/
theorem not_infix_replacement {s : Text} (hs : s ∈ R.secrets) : ¬s <:+: R.replacement := by
  have hne := R.nonempty s hs
  by_cases hin : s <:+: redactedMarker
  · have hnil : R.replacement = [] := by
      rw [R.replacement_eq, replacementFor, if_pos ⟨s, hs, hin⟩]
    rwa [hnil, List.infix_nil]
  · rcases R.replacement_cases with hr | hr
    · rwa [hr, List.infix_nil]
    · rwa [hr]

theorem ne_replacement {s : Text} (hs : s ∈ R.secrets) : s ≠ R.replacement := by
  rintro rfl
  exact not_infix_replacement hs (List.infix_refl _)

/-- A secret stands in a text when it occurs in it. -/
theorem stands_secret {s t : Text} (hs : s ∈ R.secrets) :
    R.StandsIn t (.secret s) ↔ s <:+: t := by
  constructor
  · rintro ⟨c, rfl, rfl, -⟩
    exact ⟨c.left, c.right, rfl⟩
  · rintro ⟨x, y, rfl⟩
    exact ⟨⟨x, s, y⟩, rfl, rfl, ne_replacement hs⟩

/-- The first occurrence of a secret is the one that ends first. -/
theorem first_secret {c : Cut Char} (hs : c.span ∈ R.secrets) :
    R.First c (.secret c.span) ↔ ¬c.span <:+: (c.left ++ c.span).dropLast := by
  have hne := R.nonempty c.span hs
  constructor
  · rintro hfirst ⟨x, y, hxy⟩
    have hlt := congrArg List.length hxy
    have hpos := List.length_pos_iff.mpr hne
    obtain ⟨z, hz⟩ := List.dropLast_prefix (c.left ++ c.span)
    have hle := hfirst ⟨x, c.span, y ++ z ++ c.right⟩ ?_ rfl (ne_replacement hs)
    · simp only [List.length_append, List.length_dropLast] at hle hlt
      omega
    · rw [Cut.source, Cut.source, ← hz, ← hxy]
      simp only [List.append_assoc]
  · intro hnone d hd hspan _
    have hsplit := splitFirst_of_first (b := c.right) hne hnone
    have hstands : c.left ++ c.span ++ c.right = d.left ++ d.span ++ d.right := hd.symm
    refine splitFirst_le hsplit hstands ?_
    rw [List.map_id]
    exact hspan

/-! ## Key blocks -/

def keyPass (label : Text) {r : Text} (hr : r.length ≤ 10) : Pass r :=
  .ofDrain (privateKeyScanner label) (privateKeyScanner_shrinks label hr)

/-- The loop takes the first header, and the next one after that. -/
theorem keyPass_takes (R : Redactor) (label : Text) :
    R.TakesOut (.privateKey label) (keyPass label R.replacement_length) := by
  have hdrains := fun t => (privateKeyScanner label).drains R.replacement
    (privateKeyScanner_shrinks label R.replacement_length) t
  refine ⟨fun t c hc => ?_, fun t => ?_⟩
  · have hnext := (hdrains t).exists_hit c hc
    refine ⟨keySpan_of_hit hnext, fun d hd hspan _ => ?_⟩
    obtain ⟨b, hsplit, -⟩ := privateKeyScanner_next hnext
    obtain ⟨z, hz⟩ := hspan.source
    exact splitFirst_le hsplit (hd.symm.trans hz) (List.map_id _)
  · rintro ⟨d, hd, hspan, -⟩
    have hnone := splitFirst_eq_none (Option.map_eq_none_iff.mp (hdrains t).next_eq_none)
    rw [List.map_id] at hnone
    obtain ⟨z, hz⟩ := hspan.source
    exact hnone ⟨d.left, z, hz.symm.trans hd⟩

/-! ## Runs behind bearer words -/

/-- Of the bearer word only the last letter is whitespace, and the one before
it is an `r`. -/
theorem bearer_split {x y : Text} {e : Char} (h : x ++ e :: y = bearer)
    (he : isWhitespace e = true) : x.getLast? = some 'r' := by
  have hall : ∀ n < 7, (bearer[n]?.all fun d => !isWhitespace d || n == 6) = true := by decide
  have hlen := congrArg List.length h
  simp only [List.length_append, List.length_cons, show bearer.length = 7 by decide] at hlen
  have hget : bearer[x.length]? = some e := by
    rw [← h, List.getElem?_append_right (Nat.le_refl _), Nat.sub_self]
    rfl
  have hsix := hall x.length (by omega)
  rw [hget, Option.all_some, he] at hsix
  have hx : x = bearer.take 6 := by
    have hsix : x.length = 6 := by simpa using hsix
    rw [← h, ← hsix, List.take_left]
  rw [hx]
  decide

theorem toLower_of_whitespace {d : Char} (h : isWhitespace d = true) : d.toLower = d := by
  rcases toLower_cases d with hsame | ⟨hge, hle, -⟩
  · exact hsame
  · simp only [isWhitespace, Bool.or_eq_true, Bool.and_eq_true, decide_eq_true_eq, beq_iff_eq] at h
    omega

/-- No bearer word reaches across a seam with whitespace behind it and no `r` before. -/
theorem bearer_seam {A B L w z : Text} (h : L ++ w ++ z = A ++ B)
    (hw : w.map Char.toLower = bearer) (hA : ∀ d ∈ A.getLast?, d.toLower ≠ 'r') (hB : Breaks B) :
    (∃ x, A = L ++ w ++ x ∧ z = x ++ B) ∨ ∃ x, L = A ++ x ∧ B = x ++ w ++ z := by
  rcases occurrence_append h with hleft | hright | ⟨p, q, hp, hq, rfl, hpA, hqB⟩
  · exact Or.inl hleft
  · exact Or.inr hright
  · obtain ⟨e, q, rfl⟩ := List.exists_cons_of_ne_nil hq
    rw [hqB] at hB
    have he := breaks_cons.mp hB
    rw [List.map_append, List.map_cons, toLower_of_whitespace he] at hw
    have hlast := bearer_split hw he
    rw [List.getLast?_map, Option.map_eq_some_iff] at hlast
    obtain ⟨d, hpd, hdr⟩ := hlast
    refine absurd hdr (hA d ?_)
    rw [hpA, List.getLast?_append_of_ne_nil _ hp]
    exact hpd

/-- No replacement ends in the letter before the blank of the word. -/
theorem replacement_last (R : Redactor) : ∀ d ∈ R.replacement.getLast?, d.toLower ≠ 'r' := by
  have hmarker : (redactedMarker.getLast?.all fun d => d.toLower != 'r') = true := by decide
  rcases R.replacement_cases with h | h
  · rw [h]
    simp
  · rw [h]
    intro d hd
    rw [hd, Option.all_some] at hmarker
    simpa using hmarker

/-- A run ends at the first blank, whatever comes behind that. -/
theorem run_before_blank {y : Text} (h : ∃ d ∈ y, isWhitespace d = true) (z z' : Text) :
    ((y ++ z).takeWhile fun c => !isWhitespace c)
      = (y ++ z').takeWhile fun c => !isWhitespace c := by
  have hrun : ∀ z, ((y ++ z).takeWhile fun c => !isWhitespace c)
      = y.takeWhile fun c => !isWhitespace c := by
    intro z
    obtain ⟨d, hd, hspace⟩ := h
    rw [List.takeWhile_append, if_neg]
    intro hlen
    rw [← (List.takeWhile_prefix _).eq_of_length hlen] at hd
    rw [takeWhile_run y d hd] at hspace
    cases hspace
  rw [hrun, hrun]

/-- Every open run of a text is behind a word that the cursor has not reached. -/
def BearersAhead (R : Redactor) (done t : Text) : Prop :=
  ∀ d : Cut Char, d.source = done ++ t → Hits d .bearer → d.span ≠ R.replacement →
    done.length + 7 ≤ d.left.length

/-- So the word is in what the pass has not yet seen. -/
theorem BearersAhead.word {done t : Text} {d : Cut Char} (h : R.BearersAhead done t)
    (hd : d.source = done ++ t) (hspan : Hits d .bearer) (hopen : d.span ≠ R.replacement) :
    ∃ a w, d.left = done ++ a ++ w ∧ w.map Char.toLower = bearer ∧
      t = a ++ w ++ (d.span ++ d.right) := by
  obtain ⟨x, w, hleft, hw⟩ := hspan.word
  have hlen := length_of_lower_bearer hw
  have hle := h d hd hspan hopen
  rw [hleft, List.length_append] at hle
  rw [Cut.source, hleft] at hd
  obtain ⟨a, rfl⟩ : done <+: x := by
    refine List.prefix_of_prefix_length_le ⟨t, rfl⟩ ⟨w ++ d.span ++ d.right, ?_⟩ (by omega)
    rw [← hd]
    simp only [List.append_assoc]
  refine ⟨a, w, hleft, hw, ?_⟩
  simp only [List.append_assoc, List.append_cancel_left_eq] at hd ⊢
  exact hd.symm

/-- The replacement of a run keeps the open runs ahead: a word before it has the
run it had, and its own has become the replacement. -/
theorem BearersAhead.cut {done t skip span rest : Text} (h : R.BearersAhead done t)
    (hnext : bearerScanner.next t = some (skip, span, rest)) :
    R.BearersAhead (done ++ skip ++ R.replacement) rest := by
  obtain ⟨a, m, b, hsplit, hskip, hspan, hrest⟩ := bearerScanner_next hnext
  have hm := (splitFirst_eq_some hsplit).2
  have hmne : m ≠ [] := by
    rintro rfl
    cases hm
  have hbreaks : Breaks rest := hrest ▸ breaks_dropWhile b
  have hlast : (done ++ skip).getLast? = some ' ' := by
    rw [hskip, ← List.append_assoc, List.getLast?_append_of_ne_nil _ hmne, bearer_last hm]
  intro d hd hhits hopen
  obtain ⟨⟨L, w, hleft, hw⟩, hne, hrun⟩ := id hhits
  have hlen := length_of_lower_bearer hw
  rw [Cut.source, hleft, List.append_assoc _ d.span] at hd
  have hend : ∀ e ∈ (done ++ skip ++ R.replacement).getLast?, e.toLower ≠ 'r' := by
    by_cases hnil : R.replacement = []
    · rw [hnil, List.append_nil, hlast]
      intro e he
      obtain rfl := Option.some.inj he
      decide
    · rw [List.getLast?_append_of_ne_nil _ hnil]
      exact R.replacement_last
  rcases bearer_seam hd hw hend hbreaks with ⟨x, hdone, hbehind⟩ | ⟨x, hL, -⟩
  swap
  · rw [hleft, hL]
    simp only [List.length_append]
    omega
  -- the word does not touch the replacement
  obtain ⟨y, hy, rfl⟩ : ∃ y, done ++ skip = L ++ w ++ y ∧ x = y ++ R.replacement := by
    rcases R.replacement_cases with hr | hr
    · rw [hr, List.append_nil] at hdone
      exact ⟨x, hdone, by rw [hr, List.append_nil]⟩
    · rw [hr] at hdone ⊢
      rcases shields_bearer hw L x (done ++ skip) [] (by rw [List.append_nil, hdone]) with
        ⟨y, hy, hx⟩ | ⟨y, -, hnil⟩
      · exact ⟨y, hy, by rw [hx, List.append_nil]⟩
      · have := congrArg List.length hnil
        simp only [List.length_nil, List.length_append] at this
        omega
  rw [hbehind, List.append_assoc] at hrun
  by_cases hnil : y = []
  · -- it is the word whose run was replaced
    refine absurd ?_ hopen
    rw [← hrun, hnil, List.nil_append]
    rcases R.replacement_cases with hr | hr
    · rw [hr, List.nil_append, takeWhile_of_breaks hbreaks]
    · rw [hr, List.takeWhile_append_of_pos marker_run, takeWhile_of_breaks hbreaks,
        List.append_nil]
  · -- its run ends before the word found, and it was ahead
    have hblank : ∃ d ∈ y, isWhitespace d = true := by
      rw [hy, List.getLast?_append_of_ne_nil _ hnil] at hlast
      exact ⟨' ', List.mem_of_getLast? hlast, by decide⟩
    rw [run_before_blank hblank _ (span ++ rest)] at hrun
    have hsource : Cut.source ⟨L ++ w, d.span,
        (y ++ (span ++ rest)).dropWhile fun c => !isWhitespace c⟩ = done ++ t := by
      rw [Cut.source, ← hrun, List.append_assoc, List.takeWhile_append_dropWhile,
        bearerScanner.next_append hnext, List.append_assoc skip, ← List.append_assoc done, hy,
        List.append_assoc (L ++ w)]
    obtain ⟨a', w', hleft', hw', ht⟩ := h.word hsource
      ⟨⟨L, w, rfl, hw⟩, hne, by rw [← hrun, List.takeWhile_append_dropWhile]⟩ hopen
    have hlen' := length_of_lower_bearer hw'
    have hleft'' := congrArg List.length hleft'
    have hlen'' := congrArg List.length hy
    have hypos := List.length_pos_iff.mpr hnil
    simp only [List.length_append] at hleft'' hlen''
    have hle := bearerScanner_le hnext ht hw'
    rw [List.length_append] at hle
    omega

/-- A pass over the runs takes first hits, and leaves none. -/
theorem bearer_ahead {done t out : Text} {cs : List (Cut Char)}
    (h : bearerScanner.Scans R.replacement done t cs out) (hahead : R.BearersAhead done t) :
    (∀ c ∈ cs, Hits c .bearer ∧ R.First c .bearer) ∧ ¬R.StandsIn (done ++ out) .bearer := by
  induction h with
  | stop hnext =>
      refine ⟨by simp, ?_⟩
      rintro ⟨d, hd, hspan, hopen⟩
      obtain ⟨a, w, -, hw, ht⟩ := hahead.word hd hspan hopen
      exact bearerScanner_none hnext ht hw
  | @keep done t skip rest out cs hnext tail ih =>
      have happ := bearerScanner.next_append hnext
      rw [List.append_nil] at happ
      rw [← List.append_assoc]
      refine ih fun d hd hspan hopen => ?_
      rw [List.append_assoc, ← happ] at hd
      obtain ⟨a, w, hleft, hw, ht⟩ := hahead.word hd hspan hopen
      have hlen := length_of_lower_bearer hw
      rcases bearerScanner_word hnext ht hw with ⟨-, hrun⟩ | ⟨x, -, ha, -⟩ | ⟨x, ha, -⟩
      · -- its run is empty
        obtain ⟨a', m, b, -, -, hnil, hrest⟩ := bearerScanner_next hnext
        rw [List.nil_append] at hrun
        refine absurd ?_ hspan.nonempty
        rw [← hspan.run, hrun, hrest]
        exact takeWhile_of_breaks (breaks_dropWhile b)
      · rw [hleft, ha]
        simp only [List.length_append]
        omega
      · rw [hleft, ha]
        simp only [List.length_append]
        omega
  | @cut done t skip span rest out cs hne hnext tail ih =>
      obtain ⟨hcs, hout⟩ := ih (hahead.cut hnext)
      refine ⟨List.forall_mem_cons.mpr ⟨⟨?_, fun d hd hspan hopen => ?_⟩, hcs⟩, ?_⟩
      · obtain ⟨⟨a, m, rfl, hm⟩, -, hrun⟩ := bearerSpan_of_hit hnext hne
        exact ⟨⟨done ++ a, m, by rw [List.append_assoc], hm⟩, hne, hrun⟩
      · have hsource : Cut.source ⟨done ++ skip, span, rest⟩ = done ++ t := by
          rw [bearerScanner.next_append hnext]
          simp only [Cut.source, List.append_assoc]
        obtain ⟨a, w, hleft, hw, ht⟩ := hahead.word (hd.trans hsource) hspan hopen
        rw [hleft]
        have hle := bearerScanner_le hnext ht hw
        simp only [List.length_append] at hle ⊢
        omega
      · simpa using hout

def bearerPass (R : Redactor) : Pass R.replacement := .ofScan bearerScanner R.replacement

/-- The scan leaves no open run behind it, so it takes them from left to right. -/
theorem bearerPass_takes (R : Redactor) : R.TakesOut .bearer R.bearerPass := by
  have hahead : ∀ t, R.BearersAhead [] t := by
    rintro t d - hspan -
    obtain ⟨a, w, hleft, hw⟩ := hspan.word
    have := length_of_lower_bearer hw
    rw [hleft]
    simp only [List.length_append, List.length_nil]
    omega
  exact ⟨fun t => (bearer_ahead (bearerScanner.scans R.replacement [] t) (hahead t)).1,
    fun t => (bearer_ahead (bearerScanner.scans R.replacement [] t) (hahead t)).2⟩

/-! ## Tokens -/

/-- The replacement does not start as a token goes on. -/
theorem replacement_breaks (R : Redactor) {z : Text} (hz : ∀ d ∈ z.head?, isTokenChar d = false) :
    ∀ d ∈ (R.replacement ++ z).head?, isTokenChar d = false := by
  rcases R.replacement_cases with hr | hr
  · rw [hr]
    exact hz
  · rw [hr]
    intro d hd
    obtain rfl := Option.some.inj hd
    decide

/-- A token around a replacement that breaks off what comes before stands wholly
behind it, or it stood there before the cut, and maybe longer. -/
theorem token_of_result {lead : Text} {c d : Cut Char} (hlead : lead ∈ tokenPrefixes)
    (hstop : ∀ d ∈ (R.replacement ++ c.right).head?, isTokenChar d = false)
    (hd : TokenSpan lead d.left d.span d.right) (hsource : d.source = c.result R.replacement) :
    (c.left ++ R.replacement).length ≤ d.left.length ∨
      ∃ e : Cut Char, e.source = c.source ∧ TokenSpan lead e.left e.span e.right ∧
        e.left = d.left ∧ d.left.length < c.left.length := by
  obtain ⟨body, hspan, htoken⟩ := isToken_of_span hlead hd
  rw [Cut.source, Cut.result, List.append_assoc, List.append_assoc] at hsource
  rcases List.append_eq_append_iff.mp hsource with ⟨y, hleft, hrest⟩ | ⟨y, hleft, hrest⟩
  · have hrun := hd.run
    rw [hrest, run_before_break hstop] at hrun
    have hy : y ≠ [] := by
      rintro rfl
      rw [List.takeWhile_nil, hspan] at hrun
      exact tokenPrefixes_ne_nil lead hlead (List.append_eq_nil_iff.mp hrun.symm).1
    -- the run before the replacement went on with what was replaced
    have hpre : d.span <+: (y ++ (c.span ++ c.right)).takeWhile isTokenChar := by
      rw [← hrun, List.takeWhile_append]
      split
      · exact (List.takeWhile_prefix _).trans (List.prefix_append ..)
      · exact List.prefix_rfl
    obtain ⟨z, hz⟩ := id hpre
    refine Or.inr ⟨⟨d.left, (y ++ (c.span ++ c.right)).takeWhile isTokenChar,
      (y ++ (c.span ++ c.right)).dropWhile isTokenChar⟩, ?_, ⟨hd.starts.trans hpre, ?_, ?_⟩,
      rfl, ?_⟩
    · rw [Cut.source, Cut.source, List.append_assoc, List.takeWhile_append_dropWhile, hleft]
      simp only [List.append_assoc]
    · have hlong := hd.long
      rw [← hz, byteLen_append]
      omega
    · rw [List.takeWhile_append_dropWhile]
    · have := List.length_pos_iff.mpr hy
      rw [hleft, List.length_append]
      omega
  · refine Or.inl ?_
    rw [hleft, List.length_append, List.length_append]
    by_contra hlt
    -- it would start inside of the marker, which is too short and ends with a bracket
    obtain ⟨m, hm⟩ : y <+: R.replacement :=
      List.prefix_of_prefix_length_le ⟨_, hrest.symm⟩ (List.prefix_append ..) (by omega)
    have hmne : m ≠ [] := by
      rintro rfl
      rw [← hm, List.append_nil] at hlt
      omega
    have hr : R.replacement = redactedMarker := R.replacement_cases.resolve_left fun hr => by
      rw [hr] at hm
      exact hmne (List.append_eq_nil_iff.mp hm).2
    rw [← hm, List.append_assoc, List.append_cancel_left_eq] at hrest
    rcases List.prefix_or_prefix_of_prefix ⟨d.right, rfl⟩ (hrest ▸ List.prefix_append m c.right)
      with hpre | hpre
    · have hle := hpre.length_le
      have hbody := htoken.2.2
      have hten := R.replacement_length
      rw [← hm, List.length_append] at hten
      rw [hspan, List.length_append] at hle
      omega
    · have hlast : m.getLast? = some ']' := by
        rw [← List.getLast?_append_of_ne_nil y hmne, hm, hr]
        decide
      have hclose := hd.chars ']' (hpre.subset (List.mem_of_getLast? hlast))
      exact absurd hclose (by decide)

/-- The tokens of a text start where the cursor has not been. -/
def TokensAhead (lead done t : Text) : Prop :=
  ∀ d : Cut Char, d.source = done ++ t → TokenSpan lead d.left d.span d.right →
    done.length ≤ d.left.length

/-- A token of the text has its lead ahead of the scan. -/
theorem TokensAhead.lead {lead done t : Text} {d : Cut Char} (h : TokensAhead lead done t)
    (hd : d.source = done ++ t) (hspan : TokenSpan lead d.left d.span d.right) :
    ∃ a z, d.left = done ++ a ∧ d.span = lead ++ z ∧ t = a ++ lead ++ (z ++ d.right) := by
  obtain ⟨z, hz⟩ := hspan.starts
  have hle := h d hd hspan
  rw [Cut.source, List.append_assoc, ← hz] at hd
  obtain ⟨a, ha⟩ : done <+: d.left :=
    List.prefix_of_prefix_length_le ⟨t, rfl⟩ (hd ▸ List.prefix_append ..) hle
  refine ⟨a, z, ha.symm, hz.symm, ?_⟩
  rw [← ha] at hd
  simp only [List.append_assoc, List.append_cancel_left_eq] at hd ⊢
  exact hd.symm

/-- A pass over the tokens of a service takes first hits, and leaves none. -/
theorem token_ahead {lead done t out : Text} (hlead : lead ∈ tokenPrefixes) {cs : List (Cut Char)}
    (h : (tokenScanner lead (tokenPrefixes_ne_nil lead hlead)).Scans R.replacement done t cs out)
    (hahead : TokensAhead lead done t) :
    (∀ c ∈ cs, Hits c (.token lead) ∧ R.First c (.token lead)) ∧
      ¬R.StandsIn (done ++ out) (.token lead) := by
  induction h with
  | stop hnext =>
      refine ⟨by simp, ?_⟩
      rintro ⟨d, hd, hspan, -⟩
      obtain ⟨a, z, -, -, ht⟩ := hahead.lead hd hspan
      have hnone := splitFirst_eq_none (Option.map_eq_none_iff.mp hnext)
      rw [List.map_id] at hnone
      exact hnone ⟨a, _, ht.symm⟩
  | @keep done t skip rest out cs hnext tail ih =>
      have happ := (tokenScanner lead (tokenPrefixes_ne_nil lead hlead)).next_append hnext
      rw [List.append_nil] at happ
      rw [← List.append_assoc]
      refine ih fun d hd hspan => ?_
      rw [List.append_assoc, ← happ] at hd
      obtain ⟨a, z, hleft, hz, ht⟩ := hahead.lead hd hspan
      obtain ⟨a', b, hsplit, ⟨-, hne, -⟩ | ⟨hshort, -, hskip, rfl⟩⟩ := tokenScanner_next hnext
      · exact absurd rfl hne
      rw [hleft, hskip]
      obtain ⟨happ', -⟩ := splitFirst_eq_some hsplit
      rcases occurrence_from_first (unbordered_lead lead hlead) hsplit (List.map_id lead)
        (ht.symm.trans happ') with ⟨-, -, hrest⟩ | ⟨x, ha, -⟩
      · -- the run stepped over is too short
        refine absurd ?_ hshort
        have hrun := hspan.run
        rw [hz, List.append_assoc, hrest, ← hz] at hrun
        rw [hrun]
        exact hspan.long
      · rw [ha]
        simp only [List.length_append]
        omega
  | @cut done t skip span rest out cs hne hnext tail ih =>
      have happ := (tokenScanner lead (tokenPrefixes_ne_nil lead hlead)).next_append hnext
      have hsource : Cut.source ⟨done ++ skip, span, rest⟩ = done ++ t := by
        rw [happ]
        simp only [Cut.source, List.append_assoc]
      obtain ⟨hstarts, hlong, hrun⟩ := tokenSpan_of_hit hnext hne (tokenPrefixes_chars lead hlead)
      have hc : TokenSpan lead (done ++ skip) span rest := ⟨hstarts, hlong, hrun⟩
      obtain ⟨a', b, hsplit, ⟨-, -, rfl, -⟩ | ⟨-, hnil, -⟩⟩ := tokenScanner_next hnext
      swap
      · exact absurd hnil hne
      have hfirst : ∀ d : Cut Char, d.source = done ++ t → TokenSpan lead d.left d.span d.right →
          (done ++ skip).length ≤ d.left.length := by
        intro d hd hspan
        obtain ⟨a, z, hleft, -, ht⟩ := hahead.lead hd hspan
        have hle := splitFirst_le hsplit ht (List.map_id lead)
        rw [hleft, List.length_append, List.length_append]
        omega
      obtain ⟨hcs, hout⟩ := ih fun d hd hspan => by
        rcases token_of_result (c := ⟨done ++ skip, span, rest⟩) hlead
          (R.replacement_breaks hc.breaks) hspan hd with hle | ⟨e, he, hespan, hleft, hlt⟩
        · exact hle
        · have hle := hfirst e (he.trans hsource) hespan
          rw [← hleft] at hlt
          exact absurd hlt (Nat.not_lt_of_le hle)
      refine ⟨List.forall_mem_cons.mpr ⟨⟨hc, fun d hd hspan _ => ?_⟩, hcs⟩, by simpa using hout⟩
      exact hfirst d (hd.trans hsource) hspan

def tokenPass (R : Redactor) (lead : Text) (hlead : lead ∈ tokenPrefixes) : Pass R.replacement :=
  .ofScan (tokenScanner lead (tokenPrefixes_ne_nil lead hlead)) R.replacement

/-- The scan leaves no long token behind it. -/
theorem tokenPass_takes (R : Redactor) {lead : Text} (hlead : lead ∈ tokenPrefixes) :
    R.TakesOut (.token lead) (R.tokenPass lead hlead) := by
  have hscans := (tokenScanner lead (tokenPrefixes_ne_nil lead hlead)).scans R.replacement []
  have hahead : ∀ t, TokensAhead lead [] t := fun t d _ _ => Nat.zero_le _
  exact ⟨fun t => (token_ahead hlead (hscans t) (hahead t)).1,
    fun t => (token_ahead hlead (hscans t) (hahead t)).2⟩

end Redactor

end PeakcodeDaemon
