import PeakcodeDaemon.Lib.JsonStrings
import PeakcodeDaemon.RedactionLeads

/-!
# Redaction of JSON arguments

The arguments of a tool call are a JSON text inside a string field, and
the redactor rewrites that text like any other. Two things are at stake,
and each is decided by the hits that replacing in turn comes to
(`Replaces`).

- **the text stays JSON** (`clean_isJson`): as long as every hit starts
  and ends inside one string literal, outside its escapes (`InsideLiteral`),
  the automaton of the grammar does not notice a replacement
  (`InsideLiteral.isJson_iff`);
- **no string decoded from it shows a secret** (`decoded_hidden`), if the
  redactor can see the secrets through the escapes (`Seen`): what is decoded
  stands in the text in escaped form and not from the middle of an escape
  on (`Json.legible_of_strings`), no replacement brings such a place about
  (`Json.Legible.of_result`), and a secret without special characters is
  its own escaped form, which its sweep removes (`clean_gone`).

In marker mode, with secrets free of brackets, both can be told from the
arguments as they are (`inside_of_inLiterals`, `seen_of_inLiterals`):
without key headers (`InLiterals`) only secrets, runs behind bearer words
and tokens are ever replaced, and one that stands in a literal at some point
stood in one from the start, since replacing in a literal leaves the
automaton where it was (`InsideLiteral.behind`, `InsideLiteral.within`). A
run behind a word goes on when the blank that ends it is replaced, so there
no secret may have one (`InLiterals.bearers_cut`).
-/

namespace PeakcodeDaemon

open Splice

/-! ## The text stays JSON -/

/-- The span starts and ends inside one string literal, outside its escapes. -/
def InsideLiteral (c : Cut Char) : Prop :=
  ∃ k st, Json.run (.value, []) c.left = some (.str k .none, st) ∧
    Json.run (.str k .none, st) c.span = some (.str k .none, st)

theorem run_plain (k : Bool) (st : List Json.Frame) {w : Text}
    (hw : ∀ d ∈ w, Json.special d = false) :
    Json.run (.str k .none, st) w = some (.str k .none, st) := by
  rw [← Json.escapeAll_of_not_special hw]
  exact Json.run_escapeAll k st w

/-- A cut inside a literal is one the automaton does not notice. -/
theorem InsideLiteral.isJson_iff {c : Cut Char} {r : Text}
    (hr : ∀ d ∈ r, Json.special d = false) (h : InsideLiteral c) :
    Json.IsJson (c.result r) ↔ Json.IsJson c.source := by
  obtain ⟨k, st, hleft, hspan⟩ := h
  have hreplaced := run_plain k st hr
  have hrun : Json.run (.value, []) (c.result r) = Json.run (.value, []) c.source := by
    rw [Cut.result, Cut.source, Json.run_append, Json.run_append, Json.run_append,
      Json.run_append, hleft, Option.bind_some, Option.bind_some, hspan, hreplaced]
  rw [Json.IsJson, hrun]
  rfl

/-- And behind it the automaton is where it was. -/
theorem InsideLiteral.behind {c : Cut Char} {z w y : Text} (hc : InsideLiteral c)
    (h : InsideLiteral ⟨c.left ++ c.span ++ z, w, y⟩) {r : Text}
    (hr : ∀ d ∈ r, Json.special d = false) : InsideLiteral ⟨c.left ++ r ++ z, w, y⟩ := by
  obtain ⟨k, st, hleft, hspan⟩ := hc
  obtain ⟨k', st', hleft', hspan'⟩ := h
  refine ⟨k', st', ?_, hspan'⟩
  simp only [Json.run_append, hleft, hspan, run_plain k st hr, Option.bind_some] at hleft' ⊢
  exact hleft'

/-- So is one inside a wider span that is. -/
theorem InsideLiteral.within {c : Cut Char} {a x y z z' : Text} (hc : InsideLiteral c)
    (hleft : c.left = a ++ x) (h : InsideLiteral ⟨a, x ++ c.span ++ y, z⟩) {r : Text}
    (hr : ∀ d ∈ r, Json.special d = false) : InsideLiteral ⟨a, x ++ r ++ y, z'⟩ := by
  obtain ⟨k, st, hrun, hspan⟩ := hc
  obtain ⟨k', st', ha, hwide⟩ := h
  refine ⟨k', st', ha, ?_⟩
  rw [hleft, Json.run_append, ha, Option.bind_some] at hrun
  simp only [Json.run_append, hrun, hspan, run_plain k st hr, Option.bind_some] at hwide ⊢
  exact hwide

theorem tokenChar_not_special {d : Char} (h : isTokenChar d = true) : Json.special d = false :=
  tokenChar_avoids (by decide) h

namespace Redactor

theorem replacement_not_special (R : Redactor) : ∀ d ∈ R.replacement, Json.special d = false := by
  have hmarker : redactedMarker.all (fun d => !Json.special d) = true := by decide
  rcases replacementFor_cases R.secrets with h | h
  · rw [R.replacement_eq, h]
    simp
  · rw [R.replacement_eq, h]
    simpa using hmarker

/-- Replacements inside of literals leave the arguments JSON. -/
theorem clean_isJson (R : Redactor) (v : Json.Value)
    (hinside : ∀ before x c, R.Replaces (Json.render v) before x c → InsideLiteral c) :
    Json.IsJson (R.clean (Json.render v)) := by
  refine (R.clean_chain _).preserves (fun c hc => ?_) (Json.isJson_render v)
  obtain ⟨before, x, hreplaces⟩ := R.cuts_replaces _ c hc
  exact ((hinside before x c hreplaces).isJson_iff R.replacement_not_special).mpr

/-! ## When every hit stands in a literal -/

/-- The text has no key header, and every secret, every run behind a bearer word and
every token in it stands inside one string literal, outside its escapes. Where there
is a bearer word, no secret has a blank. -/
structure InLiterals (R : Redactor) (t : Text) : Prop where
  headers : ∀ label ∈ privateKeyLabels, ¬beginHeader label <:+: t
  secrets : ∀ c : Cut Char, c.source = t → c.span ∈ R.secrets → InsideLiteral c
  bearers : ∀ c : Cut Char, c.source = t → BearerSpan c.left c.span c.right → InsideLiteral c
  tokens : ∀ c : Cut Char, c.source = t →
    ∀ lead ∈ tokenPrefixes, TokenSpan lead c.left c.span c.right → InsideLiteral c
  blanks : ∀ L w z, t = L ++ w ++ z → w.map Char.toLower = bearer →
    ∀ s ∈ R.secrets, ∀ d ∈ s, isWhitespace d = false

variable {R : Redactor}

theorem InTurn.inside {done before : List Target} {back : Set Target} {x : Target} {c : Cut Char}
    (h : R.InTurn done back before x c) (ht : R.InLiterals c.source) : InsideLiteral c := by
  rcases h.cases with hs | ⟨label, hlabel, hkey⟩ | ⟨-, ⟨hbearer, -⟩ | ⟨-, lead, hlead, htoken⟩⟩
  · exact ht.secrets c rfl hs
  · refine absurd ?_ (ht.headers label hlabel)
    obtain ⟨z, hz⟩ := hkey.source
    exact ⟨c.left, z, hz.symm⟩
  · exact ht.bearers c rfl hbearer
  · exact ht.tokens c rfl lead hlead htoken

/-- Where there is a bearer word, what is replaced has no blank. -/
theorem InTurn.unbroken {done before : List Target} {back : Set Target} {x : Target}
    {c : Cut Char} (h : R.InTurn done back before x c) (ht : R.InLiterals c.source) {L w z : Text}
    (hsource : c.source = L ++ w ++ z) (hw : w.map Char.toLower = bearer) :
    c.span ≠ [] ∧ ∀ d ∈ c.span, isWhitespace d = false := by
  rcases h.cases with hs | ⟨label, hlabel, hkey⟩ | ⟨-, ⟨hbearer, -⟩ | ⟨-, lead, hlead, htoken⟩⟩
  · exact ⟨R.nonempty _ hs, ht.blanks L w z hsource hw _ hs⟩
  · refine absurd ?_ (ht.headers label hlabel)
    obtain ⟨z, hz⟩ := hkey.source
    exact ⟨c.left, z, hz.symm⟩
  · refine ⟨hbearer.nonempty, ?_⟩
    rw [← hbearer.run]
    exact takeWhile_run _
  · refine ⟨?_, fun d hd => tokenChar_not_space (htoken.chars d hd)⟩
    intro hnil
    have hstarts := htoken.starts
    rw [hnil, List.prefix_nil] at hstarts
    exact tokenPrefixes_ne_nil lead hlead hstarts

/-- With the marker, replacing a span in a literal leaves the runs behind bearer words
in their literals: a run around the span grows or shrinks with it, and any other one is
as it was. -/
theorem InLiterals.bearers_cut (hr : R.replacement = redactedMarker) {c d : Cut Char}
    (ht : R.InLiterals c.source) (hc : InsideLiteral c)
    (hspan : ∀ L w z, c.source = L ++ w ++ z → w.map Char.toLower = bearer →
      c.span ≠ [] ∧ ∀ d ∈ c.span, isWhitespace d = false)
    (hd : d.source = c.result redactedMarker) (hbearer : BearerSpan d.left d.span d.right) :
    InsideLiteral d := by
  have hplain := hr ▸ R.replacement_not_special
  obtain ⟨L, w, hleft, hw⟩ := hbearer.word
  have heq : c.result redactedMarker = L ++ w ++ (d.span ++ d.right) := by
    rw [← hd, Cut.source, hleft, List.append_assoc (L ++ w)]
  have hsplit : ∀ u : Text, (u.takeWhile fun c => !isWhitespace c)
      ++ (u.dropWhile fun c => !isWhitespace c) = u := fun u => List.takeWhile_append_dropWhile
  rcases occurrence_before (shields_bearer hw) heq with ⟨x, hx, hsource⟩ | ⟨x, hx, hsource⟩
  · -- the word is left of the span, and so may be the end of its run
    have hrun := hbearer.run
    rw [Cut.result, hx, List.append_assoc _ x, List.append_assoc (L ++ w),
      List.append_cancel_left_eq] at heq
    rw [← heq] at hrun
    obtain ⟨hne, hwhole⟩ := hspan L w _ hsource hw
    by_cases hblank : ∃ d ∈ x, isWhitespace d = true
    · rw [List.append_assoc, run_before_blank hblank _ (c.span ++ c.right)] at hrun
      obtain ⟨k, st, hrunleft, hrunspan⟩ := ht.bearers
        ⟨L ++ w, d.span, (x ++ (c.span ++ c.right)).dropWhile fun c => !isWhitespace c⟩
        (by rw [hsource, Cut.source, ← hrun, List.append_assoc (L ++ w), hsplit,
          List.append_assoc x])
        ⟨⟨L, w, rfl, hw⟩, hbearer.nonempty, by rw [← hrun, hsplit]⟩
      exact ⟨k, st, hleft ▸ hrunleft, hrunspan⟩
    · have hx' : ∀ d ∈ x, (!isWhitespace d) = true := fun d hd => by
        simpa using fun hspace => hblank ⟨d, hd, hspace⟩
      have hwhole' : ∀ d ∈ x ++ c.span, (!isWhitespace d) = true :=
        List.forall_mem_append.mpr ⟨hx', fun d hd => by simpa using hwhole d hd⟩
      rw [List.takeWhile_append_of_pos (List.forall_mem_append.mpr ⟨hx', marker_run⟩)] at hrun
      have hwide := ht.bearers ⟨L ++ w, x ++ c.span ++ c.right.takeWhile fun c => !isWhitespace c,
        c.right.dropWhile fun c => !isWhitespace c⟩
        (by rw [hsource, Cut.source, List.append_assoc (L ++ w), List.append_assoc (x ++ c.span),
          hsplit])
        ⟨⟨L, w, rfl, hw⟩, by simp [hne], by
          rw [List.append_assoc, hsplit, List.takeWhile_append_of_pos hwhole']⟩
      have hin : InsideLiteral ⟨L ++ w,
          x ++ redactedMarker ++ c.right.takeWhile fun c => !isWhitespace c, d.right⟩ :=
        hc.within hx hwide hplain
      obtain ⟨k, st, hrunleft, hrunspan⟩ := hin
      exact ⟨k, st, hleft ▸ hrunleft, hrun ▸ hrunspan⟩
  · have hin := hc.behind (ht.bearers ⟨c.left ++ c.span ++ (x ++ w), d.span, d.right⟩
      (by rw [hsource, Cut.source]; simp only [List.append_assoc])
      ⟨⟨c.left ++ c.span ++ x, w, (List.append_assoc ..).symm, hw⟩, hbearer.nonempty,
        hbearer.run⟩) hplain
    rw [← List.append_assoc, ← hx, ← hleft] at hin
    exact hin

/-- With the marker, replacing a span in a literal brings nothing out of the literals. -/
theorem InLiterals.cut (hr : R.replacement = redactedMarker)
    (hsecrets : ∀ s ∈ R.secrets, Shields redactedMarker s) {c : Cut Char}
    (ht : R.InLiterals c.source) (hc : InsideLiteral c)
    (hspan : ∀ L w z, c.source = L ++ w ++ z → w.map Char.toLower = bearer →
      c.span ≠ [] ∧ ∀ d ∈ c.span, isWhitespace d = false) :
    R.InLiterals (c.result R.replacement) := by
  have hplain := R.replacement_not_special
  refine ⟨fun label hlabel hin => ?_, fun d hd hs => ?_, fun d hd hbearer => ?_,
    fun d hd lead hlead htoken => ?_, fun L w z heq hw => ?_⟩
  · obtain ⟨hopen, hclose, hmarker⟩ := header_free label hlabel
    rw [hr] at hin
    exact Cut.avoids (shields_marker hopen hclose hmarker).not_meets (ht.headers label hlabel) hin
  · have heq := hd.symm
    rw [hr, Cut.source] at heq
    rcases occurrence_before (hsecrets _ hs) heq with ⟨x, -, hsource⟩ | ⟨x, hleft, hsource⟩
    · obtain ⟨k, st, hrun, hspan⟩ :=
        ht.secrets ⟨d.left, d.span, x ++ c.span ++ c.right⟩ hsource.symm hs
      exact ⟨k, st, hrun, hspan⟩
    · have hin := hc.behind (ht.secrets ⟨_, d.span, d.right⟩ hsource.symm hs) hplain
      rw [hr, ← hleft] at hin
      exact hin
  · exact ht.bearers_cut hr hc hspan (hr ▸ hd) hbearer
  · have hstop : ∀ e ∈ (R.replacement ++ c.right).head?, isTokenChar e = false := by
      rw [hr]
      intro e he
      obtain rfl := Option.some.inj he
      decide
    rcases token_of_result hlead hstop htoken hd with hle | ⟨e, he, hespan, hleft, -⟩
    · obtain ⟨z, hz⟩ : c.left ++ R.replacement <+: d.left :=
        List.prefix_of_prefix_length_le ⟨c.right, rfl⟩
          (by rw [show c.left ++ R.replacement ++ c.right = d.source from hd.symm, Cut.source,
            List.append_assoc]; exact List.prefix_append ..) hle
      have hright : c.right = z ++ (d.span ++ d.right) := by
        rw [Cut.source, Cut.result, ← hz] at hd
        simpa only [List.append_assoc, List.append_cancel_left_eq] using hd.symm
      have hin := hc.behind (ht.tokens ⟨c.left ++ c.span ++ z, d.span, d.right⟩
        (by rw [Cut.source, Cut.source, hright]; simp only [List.append_assoc]) lead hlead
        ⟨htoken.starts, htoken.long, htoken.run⟩) hplain
      rw [hz] at hin
      exact hin
    · obtain ⟨k, st, hrun, -⟩ := ht.tokens e he lead hlead hespan
      exact ⟨k, st, hleft ▸ hrun,
        run_plain k st fun a ha => tokenChar_not_special (htoken.chars a ha)⟩
  · rw [hr] at heq
    rcases occurrence_before (shields_bearer hw) heq with ⟨x, -, hsource⟩ | ⟨x, -, hsource⟩
    · exact ht.blanks _ w _ hsource hw
    · exact ht.blanks _ w _ hsource hw

theorem inside_of_inLiterals (hr : R.replacement = redactedMarker)
    (hsecrets : ∀ s ∈ R.secrets, Shields redactedMarker s) {text : Text}
    (h : R.InLiterals text) {before : List Target} {x : Target} {c : Cut Char}
    (hreplaces : R.Replaces text before x c) : InsideLiteral c := by
  have hcomes : ∀ {done back t}, R.Comes text done back t → R.InLiterals t := by
    intro done back t hcomes
    induction hcomes with
    | start => exact h
    | next _ hturn ih =>
        exact ih.cut hr hsecrets (hturn.inside ih) fun _ _ _ => hturn.unbroken ih
  obtain ⟨done, back, hsource, hturn⟩ := hreplaces
  exact hturn.inside (hcomes hsource)

variable {providerApiKey : Text} {values : List (Text × Text)}

def keyArguments : Json.Value := .obj [("k".toList, .str "=provider1;".toList)]

def bearerArguments : Json.Value := .obj [("h".toList, .str "bearer abc".toList)]

end Redactor

/-! ## The strings decoded from it -/

/-- The character is not written as it is. -/
def Special (s : Text) : Prop := ∃ c ∈ s, Json.special c = true

/-- The redactor can see its innermost secrets in a serialized text. One that is
written with escapes does not occur in it so; no span that replacing them in turn
comes to ends inside of an escape; and where a secret is not swept any more, no
replacement completes its escaped form. -/
structure Seen (R : Redactor) (text : Text) : Prop where
  absent : ∀ s, R.Innermost s → Special s → ¬Json.Legible '[' (Json.escapeAll s) text
  whole : ∀ before x c, R.Replaces text before x c → Json.EndsOutside '[' c
  apart : ∀ before x c, R.Replaces text before x c → ∀ s, R.Innermost s →
    Special s ∨ .secret s ∈ before ++ [x] → ¬Meets R.replacement (Json.escapeAll s) c

theorem breaksOff_bracket : Json.BreaksOff '[' := by decide

theorem marker_tail : '\\' ∉ "REDACTED]".toList := by decide

theorem escapeAll_plain {s : Text} (h : ¬Special s) : Json.escapeAll s = s :=
  Json.escapeAll_of_not_special fun c hc => Bool.eq_false_iff.mpr fun hcs => h ⟨c, hc, hcs⟩

namespace Redactor

variable {R : Redactor} {text : Text}

/-- Each replacement keeps the escapes whole, and escaped secrets illegible. -/
theorem Seen.clean (hr : R.replacement = redactedMarker) (h : Seen R text)
    (hcanon : Json.Canonical '[' text) :
    Json.Canonical '[' (R.clean text) ∧
      ∀ s, R.Innermost s → Special s → ¬Json.Legible '[' (Json.escapeAll s) (R.clean text) := by
  refine (R.clean_chain text).preserves (P := fun t => Json.Canonical '[' t ∧
    ∀ s, R.Innermost s → Special s → ¬Json.Legible '[' (Json.escapeAll s) t) (fun c hc => ?_)
    ⟨hcanon, h.absent⟩
  obtain ⟨before, x, hreplaces⟩ := R.cuts_replaces text c hc
  have hends := h.whole before x c hreplaces
  rintro ⟨hsource, hnone⟩
  refine ⟨?_, fun s hs hspecial hlegible => ?_⟩
  · rw [hr]
    exact hsource.replace breaksOff_bracket marker_tail hends
  · have hmeets := h.apart before x c hreplaces s hs (Or.inl hspecial)
    rw [hr] at hlegible hmeets
    exact hnone s hs hspecial
      (hlegible.of_result breaksOff_bracket marker_tail hsource hends hmeets)

/-- No string decoded from the redacted text shows a secret. -/
theorem decoded_hidden (hr : R.replacement = redactedMarker) (h : Seen R text)
    (hcanon : Json.Canonical '[' text) {us : List Text}
    (hus : Json.strings (R.clean text) = some us) : ∀ u ∈ us, ∀ s ∈ R.secrets, ¬s <:+: u := by
  intro u hu w hw hin
  obtain ⟨s, hs, hsw⟩ := exists_innermost hw
  obtain ⟨hcanon', hnone⟩ := Seen.clean hr h hcanon
  have hlegible := (Json.legible_of_strings breaksOff_bracket hcanon' hus hu).part (hsw.trans hin)
  by_cases hspecial : Special s
  · exact hnone s hs hspecial hlegible
  · -- a plain secret stands in the text as it is, and its sweep has seen it
    have hgone : ¬s <:+: R.clean text := by
      refine clean_gone hs.1 fun before x c hreplaces hover => ?_
      rw [← escapeAll_plain hspecial]
      exact h.apart before x c hreplaces s hs (Or.inr hover)
    obtain ⟨A, B, hout, -⟩ := hlegible
    rw [escapeAll_plain hspecial] at hout
    exact hgone ⟨A, B, hout.symm⟩

/-- Escapes are written without brackets. -/
theorem escapeAll_bracket {s : Text} {b : Char} (hb : b = '[' ∨ b = ']')
    (h : b ∈ Json.escapeAll s) : b ∈ s := by
  obtain ⟨d, hd, hmem⟩ := List.mem_flatMap.mp h
  by_cases hspecial : Json.special d = true
  · have hplain : '[' ∉ Json.escapeLetters ∧ ']' ∉ Json.escapeLetters := by decide
    have hletter := Json.escape_subset hspecial hmem
    rcases hb with rfl | rfl
    · exact absurd hletter hplain.1
    · exact absurd hletter hplain.2
  · rw [Json.escape_of_not_special (by simpa using hspecial), List.mem_singleton] at hmem
    rwa [hmem]

/-- The marker shields the escaped form of a secret without brackets. -/
theorem shields_escapeAll {s : Text} (hopen : '[' ∉ s) (hclose : ']' ∉ s)
    (hmarker : ¬s <:+: redactedMarker) : Shields redactedMarker (Json.escapeAll s) := by
  refine shields_marker (fun h => hopen (escapeAll_bracket (Or.inl rfl) h))
    (fun h => hclose (escapeAll_bracket (Or.inr rfl) h)) fun hin => hmarker ?_
  by_cases hspecial : Special s
  · obtain ⟨d, hd, hd'⟩ := hspecial
    have hslash : '\\' ∈ Json.escapeAll s :=
      List.mem_flatMap.mpr ⟨d, hd, Json.backslash_mem_escape hd'⟩
    exact absurd (hin.subset hslash) (by decide)
  · rwa [escapeAll_plain hspecial] at hin

/-- Replacing in turn keeps the escapes whole where it keeps to the literals. -/
theorem seen_of_inLiterals (hr : R.replacement = redactedMarker)
    (hsecrets : ∀ s ∈ R.secrets, '[' ∉ s ∧ ']' ∉ s ∧ ¬s <:+: redactedMarker)
    (hcanon : Json.Canonical '[' text) (h : R.InLiterals text)
    (habsent : ∀ s, R.Innermost s → Special s → ¬Json.Legible '[' (Json.escapeAll s) text) :
    Seen R text := by
  have hshields : ∀ s ∈ R.secrets, Shields redactedMarker s := by
    intro s hs
    obtain ⟨hopen, hclose, hmarker⟩ := hsecrets s hs
    exact shields_marker hopen hclose hmarker
  have hends : ∀ {c : Cut Char}, Json.Canonical '[' c.source → InsideLiteral c →
      Json.EndsOutside '[' c := by
    rintro c hsource ⟨k, st, hleft, hspan⟩
    have hrun : Json.run (.value, []) (c.left ++ c.span) = some (.str k .none, st) := by
      rw [Json.run_append, hleft, Option.bind_some, hspan]
    exact Json.Canonical.scan_out breaksOff_bracket hsource hrun
  have hcomes : ∀ {done back t}, R.Comes text done back t → Json.Canonical '[' t := by
    intro done back t hcomes
    induction hcomes with
    | start => exact hcanon
    | next hcomes hturn ih =>
        rw [hr]
        refine ih.replace breaksOff_bracket marker_tail (hends ih ?_)
        exact inside_of_inLiterals hr hshields h ⟨_, _, hcomes, hturn⟩
  refine ⟨habsent, fun before x c hreplaces => ?_, fun before x c _ s hs _ => ?_⟩
  · obtain ⟨done, back, hsource, -⟩ := id hreplaces
    exact hends (hcomes hsource) (inside_of_inLiterals hr hshields h hreplaces)
  · obtain ⟨hopen, hclose, hmarker⟩ := hsecrets s hs.1
    rw [hr]
    exact (shields_escapeAll hopen hclose hmarker).not_meets

variable {providerApiKey : Text} {values : List (Text × Text)}

def passwordArguments : Json.Value := .obj [("p".toList, .arr [.str "-phunter22".toList])]

end Redactor

end PeakcodeDaemon
