import PeakcodeDaemon.RedactionPasses

/-!
# The token passes as rewritings of the input

The loops of `redact_bearer_tokens` and `redact_prefixed_tokens` edit the
text they search. What they compute reads simpler: one pass over the text
as it was, which copies, replaces a run and goes on behind it.

- **the functions** (`rewriteTokens`, `rewriteBearer`): by recursion on
  the text, with one equation for what is copied and one for a match;
- **the loops compute them** (`scan_tokens_eq`, `scan_bearer_eq`): a
  function with the equations of a scan is the scan
  (`Scans.out_eq_of_equations`), so only the equations are to be shown;
- **the rest is kept** (`TokenSpan`, `BearerSpan`,
  `rewriteTokens_rewritten`, `rewriteBearer_rewritten`): outside of the
  replaced runs, which are whole runs, the text is as it was.

This holds for any replacement, shorter or longer than what it stands for:
the cursor of the loops goes behind what they put in.
-/

namespace PeakcodeDaemon

open Splice Utf8 Scanner

/-! ## One pass over the input -/

/-- A long enough run of token characters from `lead` on is replaced; a
shorter one has its lead copied; everything else is copied. -/
def rewriteTokens (lead r : Text) (hlead : lead ≠ []) : Text → Text
  | [] => []
  | c :: t =>
      if lead <+: c :: t then
        if byteLen lead + 12 ≤ byteLen ((c :: t).takeWhile isTokenChar) then
          r ++ rewriteTokens lead r hlead ((c :: t).dropWhile isTokenChar)
        else lead ++ rewriteTokens lead r hlead ((c :: t).drop lead.length)
      else c :: rewriteTokens lead r hlead t
termination_by t => t.length
decreasing_by
  · rename_i hlong
    have happ := congrArg List.length
      (List.takeWhile_append_dropWhile (p := isTokenChar) (l := c :: t))
    have hpos : 0 < ((c :: t).takeWhile isTokenChar).length := by
      refine List.length_pos_iff.mpr fun hnil => ?_
      rw [hnil, byteLen_nil] at hlong
      omega
    rw [List.length_append] at happ
    omega
  · have := List.length_pos_iff.mpr hlead
    simp only [List.length_drop, List.length_cons]
    omega
  · exact Nat.lt_succ_self _

/-- The word is copied in whatever case it stands, and the run behind it
replaced, if there is one. -/
def rewriteBearer (r : Text) : Text → Text
  | [] => []
  | c :: t =>
      if bearer <+: (c :: t).map Char.toLower then
        let run := ((c :: t).drop bearer.length).takeWhile fun c => !isWhitespace c
        (c :: t).take bearer.length ++ (if run.isEmpty then [] else r)
          ++ rewriteBearer r (((c :: t).drop bearer.length).dropWhile fun c => !isWhitespace c)
      else c :: rewriteBearer r t
termination_by t => t.length
decreasing_by
  · have hpos : bearer.length = 7 := by decide
    have hle := (List.dropWhile_suffix (l := (c :: t).drop bearer.length)
      fun c => !isWhitespace c).length_le
    simp only [List.length_drop, List.length_cons] at hle ⊢
    omega
  · exact Nat.lt_succ_self _

section Equations

variable {lead r : Text} {hlead : lead ≠ []}

theorem rewriteTokens_nil : rewriteTokens lead r hlead [] = [] := by
  rw [rewriteTokens]

theorem rewriteTokens_copy (c : Char) (t : Text) (h : ¬lead <+: (c :: t).map id) :
    rewriteTokens lead r hlead (c :: t) = c :: rewriteTokens lead r hlead t := by
  rw [List.map_id] at h
  rw [rewriteTokens, if_neg h]

/-- At the lead: the run from there on is replaced, or the lead copied. -/
theorem rewriteTokens_lead (b : Text) :
    rewriteTokens lead r hlead (lead ++ b)
      = if byteLen lead + 12 ≤ byteLen ((lead ++ b).takeWhile isTokenChar) then
          r ++ rewriteTokens lead r hlead ((lead ++ b).dropWhile isTokenChar)
        else lead ++ rewriteTokens lead r hlead b := by
  obtain ⟨c, t, ht⟩ := List.exists_cons_of_ne_nil
    (List.append_ne_nil_of_left_ne_nil hlead b)
  have hpre : lead <+: c :: t := ht ▸ List.prefix_append lead b
  have hdrop : (lead ++ b).drop lead.length = b := List.drop_left
  rw [ht, rewriteTokens, if_pos hpre, ← ht, hdrop]

theorem rewriteBearer_nil : rewriteBearer r [] = [] := by
  rw [rewriteBearer]

theorem rewriteBearer_copy (c : Char) (t : Text) (h : ¬bearer <+: (c :: t).map Char.toLower) :
    rewriteBearer r (c :: t) = c :: rewriteBearer r t := by
  rw [rewriteBearer, if_neg h]

/-- At the word: it is copied, and the run behind it replaced. -/
theorem rewriteBearer_word {m b : Text} (hm : m.map Char.toLower = bearer) :
    rewriteBearer r (m ++ b)
      = m ++ (if (b.takeWhile fun c => !isWhitespace c).isEmpty then [] else r)
        ++ rewriteBearer r (b.dropWhile fun c => !isWhitespace c) := by
  have hlen : m.length = bearer.length := by rw [← hm, List.length_map]
  have hne : m ≠ [] := by
    rintro rfl
    exact absurd hlen (by decide)
  obtain ⟨c, t, ht⟩ := List.exists_cons_of_ne_nil (List.append_ne_nil_of_left_ne_nil hne b)
  have hpre : bearer <+: (c :: t).map Char.toLower := by
    rw [← ht, List.map_append, hm]
    exact List.prefix_append ..
  rw [ht, rewriteBearer, if_pos hpre, ← ht, ← hlen, List.drop_left, List.take_left]

end Equations

/-! ## The loops compute it -/

theorem scan_tokens_eq {lead : Text} (hlead : lead ≠ []) (r text : Text) :
    (tokenScanner lead hlead).scan r text = rewriteTokens lead r hlead text := by
  refine Scans.out_eq_of_equations ?_ ?_ ((tokenScanner lead hlead).scans r [] text)
  · intro t hnext
    exact copied_of_splitFirst_none rewriteTokens_nil rewriteTokens_copy
      (Option.map_eq_none_iff.mp hnext)
  · intro t skip span rest hnext
    obtain ⟨a, b, hsplit, hhit⟩ := tokenScanner_next hnext
    rw [copied_of_splitFirst_some rewriteTokens_copy hsplit, rewriteTokens_lead]
    rcases hhit with ⟨hlong, hne, rfl, hspan, rfl⟩ | ⟨hshort, rfl, rfl, rfl⟩
    · rw [if_pos hlong, if_neg (by simpa using hne), List.append_assoc]
    · rw [if_neg hshort]
      simp

theorem scan_bearer_eq (r text : Text) : bearerScanner.scan r text = rewriteBearer r text := by
  refine Scans.out_eq_of_equations ?_ ?_ (bearerScanner.scans r [] text)
  · intro t hnext
    exact copied_of_splitFirst_none rewriteBearer_nil rewriteBearer_copy
      (Option.map_eq_none_iff.mp hnext)
  · intro t skip span rest hnext
    obtain ⟨a, m, b, hsplit, rfl, rfl, rfl⟩ := bearerScanner_next hnext
    rw [copied_of_splitFirst_some rewriteBearer_copy hsplit,
      rewriteBearer_word (splitFirst_eq_some hsplit).2]
    simp only [List.append_assoc]

/-! ## What is kept -/

/-- What a token pass replaces: a whole run from the lead on. -/
structure TokenSpan (lead : Text) (kept span rest : Text) : Prop where
  starts : lead <+: span
  long : byteLen lead + 12 ≤ byteLen span
  run : (span ++ rest).takeWhile isTokenChar = span

/-- What the bearer pass replaces: a whole run behind the word. -/
structure BearerSpan (kept span rest : Text) : Prop where
  word : ∃ a m, kept = a ++ m ∧ m.map Char.toLower = bearer
  nonempty : span ≠ []
  run : ((span ++ rest).takeWhile fun c => !isWhitespace c) = span

theorem tokenSpan_of_hit {lead : Text} {hlead : lead ≠ []} {t skip span rest : Text}
    (hnext : (tokenScanner lead hlead).next t = some (skip, span, rest)) (hne : span ≠ [])
    (hchars : ∀ c ∈ lead, isTokenChar c = true) : TokenSpan lead skip span rest := by
  obtain ⟨a, b, -, ⟨hlong, -, rfl, rfl, rfl⟩ | ⟨-, hnil, -, -⟩⟩ := tokenScanner_next hnext
  · refine ⟨?_, hlong, by rw [List.takeWhile_append_dropWhile]⟩
    rw [List.takeWhile_append_of_pos hchars]
    exact List.prefix_append ..
  · exact absurd hnil hne

theorem bearerSpan_of_hit {t skip span rest : Text}
    (hnext : bearerScanner.next t = some (skip, span, rest)) (hne : span ≠ []) :
    BearerSpan skip span rest := by
  obtain ⟨a, m, b, hsplit, rfl, rfl, rfl⟩ := bearerScanner_next hnext
  exact ⟨⟨a, m, rfl, (splitFirst_eq_some hsplit).2⟩, hne,
    by rw [List.takeWhile_append_dropWhile]⟩

theorem rewriteTokens_rewritten {lead : Text} (hlead : lead ≠ [])
    (hchars : ∀ c ∈ lead, isTokenChar c = true) (r text : Text) :
    Rewritten r (TokenSpan lead) text (rewriteTokens lead r hlead text) := by
  rw [← scan_tokens_eq]
  refine Scans.rewritten ?_ ?_ ((tokenScanner lead hlead).scans r [] text)
  · exact fun _ _ _ _ h => ⟨h.starts, h.long, h.run⟩
  · exact fun t skip span rest hnext hne => tokenSpan_of_hit hnext hne hchars

theorem rewriteBearer_rewritten (r text : Text) :
    Rewritten r BearerSpan text (rewriteBearer r text) := by
  rw [← scan_bearer_eq]
  refine Scans.rewritten ?_ ?_ (bearerScanner.scans r [] text)
  · rintro x _ span rest ⟨⟨a, m, rfl, hm⟩, hne, hrun⟩
    exact ⟨⟨x ++ a, m, by rw [List.append_assoc], hm⟩, hne, hrun⟩
  · exact fun t skip span rest => bearerSpan_of_hit

/-- Both token loops compute their one pass over the input, whatever the
replacement: they keep all that stands outside of the replaced runs, and a
text with no run to replace altogether. -/
theorem token_loops_rewrite (text r : Text) :
    (∀ lead (h : lead ∈ tokenPrefixes),
      redactPrefixedTokens text lead r
        = some (rewriteTokens lead r (tokenPrefixes_ne_nil lead h) text) ∧
      Rewritten r (TokenSpan lead) text
        (rewriteTokens lead r (tokenPrefixes_ne_nil lead h) text) ∧
      ((∀ kept span rest, text = kept ++ span ++ rest → ¬TokenSpan lead kept span rest) →
        redactPrefixedTokens text lead r = some text)) ∧
    redactBearerTokens text r = some (rewriteBearer r text) ∧
    Rewritten r BearerSpan text (rewriteBearer r text) ∧
    ((∀ kept span rest, text = kept ++ span ++ rest → ¬BearerSpan kept span rest) →
      redactBearerTokens text r = some text) := by
  refine ⟨fun lead h => ?_, ?_, rewriteBearer_rewritten r text, fun hnone => ?_⟩
  · have hrewritten := rewriteTokens_rewritten (tokenPrefixes_ne_nil lead h)
      (tokenPrefixes_chars lead h) r text
    have hloop := Redactor.redactPrefixedTokens_eq (tokenPrefixes_ne_nil lead h) text r
    rw [scan_tokens_eq] at hloop
    exact ⟨hloop, hrewritten, fun hnone => by rw [hloop, hrewritten.eq_of_none hnone]⟩
  · rw [Redactor.redactBearerTokens_eq, scan_bearer_eq]
  · rw [Redactor.redactBearerTokens_eq, scan_bearer_eq,
      (rewriteBearer_rewritten r text).eq_of_none hnone]

end PeakcodeDaemon
