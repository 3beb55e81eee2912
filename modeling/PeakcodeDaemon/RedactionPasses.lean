import PeakcodeDaemon.Lib.Occurrences
import PeakcodeDaemon.RedactionAccesses

/-!
# The passes of the redactor

Each rewriting loop of `Redaction` is a scanner of the text: the byte
offsets it computes are the seams of the scanner's hits, the cursor is the
length of what is already put out, and no slice is out of range.

- **hits** (`privateKeyScanner_next`, `bearerScanner_next`,
  `tokenScanner_next`): what each pattern takes, from the leftmost match
  on;
- **loops** (`redactPrivateKeyLoop_eq`, `redactBearerTokensLoop_eq`,
  `redactPrefixedTokensLoop_eq`): one turn is one hit. The loops with a
  cursor are scans; the loop over the key headers starts over after every
  replacement, and ends because a block is longer than the marker
  (`privateKeyScanner_shrinks`);
- **the composition** (`redactText_eq`): `redact_text` never panics and is
  `clean`, the passes in order.

Everything `clean` does to a text is one chain of cuts (`cuts`,
`clean_chain`), the secrets' sweeps first and the patterns behind them.
The modules on redaction start from there and go back to neither offsets
nor fuel.
-/

namespace PeakcodeDaemon

open Splice Utf8

/-! ## The scanners -/

/-- A key block: from its header to the end of the next footer, if there is one. -/
def privateKeyHit (label : Text) (a m b : Text) : Text × Text × Text :=
  match splitFirst id (endHeader label) (m ++ b) with
  | some (x, e, y) => (a, x ++ e, y)
  | none => (a, m ++ b, [])

theorem length_enclosed {lead label trail : Text} {i j : Nat} (hi : lead.length = i)
    (hj : trail.length = j) : (lead ++ label ++ trail).length = i + label.length + j := by
  rw [List.length_append, List.length_append, hi, hj]

theorem length_beginHeader (label : Text) : (beginHeader label).length = 11 + label.length + 5 :=
  length_enclosed (by decide) (by decide)

theorem length_endHeader (label : Text) : (endHeader label).length = 9 + label.length + 5 :=
  length_enclosed (by decide) (by decide)

theorem map_id_eq {m p : Text} : m.map id = p ↔ m = p := by
  rw [List.map_id]

/-- A block runs from its header to its footer, or to the end of the text. -/
def privateKeyScanner (label : Text) : Scanner Char :=
  .ofMatch id (beginHeader label) (privateKeyHit label) fun a m b hm => by
    have hm : m.length = 11 + label.length + 5 := by
      rw [map_id_eq.mp hm, length_beginHeader]
    rw [privateKeyHit]
    split
    · rename_i x e y hsplit
      obtain ⟨heq, he⟩ := splitFirst_eq_some hsplit
      have he : e.length = 9 + label.length + 5 := by
        rw [map_id_eq.mp he, length_endHeader]
      have hlen := congrArg List.length heq
      simp only [List.length_append] at hlen ⊢
      exact ⟨by simp [List.append_assoc a m b, heq], by omega⟩
    · simp only [List.length_append, List.length_nil]
      exact ⟨by simp, by omega⟩

/-- A bearer token: what follows the word up to the next whitespace. -/
def bearerHit (a m b : Text) : Text × Text × Text :=
  (a ++ m, b.takeWhile fun c => !isWhitespace c, b.dropWhile fun c => !isWhitespace c)

/-- A hit is the run behind the word; the word is kept. -/
def bearerScanner : Scanner Char :=
  .ofMatch Char.toLower bearer bearerHit fun a m b hm => by
    have hm : m.length = bearer.length := by
      rw [← hm, List.length_map]
    have hpos : 0 < bearer.length := by decide
    have hdrop := (List.dropWhile_suffix (l := b) fun c => !isWhitespace c).length_le
    refine ⟨by simp [bearerHit], ?_⟩
    simp only [bearerHit, List.length_append]
    omega

/-- A token: a run of token characters from `lead` on, long enough to hide;
a shorter one is stepped over. -/
def tokenHit (lead : Text) (a m b : Text) : Text × Text × Text :=
  if byteLen lead + 12 ≤ byteLen ((m ++ b).takeWhile isTokenChar) then
    (a, (m ++ b).takeWhile isTokenChar, (m ++ b).dropWhile isTokenChar)
  else (a ++ m, [], b)

/-- A hit is the lead with a run behind it that is long enough; a shorter one is
passed over. -/
def tokenScanner (lead : Text) (hlead : lead ≠ []) : Scanner Char :=
  .ofMatch id lead (tokenHit lead) fun a m b hm => by
    have hm : 0 < m.length := by
      rw [map_id_eq.mp hm]
      exact List.length_pos_iff.mpr hlead
    rw [tokenHit]
    split
    · rename_i hlong
      have happ : (m ++ b).takeWhile isTokenChar ++ (m ++ b).dropWhile isTokenChar = m ++ b :=
        List.takeWhile_append_dropWhile
      have hne : 0 < ((m ++ b).takeWhile isTokenChar).length := by
        refine List.length_pos_iff.mpr fun hnil => ?_
        rw [hnil, byteLen_nil] at hlong
        omega
      have hlen := congrArg List.length happ
      simp only [List.length_append] at hlen ⊢
      exact ⟨by simp [List.append_assoc a, happ], by omega⟩
    · simp only [List.length_append]
      exact ⟨by simp, by omega⟩

/-! ## What a hit is -/

/-- A hit of the key scanner is a header with what follows it, up to its
footer or to the end. -/
theorem privateKeyScanner_next {label t skip span rest : Text}
    (h : (privateKeyScanner label).next t = some (skip, span, rest)) :
    ∃ b, splitFirst id (beginHeader label) t = some (skip, beginHeader label, b) ∧
      (splitFirst id (endHeader label) (beginHeader label ++ b) = none ∧
          span = beginHeader label ++ b ∧ rest = [] ∨
        ∃ x, splitFirst id (endHeader label) (beginHeader label ++ b)
            = some (x, endHeader label, rest) ∧ span = x ++ endHeader label) := by
  obtain ⟨⟨a, m, b⟩, hsplit, hhit⟩ := Option.map_eq_some_iff.mp h
  obtain rfl := map_id_eq.mp (splitFirst_eq_some hsplit).2
  change privateKeyHit label a (beginHeader label) b = (skip, span, rest) at hhit
  rw [privateKeyHit] at hhit
  split at hhit
  · rename_i x e y hend
    obtain ⟨rfl, rfl, rfl⟩ : a = skip ∧ x ++ e = span ∧ y = rest := by simpa using hhit
    obtain rfl := map_id_eq.mp (splitFirst_eq_some hend).2
    exact ⟨b, hsplit, Or.inr ⟨x, hend, rfl⟩⟩
  · rename_i hend
    obtain ⟨rfl, rfl, rfl⟩ : a = skip ∧ beginHeader label ++ b = span ∧ [] = rest := by
      simpa using hhit
    exact ⟨b, hsplit, Or.inl ⟨hend, rfl, rfl⟩⟩

/-- The word is the first in the text, whatever its case. -/
theorem bearerScanner_next {t skip span rest : Text}
    (h : bearerScanner.next t = some (skip, span, rest)) :
    ∃ a m b, splitFirst Char.toLower bearer t = some (a, m, b) ∧ skip = a ++ m ∧
      span = (b.takeWhile fun c => !isWhitespace c) ∧
      rest = b.dropWhile fun c => !isWhitespace c := by
  obtain ⟨⟨a, m, b⟩, hsplit, hhit⟩ := Option.map_eq_some_iff.mp h
  obtain ⟨rfl, rfl, rfl⟩ : a ++ m = skip ∧ (b.takeWhile fun c => !isWhitespace c) = span
    ∧ (b.dropWhile fun c => !isWhitespace c) = rest := by simpa [bearerHit] using hhit
  exact ⟨a, m, b, hsplit, rfl, rfl, rfl⟩

/-- Lowering does not change how many letters the word has. -/
theorem length_of_lower_bearer {w : Text} (hw : w.map Char.toLower = bearer) : w.length = 7 := by
  rw [← List.length_map Char.toLower, hw]
  decide

theorem unbordered_bearer : Unbordered bearer := unbordered_of_drop (by decide)

theorem takeWhile_run (t : Text) :
    ∀ d ∈ t.takeWhile fun c => !isWhitespace c, isWhitespace d = false := by
  intro d hd
  simpa using List.all_eq_true.mp List.all_takeWhile d hd

section BearerWord

variable {t skip span rest L w R : Text}

/-- Without a hit there is no such word. -/
theorem bearerScanner_none (hnext : bearerScanner.next t = none) (ht : t = L ++ w ++ R)
    (hw : w.map Char.toLower = bearer) : False := by
  refine splitFirst_eq_none (Option.map_eq_none_iff.mp hnext) ?_
  rw [ht, List.map_append, List.map_append, hw]
  exact ⟨_, _, rfl⟩

/-- A bearer word is the one found, or stands in the run behind it, or later. -/
theorem bearerScanner_word (hnext : bearerScanner.next t = some (skip, span, rest))
    (ht : t = L ++ w ++ R) (hw : w.map Char.toLower = bearer) :
    L ++ w = skip ∧ R = span ++ rest ∨
    (∃ x, (∀ d ∈ x, isWhitespace d = false) ∧ L = skip ++ x ∧ span ++ rest = x ++ w ++ R) ∨
    ∃ x, L = skip ++ span ++ x ∧ rest = x ++ w ++ R := by
  obtain ⟨a, m, b, hsplit, rfl, rfl, rfl⟩ := bearerScanner_next hnext
  rw [List.takeWhile_append_dropWhile]
  obtain ⟨hab, -⟩ := splitFirst_eq_some hsplit
  rcases occurrence_from_first unbordered_bearer hsplit hw (ht.symm.trans hab) with
    ⟨rfl, rfl, rfl⟩ | ⟨x, hL, hb⟩
  · exact Or.inl ⟨rfl, rfl⟩
  · refine Or.inr ?_
    have happ : x ++ (w ++ R) = (b.takeWhile fun c => !isWhitespace c)
        ++ b.dropWhile fun c => !isWhitespace c := by
      rw [List.takeWhile_append_dropWhile, hb, List.append_assoc]
    rcases List.append_eq_append_iff.mp happ with ⟨y, hspan, -⟩ | ⟨y, hx, hrest⟩
    · refine Or.inl ⟨x, fun d hd => takeWhile_run b d ?_, hL, hb⟩
      rw [hspan]
      exact List.mem_append_left _ hd
    · refine Or.inr ⟨y, ?_, by rw [hrest, List.append_assoc]⟩
      rw [hL, hx]
      simp only [List.append_assoc]

/-- So the one found ends first. -/
theorem bearerScanner_le (hnext : bearerScanner.next t = some (skip, span, rest))
    (ht : t = L ++ w ++ R) (hw : w.map Char.toLower = bearer) :
    skip.length ≤ (L ++ w).length := by
  rcases bearerScanner_word hnext ht hw with ⟨rfl, -⟩ | ⟨x, -, rfl, -⟩ | ⟨x, rfl, -⟩
  · exact Nat.le_refl _
  · simp only [List.length_append]
    omega
  · simp only [List.length_append]
    omega

end BearerWord

/-- A hit of the token scanner is a run long enough, or the lead of a shorter one. -/
theorem tokenScanner_next {lead : Text} {hlead : lead ≠ []} {t skip span rest : Text}
    (h : (tokenScanner lead hlead).next t = some (skip, span, rest)) :
    ∃ a b, splitFirst id lead t = some (a, lead, b) ∧
      (byteLen lead + 12 ≤ byteLen ((lead ++ b).takeWhile isTokenChar) ∧ span ≠ [] ∧ skip = a ∧
          span = (lead ++ b).takeWhile isTokenChar ∧ rest = (lead ++ b).dropWhile isTokenChar ∨
        ¬byteLen lead + 12 ≤ byteLen ((lead ++ b).takeWhile isTokenChar) ∧ span = [] ∧
          skip = a ++ lead ∧ rest = b) := by
  obtain ⟨⟨a, m, b⟩, hsplit, hhit⟩ := Option.map_eq_some_iff.mp h
  obtain rfl := map_id_eq.mp (splitFirst_eq_some hsplit).2
  change tokenHit m a m b = (skip, span, rest) at hhit
  refine ⟨a, b, hsplit, ?_⟩
  rw [tokenHit] at hhit
  split at hhit
  · rename_i hlong
    obtain ⟨rfl, rfl, rfl⟩ : a = skip ∧ (m ++ b).takeWhile isTokenChar = span
      ∧ (m ++ b).dropWhile isTokenChar = rest := by simpa using hhit
    refine Or.inl ⟨hlong, ?_, rfl, rfl, rfl⟩
    intro hnil
    rw [hnil, byteLen_nil] at hlong
    omega
  · rename_i hshort
    obtain ⟨rfl, rfl, rfl⟩ : a ++ m = skip ∧ [] = span ∧ b = rest := by simpa using hhit
    exact Or.inr ⟨hshort, rfl, rfl, rfl⟩

/-! ## The loops are scans

One turn of a loop is one hit of its scanner; `Scans` and `Drains` then
give the whole loop, with a fuel that covers the text that is left. -/

/-- Only the capital letters change. -/
theorem toLower_cases (c : Char) :
    c.toLower = c ∨ 65 ≤ c.toNat ∧ c.toNat ≤ 90 ∧ c.toLower.toNat = c.toNat + 32 := by
  by_cases h : c.val ≥ 'A'.val ∧ c.val ≤ 'Z'.val
  · refine Or.inr ?_
    have hval : c.toLower.val = c.val + ('a'.val - 'A'.val) := congrArg Char.val (dif_pos h)
    have hnat : c.toLower.toNat = (c.toNat + ('a'.val - 'A'.val).toNat) % 2 ^ 32 :=
      (congrArg UInt32.toNat hval).trans (UInt32.toNat_add ..)
    have hge : 'A'.val.toNat ≤ c.toNat := UInt32.le_iff_toNat_le.mp h.1
    have hle : c.toNat ≤ 'Z'.val.toNat := UInt32.le_iff_toNat_le.mp h.2
    have ha : 'A'.val.toNat = 65 := by decide
    have hz : 'Z'.val.toNat = 90 := by decide
    have hd : ('a'.val - 'A'.val).toNat = 32 := by decide
    omega
  · exact Or.inl (dif_neg h)

theorem utf8Size_toLower (c : Char) : c.toLower.utf8Size = c.utf8Size := by
  have hone : ∀ {d : Char}, d.toNat ≤ 127 → d.utf8Size = 1 := fun h =>
    Char.utf8Size_eq_one_iff.mpr (UInt32.le_iff_toNat_le.mpr h)
  rcases toLower_cases c with h | ⟨-, hle, h⟩
  · rw [h]
  · rw [hone (by omega), hone (by omega)]

theorem byteLen_toLower {m p : Text} (h : m.map Char.toLower = p) : byteLen m = byteLen p := by
  rw [← h, byteLen_map utf8Size_toLower]

section Loops

variable {r : Text}

/-- The loop ends where the scanner finds nothing. -/
theorem redactPrivateKeyLoop_stop {label t : Text} (h : (privateKeyScanner label).next t = none)
    (fuel : Nat) : redactPrivateKeyLoop label r (fuel + 1) t = some t := by
  have hsplit : splitFirst id (beginHeader label) t = none := Option.map_eq_none_iff.mp h
  rw [redactPrivateKeyLoop, find_eq, hsplit]
  rfl

/-- And goes on from the start behind every hit. -/
theorem redactPrivateKeyLoop_cut {label t skip span rest : Text}
    (h : (privateKeyScanner label).next t = some (skip, span, rest)) (fuel : Nat) :
    redactPrivateKeyLoop label r (fuel + 1) t
      = redactPrivateKeyLoop label r fuel (skip ++ r ++ rest) := by
  obtain ⟨b, hsplit, hblock⟩ := privateKeyScanner_next h
  obtain ⟨rfl, -⟩ := splitFirst_eq_some hsplit
  have hfind : find (beginHeader label) (skip ++ beginHeader label ++ b) = some (byteLen skip) := by
    rw [find_eq, hsplit]
    rfl
  have htail : sliceFrom (skip ++ beginHeader label ++ b) (byteLen skip)
      = some (beginHeader label ++ b) := by
    rw [List.append_assoc]
    exact sliceFrom_append ..
  rw [redactPrivateKeyLoop, hfind]
  simp only [htail, Option.bind_eq_bind, Option.bind_some, find_eq (endHeader label)]
  rcases hblock with ⟨hend, rfl, rfl⟩ | ⟨x, hend, rfl⟩
  · have hcut := replaceRange_append skip (beginHeader label ++ b) [] r
    rw [List.append_nil, ← List.append_assoc, ← byteLen_append, ← List.append_assoc] at hcut
    simp only [hend, Option.map_none, Option.getD_none, hcut, Option.bind_some]
  · obtain ⟨heq, -⟩ := splitFirst_eq_some hend
    have hcut := replaceRange_append skip (x ++ endHeader label) rest r
    rw [List.append_assoc skip, ← heq, ← List.append_assoc, byteLen_append, ← Nat.add_assoc]
      at hcut
    simp only [hend, Option.map_some, Option.getD_some, hcut, Option.bind_some]

/-- With fuel for the length of the text it drains it. -/
theorem redactPrivateKeyLoop_eq {label t out : Text} {cs : List (Cut Char)}
    (hr : (privateKeyScanner label).Shrinks r) (h : (privateKeyScanner label).Drains r t cs out) :
    ∀ {fuel : Nat}, t.length < fuel → redactPrivateKeyLoop label r fuel t = some out := by
  induction h with
  | stop hnext =>
      intro fuel hfuel
      obtain ⟨fuel, rfl⟩ : ∃ n, fuel = n + 1 := ⟨fuel - 1, by omega⟩
      exact redactPrivateKeyLoop_stop hnext fuel
  | cut hnext _ ih =>
      intro fuel hfuel
      obtain ⟨fuel, rfl⟩ : ∃ n, fuel = n + 1 := ⟨fuel - 1, by omega⟩
      rw [redactPrivateKeyLoop_cut hnext fuel]
      refine ih ?_
      have hlt := hr _ _ _ _ hnext
      have hlen := congrArg List.length ((privateKeyScanner label).next_append hnext)
      simp only [List.length_append] at hlen ⊢
      omega

theorem Traced.redactBearerTokensLoop_stop {done t : Text} (h : bearerScanner.next t = none)
    (fuel : Nat) : redactBearerTokensLoop r (fuel + 1) (done ++ t) (byteLen done)
      = (pure (done ++ t) : Logged Access Text).after
        [.slice ((done ++ t).map Char.toLower) (byteLen done)] := by
  have hsplit : splitFirst Char.toLower bearer t = none := Option.map_eq_none_iff.mp h
  have htail : sliceFrom ((done ++ t).map Char.toLower) (byteLen done)
      = some (t.map Char.toLower) := by
    rw [List.map_append, ← byteLen_map utf8Size_toLower done]
    exact sliceFrom_append ..
  rw [redactBearerTokensLoop]
  simp only [slice_bind htail, find_map utf8Size_toLower, hsplit, Option.map_none]

/-- The token found lies between the cursor's two next values. -/
theorem Traced.redactBearerTokensLoop_hit {done t skip span rest : Text}
    (h : bearerScanner.next t = some (skip, span, rest)) (fuel : Nat) :
    redactBearerTokensLoop r (fuel + 1) (done ++ t) (byteLen done)
      = if span = [] then
          (redactBearerTokensLoop r fuel (done ++ skip ++ rest) (byteLen (done ++ skip))).after
            [.slice ((done ++ t).map Char.toLower) (byteLen done),
              .slice (done ++ t) (byteLen (done ++ skip))]
        else (redactBearerTokensLoop r fuel (done ++ skip ++ r ++ rest)
            (byteLen (done ++ skip ++ r))).after
          [.slice ((done ++ t).map Char.toLower) (byteLen done),
            .slice (done ++ t) (byteLen (done ++ skip)),
            .replace (done ++ t) (byteLen (done ++ skip)) (byteLen (done ++ skip ++ span)) r] := by
  obtain ⟨a, m, b, hsplit, rfl, rfl, rfl⟩ := bearerScanner_next h
  obtain ⟨rfl, hm⟩ := splitFirst_eq_some hsplit
  have htail : sliceFrom ((done ++ (a ++ m ++ b)).map Char.toLower) (byteLen done)
      = some ((a ++ m ++ b).map Char.toLower) := by
    rw [List.map_append, ← byteLen_map utf8Size_toLower done]
    exact sliceFrom_append ..
  have hstart : byteLen done + byteLen a + byteLen bearer = byteLen (done ++ (a ++ m)) := by
    simp only [byteLen_append, byteLen_toLower hm, Nat.add_assoc]
  have hrest : sliceFrom (done ++ (a ++ m ++ b)) (byteLen (done ++ (a ++ m))) = some b := by
    rw [← List.append_assoc]
    exact sliceFrom_append ..
  have hstop : ((findChar isWhitespace b).map fun offset =>
      byteLen (done ++ (a ++ m)) + offset).getD (byteLen (done ++ (a ++ m ++ b)))
      = byteLen (done ++ (a ++ m) ++ b.takeWhile fun c => !isWhitespace c) := by
    rw [byteLen_append _ (b.takeWhile _), ← findChar_eq isWhitespace b,
      ← List.append_assoc done (a ++ m) b, byteLen_append _ b]
    cases findChar isWhitespace b <;> rfl
  have hb : b = (b.takeWhile fun c => !isWhitespace c) ++ b.dropWhile fun c => !isWhitespace c :=
    List.takeWhile_append_dropWhile.symm
  rw [redactBearerTokensLoop]
  simp only [slice_bind htail, find_map utf8Size_toLower, hsplit, Option.map_some, hstart,
    slice_bind hrest, hstop, Logged.after_after]
  by_cases hspan : (b.takeWhile fun c => !isWhitespace c) = []
  · have hdrop : b = b.dropWhile fun c => !isWhitespace c := by rwa [hspan] at hb
    rw [if_pos hspan, hspan, List.append_nil, if_neg (by omega), ← hdrop]
    simp only [List.append_assoc, List.singleton_append]
  · have hpos := byteLen_pos hspan
    have hcut := replaceRange_append (done ++ (a ++ m)) (b.takeWhile fun c => !isWhitespace c)
      (b.dropWhile fun c => !isWhitespace c) r
    rw [List.append_assoc _ (b.takeWhile _), ← hb, List.append_assoc done, ← byteLen_append] at hcut
    rw [if_neg hspan, if_pos (by rw [byteLen_append _ (b.takeWhile _)]; omega), replace_bind hcut,
      Logged.after_after, byteLen_append _ r]
    rfl

/-- The loop ends where the scanner finds nothing. -/
theorem redactBearerTokensLoop_stop {done t : Text} (h : bearerScanner.next t = none)
    (fuel : Nat) :
    redactBearerTokensLoop r (fuel + 1) (done ++ t) (byteLen done) = some (done ++ t) := by
  rw [← Traced.value_redactBearerTokensLoop, Traced.redactBearerTokensLoop_stop h fuel]
  rfl

/-- Behind a hit it goes on, and an empty run is left alone. -/
theorem redactBearerTokensLoop_hit {done t skip span rest : Text}
    (h : bearerScanner.next t = some (skip, span, rest)) (fuel : Nat) :
    redactBearerTokensLoop r (fuel + 1) (done ++ t) (byteLen done)
      = if span = [] then
          redactBearerTokensLoop r fuel (done ++ skip ++ rest) (byteLen (done ++ skip))
        else redactBearerTokensLoop r fuel (done ++ skip ++ r ++ rest)
          (byteLen (done ++ skip ++ r)) := by
  rw [← Traced.value_redactBearerTokensLoop, Traced.redactBearerTokensLoop_hit h fuel]
  simp only [apply_ite Logged.value, Logged.value_after, Traced.value_redactBearerTokensLoop]

/-- With fuel for the length of what is ahead it scans it. -/
theorem redactBearerTokensLoop_eq {done t out : Text} {cs : List (Cut Char)}
    (h : bearerScanner.Scans r done t cs out) : ∀ {fuel : Nat}, t.length < fuel →
      redactBearerTokensLoop r fuel (done ++ t) (byteLen done) = some (done ++ out) := by
  induction h with
  | stop hnext =>
      intro fuel hfuel
      obtain ⟨fuel, rfl⟩ : ∃ n, fuel = n + 1 := ⟨fuel - 1, by omega⟩
      exact redactBearerTokensLoop_stop hnext fuel
  | keep hnext _ ih =>
      intro fuel hfuel
      obtain ⟨fuel, rfl⟩ : ∃ n, fuel = n + 1 := ⟨fuel - 1, by omega⟩
      have hlt := bearerScanner.next_shorter hnext
      rw [redactBearerTokensLoop_hit hnext fuel, if_pos rfl, ih (by omega), List.append_assoc]
  | cut hne hnext _ ih =>
      intro fuel hfuel
      obtain ⟨fuel, rfl⟩ : ∃ n, fuel = n + 1 := ⟨fuel - 1, by omega⟩
      have hlt := bearerScanner.next_shorter hnext
      rw [redactBearerTokensLoop_hit hnext fuel, if_neg hne, ih (by omega)]
      simp only [List.append_assoc]

/-- The loop ends where the scanner finds nothing. -/
theorem redactPrefixedTokensLoop_stop {lead : Text} (hlead : lead ≠ []) {done t : Text}
    (h : (tokenScanner lead hlead).next t = none) (fuel : Nat) :
    redactPrefixedTokensLoop lead r (fuel + 1) (done ++ t) (byteLen done) = some (done ++ t) := by
  have hsplit : splitFirst id lead t = none := Option.map_eq_none_iff.mp h
  rw [redactPrefixedTokensLoop]
  simp only [sliceFrom_append, Option.bind_eq_bind, Option.bind_some, find_eq, hsplit,
    Option.map_none]

/-- Behind a hit it goes on, and a short run is left alone. -/
theorem redactPrefixedTokensLoop_hit {lead : Text} (hlead : lead ≠ [])
    {done t skip span rest : Text}
    (h : (tokenScanner lead hlead).next t = some (skip, span, rest)) (fuel : Nat) :
    redactPrefixedTokensLoop lead r (fuel + 1) (done ++ t) (byteLen done)
      = if span = [] then
          redactPrefixedTokensLoop lead r fuel (done ++ skip ++ rest) (byteLen (done ++ skip))
        else redactPrefixedTokensLoop lead r fuel (done ++ skip ++ r ++ rest)
          (byteLen (done ++ skip ++ r)) := by
  obtain ⟨a, b, hsplit, hhit⟩ := tokenScanner_next h
  obtain ⟨rfl, -⟩ := splitFirst_eq_some hsplit
  have hstart : byteLen done + byteLen a = byteLen (done ++ a) := (byteLen_append done a).symm
  have hrest : sliceFrom (done ++ (a ++ lead ++ b)) (byteLen (done ++ a)) = some (lead ++ b) := by
    rw [List.append_assoc a, ← List.append_assoc]
    exact sliceFrom_append ..
  have hrun : lead ++ b
      = (lead ++ b).takeWhile isTokenChar ++ (lead ++ b).dropWhile isTokenChar :=
    List.takeWhile_append_dropWhile.symm
  rw [redactPrefixedTokensLoop]
  simp only [sliceFrom_append, Option.bind_eq_bind, Option.bind_some, find_eq, hsplit,
    Option.map_some, hstart, hrest, Nat.add_sub_cancel_left]
  rcases hhit with ⟨hlong, hspan, rfl, rfl, rfl⟩ | ⟨hshort, rfl, rfl, rfl⟩
  · have hcut := replaceRange_append (done ++ skip) ((lead ++ b).takeWhile isTokenChar)
      ((lead ++ b).dropWhile isTokenChar) r
    rw [List.append_assoc _ ((lead ++ b).takeWhile _), ← hrun, List.append_assoc done,
      ← List.append_assoc skip] at hcut
    rw [if_pos hlong, if_neg hspan, hcut, Option.bind_some, byteLen_append _ r]
  · rw [if_neg hshort, if_pos rfl]
    simp only [byteLen_append, List.append_assoc, Nat.add_assoc]

/-- With fuel for the length of what is ahead it scans it. -/
theorem redactPrefixedTokensLoop_eq {lead : Text} (hlead : lead ≠ []) {done t out : Text}
    {cs : List (Cut Char)} (h : (tokenScanner lead hlead).Scans r done t cs out) :
    ∀ {fuel : Nat}, t.length < fuel →
      redactPrefixedTokensLoop lead r fuel (done ++ t) (byteLen done) = some (done ++ out) := by
  induction h with
  | stop hnext =>
      intro fuel hfuel
      obtain ⟨fuel, rfl⟩ : ∃ n, fuel = n + 1 := ⟨fuel - 1, by omega⟩
      exact redactPrefixedTokensLoop_stop hlead hnext fuel
  | keep hnext _ ih =>
      intro fuel hfuel
      obtain ⟨fuel, rfl⟩ : ∃ n, fuel = n + 1 := ⟨fuel - 1, by omega⟩
      have hlt := (tokenScanner lead hlead).next_shorter hnext
      rw [redactPrefixedTokensLoop_hit hlead hnext fuel, if_pos rfl, ih (by omega),
        List.append_assoc]
  | cut hne hnext _ ih =>
      intro fuel hfuel
      obtain ⟨fuel, rfl⟩ : ∃ n, fuel = n + 1 := ⟨fuel - 1, by omega⟩
      have hlt := (tokenScanner lead hlead).next_shorter hnext
      rw [redactPrefixedTokensLoop_hit hlead hnext fuel, if_neg hne, ih (by omega)]
      simp only [List.append_assoc]

end Loops

/-! ## The whole of `redact_text` -/

/-- The key pass shrinks the text: a block is longer than the marker. -/
theorem privateKeyScanner_shrinks (label : Text) {r : Text} (hr : r.length ≤ 10) :
    (privateKeyScanner label).Shrinks r := by
  intro t skip span rest h
  have hbegin := length_beginHeader label
  have hend := length_endHeader label
  obtain ⟨b, -, ⟨-, rfl, -⟩ | ⟨x, -, rfl⟩⟩ := privateKeyScanner_next h
  · rw [List.length_append]
    omega
  · rw [List.length_append]
    omega

/-- There are two modes. -/
theorem replacementFor_cases (secrets : List Text) :
    replacementFor secrets = [] ∨ replacementFor secrets = redactedMarker := by
  rw [replacementFor]
  split
  · exact Or.inl rfl
  · exact Or.inr rfl

theorem tokenPrefixes_ne_nil : ∀ lead ∈ tokenPrefixes, lead ≠ [] := by decide

theorem tokenPrefixes_chars : ∀ lead ∈ tokenPrefixes, ∀ c ∈ lead, isTokenChar c = true := by
  have hall : ∀ lead ∈ tokenPrefixes, lead.all isTokenChar = true := by decide
  exact fun lead hlead => List.all_eq_true.mp (hall lead hlead)

namespace Redactor

variable (R : Redactor)

/-- The replacement is no longer than the marker, so a block that is cut gets
shorter. -/
theorem replacement_length : R.replacement.length ≤ 10 := by
  have hmarker : redactedMarker.length = 10 := by decide
  rcases replacementFor_cases R.secrets with h | h
  · rw [R.replacement_eq, h]
    exact Nat.zero_le _
  · rw [R.replacement_eq, h, hmarker]

/-- The passes after the secrets', in their order. -/
def patternPasses : List (Pass R.replacement) :=
  privateKeyLabels.map (fun label =>
      .ofDrain (privateKeyScanner label) (privateKeyScanner_shrinks label R.replacement_length))
    ++ [.ofScan bearerScanner R.replacement]
    ++ tokenPrefixes.attach.map fun lead =>
      .ofScan (tokenScanner lead.1 (tokenPrefixes_ne_nil lead.1 lead.2)) R.replacement

/-- One `str::replace`. -/
def sweep (secret : Text) : Pass R.replacement := .ofScan (sweeper secret) R.replacement

/-- All that `redact_text` does, in its order. -/
def passes : List (Pass R.replacement) := R.secrets.map R.sweep ++ R.patternPasses

/-- The redacted text. -/
def clean (text : Text) : Text := Pass.runAll R.passes text

/-- Every replacement made on the way, in order. -/
def cuts (text : Text) : List (Cut Char) := Pass.allCuts R.passes text

/-- The redacted text comes about cut by cut. -/
theorem clean_chain (text : Text) : Chain R.replacement text (R.cuts text) (R.clean text) :=
  Pass.chain_all R.passes text

/-- The sweeps of the secrets, one behind the other. -/
theorem foldl_replaceAll : ∀ (secrets : List Text) (text : Text),
    secrets.foldl (fun text secret => replaceAll secret R.replacement text) text
      = Pass.runAll (secrets.map R.sweep) text
  | [], _ => rfl
  | _ :: secrets, _ => foldl_replaceAll secrets _

/-- The passes of the labels, one behind the other. -/
theorem redactPrivateKeys_eq (text : Text) :
    redactPrivateKeys text R.replacement = some (Pass.runAll (privateKeyLabels.map fun label =>
      .ofDrain (privateKeyScanner label) (privateKeyScanner_shrinks label R.replacement_length))
      text) := by
  rw [redactPrivateKeys]
  generalize privateKeyLabels = labels
  induction labels generalizing text with
  | nil => rfl
  | cons label labels ih =>
      have hshrinks := privateKeyScanner_shrinks label R.replacement_length
      rw [List.foldlM_cons, redactPrivateKeyLoop_eq hshrinks
        ((privateKeyScanner label).drains R.replacement hshrinks text) (Nat.lt_succ_self _)]
      exact ih _

theorem redactBearerTokens_eq (text r : Text) :
    redactBearerTokens text r = some (bearerScanner.scan r text) :=
  redactBearerTokensLoop_eq (bearerScanner.scans r [] text) (Nat.lt_succ_self _)

theorem redactPrefixedTokens_eq {lead : Text} (hlead : lead ≠ []) (text r : Text) :
    redactPrefixedTokens text lead r = some ((tokenScanner lead hlead).scan r text) :=
  redactPrefixedTokensLoop_eq hlead ((tokenScanner lead hlead).scans r [] text)
    (Nat.lt_succ_self _)

/-- The passes of the prefixes, one behind the other. -/
theorem foldlM_redactPrefixedTokens : ∀ (leads : List { lead // lead ∈ tokenPrefixes })
    (text : Text), (leads.map Subtype.val).foldlM
        (fun text lead => redactPrefixedTokens text lead R.replacement) text
      = some (Pass.runAll (leads.map fun lead =>
        .ofScan (tokenScanner lead.1 (tokenPrefixes_ne_nil lead.1 lead.2)) R.replacement) text)
  | [], _ => rfl
  | lead :: leads, text => by
      rw [List.map_cons, List.foldlM_cons,
        redactPrefixedTokens_eq (tokenPrefixes_ne_nil lead.1 lead.2)]
      exact foldlM_redactPrefixedTokens leads _

/-- `redact_text` never panics, and it is the composition of its passes. -/
theorem redactText_eq (text : Text) : R.redactText text = some (R.clean text) := by
  have htokens := R.foldlM_redactPrefixedTokens tokenPrefixes.attach
  rw [List.attach_map_subtype_val] at htokens
  simp only [redactText, R.foldl_replaceAll, R.redactPrivateKeys_eq, redactBearerTokens_eq,
    htokens, Option.bind_eq_bind, Option.bind_some]
  rw [clean, passes, patternPasses, Pass.runAll_append, Pass.runAll_append, Pass.runAll_append]
  rfl

/-- Redacting an event redacts its texts and leaves the rest of it. -/
theorem redactEvent_eq (event : WorkerEvent) :
    R.redactEvent event = some (event.mapTexts R.clean) := by
  cases event <;> simp [redactEvent, redactText_eq, WorkerEvent.mapTexts]

end Redactor

end PeakcodeDaemon
