import PeakcodeDaemon.RedactionLeads
import Mathlib.Data.List.Infix

/-!
# Credential patterns

Every pattern pass catches its credentials by their lead: a token by its
service's start, a key by its header, a bearer token by the word. What
can go wrong is what happens before and around: a configured secret that
overlaps the lead is taken out of it, and the body stands there bare.

- **catching** (`privateKeyScanner_catches`, `bearerScanner_catches`,
  `tokenScanner_catches`): no hit of a scanner passes by a lead and its body
  without either ending before them or taking some of them;
- **removal** (`exists_removes`): for each kind of credential some pass
  removes the body, as long as no cut spoils it (`Catch.Spoils`);
- **no spoiling** (`clean_leadKept`): a cut that does not end in the lead
  and does not spell the body anew spoils nothing
  (`Catch.not_spoils_of_chain`), and whether there is one is said by the
  hits that replacing in turn comes to (`LeadKept`).

A body with a configured secret in it that nothing brings back is hidden
whatever becomes of its lead (`HoldsSecret`): the sweep of the secret has
changed it. A secret of one letter is never brought back
(`not_meets_of_letter`), and the marker brings back none without brackets.
-/

namespace PeakcodeDaemon

open Splice Utf8 Catch

/-! ## Each scanner catches its lead -/

theorem privateKeyScanner_catches (label body : Text) :
    Catches (privateKeyScanner label) (beginHeader label) body := by
  intro L R
  have ht : L ++ beginHeader label ++ body ++ R = L ++ beginHeader label ++ (body ++ R) :=
    List.append_assoc ..
  cases hnext : (privateKeyScanner label).next (L ++ beginHeader label ++ body ++ R) with
  | none =>
      refine absurd ?_ (splitFirst_eq_none (Option.map_eq_none_iff.mp hnext))
      rw [List.map_id, ht]
      exact ⟨L, body ++ R, rfl⟩
  | some hit =>
      obtain ⟨skip, span, rest⟩ := hit
      refine ⟨skip, span, rest, rfl, ?_⟩
      obtain ⟨b, hsplit, -⟩ := privateKeyScanner_next hnext
      have hle := splitFirst_le hsplit ht (List.map_id _)
      have hpos := privateKeyScanner_shrinks label (r := []) (Nat.zero_le 10) _ _ _ _ hnext
      have hlead := length_beginHeader label
      by_cases hend : (skip ++ span).length ≤ L.length
      · exact Or.inl hend
      · refine Or.inr ⟨List.length_pos_iff.mp hpos, ?_, by omega⟩
        simp only [List.length_append]
        omega

theorem bearerScanner_catches {word body : Text} (hword : word.map Char.toLower = bearer)
    (hbody : ∀ c ∈ body, isWhitespace c = false) (hne : body ≠ []) :
    Catches bearerScanner word body := by
  intro L R
  have ht : L ++ word ++ body ++ R = L ++ word ++ (body ++ R) := List.append_assoc ..
  cases hnext : bearerScanner.next (L ++ word ++ body ++ R) with
  | none => exact (bearerScanner_none hnext ht hword).elim
  | some hit =>
      obtain ⟨skip, span, rest⟩ := hit
      refine ⟨skip, span, rest, rfl, ?_⟩
      have hbodylen := List.length_pos_iff.mpr hne
      rcases bearerScanner_word hnext ht hword with ⟨heq, happ⟩ | ⟨x, -, rfl, -⟩ | ⟨x, rfl, -⟩
      · -- the word found is the lead, and the body starts the run behind it
        obtain ⟨a, m, b, -, -, hspan, hrest⟩ := bearerScanner_next hnext
        have hspanne : span ≠ [] := by
          obtain ⟨c, body, rfl⟩ := List.exists_cons_of_ne_nil hne
          rw [hspan, hrest, List.takeWhile_append_dropWhile] at happ
          rw [hspan, ← happ, List.cons_append,
            List.takeWhile_cons_of_pos (by simp [hbody c (List.mem_cons_self ..)])]
          exact List.cons_ne_nil _ _
        have hpos := List.length_pos_iff.mpr hspanne
        have hlen := congrArg List.length heq
        simp only [List.length_append] at hlen ⊢
        exact Or.inr ⟨hspanne, by omega, by omega⟩
      · -- the lead is in the run behind an earlier word, and taken unless that ends before
        by_cases hend : (skip ++ span).length ≤ (skip ++ x).length
        · exact Or.inl hend
        · refine Or.inr ⟨?_, ?_, by omega⟩
          · rintro rfl
            simp at hend
          · simp only [List.length_append]
            omega
      · refine Or.inl ?_
        simp only [List.length_append]
        omega

theorem tokenScanner_catches {lead body : Text} (hlead : lead ≠ [])
    (hchars : ∀ c ∈ lead, isTokenChar c = true) (hbody : ∀ c ∈ body, isTokenChar c = true)
    (hlen : 12 ≤ body.length) : Catches (tokenScanner lead hlead) lead body := by
  intro L R
  have ht : L ++ lead ++ body ++ R = L ++ lead ++ (body ++ R) := List.append_assoc ..
  cases hnext : (tokenScanner lead hlead).next (L ++ lead ++ body ++ R) with
  | none =>
      refine absurd ?_ (splitFirst_eq_none (Option.map_eq_none_iff.mp hnext))
      rw [List.map_id, ht]
      exact ⟨L, body ++ R, rfl⟩
  | some hit =>
      obtain ⟨skip, span, rest⟩ := hit
      refine ⟨skip, span, rest, rfl, ?_⟩
      obtain ⟨a, b, hsplit, hhit⟩ := tokenScanner_next hnext
      obtain ⟨heq, -⟩ := splitFirst_eq_some hsplit
      have hle := splitFirst_le hsplit ht (List.map_id _)
      have hpos := List.length_pos_iff.mpr hlead
      rcases hhit with ⟨-, hne, rfl, -, -⟩ | ⟨hshort, rfl, rfl, rfl⟩
      · by_cases hend : (skip ++ span).length ≤ L.length
        · exact Or.inl hend
        · refine Or.inr ⟨hne, ?_, by omega⟩
          simp only [List.length_append]
          omega
      · refine Or.inl ?_
        rw [List.append_nil]
        -- a run that reached the lead would be long enough
        by_contra hover
        have hlong : ∀ x y : Text, (∀ c ∈ x, isTokenChar c = true) →
            lead ++ rest = x ++ (lead ++ body ++ y) → False := by
          intro x y hx hrun
          have hbytes := length_le_byteLen body
          have hall : ∀ c ∈ x ++ (lead ++ body), isTokenChar c = true := by
            simp only [List.forall_mem_append]
            exact ⟨hx, hchars, hbody⟩
          rw [hrun, ← List.append_assoc x, List.takeWhile_append_of_pos hall] at hshort
          simp only [byteLen_append] at hshort
          omega
        -- the first occurrence starts no later than the lead, `z` ahead of it
        have hrun : a ++ (lead ++ rest) = L ++ (lead ++ body ++ R) := by
          simpa only [List.append_assoc] using heq.symm
        obtain ⟨z, hL⟩ : a <+: L :=
          List.prefix_of_prefix_length_le ⟨_, hrun⟩ (List.prefix_append ..) hle
        rw [← hL, List.append_assoc, List.append_cancel_left_eq] at hrun
        have hz : z <+: lead := by
          refine List.prefix_of_prefix_length_le ⟨_, hrun.symm⟩ (List.prefix_append ..) ?_
          rw [← hL, List.length_append, List.length_append] at hover
          omega
        exact hlong z R (fun c hc => hchars c (hz.subset hc)) hrun

/-! ## Credentials are hidden -/

namespace Redactor

/-- Some pass of the redactor removes the credential. -/
theorem exists_removes (R : Redactor) {lead body rest : Text} (h : Credential lead body rest) :
    ∃ p ∈ R.passes, Removes p lead body := by
  cases h with
  | token hlead hbody hlen _ =>
      refine ⟨_, ?_, (tokenScanner_catches (tokenPrefixes_ne_nil lead hlead)
        (tokenPrefixes_chars lead hlead) hbody hlen).removes_scan⟩
      refine List.mem_append_right _ (List.mem_append_right _ (List.mem_map.mpr ?_))
      exact ⟨⟨lead, hlead⟩, List.mem_attach _ _, rfl⟩
  | @privateKey label _ _ hlabel _ _ =>
      refine ⟨_, ?_, (privateKeyScanner_catches label body).removes_drain
        (privateKeyScanner_shrinks label R.replacement_length)⟩
      refine List.mem_append_right _ (List.mem_append_left _ (List.mem_append_left _ ?_))
      exact List.mem_map.mpr ⟨label, hlabel, rfl⟩
  | bearer hword hbody hlen =>
      have hne : body ≠ [] := by
        rintro rfl
        simp at hlen
      refine ⟨_, ?_, (bearerScanner_catches hword hbody hne).removes_scan⟩
      refine List.mem_append_right _ (List.mem_append_left _ (List.mem_append_right _ ?_))
      exact List.mem_singleton.mpr rfl

/-- There is a secret in the body, and no replacement spells it anew once its turn
has come. -/
def HoldsSecret (R : Redactor) (text body : Text) : Prop :=
  ∃ s ∈ R.secrets, s <:+: body ∧ ∀ before x c, R.Replaces text before x c →
    .secret s ∈ before ++ [x] → ¬Meets R.replacement s c

variable {R : Redactor}

theorem clean_holdsSecret {text body : Text} (h : R.HoldsSecret text body) :
    ¬body <:+: R.clean text := by
  obtain ⟨s, hs, hin, hnone⟩ := h
  exact fun hbody => clean_gone hs hnone (hin.trans hbody)

theorem clean_leadKept {L lead body rest : Text} (hcred : Credential lead body rest)
    (honce : ∀ L' R', L ++ lead ++ body ++ rest = L' ++ body ++ R' → L' = L ++ lead)
    (h : R.LeadKept (L ++ lead ++ body ++ rest) lead body) :
    ¬body <:+: R.clean (L ++ lead ++ body ++ rest) := by
  obtain ⟨p, hmem, hp⟩ := exists_removes R hcred
  have hintact : Intact lead body (L ++ lead ++ body ++ rest) := ⟨L, rest, rfl, honce⟩
  refine absent_of_removes hp hmem ?_ hintact
  refine not_spoils_of_chain hcred.body_ne_nil (R.clean_chain _) (fun c hc => ?_) (Or.inl hintact)
  obtain ⟨before, x, hreplaces⟩ := R.cuts_replaces _ c hc
  exact h before x c hreplaces

/-- No replacement spells a one-letter secret anew. -/
theorem not_meets_of_letter {s : Text} (hs : s ∈ R.secrets) (hlen : s.length = 1)
    {c : Cut Char} : ¬Meets R.replacement s c := by
  obtain ⟨d, rfl⟩ := List.length_eq_one_iff.mp hlen
  intro hmeets
  exact not_infix_replacement hs ((List.singleton_infix_iff d _).mpr hmeets.mem_of_letter)

variable {providerApiKey : Text} {values : List (Text × Text)}

/-- A key block whose body has none of the letters of its header. -/
def keyBlock : Text :=
  [] ++ beginHeader "PRIVATE KEY".toList ++ "private-body".toList
    ++ endHeader "PRIVATE KEY".toList

theorem keyBlock_credential : Credential (beginHeader "PRIVATE KEY".toList) "private-body".toList
    (endHeader "PRIVATE KEY".toList) :=
  .privateKey (by decide) (by decide) (List.prefix_refl _)

theorem keyBlock_once : ∀ L' R', keyBlock = L' ++ "private-body".toList ++ R' →
    L' = [] ++ beginHeader "PRIVATE KEY".toList := by
  have honly : ∀ n < keyBlock.length + 1, "private-body".toList <+: keyBlock.drop n → n = 27 := by
    decide
  intro L' R' heq
  rw [(occurrence_at honly heq).1]
  decide

/-- A token that is the whole text. -/
def bareToken : Text := [] ++ "ghp_".toList ++ "0123456789ab".toList ++ []

theorem bareToken_credential : Credential "ghp_".toList "0123456789ab".toList [] :=
  .token (by decide) (List.all_eq_true.mp (by decide)) (by decide) (by simp)

theorem bareToken_once : ∀ L' R', bareToken = L' ++ "0123456789ab".toList ++ R' →
    L' = [] ++ "ghp_".toList := by
  have honly : ∀ n < bareToken.length + 1, "0123456789ab".toList <+: bareToken.drop n → n = 4 := by
    decide
  intro L' R' heq
  rw [(occurrence_at honly heq).1]
  decide

end Redactor

end PeakcodeDaemon
