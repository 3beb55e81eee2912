import PeakcodeDaemon.RedactionPasses
import PeakcodeDaemon.RedactionAccesses

/-!
# Redaction ends and stays in bounds

The loops end within a number of rounds the length of the text bounds
(`redactPrivateKeyLoop_ends`, `redactBearerTokensLoop_ends`,
`redactPrefixedTokensLoop_ends`), and since they have a result, none of
their accesses panicked. So each of them was in bounds, those included
that take their offsets from the lowercased copy of the text.

The second half is one induction over the loops (`sound_redactText`): a
computation that logs its accesses and has a result has none out of
bounds, because a panic is the absence of a result. What the offsets are
does not come into it.
-/

namespace PeakcodeDaemon

open Splice Utf8

namespace Traced

/-! ## A result means that nothing panicked -/

theorem sound_slice (text : Text) (start : Nat) : (slice text start).Sound Access.InBounds :=
  .perform fun _ => Access.inBounds_of_result

theorem sound_replace (text : Text) (start stop : Nat) (replacement : Text) :
    (replace text start stop replacement).Sound Access.InBounds :=
  .perform fun _ => Access.inBounds_of_result

theorem sound_redactPrivateKeyLoop (label r : Text) : ∀ (fuel : Nat) (text : Text),
    (redactPrivateKeyLoop label r fuel text).Sound Access.InBounds
  | 0, _ => .giveUp
  | fuel + 1, text => by
      rw [redactPrivateKeyLoop]
      split
      · exact .pure text
      · refine (sound_slice _ _).bind fun tail => (sound_replace _ _ _ _).bind fun text => ?_
        exact sound_redactPrivateKeyLoop label r fuel text

theorem sound_redactBearerTokensLoop (r : Text) : ∀ (fuel : Nat) (text : Text) (cursor : Nat),
    (redactBearerTokensLoop r fuel text cursor).Sound Access.InBounds
  | 0, _, _ => .giveUp
  | fuel + 1, text, cursor => by
      rw [redactBearerTokensLoop]
      refine (sound_slice _ _).bind fun tail => ?_
      split
      · exact .pure text
      · refine (sound_slice _ _).bind fun rest => ?_
        dsimp only
        split
        · refine (sound_replace _ _ _ _).bind fun text => ?_
          exact sound_redactBearerTokensLoop r fuel text _
        · exact sound_redactBearerTokensLoop r fuel text _

theorem sound_redactPrefixedTokensLoop (lead r : Text) : ∀ (fuel : Nat) (text : Text)
    (cursor : Nat), (redactPrefixedTokensLoop lead r fuel text cursor).Sound Access.InBounds
  | 0, _, _ => .giveUp
  | fuel + 1, text, cursor => by
      rw [redactPrefixedTokensLoop]
      refine (sound_slice _ _).bind fun tail => ?_
      split
      · exact .pure text
      · refine (sound_slice _ _).bind fun rest => ?_
        dsimp only
        split
        · refine (sound_replace _ _ _ _).bind fun text => ?_
          exact sound_redactPrefixedTokensLoop lead r fuel text _
        · exact sound_redactPrefixedTokensLoop lead r fuel text _

theorem sound_redactText (R : Redactor) (text : Text) :
    (redactText R text).Sound Access.InBounds := by
  rw [redactText]
  refine Logged.Sound.bind ?_ fun text => Logged.Sound.bind ?_ fun text => ?_
  · exact .foldlM (fun text label => sound_redactPrivateKeyLoop label _ _ text) _ _
  · exact sound_redactBearerTokensLoop _ _ text 0
  · exact .foldlM (fun text lead => sound_redactPrefixedTokensLoop lead _ _ text 0) _ _

/-! ## The loops end -/

theorem redactPrivateKeyLoop_ends (R : Redactor) (label text : Text) {fuel : Nat}
    (hfuel : text.length < fuel) :
    (redactPrivateKeyLoop label R.replacement fuel text).value.isSome = true := by
  have hshrinks := privateKeyScanner_shrinks label R.replacement_length
  rw [value_redactPrivateKeyLoop, redactPrivateKeyLoop_eq hshrinks
    ((privateKeyScanner label).drains R.replacement hshrinks text) hfuel]
  rfl

theorem redactBearerTokensLoop_ends (r text : Text) {fuel : Nat} (hfuel : text.length < fuel) :
    (redactBearerTokensLoop r fuel text 0).value.isSome = true := by
  have hloop := redactBearerTokensLoop_eq (bearerScanner.scans r [] text) hfuel
  rw [value_redactBearerTokensLoop]
  exact Option.isSome_of_mem hloop

theorem redactPrefixedTokensLoop_ends {lead : Text} (hlead : lead ∈ tokenPrefixes) (r text : Text)
    {fuel : Nat} (hfuel : text.length < fuel) :
    (redactPrefixedTokensLoop lead r fuel text 0).value.isSome = true := by
  have hne := tokenPrefixes_ne_nil lead hlead
  have hloop := redactPrefixedTokensLoop_eq hne ((tokenScanner lead hne).scans r [] text) hfuel
  rw [value_redactPrefixedTokensLoop]
  exact Option.isSome_of_mem hloop

end Traced

/-- For every configuration and every text: each loop ends on every text it
may be given, in no more rounds than the text has characters and one; the
whole of `redact_text` has a result; and every slice and every replacement
on the way is in bounds. -/
theorem redaction_in_bounds (providerApiKey : Text) (values : List (Text × Text)) :
    (∀ label ∈ privateKeyLabels, ∀ text fuel, text.length < fuel →
      (Traced.redactPrivateKeyLoop label
        (Redactor.fromNamedValues providerApiKey values).replacement fuel text).value.isSome) ∧
    (∀ text fuel, text.length < fuel → (Traced.redactBearerTokensLoop
      (Redactor.fromNamedValues providerApiKey values).replacement fuel text 0).value.isSome) ∧
    (∀ lead ∈ tokenPrefixes, ∀ text fuel, text.length < fuel →
      (Traced.redactPrefixedTokensLoop lead
        (Redactor.fromNamedValues providerApiKey values).replacement fuel text 0).value.isSome) ∧
    ∀ text, ∃ out,
      (Redactor.fromNamedValues providerApiKey values).redactText text = some out ∧
      (Traced.redactText (Redactor.fromNamedValues providerApiKey values) text).value = some out ∧
      ∀ a ∈ (Traced.redactText (Redactor.fromNamedValues providerApiKey values) text).log,
        a.InBounds := by
  refine ⟨fun label _ text fuel => Traced.redactPrivateKeyLoop_ends _ label text,
    fun text fuel => Traced.redactBearerTokensLoop_ends _ text,
    fun lead hlead text fuel => Traced.redactPrefixedTokensLoop_ends hlead _ text, fun text => ?_⟩
  have hvalue := Traced.value_redactText (Redactor.fromNamedValues providerApiKey values) text
  have hout := Redactor.redactText_eq (Redactor.fromNamedValues providerApiKey values) text
  refine ⟨_, hout, hvalue.trans hout, Traced.sound_redactText _ text ?_⟩
  rw [hvalue, hout]
  rfl

end PeakcodeDaemon
