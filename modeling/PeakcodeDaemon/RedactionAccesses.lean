import PeakcodeDaemon.Lib.Logged
import PeakcodeDaemon.Redaction

/-!
# The accesses of the rewriting loops

The loops of `Redaction` once more, with a log of every slice they take of
a text and every range they replace in one. Forgetting the log gives the
loops as they were (`value_redactText`), so nothing is modelled twice: the
bodies are the same, in another monad.

An access is `InBounds` if its ends are in order, within the text and on
character boundaries. That is when Rust does not panic, and an access with
a result is in bounds (`inBounds_of_result`); that all of them have one is
in `RedactionBounds`.
-/

namespace PeakcodeDaemon

open Splice Utf8

/-- `text[start..]`, or `text.replace_range(start..stop, replacement)`. -/
inductive Access where
  | slice (text : Text) (start : Nat)
  | replace (text : Text) (start stop : Nat) (replacement : Text)
deriving DecidableEq, Repr

namespace Access

def result : Access → Option Text
  | .slice text start => sliceFrom text start
  | .replace text start stop replacement => replaceRange text start stop replacement

/-- The ends are in order, within the text, and on character boundaries. -/
def InBounds : Access → Prop
  | .slice text start => start ≤ byteLen text ∧ IsBoundary text start
  | .replace text start stop _ =>
      start ≤ stop ∧ stop ≤ byteLen text ∧ IsBoundary text start ∧ IsBoundary text stop

/-- An access that does not panic is in bounds. -/
theorem inBounds_of_result {a : Access} {text : Text} (h : a.result = some text) :
    a.InBounds := by
  cases a with
  | slice text start =>
      obtain ⟨a, rfl, rfl⟩ := sliceFrom_eq_some h
      have hstart : IsBoundary (a ++ text) (byteLen a) := ⟨a, text, rfl, rfl⟩
      exact ⟨hstart.le, hstart⟩
  | replace text start stop replacement =>
      obtain ⟨a, g, b, rfl, rfl, rfl, -⟩ := replaceRange_eq_some h
      have hstart : IsBoundary (a ++ g ++ b) (byteLen a) := ⟨a, g ++ b, List.append_assoc .., rfl⟩
      have hstop : IsBoundary (a ++ g ++ b) (byteLen (a ++ g)) := ⟨a ++ g, b, rfl, rfl⟩
      refine ⟨?_, hstop.le, hstart, hstop⟩
      rw [byteLen_append]
      exact Nat.le_add_right ..

end Access

/-! ## The loops, logged -/

namespace Traced

def slice (text : Text) (start : Nat) : Logged Access Text :=
  .perform Access.result (.slice text start)

def replace (text : Text) (start stop : Nat) (replacement : Text) : Logged Access Text :=
  .perform Access.result (.replace text start stop replacement)

def redactPrivateKeyLoop (label replacement : Text) : Nat → Text → Logged Access Text
  | 0, _ => .giveUp
  | fuel + 1, text =>
      match find (beginHeader label) text with
      | none => pure text
      | some start => do
          let tail ← slice text start
          let blockEnd := ((find (endHeader label) tail).map
            fun offset => start + offset + byteLen (endHeader label)).getD (byteLen text)
          let text ← replace text start blockEnd replacement
          redactPrivateKeyLoop label replacement fuel text

def redactPrivateKeys (text replacement : Text) : Logged Access Text :=
  privateKeyLabels.foldlM
    (fun text label => redactPrivateKeyLoop label replacement (text.length + 1) text) text

def redactBearerTokensLoop (replacement : Text) : Nat → Text → Nat → Logged Access Text
  | 0, _, _ => .giveUp
  | fuel + 1, text, cursor => do
      let lowercase := text.map Char.toLower
      let tail ← slice lowercase cursor
      match find bearer tail with
      | none => pure text
      | some offset => do
          let tokenStart := cursor + offset + byteLen bearer
          let rest ← slice text tokenStart
          let tokenEnd := ((findChar isWhitespace rest).map
            fun offset => tokenStart + offset).getD (byteLen text)
          if tokenStart < tokenEnd then do
            let text ← replace text tokenStart tokenEnd replacement
            redactBearerTokensLoop replacement fuel text (tokenStart + byteLen replacement)
          else redactBearerTokensLoop replacement fuel text tokenStart

def redactBearerTokens (text replacement : Text) : Logged Access Text :=
  redactBearerTokensLoop replacement (text.length + 1) text 0

def redactPrefixedTokensLoop (lead replacement : Text) : Nat → Text → Nat → Logged Access Text
  | 0, _, _ => .giveUp
  | fuel + 1, text, cursor => do
      let tail ← slice text cursor
      match find lead tail with
      | none => pure text
      | some offset => do
          let start := cursor + offset
          let rest ← slice text start
          let stop := start + byteLen (rest.takeWhile isTokenChar)
          if byteLen lead + 12 ≤ stop - start then do
            let text ← replace text start stop replacement
            redactPrefixedTokensLoop lead replacement fuel text (start + byteLen replacement)
          else redactPrefixedTokensLoop lead replacement fuel text (start + byteLen lead)

def redactPrefixedTokens (text lead replacement : Text) : Logged Access Text :=
  redactPrefixedTokensLoop lead replacement (text.length + 1) text 0

def redactText (R : Redactor) (input : Text) : Logged Access Text := do
  let redacted := R.secrets.foldl (fun text secret => replaceAll secret R.replacement text) input
  let redacted ← redactPrivateKeys redacted R.replacement
  let redacted ← redactBearerTokens redacted R.replacement
  tokenPrefixes.foldlM (fun text lead => redactPrefixedTokens text lead R.replacement) redacted

/-! ## Forgetting the log -/

@[simp] theorem value_slice (text : Text) (start : Nat) :
    (slice text start).value = sliceFrom text start := rfl

@[simp] theorem value_replace (text : Text) (start stop : Nat) (replacement : Text) :
    (replace text start stop replacement).value = replaceRange text start stop replacement := rfl

theorem slice_bind {text tail : Text} {start : Nat} (h : sliceFrom text start = some tail)
    (f : Text → Logged Access Text) :
    (slice text start >>= f) = (f tail).after [.slice text start] := by
  have hresult : (Access.slice text start).result = some tail := h
  exact Logged.perform_bind hresult f

theorem replace_bind {text text' r : Text} {start stop : Nat}
    (h : replaceRange text start stop r = some text') (f : Text → Logged Access Text) :
    (replace text start stop r >>= f) = (f text').after [.replace text start stop r] := by
  have hresult : (Access.replace text start stop r).result = some text' := h
  exact Logged.perform_bind hresult f

theorem value_redactPrivateKeyLoop (label r : Text) : ∀ (fuel : Nat) (text : Text),
    (redactPrivateKeyLoop label r fuel text).value
      = PeakcodeDaemon.redactPrivateKeyLoop label r fuel text
  | 0, _ => rfl
  | fuel + 1, text => by
      rw [redactPrivateKeyLoop, PeakcodeDaemon.redactPrivateKeyLoop]
      cases find (beginHeader label) text with
      | none => rfl
      | some start =>
          simp only [Logged.value_bind, value_slice, value_replace, value_redactPrivateKeyLoop,
            Option.bind_eq_bind]

theorem value_redactBearerTokensLoop (r : Text) : ∀ (fuel : Nat) (text : Text) (cursor : Nat),
    (redactBearerTokensLoop r fuel text cursor).value
      = PeakcodeDaemon.redactBearerTokensLoop r fuel text cursor
  | 0, _, _ => rfl
  | fuel + 1, text, cursor => by
      rw [redactBearerTokensLoop, PeakcodeDaemon.redactBearerTokensLoop]
      simp only [Logged.value_bind, value_slice, Option.bind_eq_bind]
      refine congrArg _ (funext fun tail => ?_)
      cases find bearer tail with
      | none => rfl
      | some offset =>
          simp only [Logged.value_bind, value_slice, apply_ite Logged.value, value_replace,
            value_redactBearerTokensLoop]

theorem value_redactPrefixedTokensLoop (lead r : Text) : ∀ (fuel : Nat) (text : Text)
    (cursor : Nat), (redactPrefixedTokensLoop lead r fuel text cursor).value
      = PeakcodeDaemon.redactPrefixedTokensLoop lead r fuel text cursor
  | 0, _, _ => rfl
  | fuel + 1, text, cursor => by
      rw [redactPrefixedTokensLoop, PeakcodeDaemon.redactPrefixedTokensLoop]
      simp only [Logged.value_bind, value_slice, Option.bind_eq_bind]
      refine congrArg _ (funext fun tail => ?_)
      cases find lead tail with
      | none => rfl
      | some offset =>
          simp only [Logged.value_bind, value_slice, apply_ite Logged.value, value_replace,
            value_redactPrefixedTokensLoop]

/-- What is computed is what was computed without the log. -/
theorem value_redactText (R : Redactor) (text : Text) :
    (redactText R text).value = R.redactText text := by
  rw [redactText, Redactor.redactText]
  simp only [Logged.value_bind, redactPrivateKeys, PeakcodeDaemon.redactPrivateKeys,
    redactBearerTokens, PeakcodeDaemon.redactBearerTokens, redactPrefixedTokens,
    PeakcodeDaemon.redactPrefixedTokens, Logged.value_foldlM fun text label =>
      value_redactPrivateKeyLoop label R.replacement (text.length + 1) text,
    value_redactBearerTokensLoop, Logged.value_foldlM fun text lead =>
      value_redactPrefixedTokensLoop lead R.replacement (text.length + 1) text 0,
    Option.bind_eq_bind]

end Traced

end PeakcodeDaemon
