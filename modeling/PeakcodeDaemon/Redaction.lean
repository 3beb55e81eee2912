import Mathlib.Data.Char
import Mathlib.Data.List.Destutter
import Mathlib.Data.List.Lex
import Mathlib.Data.List.Sort
import PeakcodeDaemon.Lib.Scanner
import PeakcodeDaemon.Ipc

/-!
# The redactor, as it runs

The configuration (`Redactor.fromNamedValues`) and the rewriting loops,
kept at the level of the code: byte offsets into the text, a cursor, and
`none` for the panic of a slice that is out of range or splits a
character. The loops take their fuel as an argument, and running out of it
is `none` too; `RedactionPasses` shows that neither ever happens and what
the loops compute.

- **the order of secrets** (`Precedes`): longer in bytes first, then as
  texts. `sort_by` and `dedup` become a sort and `List.destutter`; that
  dropping equal neighbours drops all repetitions is a fact about sorted
  lists (`ordered_sorted`). A `Redactor` carries it, with the order
  itself, as a field.
- **the replacement** (`replacementFor`): the marker, or nothing where a
  secret is part of the marker. Everything about deletions comes from
  this one branch.
- **`str::replace`** (`replaceAll`): from the left, each occurrence
  searched for behind the one before, in the text as it was. It does not
  look at what it has put out, which is the difference to the loops of the
  key headers.

Case folding is that of ASCII, so the offsets found in the lowercased copy
are offsets of the text itself.
-/

namespace PeakcodeDaemon

open Splice Utf8

/-! ## Constants -/

/-- `REDACTED`, the marker. -/
def redactedMarker : Text := "[REDACTED]".toList

def privateKeyLabels : List Text :=
  ["PRIVATE KEY".toList, "RSA PRIVATE KEY".toList, "EC PRIVATE KEY".toList,
    "OPENSSH PRIVATE KEY".toList, "ENCRYPTED PRIVATE KEY".toList]

def tokenPrefixes : List Text :=
  ["github_pat_".toList, "ghp_".toList, "gho_".toList, "ghu_".toList, "ghs_".toList,
    "xoxb-".toList, "xoxp-".toList, "sk-".toList]

def bearer : Text := "bearer ".toList

def beginHeader (label : Text) : Text := "-----BEGIN ".toList ++ label ++ "-----".toList

def endHeader (label : Text) : Text := "-----END ".toList ++ label ++ "-----".toList

/-! ## Character classes -/

/-- `char::is_whitespace`: the Unicode `White_Space` property. -/
def isWhitespace (c : Char) : Bool :=
  (9 ≤ c.toNat && c.toNat ≤ 13) || c.toNat == 0x20 || c.toNat == 0x85 || c.toNat == 0xA0
    || c.toNat == 0x1680 || (0x2000 ≤ c.toNat && c.toNat ≤ 0x200A) || c.toNat == 0x2028
    || c.toNat == 0x2029 || c.toNat == 0x202F || c.toNat == 0x205F || c.toNat == 0x3000

/-- What a token is made of: `[A-Za-z0-9_.-]`. -/
def isTokenChar (c : Char) : Bool := c.isAlphanum || c == '_' || c == '-' || c == '.'

/-! ## Configuration -/

def sensitiveMarkers : List Text :=
  ["API_KEY".toList, "TOKEN".toList, "SECRET".toList, "PASSWORD".toList, "PASSWD".toList,
    "PRIVATE_KEY".toList, "CREDENTIAL".toList, "AUTH".toList]

def isSensitiveName (name : Text) : Bool :=
  let name := name.map Char.toUpper
  sensitiveMarkers.any (fun marker => decide (marker <:+: name))
    || name == "DATABASE_URL".toList || name == "REDIS_URL".toList
    || decide ("_DATABASE_URL".toList <:+ name) || decide ("_DSN".toList <:+ name)

/-- The comparison secrets are sorted by: the longer in bytes first, then
lexicographic (UTF-8 orders texts as their characters do). -/
def Precedes (left right : Text) : Prop :=
  byteLen right < byteLen left ∨ byteLen left = byteLen right ∧ left ≤ right

instance : DecidableRel Precedes := fun _ _ => inferInstanceAs (Decidable (_ ∨ _))

/-- Deletion where the marker itself would give a secret away. -/
def replacementFor (secrets : List Text) : Text :=
  if ∃ secret ∈ secrets, secret <:+: redactedMarker then [] else redactedMarker

structure Redactor where
  secrets : List Text
  replacement : Text
  nonempty : ∀ secret ∈ secrets, secret ≠ []
  sorted : secrets.Pairwise fun left right => Precedes left right ∧ left ≠ right
  replacement_eq : replacement = replacementFor secrets

namespace Redactor

/-- The values to hide, in the order they are configured. -/
def collected (providerApiKey : Text) (values : List (Text × Text)) : List Text :=
  (if providerApiKey.isEmpty then [] else [providerApiKey])
    ++ values.filterMap fun (name, value) =>
      if isSensitiveName name && !value.isEmpty then some value else none

/-- `sort_by` and then `dedup`, which drops equal neighbours. -/
def ordered (secrets : List Text) : List Text :=
  (secrets.insertionSort Precedes).destutter (· ≠ ·)

/-- The configured secrets: the key and the values of sensitive names, where not empty. -/
def Configured (providerApiKey : Text) (values : List (Text × Text)) (s : Text) : Prop :=
  s ≠ [] ∧ (s = providerApiKey ∨ ∃ name, (name, s) ∈ values ∧ isSensitiveName name = true)

theorem mem_collected {providerApiKey : Text} {values : List (Text × Text)} {s : Text} :
    s ∈ collected providerApiKey values ↔ Configured providerApiKey values s := by
  rw [Configured, collected, List.mem_append, List.mem_filterMap]
  constructor
  · rintro (h | ⟨⟨name, value⟩, hmem, h⟩)
    · split at h
      · cases h
      · rename_i hne
        obtain rfl := List.mem_singleton.mp h
        exact ⟨by simpa using hne, Or.inl rfl⟩
    · simp only at h
      split at h
      · rename_i hcond
        cases h
        simp only [Bool.and_eq_true, Bool.not_eq_true', List.isEmpty_eq_false_iff] at hcond
        exact ⟨hcond.2, Or.inr ⟨name, hmem, hcond.1⟩⟩
      · cases h
  · rintro ⟨hne, rfl | ⟨name, hmem, hname⟩⟩
    · exact Or.inl (by simp [hne])
    · exact Or.inr ⟨(name, s), hmem, by simp [hname, hne]⟩

instance : IsTrans Text Precedes where
  trans a b c hab hbc := by
    rcases hab with hab | ⟨hlab, hab⟩
    · rcases hbc with hbc | ⟨hlbc, -⟩
      · exact Or.inl (by omega)
      · exact Or.inl (by omega)
    · rcases hbc with hbc | ⟨hlbc, hbc⟩
      · exact Or.inl (by omega)
      · exact Or.inr ⟨by omega, le_trans hab hbc⟩

instance : Std.Total Precedes where
  total a b := by
    rcases lt_trichotomy (byteLen a) (byteLen b) with h | h | h
    · exact Or.inr (Or.inl h)
    · rcases le_total a b with hle | hle
      · exact Or.inl (Or.inr ⟨h, hle⟩)
      · exact Or.inr (Or.inr ⟨h.symm, hle⟩)
    · exact Or.inl (Or.inl h)

theorem precedes_antisymm {a b : Text} (hab : Precedes a b) (hba : Precedes b a) : a = b := by
  rcases hab with hab | ⟨hlab, hab⟩
  · rcases hba with hba | ⟨hlba, -⟩ <;> omega
  · rcases hba with hba | ⟨-, hba⟩
    · omega
    · exact le_antisymm hab hba

/-- Dropping equal neighbours loses no value. -/
theorem mem_destutter'_ne : ∀ {l : List Text} {a b : Text},
    b ∈ l.destutter' (· ≠ ·) a ↔ b = a ∨ b ∈ l
  | [], a, b => by simp
  | c :: l, a, b => by
      by_cases h : a ≠ c
      · rw [List.destutter'_cons_pos _ h, List.mem_cons, mem_destutter'_ne, List.mem_cons]
      · rw [List.destutter'_cons_neg _ h, mem_destutter'_ne, List.mem_cons]
        obtain rfl := not_not.mp h
        tauto

theorem mem_ordered {secrets : List Text} {s : Text} : s ∈ ordered secrets ↔ s ∈ secrets := by
  have hdestutter : ∀ l : List Text, s ∈ l.destutter (· ≠ ·) ↔ s ∈ l
    | [] => Iff.rfl
    | a :: l => by rw [List.destutter_cons', mem_destutter'_ne, List.mem_cons]
  exact (hdestutter _).trans (List.mem_insertionSort Precedes)

theorem isChain_and {r r' : Text → Text → Prop} : ∀ {l : List Text},
    l.IsChain r → l.IsChain r' → l.IsChain fun a b => r a b ∧ r' a b
  | [], _, _ => .nil
  | [a], _, _ => .singleton a
  | a :: b :: l, h, h' => by
      obtain ⟨hab, htail⟩ := List.isChain_cons_cons.mp h
      obtain ⟨hab', htail'⟩ := List.isChain_cons_cons.mp h'
      exact List.isChain_cons_cons.mpr ⟨⟨hab, hab'⟩, isChain_and htail htail'⟩

/-- In a sorted list the neighbours that are left differ, and so do all others. -/
theorem ordered_sorted (secrets : List Text) :
    (ordered secrets).Pairwise fun left right => Precedes left right ∧ left ≠ right := by
  have hle : (ordered secrets).Pairwise Precedes :=
    (List.pairwise_insertionSort Precedes secrets).sublist (List.destutter_sublist _ _)
  have hne : (ordered secrets).IsChain (· ≠ ·) := List.isChain_destutter _ _
  have htrans : IsTrans Text fun left right => Precedes left right ∧ left ≠ right := ⟨by
    rintro a b c ⟨hab, hne⟩ ⟨hbc, -⟩
    refine ⟨IsTrans.trans a b c hab hbc, ?_⟩
    rintro rfl
    exact hne (precedes_antisymm hab hbc)⟩
  rw [← List.isChain_iff_pairwise]
  exact isChain_and hle.isChain hne

def fromNamedValues (providerApiKey : Text) (values : List (Text × Text)) : Redactor :=
  let secrets := ordered (collected providerApiKey values)
  { secrets := secrets
    replacement := replacementFor secrets
    nonempty := fun _ h => (mem_collected.mp (mem_ordered.mp h)).1
    sorted := ordered_sorted _
    replacement_eq := rfl }

theorem mem_secrets {providerApiKey : Text} {values : List (Text × Text)} {s : Text} :
    s ∈ (fromNamedValues providerApiKey values).secrets ↔ Configured providerApiKey values s :=
  mem_ordered.trans mem_collected

theorem replacement_marker {providerApiKey : Text} {values : List (Text × Text)}
    (h : ∀ s, Configured providerApiKey values s → ¬s <:+: redactedMarker) :
    (fromNamedValues providerApiKey values).replacement = redactedMarker := by
  rw [Redactor.replacement_eq, replacementFor, if_neg]
  rintro ⟨s, hs, hin⟩
  exact h s (mem_secrets.mp hs) hin

theorem replacement_empty {providerApiKey : Text} {values : List (Text × Text)}
    (h : ∃ s, Configured providerApiKey values s ∧ s <:+: redactedMarker) :
    (fromNamedValues providerApiKey values).replacement = [] := by
  obtain ⟨s, hs, hin⟩ := h
  rw [Redactor.replacement_eq, replacementFor, if_pos ⟨s, mem_secrets.mpr hs, hin⟩]

end Redactor

/-! ## The secret pass -/

/-- The next occurrence of `s`. Nothing is found for the empty text, which
`str::replace` treats differently and no configuration contains. -/
def findSecret (s t : Text) : Option (Text × Text × Text) :=
  if s.isEmpty then none else splitFirst id s t

theorem findSecret_eq_some {s t skip span rest : Text}
    (h : findSecret s t = some (skip, span, rest)) :
    t = skip ++ span ++ rest ∧ span = s ∧ span ≠ [] := by
  rw [findSecret] at h
  split at h
  · cases h
  · rename_i hs
    obtain ⟨happ, hspan⟩ := splitFirst_eq_some h
    rw [List.map_id] at hspan
    exact ⟨happ, hspan, fun hnil => hs (by rw [← hspan, hnil]; rfl)⟩

def sweeper (s : Text) : Scanner Char where
  next := findSecret s
  next_append h := (findSecret_eq_some h).1
  next_shorter h := by
    obtain ⟨rfl, -, hne⟩ := findSecret_eq_some h
    have := List.length_pos_iff.mpr hne
    simp only [List.length_append]
    omega

/-- `text.replace(s, r)`: the occurrences of `s` from the left, each
searched for after the end of the one before. -/
def replaceAll (s r : Text) (text : Text) : Text := (sweeper s).scan r text

/-! ## The pattern passes -/

/-- The `while let` of `redact_private_keys` for one label. -/
def redactPrivateKeyLoop (label replacement : Text) : Nat → Text → Option Text
  | 0, _ => none
  | fuel + 1, text =>
      match find (beginHeader label) text with
      | none => some text
      | some start => do
          let tail ← sliceFrom text start
          let blockEnd := ((find (endHeader label) tail).map
            fun offset => start + offset + byteLen (endHeader label)).getD (byteLen text)
          let text ← replaceRange text start blockEnd replacement
          redactPrivateKeyLoop label replacement fuel text

def redactPrivateKeys (text replacement : Text) : Option Text :=
  privateKeyLabels.foldlM
    (fun text label => redactPrivateKeyLoop label replacement (text.length + 1) text) text

/-- The `loop` of `redact_bearer_tokens`. Offsets found in the lowercased
copy index the text itself. -/
def redactBearerTokensLoop (replacement : Text) : Nat → Text → Nat → Option Text
  | 0, _, _ => none
  | fuel + 1, text, cursor => do
      let lowercase := text.map Char.toLower
      let tail ← sliceFrom lowercase cursor
      match find bearer tail with
      | none => some text
      | some offset => do
          let tokenStart := cursor + offset + byteLen bearer
          let rest ← sliceFrom text tokenStart
          let tokenEnd := ((findChar isWhitespace rest).map
            fun offset => tokenStart + offset).getD (byteLen text)
          if tokenStart < tokenEnd then do
            let text ← replaceRange text tokenStart tokenEnd replacement
            redactBearerTokensLoop replacement fuel text (tokenStart + byteLen replacement)
          else redactBearerTokensLoop replacement fuel text tokenStart

def redactBearerTokens (text replacement : Text) : Option Text :=
  redactBearerTokensLoop replacement (text.length + 1) text 0

/-- The `while let` of `redact_prefixed_tokens`. -/
def redactPrefixedTokensLoop (lead replacement : Text) : Nat → Text → Nat → Option Text
  | 0, _, _ => none
  | fuel + 1, text, cursor => do
      let tail ← sliceFrom text cursor
      match find lead tail with
      | none => some text
      | some offset => do
          let start := cursor + offset
          let rest ← sliceFrom text start
          -- the end of the last character that `take_while` lets through
          let stop := start + byteLen (rest.takeWhile isTokenChar)
          if byteLen lead + 12 ≤ stop - start then do
            let text ← replaceRange text start stop replacement
            redactPrefixedTokensLoop lead replacement fuel text (start + byteLen replacement)
          else redactPrefixedTokensLoop lead replacement fuel text (start + byteLen lead)

def redactPrefixedTokens (text lead replacement : Text) : Option Text :=
  redactPrefixedTokensLoop lead replacement (text.length + 1) text 0

/-! ## All passes -/

namespace Redactor

def redactText (R : Redactor) (input : Text) : Option Text := do
  let redacted := R.secrets.foldl (fun text secret => replaceAll secret R.replacement text) input
  let redacted ← redactPrivateKeys redacted R.replacement
  let redacted ← redactBearerTokens redacted R.replacement
  tokenPrefixes.foldlM (fun text lead => redactPrefixedTokens text lead R.replacement) redacted

def redactEvent (R : Redactor) : WorkerEvent → Option WorkerEvent
  | .textDelta text => do return .textDelta (← R.redactText text)
  | .assistantMessage text => do return .assistantMessage (← R.redactText text)
  | .toolStart callId name argumentsJson => do
      return .toolStart callId (← R.redactText name) (← R.redactText argumentsJson)
  | .toolResult callId name content isError => do
      return .toolResult callId (← R.redactText name) (← R.redactText content) isError
  | .needsApproval callId tool argumentsJson => do
      return .needsApproval callId (← R.redactText tool) (← R.redactText argumentsJson)
  | .crash message => do return .crash (← R.redactText message)
  | .turnFinished => some .turnFinished
  | .done finalMessageCount => some (.done finalMessageCount)

end Redactor

end PeakcodeDaemon
