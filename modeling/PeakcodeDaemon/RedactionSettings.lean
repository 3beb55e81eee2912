import PeakcodeDaemon.RedactionPasses

/-!
# What a configuration depends on

The environment is enumerated in no fixed order and may repeat a value
under many names. None of it shows: the secrets are sorted by a total
order and free of duplicates, so a redactor is determined by the set of
its secrets (`eq_of_mem_iff`), and what is not sensitive or is empty does
not count (`configured_iff`, `configured_congr`).

A secret precedes its own substrings, because it is longer
(`not_substring_of_precedes`): no sweep can take a part of a secret that
is still to be searched for.
-/

namespace PeakcodeDaemon

open Splice Utf8

namespace Redactor

/-! ## A redactor is its set of secrets -/

theorem secrets_nodup (R : Redactor) : R.secrets.Nodup :=
  R.sorted.imp fun h => h.2

/-- The sorted list of a set is unique. -/
theorem eq_of_mem_iff {R R' : Redactor} (h : ∀ s, s ∈ R.secrets ↔ s ∈ R'.secrets) : R = R' := by
  have hperm : R.secrets.Perm R'.secrets :=
    (List.perm_ext_iff_of_nodup R.secrets_nodup R'.secrets_nodup).mpr h
  have hsecrets : R.secrets = R'.secrets :=
    List.Perm.eq_of_pairwise (fun _ _ _ _ => precedes_antisymm)
      (R.sorted.imp fun h => h.1) (R'.sorted.imp fun h => h.1) hperm
  have hreplacement : R.replacement = R'.replacement := by
    rw [R.replacement_eq, R'.replacement_eq, hsecrets]
  cases R
  cases R'
  obtain rfl := hsecrets
  obtain rfl := hreplacement
  rfl

/-- A secret precedes its own substrings, since it is longer. -/
theorem not_substring_of_precedes {left right : Text} (h : Precedes left right)
    (hne : left ≠ right) : ¬left <:+: right := by
  intro hin
  refine hne (eq_of_infix_of_byteLen_le hin ?_)
  rcases h with hlt | ⟨heq, -⟩
  · exact Nat.le_of_lt hlt
  · exact Nat.le_of_eq heq.symm

/-! ## The environment as a set -/

/-- A non-empty value under a sensitive name. -/
def SensitiveValue (values : List (Text × Text)) (s : Text) : Prop :=
  s ≠ [] ∧ ∃ name, (name, s) ∈ values ∧ isSensitiveName name = true

theorem configured_iff {providerApiKey : Text} {values : List (Text × Text)} {s : Text} :
    Configured providerApiKey values s ↔
      s ≠ [] ∧ s = providerApiKey ∨ SensitiveValue values s := by
  rw [Configured, SensitiveValue, and_or_left]

/-- Whether the key itself is among the values makes no difference. -/
theorem configured_congr {providerApiKey : Text} {values values' : List (Text × Text)}
    (h : ∀ s, s ≠ providerApiKey → (SensitiveValue values s ↔ SensitiveValue values' s))
    (s : Text) : Configured providerApiKey values s ↔ Configured providerApiKey values' s := by
  by_cases hs : s = providerApiKey
  · simp only [Configured, hs, true_or]
  · rw [configured_iff, configured_iff, h s hs]

/-- Two enumerations with the same sensitive values, in any order, under any
names and any number of times each, configure one redactor, whose secrets
are distinct and stand before their own substrings. -/
theorem redactor_of_values {providerApiKey : Text} {values values' : List (Text × Text)}
    (h : ∀ s, s ≠ providerApiKey → (SensitiveValue values s ↔ SensitiveValue values' s)) :
    (fromNamedValues providerApiKey values).secrets
        = (fromNamedValues providerApiKey values').secrets ∧
      (fromNamedValues providerApiKey values).replacement
        = (fromNamedValues providerApiKey values').replacement ∧
      (∀ text, (fromNamedValues providerApiKey values).redactText text
        = (fromNamedValues providerApiKey values').redactText text) ∧
      (∀ event, (fromNamedValues providerApiKey values).redactEvent event
        = (fromNamedValues providerApiKey values').redactEvent event) ∧
      (fromNamedValues providerApiKey values).secrets.Nodup ∧
      (fromNamedValues providerApiKey values).secrets.Pairwise
        fun earlier later => ¬(earlier <:+: later ∧ earlier ≠ later) := by
  have heq : fromNamedValues providerApiKey values = fromNamedValues providerApiKey values' := by
    refine eq_of_mem_iff fun s => ?_
    rw [mem_secrets, mem_secrets, configured_congr h]
  refine ⟨by rw [heq], by rw [heq], fun _ => by rw [heq], fun _ => by rw [heq],
    secrets_nodup _, ?_⟩
  refine (fromNamedValues providerApiKey values).sorted.imp ?_
  rintro left right ⟨hprecedes, hne⟩ ⟨hin, -⟩
  exact not_substring_of_precedes hprecedes hne hin

/-- The sensitive values are those collected without a key. -/
theorem sensitiveValue_iff {values : List (Text × Text)} {s : Text} :
    SensitiveValue values s ↔ s ∈ collected [] values := by
  rw [mem_collected, configured_iff]
  exact (or_iff_right fun h => h.1 h.2).symm

/-- The same two values in another order, one of them twice and next to the key. -/
theorem redactor_of_values_reordered :
    let values := [("DB_PASSWORD".toList, "hunter22".toList), ("HOME".toList, "/".toList),
      ("A_TOKEN".toList, "hunter".toList)]
    let values' := [("B_TOKEN".toList, "hunter".toList), ("A_SECRET".toList, "key".toList),
      ("DB_PASSWORD".toList, "hunter22".toList), ("AUTH".toList, "hunter".toList)]
    (fromNamedValues "key".toList values).secrets
        = (fromNamedValues "key".toList values').secrets ∧
      (fromNamedValues "key".toList values).replacement
        = (fromNamedValues "key".toList values').replacement ∧
      (∀ text, (fromNamedValues "key".toList values).redactText text
        = (fromNamedValues "key".toList values').redactText text) ∧
      (∀ event, (fromNamedValues "key".toList values).redactEvent event
        = (fromNamedValues "key".toList values').redactEvent event) ∧
      (fromNamedValues "key".toList values).secrets.Nodup ∧
      (fromNamedValues "key".toList values).secrets.Pairwise
        fun earlier later => ¬(earlier <:+: later ∧ earlier ≠ later) := by
  intro values values'
  have hvalues : collected [] values = ["hunter22".toList, "hunter".toList] := by decide
  have hvalues' : collected [] values' = ["hunter".toList, "key".toList, "hunter22".toList,
      "hunter".toList] := by decide
  refine redactor_of_values fun s hs => ?_
  rw [sensitiveValue_iff, sensitiveValue_iff, hvalues, hvalues']
  simp only [List.mem_cons, List.not_mem_nil, or_false]
  tauto

end Redactor

end PeakcodeDaemon
