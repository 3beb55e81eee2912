import PeakcodeDaemon.RedactionTurns

/-!
# Secrets that deletion joins

With the empty replacement every deletion puts its two sides together, and
each secret gets a single sweep. A secret comes out of it only if a deletion
joins it after it has been searched for. Three results say when that is so.

- **hidden** (`clean_unjoined`): if replacing in turn never joins a secret
  whose turn is over, or has come (`Unjoined`), none is in the output. This
  is asked of the `Innermost` secrets only, which have no other one in them:
  `clean_gone` for each, and every secret has one in it (`exists_innermost`).
- **by the text alone** (`TextUpright.unjoined`): a stretch of the text that
  becomes a secret when the configured secrets, and then credentials, are
  taken out of this stretch `Collapses` to it. Where no stretch does, all
  that the text comes to is upright as well (`Comes.upright`), since a hit
  in turn is `Owed` in the stretches around it too (`owed_local`), and so
  nothing is joined.
- **shown** (`clean_collapses`): a stretch that collapses by its secrets
  alone is redacted to the very secret it collapses to, if that has no other
  secret and no credential in it. Each of its deletions may be made ahead of
  the sweeps (`sweeps_ahead`), and the last one is not mended
  (`sweeps_last`).

So a text that is not upright has a part that redaction, given this part,
turns into a configured secret. That does not make the text itself a failing
one: what surrounds the part may take a letter of it first.
-/

namespace PeakcodeDaemon

open Splice Scanner

namespace Redactor

/-! ## Deletions that are owed -/

/-- The first occurrence of the first secret that occurs. -/
def FirstSecret (R : Redactor) (c : Cut Char) : Prop :=
  ∃ before after, R.secrets = before ++ c.span :: after ∧ (∀ w ∈ before, ¬w <:+: c.source) ∧
    ¬c.span <:+: (c.left ++ c.span).dropLast

/-- Of a stretch, the secrets are owed first; when there are none, what is a
credential in some text that the stretch is part of. -/
inductive Owed (R : Redactor) (c : Cut Char) : Prop
  | secret (h : R.FirstSecret c)
  | credential (hgone : ∀ s ∈ R.secrets, ¬s <:+: c.source)
      (h : ∃ x y, CredentialSpan ⟨x ++ c.left, c.span, c.right ++ y⟩)

/-- The secret is not swept any more once the span is taken out. -/
def Late (R : Redactor) (s span : Text) : Prop :=
  s ∈ R.secrets ∧ (span ∈ R.secrets → Precedes s span)

variable {R : Redactor}

theorem FirstSecret.mem {c : Cut Char} (h : R.FirstSecret c) : c.span ∈ R.secrets := by
  obtain ⟨before, after, hsplit, -⟩ := h
  rw [hsplit]
  simp

theorem FirstSecret.of_stretch {c : Cut Char} {x y : Text} (h : R.FirstSecret c)
    (hx : x <:+ c.left) (hy : y <+: c.right) : R.FirstSecret ⟨x, c.span, y⟩ := by
  have hne := R.nonempty c.span h.mem
  obtain ⟨before, after, hsplit, hgone, hfirst⟩ := h
  refine ⟨before, after, hsplit, fun w hw hin => hgone w hw (hin.trans (Cut.stretch hx hy)), ?_⟩
  rw [List.dropLast_append_of_ne_nil hne] at hfirst ⊢
  obtain ⟨z, hz⟩ := hx
  exact fun hin => hfirst (hin.trans ⟨z, [], by rw [← hz]; simp⟩)

theorem owed_local (R : Redactor) : Local R.Owed := by
  rintro c x y (h | ⟨hgone, a, b, h⟩) hx hy
  · exact .secret (h.of_stretch hx hy)
  · obtain ⟨z, hz⟩ := id hx
    obtain ⟨z', hz'⟩ := id hy
    refine .credential (fun s hs hin => hgone s hs (hin.trans (Cut.stretch hx hy)))
      ⟨a ++ z, z' ++ b, ?_⟩
    rwa [List.append_assoc, hz, ← List.append_assoc, hz']

theorem precedes_refl (s : Text) : Precedes s s := Or.inr ⟨rfl, le_refl s⟩

/-- The secrets before the first that occurs, and itself, come too early. -/
theorem late_of_split {before after : List Text} {s span : Text}
    (h : R.secrets = before ++ span :: after) (hs : s ∈ before ++ [span]) : R.Late s span := by
  have hsorted := R.sorted
  rw [h] at hsorted
  rcases List.mem_append.mp hs with hs | hs
  · refine ⟨by rw [h]; exact List.mem_append_left _ hs, fun _ => ?_⟩
    exact ((List.pairwise_append.mp hsorted).2.2 s hs span (List.mem_cons_self ..)).1
  · obtain rfl := List.mem_singleton.mp hs
    exact ⟨by rw [h]; simp, fun _ => precedes_refl s⟩

/-! ## Where nothing is joined -/

/-- Replacing hits in turn never joins a secret whose turn is over, or has come; but
one with another secret in it may be joined, as long as that one is not. -/
def Unjoined (R : Redactor) (text : Text) : Prop :=
  ∀ before x c, R.Replaces text before x c → ∀ s, R.Innermost s → .secret s ∈ before ++ [x] →
    ¬Joins s c.left c.right

/-- With deletion, no secret is in the redacted text when no innermost one is joined. -/
theorem clean_unjoined (hr : R.replacement = []) {text : Text} (h : R.Unjoined text) :
    ∀ s ∈ R.secrets, ¬s <:+: R.clean text := by
  intro s hs hin
  obtain ⟨e, he, hes⟩ := exists_innermost hs
  refine clean_gone he.1 (fun before x c hreplaces hover hmeets => ?_) (hes.trans hin)
  rw [hr] at hmeets
  exact h before x c hreplaces e he hover hmeets.joins

/-- No stretch of the text collapses to a configured secret. -/
def TextUpright (R : Redactor) (text : Text) : Prop := Upright R.Owed R.Late text

section InTurn

variable {done before : List Target} {back : Set Target} {x : Target} {c : Cut Char}

/-- Where no secret is back, those whose turn is over are gone. -/
theorem InTurn.secret_gone (h : R.InTurn done back before x c)
    (hback : ∀ s ∈ R.secrets, .secret s ∉ back) {s : Text} (hs : s ∈ R.secrets)
    (hbefore : .secret s ∈ before) : ¬s <:+: c.source := fun hin =>
  h.gone _ hbefore (hback s hs) ((stands_secret hs).mpr hin)

/-- A hit in turn is owed. -/
theorem InTurn.owed (h : R.InTurn done back before x c)
    (hback : ∀ s ∈ R.secrets, .secret s ∉ back) : R.Owed c := by
  rcases h.secret_or_credential with ⟨sooner, later, hsplit, rfl, rfl⟩ | ⟨hall, hspan⟩
  · have hs : c.span ∈ R.secrets := by
      rw [hsplit]
      simp
    refine .secret ⟨sooner, later, hsplit, fun w hw => ?_, (first_secret hs).mp (h.first ?_)⟩
    · refine h.secret_gone hback ?_ (List.mem_map_of_mem hw)
      rw [hsplit]
      exact List.mem_append_left _ hw
    · exact hback _ hs
  · exact .credential (fun s hs => h.secret_gone hback hs (hall s hs))
      ⟨[], [], by simpa using hspan⟩

/-- The secrets whose turn is over, or has come, come too early to be joined by it. -/
theorem InTurn.late (h : R.InTurn done back before x c)
    (hback : ∀ s ∈ R.secrets, .secret s ∉ back) {s : Text} (hs : s ∈ R.secrets)
    (hover : .secret s ∈ before ++ [x]) : R.Late s c.span := by
  rcases h.secret_or_credential with ⟨sooner, later, hsplit, rfl, rfl⟩ | ⟨hall, -⟩
  · refine late_of_split hsplit ?_
    simpa using hover
  · refine ⟨hs, fun hspan => ?_⟩
    exact absurd ⟨c.left, c.right, rfl⟩ (h.secret_gone hback hspan (hall _ hspan))

end InTurn

/-- What replacing in turn makes of an upright text is upright, and no secret comes
back. -/
theorem Comes.upright (hr : R.replacement = []) {text t : Text} {done : List Target}
    {back : Set Target} (h : R.Comes text done back t) (hupright : R.TextUpright text) :
    R.TextUpright t ∧ ∀ s ∈ R.secrets, .secret s ∉ back := by
  induction h with
  | start => exact ⟨hupright, fun s _ hs => hs⟩
  | @next done before back x c _ hturn ih =>
      obtain ⟨hsource, hback⟩ := ih
      have howed := hturn.owed hback
      -- a secret that came back would have been joined
      have hjoins : ∀ s ∈ R.secrets, .secret s ∈ before ++ [x] → ¬Meets R.replacement s c := by
        intro s hs hover hmeets
        rw [hr] at hmeets
        exact hsource.not_joins R.owed_local howed (hturn.late hback hs hover) hmeets.joins
      refine ⟨by rw [hr]; exact hsource.cut R.owed_local howed, ?_⟩
      rintro s hs (hin | ⟨hbefore, hstands⟩ | ⟨rfl, hmeets⟩)
      · exact hback s hs hin
      · refine Cut.avoids (hjoins s hs (List.mem_append_left _ hbefore))
          (hturn.secret_gone hback hs hbefore) ?_
        exact (stands_secret hs).mp hstands
      · exact hjoins s hs (by simp) hmeets

/-- With deletion, nothing is ever joined where no stretch collapses. -/
theorem TextUpright.unjoined (hr : R.replacement = []) {text : Text}
    (h : R.TextUpright text) : R.Unjoined text := by
  rintro before x c ⟨done, back, hcomes, hturn⟩ s ⟨hs, -⟩ hover
  obtain ⟨hsource, hback⟩ := hcomes.upright hr h
  exact hsource.not_joins R.owed_local (hturn.owed hback) (hturn.late hback hs hover)

/-! ## Where a part collapses -/

/-- Up to the first occurrence of its secret a sweep copies the text. -/
theorem sweep_source (hr : R.replacement = []) {c : Cut Char} (hne : c.span ≠ [])
    (h : ¬c.span <:+: (c.left ++ c.span).dropLast) :
    (sweeper c.span).scan R.replacement c.source
      = c.left ++ (sweeper c.span).scan R.replacement c.right := by
  have hnext : (sweeper c.span).next c.source = some (c.left, c.span, c.right) :=
    (sweeper_next hne _).trans (splitFirst_of_first hne h)
  rw [scan_of_some hne hnext, hr, List.append_nil]

/-- And so it does up to a place that no occurrence starts before. -/
theorem sweep_skip {s a b : Text} (hs : s ≠ []) (ha : ¬s <:+: a) (hab : ¬Joins s a b) (r : Text) :
    (sweeper s).scan r (a ++ b) = a ++ (sweeper s).scan r b := by
  have hnext := splitFirst_append ha hab
  rw [← sweeper_next hs, ← sweeper_next hs] at hnext
  cases hb : (sweeper s).next b with
  | none =>
      rw [hb] at hnext
      rw [scan_of_none hb, scan_of_none hnext]
  | some hit =>
      obtain ⟨skip, span, rest⟩ := hit
      obtain ⟨-, rfl, -⟩ := sweeper_next_some hs hb
      rw [hb] at hnext
      rw [scan_of_some hs hb, scan_of_some hs hnext]
      simp only [List.append_assoc]

theorem sweeps_eq_self {l : List Text} {t : Text} (hl : ∀ s ∈ l, s ≠ [] ∧ ¬s <:+: t) :
    Pass.runAll (l.map R.sweep) t = t := by
  refine Pass.runAll_preserves (P := (· = t)) (fun p hp u hu => ?_) rfl
  subst hu
  obtain ⟨s, hs, rfl⟩ := List.mem_map.mp hp
  exact sweep_eq_self (hl s hs).1 (hl s hs).2

/-- The sweeps of secrets that do not occur leave the text to the next one. -/
theorem sweeps_from {before after : List Text} {s t : Text}
    (hs : R.secrets = before ++ s :: after) (hgone : ∀ w ∈ before, ¬w <:+: t) :
    Pass.runAll (R.secrets.map R.sweep) t
      = Pass.runAll (after.map R.sweep) ((sweeper s).scan R.replacement t) := by
  have hbefore : ∀ w ∈ before, w ≠ [] ∧ ¬w <:+: t := fun w hw =>
    ⟨R.nonempty w (by rw [hs]; exact List.mem_append_left _ hw), hgone w hw⟩
  rw [hs, List.map_append, List.map_cons, Pass.runAll_append, Pass.runAll_cons,
    sweeps_eq_self hbefore]
  rfl

/-- A deletion that joins none of the secrets swept so far may be made ahead of
the sweeps. -/
theorem sweeps_ahead (hr : R.replacement = []) {c : Cut Char} (h : R.FirstSecret c)
    (hnone : ∀ s, R.Late s c.span → ¬Joins s c.left c.right) :
    Pass.runAll (R.secrets.map R.sweep) c.source
      = Pass.runAll (R.secrets.map R.sweep) (c.left ++ c.right) := by
  have hne := R.nonempty c.span h.mem
  obtain ⟨before, after, hs, hgone, hfirst⟩ := h
  have hjoins : ∀ w ∈ before ++ [c.span], ¬Joins w c.left c.right :=
    fun w hw => hnone w (late_of_split hs hw)
  have hgone' : ∀ w ∈ before, ¬w <:+: c.left ++ c.right := by
    intro w hw hin
    rcases infix_append_iff_joins.mp hin with hin | hin | hin
    · exact hgone w hw (Cut.infix_source (Or.inl hin))
    · exact hgone w hw (Cut.infix_source (Or.inr hin))
    · exact hjoins w (List.mem_append_left _ hw) hin
  have hleft : ¬c.span <:+: c.left := by
    intro hin
    refine hfirst (hin.trans ?_)
    rw [List.dropLast_append_of_ne_nil hne]
    exact List.infix_append_left
  rw [sweeps_from hs hgone, sweeps_from hs hgone', sweep_source hr hne hfirst,
    sweep_skip hne hleft (hjoins _ (by simp))]

/-- The last deletion: what it joins is swept no more, and no other secret is in it. -/
theorem sweeps_last (hr : R.replacement = []) {c : Cut Char} {s : Text} (h : R.FirstSecret c)
    (hlate : R.Late s c.span) (hleft : c.left ≠ []) (hs : c.left ++ c.right = s)
    (hinner : ∀ e ∈ R.secrets, e <:+: s → e = s) :
    Pass.runAll (R.secrets.map R.sweep) c.source = s := by
  have hmem := h.mem
  have hne := R.nonempty c.span hmem
  obtain ⟨before, after, hsplit, hgone, hfirst⟩ := h
  have hright : ¬c.span <:+: c.right := by
    intro hin
    have heq := hinner c.span hmem (hin.trans ⟨c.left, [], by rw [← hs]; simp⟩)
    have hle := hin.length_le
    have hpos := List.length_pos_iff.mpr hleft
    have hlen := congrArg List.length (heq.trans hs.symm)
    rw [List.length_append] at hlen
    omega
  -- the secrets after the span are not in what is joined, nor is that one of them
  have hafter : ∀ e ∈ after, e ≠ [] ∧ ¬e <:+: s := by
    intro e he
    have hemem : e ∈ R.secrets := by rw [hsplit]; simp [he]
    refine ⟨R.nonempty e hemem, fun hin => ?_⟩
    obtain rfl := hinner e hemem hin
    have hsorted := R.sorted
    rw [hsplit] at hsorted
    obtain ⟨hprecedes, hdiffer⟩ :=
      (List.pairwise_cons.mp (List.pairwise_append.mp hsorted).2.1).1 e he
    exact hdiffer (precedes_antisymm hprecedes (hlate.2 hmem))
  rw [sweeps_from hsplit hgone, sweep_source hr hne hfirst, sweep_eq_self hne hright, hs,
    sweeps_eq_self hafter]

/-- With deletion, a text that collapses to a secret by its secrets alone is
redacted to that secret, if there is no other one and no credential in it. -/
theorem clean_collapses (hr : R.replacement = []) {s text : Text}
    (h : Collapses R.FirstSecret R.Late s text) (hinner : ∀ e ∈ R.secrets, e <:+: s → e = s)
    (hplain : ∀ c, CredentialSpan c → c.source ≠ s) : R.clean text = s := by
  have hswept : Pass.runAll (R.secrets.map R.sweep) text = s := by
    induction h with
    | last hfirst hlate hleft _ hs => exact sweeps_last hr hfirst hlate hleft hs hinner
    | step hfirst hnone _ ih =>
        rw [Cut.result, List.append_nil] at ih
        rw [sweeps_ahead hr hfirst hnone, ih]
  rw [clean, passes, Pass.runAll_append, hswept]
  refine (Pass.chain_all R.patternPasses s).eq_self fun c hc hsource => ?_
  exact absurd hsource (hplain c (R.patternPasses_spans c hc))

variable {providerApiKey : Text} {values : List (Text × Text)}

end Redactor

end PeakcodeDaemon
