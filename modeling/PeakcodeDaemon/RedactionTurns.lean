import PeakcodeDaemon.RedactionTargets
import Mathlib.Data.List.Forall2
import Mathlib.Data.Set.Basic
import Mathlib.Order.Minimal

/-!
# Targets, and when their turn comes

A target has its turn when no target before it in the order stands in the
text any more, and then its first hit is the one to replace (`InTurn`).
`Comes` is the closure of a text under replacing hits in turn. As long as
nothing goes wrong this leaves no choice. What can go wrong is that a
replacement puts its two sides together into a target whose turn is over:
the target is `back` from then on, and the text keeps it, since turns do
not go back.

- **soundness** (`cuts_replaces`): every replacement that the redactor
  makes is one of a hit in turn in the closure of its input. By the list of
  passes (`allCuts_replaces`), each of which serves its target (`Serves`):
  the sweep of a secret by the rule of one sweep (`sweep_serves`), the
  others because they take their target (`TakesOut.serves`).
- **secrets** (`clean_gone`): one that no replacement spells anew, from its
  own turn on, is not in the redacted text. It is enough to know it of the
  `Innermost` ones, since every secret has one in it (`exists_innermost`).

So a property of all hits in turn is a property of all that happens to a
text, and a condition that says there is no bad one among them is about
the text, the secrets and the forms of the credentials.
-/

namespace PeakcodeDaemon

open Splice Utf8 Scanner

namespace Redactor

/-! ## Hits in turn -/

/-- The cut hits `x` in its turn, which comes after those of `before`. The text
has seen the turns of `done`, and the targets of `back` are in it for good. -/
structure InTurn (R : Redactor) (done : List Target) (back : Set Target) (before : List Target)
    (x : Target) (c : Cut Char) : Prop where
  order : ∃ after, R.targets = before ++ x :: after
  turn : done <+: before
  gone : ∀ y ∈ before, y ∉ back → ¬R.StandsIn c.source y
  hits : Hits c x
  first : x ∉ back → R.First c x

/-- Its replacement brings a target back whose turn is over, or a secret whose
turn it is. -/
inductive BroughtBack (R : Redactor) (before : List Target) (x : Target) (c : Cut Char) :
    Target → Prop
  | earlier {y : Target} (hy : y ∈ before) (h : R.StandsIn (c.result R.replacement) y) :
      R.BroughtBack before x c y
  | own {s : Text} (hx : x = .secret s) (h : Meets R.replacement s c) :
      R.BroughtBack before x c (.secret s)

/-- `Comes text done back t`: replacing hits in turn makes `t` of the text. -/
inductive Comes (R : Redactor) (text : Text) : List Target → Set Target → Text → Prop
  | start : R.Comes text [] ∅ text
  | next {done before : List Target} {back : Set Target} {x : Target} {c : Cut Char}
      (h : R.Comes text done back c.source) (hturn : R.InTurn done back before x c) :
      R.Comes text before (back ∪ R.BroughtBack before x c) (c.result R.replacement)

/-- The cut is one that replacing hits in turn comes to. -/
def Replaces (R : Redactor) (text : Text) (before : List Target) (x : Target) (c : Cut Char) :
    Prop :=
  ∃ done back, R.Comes text done back c.source ∧ R.InTurn done back before x c

/-- What a run of the passes has come to when the turns of the targets are over. -/
def CameTo (R : Redactor) (text : Text) (before : List Target) (t : Text) : Prop :=
  ∃ done back, R.Comes text done back t ∧ done <+: before ∧
    ∀ y ∈ before, y ∉ back → ¬R.StandsIn t y

variable {R : Redactor} {text : Text}

theorem cameTo_start (R : Redactor) (text : Text) : R.CameTo text [] text :=
  ⟨[], ∅, .start, List.prefix_rfl, fun y hy => by cases hy⟩

/-- A first hit is in turn, and of the targets before it only those that are back
stand in what it makes. -/
theorem CameTo.cut {before : List Target} {x : Target} {c : Cut Char}
    (h : R.CameTo text before c.source) (horder : ∃ after, R.targets = before ++ x :: after)
    (hhits : Hits c x) (hfirst : R.First c x) :
    R.Replaces text before x c ∧ R.CameTo text before (c.result R.replacement) := by
  obtain ⟨done, back, hcomes, hdone, hgone⟩ := h
  have hturn : R.InTurn done back before x c := ⟨horder, hdone, hgone, hhits, fun _ => hfirst⟩
  refine ⟨⟨done, back, hcomes, hturn⟩, before, _, .next hcomes hturn, List.prefix_rfl, ?_⟩
  exact fun y hy hnot hstands => hnot (Or.inr (.earlier hy hstands))

/-- The turn of a target that stands no more is over. -/
theorem CameTo.over {before : List Target} {x : Target} {t : Text} (h : R.CameTo text before t)
    (hx : ¬R.StandsIn t x) : R.CameTo text (before ++ [x]) t := by
  obtain ⟨done, back, hcomes, hdone, hgone⟩ := h
  refine ⟨done, back, hcomes, hdone.trans (List.prefix_append ..), fun y hy hnot => ?_⟩
  rcases List.mem_append.mp hy with hy | hy
  · exact hgone y hy hnot
  · rwa [List.mem_singleton.mp hy]

/-- The closure has no letters but those of the text and of the replacement. -/
theorem Comes.letters {done : List Target} {back : Set Target} {t : Text}
    (h : R.Comes text done back t) : ∀ d ∈ t, d ∈ text ∨ d ∈ R.replacement := by
  induction h with
  | start => exact fun d hd => Or.inl hd
  | next _ _ ih =>
      intro d hd
      simp only [Cut.result, Cut.source, List.mem_append] at ih hd
      rcases hd with (hd | hd) | hd
      · exact ih d (Or.inl (Or.inl hd))
      · exact Or.inr hd
      · exact ih d (Or.inr hd)

theorem credentialSpan_of_hits {c : Cut Char} {x : Target} (hx : x ∈ patternTargets)
    (h : Hits c x) : CredentialSpan c := by
  rw [patternTargets, List.mem_append, List.mem_cons, List.mem_map, List.mem_map] at hx
  rcases hx with ⟨label, hlabel, rfl⟩ | rfl | ⟨lead, hlead, rfl⟩
  · exact .privateKey hlabel h
  · exact .bearer h
  · exact .token hlead h

/-- A hit in turn takes a secret, behind the secrets before it, or a credential
behind all of them. -/
theorem InTurn.secret_or_credential {done before : List Target} {back : Set Target} {x : Target}
    {c : Cut Char} (h : R.InTurn done back before x c) :
    (∃ sooner later, R.secrets = sooner ++ c.span :: later ∧ before = sooner.map .secret ∧
        x = .secret c.span) ∨
      (∀ s ∈ R.secrets, .secret s ∈ before) ∧ CredentialSpan c := by
  obtain ⟨after, horder⟩ := h.order
  rw [targets] at horder
  rcases List.append_eq_append_iff.mp horder with ⟨z, hbefore, hz⟩ | ⟨z, hsecrets, hz⟩
  · refine Or.inr ⟨fun s hs => ?_, credentialSpan_of_hits ?_ h.hits⟩
    · rw [hbefore]
      exact List.mem_append_left _ (List.mem_map_of_mem hs)
    · rw [hz]
      simp
  · cases z with
    | nil =>
        rw [List.append_nil] at hsecrets
        rw [List.nil_append] at hz
        refine Or.inr ⟨fun s hs => ?_, credentialSpan_of_hits ?_ h.hits⟩
        · rw [← hsecrets]
          exact List.mem_map_of_mem hs
        · rw [← hz]
          exact List.mem_cons_self ..
    | cons y z =>
        obtain ⟨rfl, -⟩ := List.cons.inj hz
        obtain ⟨sooner, rest, hsplit, hsooner, hrest⟩ := List.map_eq_append_iff.mp hsecrets
        obtain ⟨s, later, rfl, rfl, -⟩ := List.map_eq_cons_iff.mp hrest
        obtain rfl : c.span = s := h.hits
        exact Or.inl ⟨sooner, later, hsplit, hsooner.symm, rfl⟩

theorem Replaces.letters {before : List Target} {x : Target} {c : Cut Char}
    (h : R.Replaces text before x c) : ∀ d ∈ c.source, d ∈ text ∨ d ∈ R.replacement := by
  obtain ⟨done, back, hcomes, -⟩ := h
  exact hcomes.letters

/-- Where a text and the replacement have no hyphen, underscore or blank, there
are secrets to take out of it, and nothing else. -/
theorem Replaces.mem_secrets {before : List Target} {x : Target} {c : Cut Char}
    (h : R.Replaces text before x c)
    (hplain : ∀ d ∈ ['-', '_', ' '], d ∉ text ∧ d ∉ R.replacement) : c.span ∈ R.secrets := by
  obtain ⟨done, back, -, hturn⟩ := id h
  rcases hturn.secret_or_credential with ⟨sooner, later, hsplit, -⟩ | ⟨-, hspan⟩
  · rw [hsplit]
    simp
  · obtain ⟨d, hd, hmem⟩ := hspan.letter
    exact ((h.letters d hmem).elim (hplain d hd).1 (hplain d hd).2).elim

/-! ## Each pass serves its target -/

/-- The pass makes replacements in turn, and the target's turn is over behind it. -/
def Serves (R : Redactor) (x : Target) (p : Pass R.replacement) : Prop :=
  ∀ {text before t}, (∃ after, R.targets = before ++ x :: after) → R.CameTo text before t →
    (∀ c ∈ p.cuts t, R.Replaces text before x c) ∧ R.CameTo text (before ++ [x]) (p.out t)

/-- A secret's sweep takes the first occurrence, unless it has spelled the secret
anew. -/
theorem sweep_serves {s : Text} (hs : s ∈ R.secrets) : R.Serves (.secret s) (R.sweep s) := by
  intro text before t horder ht
  have hne := R.nonempty s hs
  have hrule := Scans.sweep_rule hne (R.CameTo text before)
    (fun t => ∃ done back, R.Comes text done back t ∧ done <+: before ∧
      (∀ y ∈ before, y ∉ back → ¬R.StandsIn t y) ∧ .secret s ∈ back)
    (R.Replaces text before (.secret s)) ((sweeper s).scans R.replacement [] t) ?_ ?_
    (Or.inl ⟨ht, fun hin => hne (List.infix_nil.mp hin), not_joins_nil s t⟩)
  · refine ⟨hrule.1, ?_⟩
    rcases hrule.2 with ⟨hcame, hout⟩ | ⟨done, back, hcomes, hdone, hgone, hback⟩
    · exact hcame.over fun hstands => hout ((stands_secret hs).mp hstands)
    · refine ⟨done, back, hcomes, hdone.trans (List.prefix_append ..), fun y hy hnot => ?_⟩
      rcases List.mem_append.mp hy with hy | hy
      · exact hgone y hy hnot
      · exact absurd (List.mem_singleton.mp hy ▸ hback) hnot
  · rintro c - rfl hfirst hcame
    have hfirst := (first_secret hs).mpr hfirst
    obtain ⟨hreplaces, hres⟩ := hcame.cut horder rfl hfirst
    refine ⟨hreplaces, ?_⟩
    by_cases hmeets : Meets R.replacement c.span c
    · obtain ⟨done, back, hcomes, hdone, hgone⟩ := hcame
      refine Or.inr ⟨before, _, .next hcomes ⟨horder, hdone, hgone, rfl, fun _ => hfirst⟩,
        List.prefix_rfl, ?_, Or.inr (.own rfl hmeets)⟩
      exact fun y hy hnot hstands => hnot (Or.inr (.earlier hy hstands))
    · exact Or.inl ⟨hres, hmeets⟩
  · rintro c - rfl ⟨done, back, hcomes, hdone, hgone, hback⟩
    have hturn : R.InTurn done back before (.secret c.span) c :=
      ⟨horder, hdone, hgone, rfl, fun hnot => absurd hback hnot⟩
    refine ⟨⟨done, back, hcomes, hturn⟩, before, _, .next hcomes hturn, List.prefix_rfl, ?_,
      Or.inl hback⟩
    exact fun y hy hnot hstands => hnot (Or.inr (.earlier hy hstands))

theorem TakesOut.serves {x : Target} {p : Pass R.replacement} (h : R.TakesOut x p) :
    R.Serves x p := by
  intro text before t horder ht
  have hchain := p.chain t
  have hhits := h.hits t
  have hcame : (∀ c ∈ p.cuts t, R.Replaces text before x c) ∧ R.CameTo text before (p.out t) := by
    generalize p.cuts t = cs at hchain hhits
    generalize p.out t = u at hchain
    induction hchain with
    | nil => exact ⟨by simp, ht⟩
    | @cons t u c cs hsource _ ih =>
        subst hsource
        obtain ⟨hspan, hfirst⟩ := hhits c (List.mem_cons_self ..)
        obtain ⟨hreplaces, hres⟩ := ht.cut horder hspan hfirst
        obtain ⟨hcs, hu⟩ := ih hres fun d hd => hhits d (List.mem_cons_of_mem _ hd)
        exact ⟨List.forall_mem_cons.mpr ⟨hreplaces, hcs⟩, hu⟩
  exact ⟨hcame.1, hcame.2.over (h.out t)⟩

theorem sweeps_serve {l : List Text} (hl : l ⊆ R.secrets) :
    List.Forall₂ R.Serves (l.map .secret) (l.map R.sweep) := by
  rw [List.forall₂_map_left_iff, List.forall₂_map_right_iff, List.forall₂_same]
  exact fun s hs => sweep_serves (hl hs)

theorem patterns_take (R : Redactor) : List.Forall₂ R.TakesOut patternTargets R.patternPasses := by
  have hkeys : List.Forall₂ R.TakesOut (privateKeyLabels.map .privateKey)
      (privateKeyLabels.map fun label => keyPass label R.replacement_length) := by
    rw [List.forall₂_map_left_iff, List.forall₂_map_right_iff, List.forall₂_same]
    exact fun label _ => R.keyPass_takes label
  have htokens : List.Forall₂ R.TakesOut (tokenPrefixes.map .token)
      (tokenPrefixes.attach.map fun lead => R.tokenPass lead.1 lead.2) := by
    have hleads : tokenPrefixes.map Target.token
        = tokenPrefixes.attach.map fun lead => .token lead.1 := by
      conv_lhs => rw [← List.attach_map_subtype_val tokenPrefixes]
      rw [List.map_map]
      rfl
    rw [hleads, List.forall₂_map_left_iff, List.forall₂_map_right_iff, List.forall₂_same]
    exact fun lead _ => R.tokenPass_takes lead.2
  rw [patternTargets, patternPasses, List.append_assoc]
  exact List.rel_append hkeys (.cons R.bearerPass_takes htokens)

theorem patterns_serve (R : Redactor) : List.Forall₂ R.Serves patternTargets R.patternPasses :=
  R.patterns_take.imp fun _ _ => TakesOut.serves

theorem patternPasses_spans (R : Redactor) {t : Text} :
    ∀ c ∈ Pass.allCuts R.patternPasses t, CredentialSpan c := by
  refine Pass.forall_mem_allCuts fun p hp t c hc => ?_
  obtain ⟨n, hn, rfl⟩ := List.getElem_of_mem hp
  have hlen := R.patterns_take.length_eq
  have htakes := List.Forall₂.get R.patterns_take (hlen ▸ hn) hn
  exact credentialSpan_of_hits (List.getElem_mem _) (htakes.hits t c hc).1

/-! ## The closure has all that happens -/

/-- The passes of some targets, those before them done. -/
theorem allCuts_replaces {mid : List Target} {ps : List (Pass R.replacement)}
    (h : List.Forall₂ R.Serves mid ps) {before after : List Target} {t : Text}
    (horder : R.targets = before ++ mid ++ after) (ht : R.CameTo text before t) :
    (∀ c ∈ Pass.allCuts ps t, ∃ sooner x, before <+: sooner ∧ R.Replaces text sooner x c) ∧
      R.CameTo text (before ++ mid) (Pass.runAll ps t) := by
  induction h generalizing before t with
  | nil =>
      refine ⟨by simp [Pass.allCuts], ?_⟩
      rw [List.append_nil]
      exact ht
  | @cons x p mid ps hserves _ ih =>
      obtain ⟨hcuts, hout⟩ := hserves ⟨mid ++ after, by rw [horder, List.append_assoc]; rfl⟩ ht
      have horder' : R.targets = before ++ [x] ++ mid ++ after := by rw [horder]; simp
      obtain ⟨hcuts', hout'⟩ := ih horder' hout
      refine ⟨fun c hc => ?_, by simpa using hout'⟩
      rcases List.mem_append.mp hc with hc | hc
      · exact ⟨before, x, List.prefix_rfl, hcuts c hc⟩
      · obtain ⟨sooner, y, hpre, hreplaces⟩ := hcuts' c hc
        exact ⟨sooner, y, (List.prefix_append ..).trans hpre, hreplaces⟩

/-- Every replacement that the redactor makes is one that replacing hits in turn
comes to. -/
theorem cuts_replaces (R : Redactor) (text : Text) :
    ∀ c ∈ R.cuts text, ∃ before x, R.Replaces text before x c := by
  have hserve : List.Forall₂ R.Serves R.targets R.passes :=
    List.rel_append (sweeps_serve (List.Subset.refl _)) R.patterns_serve
  have horder : R.targets = [] ++ R.targets ++ [] := by simp
  intro c hc
  obtain ⟨before, x, -, hreplaces⟩ :=
    (allCuts_replaces hserve horder (cameTo_start R text)).1 c hc
  exact ⟨before, x, hreplaces⟩

/-- A secret that no replacement spells anew, from its own turn on, is not in
the redacted text. -/
theorem clean_gone {s : Text} (hs : s ∈ R.secrets) (h : ∀ before x c,
    R.Replaces text before x c → .secret s ∈ before ++ [x] → ¬Meets R.replacement s c) :
    ¬s <:+: R.clean text := by
  obtain ⟨sooner, later, hsplit⟩ := List.append_of_mem hs
  have hmem : ∀ w ∈ R.secrets, w ∈ sooner ∨ w = s ∨ w ∈ later := by
    rw [hsplit]
    simp
  have hsooner : sooner ⊆ R.secrets := by rw [hsplit]; simp
  have hlater : later ⊆ R.secrets := by rw [hsplit]; exact fun w hw => by simp [hw]
  have horder : R.targets = [] ++ sooner.map .secret
      ++ (.secret s :: (later.map .secret ++ patternTargets)) := by
    rw [targets, hsplit]
    simp
  have horder' : R.targets = sooner.map .secret ++ [.secret s]
      ++ (later.map .secret ++ patternTargets) ++ [] := by
    rw [horder]
    simp
  obtain ⟨-, hswept⟩ := allCuts_replaces (sweeps_serve hsooner) horder (cameTo_start R text)
  obtain ⟨hown, hout⟩ := sweep_serves hs ⟨_, horder⟩ hswept
  obtain ⟨hrest, -⟩ := allCuts_replaces
    (List.rel_append (sweeps_serve hlater) R.patterns_serve) horder' hout
  -- its own sweep takes it out, and no later replacement brings it back
  have hgone := Scans.sweep_gone (R.nonempty s hs) ((sweeper s).scans R.replacement [] _)
    fun c hc => h _ _ c (hown c hc) (by simp)
  have hclean : R.clean text = Pass.runAll (later.map R.sweep ++ R.patternPasses)
      ((R.sweep s).out (Pass.runAll (sooner.map R.sweep) text)) := by
    rw [clean, passes, hsplit, List.map_append, List.map_cons, List.append_assoc,
      Pass.runAll_append]
    rfl
  rw [hclean]
  refine (Pass.chain_all _ _).preserves (P := fun t => ¬s <:+: t) (fun c hc => ?_) hgone
  obtain ⟨before, x, hpre, hreplaces⟩ := hrest c hc
  refine Cut.avoids (h before x c hreplaces (List.mem_append_left _ (hpre.subset ?_)))
  simp

/-- A secret with no other one in it. -/
def Innermost (R : Redactor) (s : Text) : Prop :=
  s ∈ R.secrets ∧ ∀ e ∈ R.secrets, e <:+: s → e = s

/-- The shortest secret inside of one is an innermost one. -/
theorem exists_innermost {s : Text} (hs : s ∈ R.secrets) : ∃ e, R.Innermost e ∧ e <:+: s := by
  obtain ⟨e, ⟨he, hin⟩, hleast⟩ := exists_minimalFor_of_wellFoundedLT
    (fun e => e ∈ R.secrets ∧ e <:+: s) List.length ⟨s, hs, List.infix_refl s⟩
  refine ⟨e, ⟨he, fun w hw hwe => ?_⟩, hin⟩
  exact hwe.eq_of_length_le (hleast ⟨hw, hwe.trans hin⟩ hwe.length_le)

end Redactor

end PeakcodeDaemon
