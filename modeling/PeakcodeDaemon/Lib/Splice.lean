import Mathlib.Data.List.Infix

/-!
# Replacing spans of a list

The list half of in-place text rewriting. A `Cut` takes one span out of a
list and puts a fixed replacement in its place; a `Chain` is a sequence of
cuts, each made on what the one before left.

- **one cut** (`Cut.infix_result`, `Cut.avoids`): whatever stands in the
  list after it stood there before, or it `Meets` the replacement. With an
  empty one this is to be joined from the two sides (`Joins`,
  `Meets.joins`). A replacement that keeps the sides apart (`Separates`)
  creates no occurrence at all.
- **a chain** (`Chain.preserves`): what every cut preserves the chain
  does. So what a chain preserves is decided by what one cut can create.
- **deletions** (`Collapses`, `Upright`): whether some sequence of
  deletions joins a word can be told from the stretches of the list alone,
  for any choice of what is to be deleted that is `Local`: a stretch
  around the span sees it too. An upright list stays so
  (`Upright.cut`) and joins nothing (`Upright.not_joins`).
- **flattenings** (`Across`, `infix_flatten`): occurrences across the
  seams of many lists.

`splitFirst` is the leftmost match of a word, taken up to a letter-wise
map (`id` for an exact search, a case fold for a case-blind one); what is
left of it contains no match (`splitFirst_left`), and its end is the first
end of one (`splitFirst_first`).
-/

namespace Splice

variable {α β : Type*}

/-! ## Cuts and chains of cuts -/

/-- One replacement: `span` is taken out from between `left` and `right`. -/
structure Cut (α : Type*) where
  left : List α
  span : List α
  right : List α
deriving DecidableEq, Repr

namespace Cut

def source (c : Cut α) : List α := c.left ++ c.span ++ c.right

def result (r : List α) (c : Cut α) : List α := c.left ++ r ++ c.right

end Cut

/-- `Chain r t cs u`: the cuts `cs`, made in order with the replacement
`r`, turn `t` into `u`. -/
inductive Chain (r : List α) : List α → List (Cut α) → List α → Prop
  | nil (t : List α) : Chain r t [] t
  | cons {t u : List α} {c : Cut α} {cs : List (Cut α)} (h : t = c.source)
      (rest : Chain r (c.result r) cs u) : Chain r t (c :: cs) u

theorem Chain.append {r t u v : List α} {cs ds : List (Cut α)}
    (h : Chain r t cs u) (h' : Chain r u ds v) : Chain r t (cs ++ ds) v := by
  induction h with
  | nil => exact h'
  | cons hsrc _ ih => exact .cons hsrc (ih h')

/-- The run rule: what every cut of the chain preserves, the chain does. -/
theorem Chain.preserves {r t u : List α} {cs : List (Cut α)} {P : List α → Prop}
    (h : Chain r t cs u) (hcut : ∀ c ∈ cs, P c.source → P (c.result r))
    (ht : P t) : P u := by
  induction h with
  | nil => exact ht
  | @cons t u c cs hsrc _ ih =>
      subst hsrc
      exact ih (fun d hd => hcut d (List.mem_cons_of_mem _ hd))
        (hcut c (List.mem_cons_self ..) ht)

/-- A chain changes nothing where no cut of its first text does. -/
theorem Chain.eq_self {r t u : List α} {cs : List (Cut α)} (h : Chain r t cs u)
    (hcut : ∀ c ∈ cs, c.source = t → c.span = r) : u = t := by
  induction h with
  | nil => rfl
  | @cons t u c cs hsrc _ ih =>
      have hspan := hcut c (List.mem_cons_self ..) hsrc.symm
      have hresult : c.result r = t := by rw [hsrc, Cut.source, Cut.result, hspan]
      rw [hresult] at ih
      exact ih fun d hd => hcut d (List.mem_cons_of_mem _ hd)

/-! ## Occurrences across a seam -/

/-- The word `s` is spelled across the seam between `l` and `r`. -/
def Joins (s l r : List α) : Prop :=
  ∃ x y, x ≠ [] ∧ y ≠ [] ∧ s = x ++ y ∧ x <:+ l ∧ y <+: r

theorem not_joins_nil (s r : List α) : ¬Joins s [] r := by
  rintro ⟨x, y, hx, -, -, hsuf, -⟩
  exact hx (List.suffix_nil.mp hsuf)

theorem infix_append_iff_joins {s l r : List α} :
    s <:+: l ++ r ↔ s <:+: l ∨ s <:+: r ∨ Joins s l r :=
  List.infix_append_iff_ne_nil

/-- No occurrence of `s` reaches across an inserted `m`. -/
def Separates (m s : List α) : Prop :=
  ∀ l r, s <:+: l ++ m ++ r → s <:+: l ∨ s <:+: m ∨ s <:+: r

/-- A word that avoids the first and the last letter of `m` is separated
by it: an occurrence that reached across would contain one of the two. -/
theorem separates_of_delimiters {a b : α} {mid s : List α} (ha : a ∉ s) (hb : b ∉ s) :
    Separates (a :: mid ++ [b]) s := by
  intro l r h
  rcases infix_append_iff_joins.mp h with h | h | ⟨x, y, hx, -, rfl, hsuf, -⟩
  · rcases infix_append_iff_joins.mp h with h | h | ⟨x, y, -, hy, rfl, -, hpre⟩
    · exact Or.inl h
    · exact Or.inr (Or.inl h)
    · obtain ⟨c, y', rfl⟩ := List.exists_cons_of_ne_nil hy
      obtain rfl : c = a := (List.cons_prefix_cons.mp hpre).1
      exact absurd (by simp) ha
  · exact Or.inr (Or.inr h)
  · obtain ⟨z, hz⟩ := hsuf
    have hlast : x.getLast hx = b := by
      have h1 : (z ++ x).getLast? = some b := by
        rw [hz, ← List.append_assoc, List.getLast?_concat]
      rw [List.getLast?_append_of_ne_nil _ hx, List.getLast?_eq_getLast_of_ne_nil hx] at h1
      exact Option.some.inj h1
    exact absurd (List.mem_append.mpr (Or.inl (hlast ▸ List.getLast_mem hx))) hb

/-- A chain whose replacement separates `s` creates no occurrence of it. -/
theorem Chain.avoids {r t u s : List α} {cs : List (Cut α)} (h : Chain r t cs u)
    (hsep : Separates r s) (hr : ¬s <:+: r) (ht : ¬s <:+: t) : ¬s <:+: u := by
  refine h.preserves (P := fun t => ¬s <:+: t) (fun c _ hc hin => hc ?_) ht
  rcases hsep _ _ hin with h | h | h
  · exact (List.infix_append_of_infix_left h).trans List.infix_append_left
  · exact absurd h hr
  · exact List.infix_append_of_infix_right h

/-! ## Occurrences that a cut brings about -/

/-- After the cut `w` stands in the text and shares a letter with the
replacement, or reaches across where an empty one was put. -/
def Meets (r w : List α) (c : Cut α) : Prop :=
  ∃ A B, c.result r = A ++ w ++ B ∧ A.length < (c.left ++ r).length ∧
    c.left.length < (A ++ w).length

/-- Where it does not meet the replacement, it stands wholly left or right of it. -/
theorem Cut.occurrence_result {r w A B : List α} {c : Cut α} (hAB : c.result r = A ++ w ++ B)
    (h : ¬Meets r w c) : (∃ z, c.left = A ++ w ++ z) ∨
      ∃ z, A = c.left ++ r ++ z ∧ c.right = z ++ w ++ B := by
  by_cases hleft : (A ++ w).length ≤ c.left.length
  · obtain ⟨z, hz⟩ : A ++ w <+: c.left := by
      refine List.prefix_of_prefix_length_le ⟨B, hAB.symm⟩ ?_ hleft
      exact ⟨r ++ c.right, by rw [Cut.result, List.append_assoc]⟩
    exact Or.inl ⟨z, hz.symm⟩
  · have hright : (c.left ++ r).length ≤ A.length := by
      by_contra hlt
      exact h ⟨A, B, hAB, by omega, by omega⟩
    obtain ⟨z, hz⟩ : c.left ++ r <+: A := by
      refine List.prefix_of_prefix_length_le ⟨c.right, rfl⟩ ?_ hright
      exact ⟨w ++ B, by rw [← List.append_assoc, ← hAB, Cut.result]⟩
    rw [Cut.result, ← hz, List.append_assoc _ z, List.append_assoc (c.left ++ r)] at hAB
    exact Or.inr ⟨z, hz.symm, List.append_cancel_left hAB⟩

/-- Whatever stands in the text after a cut stood there before, or it meets
the replacement. -/
theorem Cut.infix_result {r w : List α} {c : Cut α} (h : w <:+: c.result r) :
    w <:+: c.left ∨ w <:+: c.right ∨ Meets r w c := by
  by_cases hmeets : Meets r w c
  · exact Or.inr (Or.inr hmeets)
  · obtain ⟨A, B, hAB⟩ := h
    rcases Cut.occurrence_result hAB.symm hmeets with ⟨z, hleft⟩ | ⟨z, -, hright⟩
    · exact Or.inl ⟨A, z, hleft.symm⟩
    · exact Or.inr (Or.inl ⟨z, B, hright.symm⟩)

theorem Cut.infix_source {w : List α} {c : Cut α} (h : w <:+: c.left ∨ w <:+: c.right) :
    w <:+: c.source := by
  rcases h with h | h
  · exact (List.infix_append_of_infix_left h).trans List.infix_append_left
  · exact List.infix_append_of_infix_right h

/-- What no cut brings about is absent if it was. -/
theorem Cut.avoids {r w : List α} {c : Cut α} (hmeets : ¬Meets r w c) (h : ¬w <:+: c.source) :
    ¬w <:+: c.result r := by
  intro hin
  rcases Cut.infix_result hin with hin | hin | hin
  · exact h (Cut.infix_source (Or.inl hin))
  · exact h (Cut.infix_source (Or.inr hin))
  · exact hmeets hin

/-- The same for what is left of the cut, with the replacement behind it. -/
theorem Cut.infix_left {r w : List α} {c : Cut α} (hw : w ≠ []) (h : w <:+: c.left ++ r) :
    w <:+: c.left ∨ Meets r w c := by
  obtain ⟨A, B, hAB⟩ := h
  have hpos := List.length_pos_iff.mpr hw
  have hlen := congrArg List.length hAB
  by_cases hleft : (A ++ w).length ≤ c.left.length
  · obtain ⟨z, hz⟩ : A ++ w <+: c.left :=
      List.prefix_of_prefix_length_le ⟨B, hAB⟩ (List.prefix_append ..) hleft
    exact Or.inl ⟨A, z, hz⟩
  · refine Or.inr ⟨A, B ++ c.right, ?_, ?_, by omega⟩
    · rw [Cut.result, ← hAB, List.append_assoc]
    · simp only [List.length_append] at hlen ⊢
      omega

theorem Joins.meets {r w : List α} {c : Cut α} (h : Joins w (c.left ++ r) c.right) :
    Meets r w c := by
  obtain ⟨x, y, hx, hy, rfl, ⟨A, hA⟩, ⟨B, hB⟩⟩ := h
  have hxpos := List.length_pos_iff.mpr hx
  have hypos := List.length_pos_iff.mpr hy
  have hlen := congrArg List.length hA
  refine ⟨A, B, ?_, ?_, ?_⟩
  · rw [Cut.result, ← hA, ← hB]
    simp only [List.append_assoc]
  · rw [← hA, List.length_append]
    omega
  · simp only [List.length_append] at hlen ⊢
    omega

/-- A single letter cannot reach across anything: it meets the replacement only as a
letter of it. -/
theorem Meets.mem_of_letter {r : List α} {d : α} {c : Cut α} (h : Meets r [d] c) : d ∈ r := by
  obtain ⟨A, B, hAB, hstart, hstop⟩ := h
  simp only [List.length_append, List.length_singleton] at hstart hstop
  have hget := congrArg (fun t => t[A.length]?) hAB
  simp only [Cut.result, List.append_assoc] at hget
  rw [List.getElem?_append_right (by omega), List.getElem?_append_left (by omega),
    List.getElem?_append_right (Nat.le_refl _), Nat.sub_self] at hget
  exact List.mem_of_getElem? hget

/-- Across a deletion, meeting it is being joined by it. -/
theorem Meets.joins {w : List α} {c : Cut α} (h : Meets [] w c) : Joins w c.left c.right := by
  obtain ⟨A, B, hAB, hstart, hstop⟩ := h
  rw [Cut.result, List.append_nil, List.append_assoc] at hAB
  rw [List.append_nil] at hstart
  rcases List.append_eq_append_iff.mp hAB with ⟨x, hA, -⟩ | ⟨x, hleft, hwB⟩
  · rw [hA, List.length_append] at hstart
    omega
  rcases List.append_eq_append_iff.mp hwB with ⟨y, hx, hright⟩ | ⟨y, hw, hB⟩
  · rw [hleft, hx, List.length_append, List.length_append, List.length_append] at hstop
    omega
  · refine ⟨x, y, ?_, ?_, hw, ⟨A, hleft.symm⟩, ⟨B, hB.symm⟩⟩
    · rintro rfl
      rw [hleft, List.append_nil] at hstart
      omega
    · rintro rfl
      rw [hleft, hw, List.append_nil] at hstop
      omega

/-! ## Words that deletions spell

A deletion can join its two sides into a word. Whether some sequence of
deletions will can be told from the stretches of the list alone: one that
is not the word itself collapses to it. The deletions are those that are
`Owed`, and a word counts against a deletion that comes too `Late` to have
it deleted again. -/

section Collapse

variable {Owed : Cut α → Prop} {Late : List α → List α → Prop}

/-- Owed deletions leave the word of the list, the last one with a part of it on
either side and none of the others with a late word across. -/
inductive Collapses (Owed : Cut α → Prop) (Late : List α → List α → Prop) (w : List α) :
    List α → Prop
  | last {c : Cut α} (h : Owed c) (hlate : Late w c.span) (hleft : c.left ≠ [])
      (hright : c.right ≠ []) (hw : c.left ++ c.right = w) : Collapses Owed Late w c.source
  | step {c : Cut α} (h : Owed c) (hnone : ∀ v, Late v c.span → ¬Joins v c.left c.right)
      (tail : Collapses Owed Late w (c.result [])) : Collapses Owed Late w c.source

/-- No stretch of the list collapses to a word. -/
def Upright (Owed : Cut α → Prop) (Late : List α → List α → Prop) (t : List α) : Prop :=
  ∀ w u, u <:+: t → ¬Collapses Owed Late w u

/-- What is owed is owed in every stretch around the span. -/
def Local (Owed : Cut α → Prop) : Prop :=
  ∀ c x y, Owed c → x <:+ c.left → y <+: c.right → Owed ⟨x, c.span, y⟩

theorem Cut.stretch {c : Cut α} {x y : List α} (hx : x <:+ c.left) (hy : y <+: c.right) :
    Cut.source ⟨x, c.span, y⟩ <:+: c.source := by
  obtain ⟨a, ha⟩ := hx
  obtain ⟨b, hb⟩ := hy
  exact ⟨a, b, by rw [Cut.source, Cut.source, ← ha, ← hb]; simp⟩

/-- In an upright list an owed deletion joins no late word. -/
theorem Upright.not_joins {c : Cut α} (hlocal : Local Owed) (h : Upright Owed Late c.source)
    (hc : Owed c) {w : List α} (hlate : Late w c.span) : ¬Joins w c.left c.right := by
  rintro ⟨x, y, hx, hy, rfl, hsuf, hpre⟩
  exact h _ _ (Cut.stretch hsuf hpre) (.last (hlocal c x y hc hsuf hpre) hlate hx hy rfl)

/-- And it leaves the list upright. -/
theorem Upright.cut {c : Cut α} (hlocal : Local Owed) (h : Upright Owed Late c.source)
    (hc : Owed c) : Upright Owed Late (c.result []) := by
  intro w u hu hcollapses
  rw [Cut.result, List.append_nil] at hu
  rcases infix_append_iff_joins.mp hu with hu | hu | ⟨x, y, hx, hy, rfl, hsuf, hpre⟩
  · exact h w u (hu.trans (Cut.infix_source (Or.inl (List.infix_refl _)))) hcollapses
  · exact h w u (hu.trans (Cut.infix_source (Or.inr (List.infix_refl _)))) hcollapses
  · -- the stretch across the seam collapsed with the span in between
    refine h w _ (Cut.stretch hsuf hpre) (.step (hlocal c x y hc hsuf hpre) ?_ ?_)
    · rintro v hlate ⟨x', y', hx', hy', hv, hsuf', hpre'⟩
      exact h.not_joins hlocal hc hlate ⟨x', y', hx', hy', hv, hsuf'.trans hsuf, hpre'.trans hpre⟩
    · rwa [Cut.result, List.append_nil]

/-- What a list collapses to was in it, letter by letter, and is shorter. -/
theorem Collapses.sublist {w t : List α} (h : Collapses Owed Late w t) : w.Sublist t := by
  have hsub : ∀ c : Cut α, (c.left ++ c.right).Sublist c.source := by
    intro c
    rw [Cut.source, List.append_assoc]
    exact (List.Sublist.refl _).append (List.sublist_append_right _ _)
  induction h with
  | @last c _ _ _ _ hw =>
      rw [← hw]
      exact hsub c
  | @step c _ _ _ ih =>
      rw [Cut.result, List.append_nil] at ih
      exact ih.trans (hsub c)

theorem Collapses.exists_late {w t : List α} (h : Collapses Owed Late w t) :
    ∃ span, Late w span := by
  induction h with
  | last _ hlate _ _ _ => exact ⟨_, hlate⟩
  | step _ _ _ ih => exact ih

theorem Collapses.two_le {w t : List α} (h : Collapses Owed Late w t) : 2 ≤ w.length := by
  induction h with
  | last _ _ hleft hright hw =>
      have := List.length_pos_iff.mpr hleft
      have := List.length_pos_iff.mpr hright
      rw [← hw, List.length_append]
      omega
  | step _ _ _ ih => exact ih

end Collapse

/-! ## Occurrences across the seams of a flattening -/

/-- The word `s` starts in one of the lists, runs through the ones between and
ends in a later one. -/
def Across (s : List α) (L : List (List α)) : Prop :=
  ∃ before first between last after x y, L = before ++ first :: (between ++ last :: after) ∧
    x ≠ [] ∧ y ≠ [] ∧ s = x ++ between.flatten ++ y ∧ x <:+ first ∧ y <+: last

theorem prefix_flatten : ∀ {L : List (List α)} {y : List α}, y <+: L.flatten → y ≠ [] →
    ∃ between last after z, L = between ++ last :: after ∧ z ≠ [] ∧
      y = between.flatten ++ z ∧ z <+: last
  | [], y, h, hy => absurd (List.prefix_nil.mp h) hy
  | l :: L, y, h, hy => by
      rw [List.flatten_cons] at h
      rcases List.prefix_or_prefix_of_prefix h (List.prefix_append l _) with hhead | ⟨z, rfl⟩
      · exact ⟨[], l, L, y, rfl, hy, rfl, hhead⟩
      · have hz := (List.prefix_append_right_inj l).mp h
        by_cases hnil : z = []
        · subst hnil
          rw [List.append_nil] at hy ⊢
          exact ⟨[], l, L, l, rfl, hy, rfl, List.prefix_rfl⟩
        · obtain ⟨between, last, after, w, rfl, hw, rfl, hlast⟩ := prefix_flatten hz hnil
          exact ⟨l :: between, last, after, w, rfl, hw, by simp, hlast⟩

theorem Across.cons {s l : List α} {L : List (List α)} (h : Across s L) : Across s (l :: L) := by
  obtain ⟨before, first, between, last, after, x, y, rfl, h⟩ := h
  exact ⟨l :: before, first, between, last, after, x, y, rfl, h⟩

/-- An occurrence in a flattening is in one of the lists, or across their seams. -/
theorem infix_flatten {s : List α} : ∀ {L : List (List α)}, s <:+: L.flatten → s ≠ [] →
    (∃ l ∈ L, s <:+: l) ∨ Across s L
  | [], h, hs => absurd (List.infix_nil.mp h) hs
  | l :: L, h, hs => by
      rw [List.flatten_cons] at h
      rcases infix_append_iff_joins.mp h with h | h | ⟨x, y, hx, hy, rfl, hsuf, hpre⟩
      · exact Or.inl ⟨l, List.mem_cons_self .., h⟩
      · rcases infix_flatten h hs with ⟨l', hl', h⟩ | h
        · exact Or.inl ⟨l', List.mem_cons_of_mem _ hl', h⟩
        · exact Or.inr h.cons
      · obtain ⟨between, last, after, z, rfl, hz, rfl, hlast⟩ := prefix_flatten hpre hy
        exact Or.inr ⟨[], l, between, last, after, x, z, rfl, hx, hz, by simp, hsuf, hlast⟩

theorem Across.infix_flatten {s : List α} {L : List (List α)} (h : Across s L) :
    s <:+: L.flatten := by
  obtain ⟨before, first, between, last, after, x, y, rfl, -, -, rfl, ⟨u, rfl⟩, ⟨v, rfl⟩⟩ := h
  exact ⟨before.flatten ++ u, v ++ after.flatten, by simp⟩

/-! ## What a chain leaves of the ends -/

section Ends

variable {r t u : List α} {cs : List (Cut α)} {a : α}

/-- An end that the last letter of the replacement does not occur in was not
touched. -/
theorem Chain.suffix_kept (h : Chain (r ++ [a]) t cs u) {x : List α} (hx : x <:+ u) (ha : a ∉ x) :
    x <:+ t := by
  induction h with
  | nil => exact hx
  | @cons t u c cs hsrc _ ih =>
      subst hsrc
      have hright : a :: c.right <:+ c.result (r ++ [a]) := ⟨c.left ++ r, by simp [Cut.result]⟩
      rcases List.suffix_or_suffix_of_suffix (ih hx) hright with h | h
      · rcases List.suffix_cons_iff.mp h with rfl | h
        · exact absurd (List.mem_cons_self ..) ha
        · exact h.trans ⟨c.left ++ c.span, rfl⟩
      · exact absurd (h.subset (List.mem_cons_self ..)) ha

/-- And the same at the start. -/
theorem Chain.prefix_kept (h : Chain (a :: r) t cs u) {y : List α} (hy : y <+: u) (ha : a ∉ y) :
    y <+: t := by
  induction h with
  | nil => exact hy
  | @cons t u c cs hsrc _ ih =>
      subst hsrc
      have hleft : c.left ++ [a] <+: c.result (a :: r) := ⟨r ++ c.right, by simp [Cut.result]⟩
      rcases List.prefix_or_prefix_of_prefix (ih hy) hleft with h | h
      · rcases List.prefix_concat_iff.mp h with rfl | h
        · exact absurd (by simp) ha
        · exact h.trans ⟨c.span ++ c.right, by simp [Cut.source]⟩
      · exact absurd (h.subset (by simp)) ha

/-- A text without the replacement's first letter was not cut. -/
theorem Chain.eq_of_not_mem (h : Chain (a :: r) t cs u) (ha : a ∉ u) : u = t := by
  induction h with
  | nil => rfl
  | @cons t u c cs hsrc _ ih =>
      rw [ih ha] at ha
      exact absurd (by simp [Cut.result]) ha

end Ends

/-! ## The leftmost match -/

/-- The leftmost place where the image of the list under `f` reads `p`:
what precedes it, the matched part, what follows. -/
def splitFirst [DecidableEq β] (f : α → β) (p : List β) :
    List α → Option (List α × List α × List α)
  | [] => if p = [] then some ([], [], []) else none
  | c :: t =>
      if p <+: (c :: t).map f then
        some ([], (c :: t).take p.length, (c :: t).drop p.length)
      else
        (splitFirst f p t).map fun (a, m, b) => (c :: a, m, b)

section SplitFirst

variable [DecidableEq β] {f : α → β} {p : List β}

theorem splitFirst_cons_hit {c : α} {t : List α} (h : p <+: (c :: t).map f) :
    splitFirst f p (c :: t)
      = some ([], (c :: t).take p.length, (c :: t).drop p.length) := by
  rw [splitFirst, if_pos h]

theorem splitFirst_cons_miss {c : α} {t : List α} (h : ¬p <+: (c :: t).map f) :
    splitFirst f p (c :: t)
      = (splitFirst f p t).map fun (a, m, b) => (c :: a, m, b) := by
  rw [splitFirst, if_neg h]

theorem splitFirst_eq_some : ∀ {t a m b : List α},
    splitFirst f p t = some (a, m, b) → t = a ++ m ++ b ∧ m.map f = p
  | [], a, m, b, h => by
      rw [splitFirst] at h
      split at h
      · rename_i hp
        obtain ⟨rfl, rfl, rfl⟩ : [] = a ∧ [] = m ∧ [] = b := by simpa using h
        exact ⟨rfl, hp.symm⟩
      · cases h
  | c :: t, a, m, b, h => by
      by_cases hp : p <+: (c :: t).map f
      · rw [splitFirst_cons_hit hp] at h
        obtain ⟨rfl, rfl, rfl⟩ : [] = a ∧ (c :: t).take p.length = m
          ∧ (c :: t).drop p.length = b := by simpa using h
        exact ⟨by simp, by rw [List.map_take]; exact (List.prefix_iff_eq_take.mp hp).symm⟩
      · rw [splitFirst_cons_miss hp] at h
        obtain ⟨⟨a', m', b'⟩, hrec, heq⟩ := Option.map_eq_some_iff.mp h
        obtain ⟨rfl, rfl, rfl⟩ : c :: a' = a ∧ m' = m ∧ b' = b := by simpa using heq
        obtain ⟨rfl, hm⟩ := splitFirst_eq_some hrec
        exact ⟨rfl, hm⟩

/-- Nothing earlier matches: every match starts at or after the one found. -/
theorem splitFirst_le : ∀ {t a m b a' m' b' : List α},
    splitFirst f p t = some (a, m, b) → t = a' ++ m' ++ b' → m'.map f = p →
      a.length ≤ a'.length
  | [], a, m, b, a', m', b', h, _, _ => by
      rw [splitFirst] at h
      split at h
      · obtain ⟨rfl, -, -⟩ : [] = a ∧ [] = m ∧ [] = b := by simpa using h
        exact Nat.zero_le _
      · cases h
  | c :: t, a, m, b, a', m', b', h, ht, hm' => by
      by_cases hp : p <+: (c :: t).map f
      · rw [splitFirst_cons_hit hp] at h
        obtain ⟨rfl, -, -⟩ : [] = a ∧ (c :: t).take p.length = m
          ∧ (c :: t).drop p.length = b := by simpa using h
        exact Nat.zero_le _
      · rw [splitFirst_cons_miss hp] at h
        obtain ⟨⟨a₀, m₀, b₀⟩, hrec, heq⟩ := Option.map_eq_some_iff.mp h
        obtain ⟨rfl, -, -⟩ : c :: a₀ = a ∧ m₀ = m ∧ b₀ = b := by simpa using heq
        cases a' with
        | nil =>
            refine absurd ?_ hp
            rw [ht, List.nil_append, List.map_append, hm']
            exact List.prefix_append ..
        | cons d a'' =>
            obtain ⟨-, ht'⟩ := List.cons.inj ht
            exact Nat.succ_le_succ (splitFirst_le hrec ht' hm')

theorem splitFirst_eq_none : ∀ {t : List α},
    splitFirst f p t = none → ¬p <:+: t.map f
  | [], h => by
      rw [splitFirst] at h
      split at h
      · cases h
      · rename_i hp
        simpa using hp
  | c :: t, h => by
      by_cases hp : p <+: (c :: t).map f
      · rw [splitFirst_cons_hit hp] at h
        cases h
      · rw [splitFirst_cons_miss hp] at h
        have hrec : splitFirst f p t = none := Option.map_eq_none_iff.mp h
        rw [List.map_cons] at hp ⊢
        exact fun hin => (List.infix_cons_iff.mp hin).elim hp (splitFirst_eq_none hrec)

/-- No match lies wholly to the left of the end of the one found, that one apart. -/
theorem splitFirst_left {t a m b x : List α} (h : splitFirst f p t = some (a, m, b))
    (hx : x <+: a) (hpos : p ≠ []) : ¬p <:+: x.map f := by
  rintro ⟨u, v, huv⟩
  obtain ⟨rfl, hm⟩ := splitFirst_eq_some h
  obtain ⟨z, rfl⟩ := hx
  obtain ⟨w, v', rfl, hw, -⟩ := List.map_eq_append_iff.mp huv.symm
  obtain ⟨u', m', rfl, -, hm'⟩ := List.map_eq_append_iff.mp hw
  have hle := splitFirst_le h
    (show _ = u' ++ m' ++ (v' ++ z ++ m ++ b) by simp) hm'
  have hlen : 0 < m'.length := by
    rw [← List.length_map (f := f), hm']
    exact List.length_pos_iff.mpr hpos
  simp only [List.length_append] at hle
  omega

/-- The match found is the first: none ends before it does. -/
theorem splitFirst_first [DecidableEq α] {p t a m b : List α}
    (h : splitFirst id p t = some (a, m, b)) (hpos : p ≠ []) : ¬p <:+: (a ++ m).dropLast := by
  rintro ⟨u, v, huv⟩
  obtain ⟨rfl, hm⟩ := splitFirst_eq_some h
  rw [List.map_id] at hm
  subst hm
  have hne : a ++ m ≠ [] := List.append_ne_nil_of_right_ne_nil a hpos
  obtain ⟨d, hlast⟩ : ∃ d, u ++ m ++ v ++ [d] = a ++ m :=
    ⟨_, by rw [huv, List.dropLast_append_getLast hne]⟩
  have hle := splitFirst_le h (show _ = u ++ m ++ (v ++ [d] ++ b) by
    rw [← hlast]; simp) (List.map_id m)
  have hlen := congrArg List.length hlast
  simp only [List.length_append, List.length_singleton] at hlen
  omega

/-- The first occurrence is the match found. -/
theorem splitFirst_of_first [DecidableEq α] {p a b : List α} (hpos : p ≠ [])
    (h : ¬p <:+: (a ++ p).dropLast) : splitFirst id p (a ++ p ++ b) = some (a, p, b) := by
  cases hsplit : splitFirst id p (a ++ p ++ b) with
  | none =>
      have hnone := splitFirst_eq_none hsplit
      rw [List.map_id] at hnone
      exact absurd ⟨a, b, rfl⟩ hnone
  | some hit =>
      obtain ⟨a', m, b'⟩ := hit
      obtain ⟨happ, hm⟩ := splitFirst_eq_some hsplit
      rw [List.map_id] at hm
      subst hm
      have hle := splitFirst_le hsplit rfl (List.map_id m)
      have hlen : a.length ≤ a'.length := by
        by_contra hlt
        refine h ?_
        obtain ⟨z, hz⟩ : a' ++ m <+: (a ++ m).dropLast := by
          refine List.prefix_of_prefix_length_le ⟨b', happ.symm⟩
            ((List.dropLast_prefix _).trans (List.prefix_append _ b)) ?_
          simp only [List.length_append, List.length_dropLast]
          omega
        exact ⟨a', z, hz⟩
      rw [List.append_assoc, List.append_assoc] at happ
      obtain ⟨rfl, hrest⟩ := List.append_inj happ (by omega)
      rw [List.append_cancel_left hrest]

/-- No match starts in what contains none and shares none with what follows. -/
theorem splitFirst_append [DecidableEq α] {p b : List α} : ∀ {a : List α}, ¬p <:+: a →
    ¬Joins p a b → splitFirst id p (a ++ b)
      = (splitFirst id p b).map fun (x, m, y) => (a ++ x, m, y)
  | [], _, _ => by simp
  | c :: a, ha, hab => by
      have hmiss : ¬p <+: (c :: (a ++ b)).map id := by
        rw [List.map_id, ← List.cons_append]
        intro hpre
        rcases List.prefix_or_prefix_of_prefix hpre (List.prefix_append (c :: a) b) with
          hhead | ⟨y, rfl⟩
        · exact ha hhead.isInfix
        · have hy := (List.prefix_append_right_inj (c :: a)).mp hpre
          by_cases hnil : y = []
          · rw [hnil, List.append_nil] at ha
            exact ha (List.infix_refl _)
          · exact hab ⟨c :: a, y, List.cons_ne_nil _ _, hnil, rfl, List.suffix_refl _, hy⟩
      have hrec : splitFirst id p (a ++ b)
          = (splitFirst id p b).map fun (x, m, y) => (a ++ x, m, y) := by
        refine splitFirst_append (fun hin => ha (List.infix_cons hin)) ?_
        rintro ⟨x, y, hx, hy, rfl, hsuf, hpre⟩
        exact hab ⟨x, y, hx, hy, rfl, hsuf.trans (List.suffix_cons c a), hpre⟩
      rw [List.cons_append, splitFirst_cons_miss hmiss, hrec, Option.map_map]
      rfl

/-- A function that copies what no match starts at copies a list without a match. -/
theorem copied_of_splitFirst_none {g : List α → List α} (hnil : g [] = [])
    (hcopy : ∀ c t, ¬p <+: (c :: t).map f → g (c :: t) = c :: g t) :
    ∀ {t : List α}, splitFirst f p t = none → g t = t
  | [], _ => hnil
  | c :: t, h => by
      by_cases hp : p <+: (c :: t).map f
      · rw [splitFirst_cons_hit hp] at h
        cases h
      · rw [splitFirst_cons_miss hp] at h
        rw [hcopy c t hp, copied_of_splitFirst_none hnil hcopy (Option.map_eq_none_iff.mp h)]

/-- And it copies what precedes the leftmost one. -/
theorem copied_of_splitFirst_some {g : List α → List α}
    (hcopy : ∀ c t, ¬p <+: (c :: t).map f → g (c :: t) = c :: g t) :
    ∀ {t a m b : List α}, splitFirst f p t = some (a, m, b) → g t = a ++ g (m ++ b)
  | [], a, m, b, h => by
      obtain ⟨happ, -⟩ := splitFirst_eq_some h
      obtain ⟨ham, rfl⟩ := List.append_eq_nil_iff.mp happ.symm
      obtain ⟨rfl, rfl⟩ := List.append_eq_nil_iff.mp ham
      rfl
  | c :: t, a, m, b, h => by
      by_cases hp : p <+: (c :: t).map f
      · rw [splitFirst_cons_hit hp] at h
        obtain ⟨rfl, rfl, rfl⟩ : [] = a ∧ (c :: t).take p.length = m
          ∧ (c :: t).drop p.length = b := by simpa using h
        rw [List.nil_append, List.take_append_drop]
      · rw [splitFirst_cons_miss hp] at h
        obtain ⟨⟨a', m', b'⟩, hrec, heq⟩ := Option.map_eq_some_iff.mp h
        obtain ⟨rfl, rfl, rfl⟩ : c :: a' = a ∧ m' = m ∧ b' = b := by simpa using heq
        rw [hcopy c t hp, copied_of_splitFirst_some hcopy hrec, List.cons_append]

end SplitFirst

end Splice
