import PeakcodeDaemon.Lib.Splice

/-!
# Occurrences by position

Where a word stands is said by what stands left and right of it:
`t = L ++ w ++ R`. An occurrence in a concatenation lies in one part or
straddles the seam (`occurrence_append`); around an inserted `m` that
shields the word it keeps to one side (`Shields`), so that a replacement
by `m` cannot meet it (`Shields.not_meets`); and what follows the leftmost
match of a word that does not overlap itself holds all of its further
occurrences (`occurrence_from_first`).

The two sides are lists and not offsets: splitting an occurrence further
is then an equation between appends, which `List.append_eq_append_iff`
takes apart, and no arithmetic comes in.
-/

namespace Splice

variable {α β : Type*} {L w R A B : List α}

/-- An occurrence in a concatenation: in the first part, in the second, or
across the seam. -/
theorem occurrence_append (h : L ++ w ++ R = A ++ B) :
    (∃ x, A = L ++ w ++ x ∧ R = x ++ B) ∨ (∃ x, L = A ++ x ∧ B = x ++ w ++ R) ∨
      ∃ x y, x ≠ [] ∧ y ≠ [] ∧ w = x ++ y ∧ A = L ++ x ∧ B = y ++ R := by
  rcases List.append_eq_append_iff.mp h with ⟨x, hA, hR⟩ | ⟨y, hLw, hB⟩
  · exact Or.inl ⟨x, hA, hR⟩
  · rcases List.append_eq_append_iff.mp hLw with ⟨x, hA, hw⟩ | ⟨x, hL, hy⟩
    · by_cases hx : x = []
      · subst hx
        rw [List.append_nil] at hA
        rw [List.nil_append] at hw
        exact Or.inr (Or.inl ⟨[], by rw [hA, List.append_nil], by rw [hB, hw, List.nil_append]⟩)
      · by_cases hnil : y = []
        · subst hnil
          rw [List.append_nil] at hw
          exact Or.inl ⟨[], by rw [hA, hw, List.append_nil], hB.symm⟩
        · exact Or.inr (Or.inr ⟨x, y, hx, hnil, hw, hA, hB⟩)
    · exact Or.inr (Or.inl ⟨x, hL, by rw [hB, hy]⟩)

/-! ## Around an inserted word -/

/-- No occurrence of `w` touches an inserted `m`. -/
def Shields (m w : List α) : Prop :=
  ∀ L R A B : List α, L ++ w ++ R = A ++ m ++ B →
    (∃ x, A = L ++ w ++ x ∧ R = x ++ m ++ B) ∨ ∃ x, L = A ++ m ++ x ∧ B = x ++ w ++ R

/-- A word without the first and the last letter of `m` that does not occur
in `m` is shielded by it. -/
theorem shields_of_delimiters {a b : α} {mid : List α} (ha : a ∉ w) (hb : b ∉ w)
    (hm : ¬w <:+: a :: mid ++ [b]) : Shields (a :: mid ++ [b]) w := by
  intro L R A B h
  rw [List.append_assoc A] at h
  rcases occurrence_append h with ⟨x, hA, hR⟩ | ⟨x, hL, hB⟩ | ⟨x, y, -, hy, rfl, -, hB⟩
  · exact Or.inl ⟨x, hA, by rw [hR, ← List.append_assoc]⟩
  · rcases occurrence_append hB.symm with ⟨z, hm', -⟩ | ⟨z, hx, hB⟩ | ⟨y, z, hy, -, rfl, hm', -⟩
    · exact absurd ⟨x, z, hm'.symm⟩ hm
    · exact Or.inr ⟨z, by rw [hL, hx, ← List.append_assoc], hB⟩
    · -- the part of the word inside of `m` would end with its last letter
      have hlast : (x ++ y).getLast? = some b := by rw [← hm', List.getLast?_concat]
      rw [List.getLast?_append_of_ne_nil _ hy] at hlast
      exact absurd (List.mem_append_left _ (List.mem_of_getLast? hlast)) hb
  · obtain ⟨c, y, rfl⟩ := List.exists_cons_of_ne_nil hy
    obtain rfl : a = c := (List.cons.inj hB).1
    exact absurd (by simp) ha

theorem Shields.not_meets {m : List α} {c : Cut α} (h : Shields m w) : ¬Meets m w c := by
  rintro ⟨A, B, hAB, hstart, hstop⟩
  rcases h A B c.left c.right hAB.symm with ⟨x, hleft, -⟩ | ⟨x, hA, -⟩
  · rw [hleft, List.length_append] at hstop
    omega
  · rw [hA, List.length_append] at hstart
    omega

/-- Where a word occurs at one offset only, its occurrence is known. -/
theorem occurrence_at [DecidableEq α] {t : List α} {i : Nat}
    (h : ∀ n < t.length + 1, w <+: t.drop n → n = i) (ht : t = L ++ w ++ R) :
    L = t.take i ∧ R = t.drop (i + w.length) := by
  have hi : L.length = i := by
    refine h L.length ?_ ?_
    · rw [ht]
      simp only [List.length_append]
      omega
    · rw [ht, List.append_assoc, List.drop_left]
      exact List.prefix_append ..
  constructor
  · rw [ht, ← hi, List.append_assoc, List.take_left]
  · rw [ht, ← hi, ← List.length_append, List.drop_left]

/-! ## From the leftmost match on -/

/-- No proper end of the word is one of its beginnings. -/
def Unbordered (p : List β) : Prop :=
  ∀ x y z : List β, p = x ++ y → x ≠ [] → p = y ++ z → y = []

theorem unbordered_of_drop {p : List β}
    (h : ∀ n < p.length, 0 < n → ¬p.drop n <+: p) : Unbordered p := by
  intro x y z hxy hx hyz
  by_contra hy
  refine h x.length ?_ (List.length_pos_iff.mpr hx) ?_
  · have := List.length_pos_iff.mpr hy
    rw [hxy, List.length_append]
    omega
  · rw [show p.drop x.length = y by rw [hxy, List.drop_left]]
    exact ⟨z, hyz.symm⟩

/-- Whatever follows the leftmost match of an unbordered word, an occurrence
is that match or comes after it. -/
theorem occurrence_from_first [DecidableEq β] {f : α → β} {p : List β} (hp : Unbordered p)
    {t a m b u : List α} (hsplit : splitFirst f p t = some (a, m, b)) (hw : w.map f = p)
    (h : L ++ w ++ R = a ++ m ++ u) :
    L = a ∧ w = m ∧ R = u ∨ ∃ x, L = a ++ m ++ x ∧ u = x ++ w ++ R := by
  obtain ⟨rfl, hm⟩ := splitFirst_eq_some hsplit
  have hlen : w.length = m.length := by
    rw [← List.length_map (f := f), hw, ← hm, List.length_map]
  rcases occurrence_append h with ⟨x, hA, hR⟩ | hlater | ⟨x, y, hx, hy, rfl, hA, hu⟩
  · -- nothing matches before the match found
    have hle := splitFirst_le hsplit (show _ = L ++ w ++ (x ++ b) by rw [hA]; simp) hw
    have hlens := congrArg List.length hA
    simp only [List.length_append] at hlens
    obtain rfl : x = [] := List.eq_nil_of_length_eq_zero (by omega)
    rw [List.append_nil] at hA
    obtain ⟨rfl, rfl⟩ := List.append_inj' hA hlen.symm
    exact Or.inl ⟨rfl, rfl, hR⟩
  · exact Or.inr hlater
  · -- an occurrence that starts inside of the match would overlap it
    obtain ⟨z, rfl, hz⟩ : ∃ z, L = a ++ z ∧ m = z ++ x := by
      rcases List.append_eq_append_iff.mp hA with ⟨z, hL, hm'⟩ | ⟨z, -, hx'⟩
      · exact ⟨z, hL, hm'⟩
      · have := congrArg List.length hx'
        have := List.length_pos_iff.mpr hy
        simp only [List.length_append] at *
        omega
    have hzne : z ≠ [] := by
      rintro rfl
      have := List.length_pos_iff.mpr hy
      rw [List.nil_append] at hz
      rw [hz, List.length_append] at hlen
      omega
    have hnil := hp (z.map f) (x.map f) (y.map f)
      (by rw [← hm, hz, List.map_append])
      (fun hnil => hzne (List.map_eq_nil_iff.mp hnil)) (by rw [← hw, List.map_append])
    exact absurd (List.map_eq_nil_iff.mp hnil) hx

end Splice
