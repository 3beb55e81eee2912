import Mathlib.Algebra.BigOperators.Group.Finset.Basic
import PeakcodeDaemon.Lib.Machine

/-!
# Ranked steps

A rank is a number of the state that some steps lower and none of the others
a schedule takes raises.

- It **bounds** how many of them the schedule can take (`Takes.ranked`).
- Where each of them lowers it, a machine that goes on with them **comes to
  rest** (`exists_rest`, `settles`): in a state in which none is left.
- Where the state is a table, the rank is a sum over the entries, and a step
  that changes one of them changes its part only (`sum_update`).
-/

namespace Machine

variable {σ α ω : Type*} {M : Machine σ α ω} (own : α → Bool) (rank : σ → Nat)

/-- The steps of a schedule that lower the rank are at most what it drops by. -/
theorem Takes.ranked {P : List ω → σ → Prop} {ok : α → Prop}
    (hstep : ∀ {tr os s s' a}, P tr s → ok a → M.step s a = some (s', os) →
      P (tr ++ os) s' ∧ rank s' + (if own a then 1 else 0) ≤ rank s)
    {s s' : σ} {as : List α} {tr' : List ω} (h : M.Takes s as tr' s') : ∀ {tr : List ω},
    P tr s → (∀ a ∈ as, ok a) → P (tr ++ tr') s' ∧ as.countP own + rank s' ≤ rank s := by
  induction h with
  | nil s =>
      intro tr hP _
      rw [List.append_nil]
      exact ⟨hP, by simp⟩
  | @cons s s₁ s' a as os tr' hs _ ih =>
      intro tr hP hok
      obtain ⟨ha, has⟩ := List.forall_mem_cons.mp hok
      obtain ⟨hP₁, hle⟩ := hstep hP ha hs
      obtain ⟨hP', hle'⟩ := ih hP₁ has
      rw [← List.append_assoc, List.countP_cons]
      exact ⟨hP', by omega⟩

/-- A machine that goes on with steps that lower the rank comes to rest, if
one of them that keeps `P` can be taken wherever one can be taken at all. -/
theorem exists_rest {P : List ω → σ → Prop}
    (hnext : ∀ {tr os s s' a}, P tr s → own a = true → M.step s a = some (s', os) →
      ∃ b s'' os', own b = true ∧ M.step s b = some (s'', os') ∧ P (tr ++ os') s'' ∧
        rank s'' < rank s) : ∀ {n : Nat} {tr : List ω} {s : σ}, rank s ≤ n → P tr s →
    ∃ as tr' s', M.Takes s as tr' s' ∧ (∀ a ∈ as, own a = true) ∧ P (tr ++ tr') s' ∧
      ∀ a, own a = true → M.step s' a = none := by
  intro n
  induction n with
  | zero =>
      intro tr s hn hP
      refine ⟨[], [], s, .nil s, by simp, by rwa [List.append_nil], fun a ha => ?_⟩
      by_contra hsome
      obtain ⟨⟨s', os⟩, hs⟩ := Option.ne_none_iff_exists'.mp hsome
      obtain ⟨_, _, _, _, _, _, hlt⟩ := hnext hP ha hs
      omega
  | succ n ih =>
      intro tr s hn hP
      by_cases hrest : ∀ a, own a = true → M.step s a = none
      · exact ⟨[], [], s, .nil s, by simp, by rwa [List.append_nil], hrest⟩
      · obtain ⟨a, hrest⟩ := not_forall.mp hrest
        obtain ⟨ha, hsome⟩ := Classical.not_imp.mp hrest
        obtain ⟨⟨s', os⟩, hs⟩ := Option.ne_none_iff_exists'.mp hsome
        obtain ⟨b, s₁, os₁, hb, hs₁, hP₁, hlt⟩ := hnext hP ha hs
        obtain ⟨as, tr', s', htakes, has, hP', hrest⟩ := ih (by omega) hP₁
        rw [List.append_assoc] at hP'
        exact ⟨b :: as, os₁ ++ tr', s', .cons hs₁ htakes, List.forall_mem_cons.mpr ⟨hb, has⟩,
          hP', hrest⟩

/-- Where each of these steps keeps `P` and lowers the rank, some of them bring
the machine to rest, and never more of them are taken than the rank says. -/
theorem settles {P : List ω → σ → Prop}
    (hstep : ∀ {tr os s s' a}, P tr s → own a = true → M.step s a = some (s', os) →
      P (tr ++ os) s' ∧ rank s' < rank s) {tr : List ω} {s : σ} (hP : P tr s) :
    (∃ as tr' s', M.Takes s as tr' s' ∧ (∀ a ∈ as, own a = true) ∧
      ∀ a, own a = true → M.step s' a = none) ∧
    ∀ as tr' s', M.Takes s as tr' s' → (∀ a ∈ as, own a = true) →
      as.length ≤ rank s ∧ P (tr ++ tr') s' := by
  constructor
  · obtain ⟨as, tr', s', htakes, hown, -, hrest⟩ := exists_rest (M := M) own rank (P := P)
      (fun hP ha hs => by
        obtain ⟨hP', hlt⟩ := hstep hP ha hs
        exact ⟨_, _, _, ha, hs, hP', hlt⟩)
      (Nat.le_refl (rank s)) hP
    exact ⟨as, tr', s', htakes, hown, hrest⟩
  · intro as tr' s' htakes hown
    have hcount : as.countP own = as.length := List.countP_eq_length.mpr hown
    obtain ⟨hP', hle⟩ := htakes.ranked own rank (P := P) (fun hP ha hs => by
      obtain ⟨hP', hlt⟩ := hstep hP ha hs
      exact ⟨hP', by rw [if_pos ha]; exact hlt⟩) hP hown
    exact ⟨by omega, hP'⟩

/-- One entry of a table changes, and its part of the sum with it. -/
theorem sum_update {β : Type*} (weight : β → Nat) (table : Nat → β) {n i : Nat} (hi : i < n)
    (entry : β) :
    ∑ j ∈ Finset.range n, weight (Function.update table i entry j) + weight (table i) =
      ∑ j ∈ Finset.range n, weight (table j) + weight entry := by
  have hmem : i ∈ Finset.range n := Finset.mem_range.mpr hi
  have hrest : ∑ j ∈ (Finset.range n).erase i, weight (Function.update table i entry j) =
      ∑ j ∈ (Finset.range n).erase i, weight (table j) := by
    refine Finset.sum_congr rfl fun j hj => ?_
    rw [Function.update_of_ne (Finset.ne_of_mem_erase hj)]
  rw [← Finset.add_sum_erase _ _ hmem, ← Finset.add_sum_erase _ (fun j => weight (table j)) hmem,
    Function.update_self, hrest]
  omega

end Machine
