import PeakcodeDaemon.Lib.Machine
import Mathlib.Data.List.Forall2
import Mathlib.Logic.Function.Basic
import Mathlib.Logic.Relation

/-!
# Two machines in lockstep

A relation between the states of two machines and one between their actions:
where the one answers every step of the other, it answers whole schedules,
and what the relation says of two states holds all along
(`Takes.lockstep`). Relations lift to options and to maps, and survive what is
read from them and written to them (`rel_update`).

An abstract system that follows each step, by as many steps of its own as it
takes, follows every run (`Run.simulate`).
-/

namespace Lockstep

/-! ## Data side by side -/

section

variable {α β κ : Type*} {r : α → β → Prop}

theorem rel_some {o : Option α} {o' : Option β} (h : Option.Rel r o o') {a : α}
    (ho : o = some a) : ∃ b, o' = some b ∧ r a b := by
  subst ho
  obtain ⟨hab⟩ := h
  exact ⟨_, rfl, hab⟩

theorem rel_none {o : Option α} {o' : Option β} (h : Option.Rel r o o') (ho : o = none) :
    o' = none := by
  subst ho
  cases h
  rfl

theorem rel_isSome {o : Option α} {o' : Option β} (h : Option.Rel r o o') :
    o'.isSome = o.isSome := by
  cases h <;> rfl

theorem rel_update [DecidableEq κ] {f : κ → α} {g : κ → β} (h : ∀ k, r (f k) (g k)) (k : κ)
    {a : α} {b : β} (hab : r a b) (k' : κ) :
    r (Function.update f k a k') (Function.update g k b k') := by
  by_cases hk : k' = k
  · subst hk
    rwa [Function.update_self, Function.update_self]
  · rw [Function.update_of_ne hk, Function.update_of_ne hk]
    exact h k'

end

end Lockstep

namespace Machine

variable {σ σ' α α' ω ω' : Type*} {M : Machine σ α ω}

/-- Two machines side by side: where the one answers each step of the other
and the relation between them is kept, it answers whole schedules. -/
theorem Takes.lockstep {N : Machine σ' α' ω'} {R : σ → σ' → Prop} {A : α → α' → Prop}
    (hstep : ∀ {s : σ} {t : σ'} {a : α} {b : α'} {r : σ × List ω}, R s t → A a b →
      M.step s a = some r → ∃ r', N.step t b = some r' ∧ R r.1 r'.1)
    {s s' : σ} {as : List α} {tr : List ω} (h : M.Takes s as tr s') :
    ∀ {t : σ'} {bs : List α'}, R s t → List.Forall₂ A as bs →
      ∃ tr' t', N.Takes t bs tr' t' ∧ R s' t' := by
  induction h with
  | nil s =>
      intro t bs hR hA
      obtain rfl := List.forall₂_nil_left_iff.mp hA
      exact ⟨[], t, .nil t, hR⟩
  | cons hs _ ih =>
      intro t bs hR hA
      obtain ⟨b, bs, hab, hrest, rfl⟩ := List.forall₂_cons_left_iff.mp hA
      obtain ⟨⟨t₁, os⟩, ht, hR₁⟩ := hstep hR hab hs
      obtain ⟨tr', t', htakes, hR'⟩ := ih hR₁ hrest
      exact ⟨os ++ tr', t', .cons ht htakes, hR'⟩

/-- The simulation rule: a run is followed if each of its steps is. -/
theorem Run.simulate {τ : Type*} {next : τ → τ → Prop} {t₀ : τ}
    {A : List ω → σ → α → Prop} {R : List ω → σ → τ → Prop} (hstart : R [] M.start t₀)
    (hstep : ∀ {tr os : List ω} {s s' : σ} {a : α} {t : τ}, M.Run A tr s → R tr s t → A tr s a →
      M.step s a = some (s', os) → ∃ t', Relation.ReflTransGen next t t' ∧ R (tr ++ os) s' t')
    {tr : List ω} {s : σ} (h : M.Run A tr s) :
    ∃ t, Relation.ReflTransGen next t₀ t ∧ R tr s t := by
  induction h with
  | start => exact ⟨t₀, .refl, hstart⟩
  | step h ha hs ih =>
      obtain ⟨t, hreach, hR⟩ := ih
      obtain ⟨t', hnext, hR'⟩ := hstep h hR ha hs
      exact ⟨t', hreach.trans hnext, hR'⟩

end Machine
