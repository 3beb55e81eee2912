import Mathlib.Data.List.Basic

/-!
# Machines and their runs

A machine steps from a start state; a step may be refused, and one that is
taken reports what was observed of it. A run collects the observations, in
order, and takes only steps its assumption admits: what is taken for granted
of the environment is a predicate on the past, the state and the action.

- **invariants** (`Run.invariant`): what holds at the start and is kept by
  every admitted step holds of every run, with the past at hand;
- **projections** (`Run.project`): a run is one of a machine that models a
  part of this one, which answers each step with one of its own or not at
  all;
- **schedules** (`Takes`): the actions a run goes on with, as a list.
  `Takes.unwind` leaves the hidden ones out, `restrict` all but the
  admitted ones, and `logged` shows the actions beside what is observed;
- **computed runs** (`exec`, `Run.exec`): a run of given actions evaluates;
- **traces** (`Always`, `Sometime`): of every observation, or of one, what
  held when it was made.

The step is a partial function, so that a machine's schedule determines
its run; what is open about a system is in the actions.
-/

structure Machine (σ α ω : Type*) where
  start : σ
  step : σ → α → Option (σ × List ω)

namespace Machine

variable {σ σ' α α' ω ω' : Type*} (M : Machine σ α ω)

/-- Runs whose steps all satisfy the assumption `A`. -/
inductive Run (A : List ω → σ → α → Prop) : List ω → σ → Prop
  | start : Run A [] M.start
  | step {tr os : List ω} {s s' : σ} {a : α} (h : Run A tr s) (ha : A tr s a)
      (hs : M.step s a = some (s', os)) : Run A (tr ++ os) s'

variable {M} {A B : List ω → σ → α → Prop} {tr : List ω} {s : σ}

theorem Run.mono (hAB : ∀ tr s a, A tr s a → B tr s a) (h : M.Run A tr s) : M.Run B tr s := by
  induction h with
  | start => exact .start
  | step _ ha hs ih => exact .step ih (hAB _ _ _ ha) hs

/-- The invariant rule. -/
theorem Run.invariant {I : List ω → σ → Prop} (hstart : I [] M.start)
    (hstep : ∀ {tr os s s' a}, M.Run A tr s → I tr s → A tr s a → M.step s a = some (s', os) →
      I (tr ++ os) s') (h : M.Run A tr s) : I tr s := by
  induction h with
  | start => exact hstart
  | step h ha hs ih => exact hstep h ih ha hs

/-- The simulation rule: a part of the machine that answers each step with
one of its own, or not at all, runs along. -/
theorem Run.project {N : Machine σ' α' ω'} {C : List ω' → σ' → α' → Prop} {f : σ → σ'}
    {g : ω → Option ω'} (hstart : f M.start = N.start)
    (hstep : ∀ {tr os s s' a}, M.Run A tr s → A tr s a → M.step s a = some (s', os) →
      f s' = f s ∧ os.filterMap g = [] ∨
        ∃ b, C (tr.filterMap g) (f s) b ∧ N.step (f s) b = some (f s', os.filterMap g))
    (h : M.Run A tr s) : N.Run C (tr.filterMap g) (f s) := by
  induction h with
  | start =>
      rw [hstart]
      exact .start
  | step h ha hs ih =>
      rw [List.filterMap_append]
      rcases hstep h ha hs with ⟨hf, hos⟩ | ⟨b, hC, hb⟩
      · rwa [hf, hos, List.append_nil]
      · exact .step ih hC hb

/-! ## Runs that go on -/

variable (M) in
/-- The machine started elsewhere. -/
def restart (s : σ) : Machine σ α ω := { M with start := s }

/-- A run goes on from where it is, if what is assumed is about the state. -/
theorem Run.trans {P : σ → α → Prop} {tr tr' : List ω} {s s' : σ}
    (h : M.Run (fun _ s a => P s a) tr s) (h' : (M.restart s).Run (fun _ s a => P s a) tr' s') :
    M.Run (fun _ s a => P s a) (tr ++ tr') s' := by
  induction h' with
  | start =>
      rw [List.append_nil]
      exact h
  | step _ ha hs ih =>
      rw [← List.append_assoc]
      exact .step ih ha hs

/-! ## Schedules -/

variable (M) in
/-- From a state, the machine takes these actions in order. -/
inductive Takes : σ → List α → List ω → σ → Prop
  | nil (s : σ) : Takes s [] [] s
  | cons {s s' s'' : σ} {a : α} {as : List α} {os tr : List ω}
      (hs : M.step s a = some (s', os)) (h : Takes s' as tr s'') : Takes s (a :: as) (os ++ tr) s''

/-- A run goes on by a schedule, if nothing is assumed of its actions. -/
theorem Run.takes (hA : ∀ tr s a, A tr s a) {s s' : σ} {as : List α} {tr' : List ω}
    (h' : M.Takes s as tr' s') : ∀ {tr : List ω}, M.Run A tr s → M.Run A (tr ++ tr') s' := by
  induction h' with
  | nil s =>
      intro tr h
      rw [List.append_nil]
      exact h
  | cons hs _ ih =>
      intro tr h
      rw [← List.append_assoc]
      exact ih (.step h (hA _ _ _) hs)

/-- Every action of a schedule is taken, and what is observed of it shows. -/
theorem Takes.taken {s s' : σ} {as : List α} {tr : List ω} (h : M.Takes s as tr s') {a : α}
    (ha : a ∈ as) : ∃ s₁ s₂ os, M.step s₁ a = some (s₂, os) ∧ os ⊆ tr := by
  induction h with
  | nil s => cases ha
  | cons hs _ ih =>
      rcases List.mem_cons.mp ha with rfl | hin
      · exact ⟨_, _, _, hs, List.subset_append_left _ _⟩
      · obtain ⟨s₁, s₂, os, hstep, hos⟩ := ih hin
        exact ⟨s₁, s₂, os, hstep, fun _ h => List.mem_append_right _ (hos h)⟩

/-- A map of machines carries schedules over. -/
theorem Takes.map {N : Machine σ' α' ω'} (f : σ → σ') (g : α → α') (k : ω → ω')
    (hstep : ∀ {s s' : σ} {a : α} {os : List ω}, M.step s a = some (s', os) →
      N.step (f s) (g a) = some (f s', os.map k))
    {s s' : σ} {as : List α} {tr : List ω} (h : M.Takes s as tr s') :
    N.Takes (f s) (as.map g) (tr.map k) (f s') := by
  induction h with
  | nil s => exact .nil (f s)
  | cons hs _ ih =>
      rw [List.map_append]
      exact .cons (hstep hs) ih

/-- The unwinding rule: where hidden actions keep a relation to a second run
that does not take them, and the other actions keep it in pace, a schedule
without its hidden actions leads to a related state. -/
theorem Takes.unwind (R : σ → σ → Prop) (hidden : α → Bool) (ok : α → Prop)
    (hhidden : ∀ {s t s' : σ} {a : α} {os : List ω}, R s t → ok a → hidden a = true →
      M.step s a = some (s', os) → R s' t)
    (hvisible : ∀ {s t s' : σ} {a : α} {os : List ω}, R s t → ok a → hidden a = false →
      M.step s a = some (s', os) → ∃ t' os', M.step t a = some (t', os') ∧ R s' t')
    {s s' : σ} {as : List α} {tr : List ω} (h : M.Takes s as tr s') :
    ∀ {t : σ}, (∀ a ∈ as, ok a) → R s t →
      ∃ tr' t', M.Takes t (as.filter fun a => !hidden a) tr' t' ∧ R s' t' := by
  induction h with
  | nil s =>
      intro t _ hR
      exact ⟨[], t, .nil t, hR⟩
  | @cons s s₁ s' a as os tr hs h ih =>
      intro t hok hR
      obtain ⟨ha, has⟩ := List.forall_mem_cons.mp hok
      cases hhide : hidden a with
      | true =>
          rw [List.filter_cons_of_neg (by simp [hhide])]
          exact ih has (hhidden hR ha hhide hs)
      | false =>
          obtain ⟨t₁, os₁, ht, hR₁⟩ := hvisible hR ha hhide hs
          obtain ⟨tr', t', htakes, hR'⟩ := ih has hR₁
          rw [List.filter_cons_of_pos (by simp [hhide])]
          exact ⟨os₁ ++ tr', t', .cons ht htakes, hR'⟩

variable (M) in
/-- The machine that takes the admitted steps only. -/
def restrict (admits : σ → α → Bool) : Machine σ α ω where
  start := M.start
  step s a := if admits s a then M.step s a else none

section Restrict

variable {admits : σ → α → Bool} {s s' : σ} {a : α} {os : List ω}

theorem restrict_step_eq_some :
    (M.restrict admits).step s a = some (s', os) ↔
      admits s a = true ∧ M.step s a = some (s', os) := by
  change (if admits s a then M.step s a else none) = _ ↔ _
  split
  · rename_i hadmits
    exact (and_iff_right hadmits).symm
  · rename_i hadmits
    exact ⟨nofun, fun h => absurd h.1 hadmits⟩

theorem restrict_step_eq_none :
    (M.restrict admits).step s a = none ↔ (admits s a = true → M.step s a = none) := by
  change (if admits s a then M.step s a else none) = _ ↔ _
  split
  · rename_i hadmits
    exact ⟨fun h _ => h, fun h => h hadmits⟩
  · rename_i hadmits
    exact iff_of_true rfl fun h => absurd h hadmits

end Restrict

/-! ## Runs that compute -/

variable (M) in
/-- Takes the actions in order, as long as `check` admits them. -/
def exec (check : List ω → σ → α → Bool) : List ω → σ → List α → Option (List ω × σ)
  | tr, s, [] => some (tr, s)
  | tr, s, a :: as =>
      if check tr s a then
        match M.step s a with
        | some (s', os) => exec check (tr ++ os) s' as
        | none => none
      else none

theorem Run.exec (check : List ω → σ → α → Bool)
    (hcheck : ∀ tr s a, check tr s a = true → A tr s a) : ∀ (as : List α) {tr tr' : List ω}
    {s s' : σ}, M.Run A tr s → M.exec check tr s as = some (tr', s') → M.Run A tr' s'
  | [], tr, tr', s, s', h, hexec => by
      obtain ⟨rfl, rfl⟩ : tr = tr' ∧ s = s' := by simpa [Machine.exec] using hexec
      exact h
  | a :: as, tr, tr', s, s', h, hexec => by
      rw [Machine.exec] at hexec
      split at hexec
      · rename_i hadmit
        split at hexec
        · rename_i s₁ os hs
          exact Run.exec check hcheck as (.step h (hcheck _ _ _ hadmit) hs) hexec
        · cases hexec
      · cases hexec

/-! ## Runs that show their actions -/

variable (M) in
/-- The machine that also shows each action it takes, ahead of what is
observed of it. -/
def logged : Machine σ α (α ⊕ ω) where
  start := M.start
  step s a := (M.step s a).map fun (s', os) => (s', .inl a :: os.map .inr)

theorem logged_step {s s' : σ} {a : α} {log : List (α ⊕ ω)}
    (h : M.logged.step s a = some (s', log)) :
    ∃ os, M.step s a = some (s', os) ∧ log = .inl a :: os.map .inr := by
  obtain ⟨⟨s₁, os⟩, hstep, heq⟩ := Option.map_eq_some_iff.mp h
  obtain ⟨rfl, rfl⟩ := Prod.mk.inj heq
  exact ⟨os, hstep, rfl⟩

theorem filterMap_inr (a : α) (os : List ω) :
    (Sum.inl a :: os.map Sum.inr).filterMap Sum.getRight? = os := by
  rw [List.filterMap_cons_none rfl, List.filterMap_map]
  exact List.filterMap_some

/-- What is shown beside the actions is a run. -/
theorem Run.of_logged {B : List (α ⊕ ω) → σ → α → Prop} {log : List (α ⊕ ω)} {s : σ}
    (hB : ∀ log s a, B log s a → A (log.filterMap Sum.getRight?) s a) (h : M.logged.Run B log s) :
    M.Run A (log.filterMap Sum.getRight?) s := by
  induction h with
  | start => exact .start
  | step h hb hs ih =>
      obtain ⟨os, hstep, rfl⟩ := logged_step hs
      rw [List.filterMap_append, filterMap_inr]
      exact .step ih (hB _ _ _ hb) hstep

end Machine

/-! ## Properties of every observation -/

section Always

variable {ω : Type*}

/-- `Q past o` for every observation `o` of the trace and the `past` before it. -/
def Always (Q : List ω → ω → Prop) (tr : List ω) : Prop :=
  ∀ past o rest, tr = past ++ o :: rest → Q past o

theorem always_nil (Q : List ω → ω → Prop) : Always Q [] := by
  intro past o rest h
  cases past <;> cases h

theorem always_of_mem {Q : List ω → ω → Prop} {tr : List ω} (h : ∀ o ∈ tr, ∀ past, Q past o) :
    Always Q tr := by
  rintro past o rest rfl
  exact h o (by simp) past

theorem always_concat {Q : List ω → ω → Prop} {tr : List ω} {o : ω} (h : Always Q tr)
    (ho : Q tr o) : Always Q (tr ++ [o]) := by
  intro past o' rest heq
  rcases List.eq_nil_or_concat rest with rfl | ⟨rest', x, rfl⟩
  · obtain ⟨rfl, heq⟩ := List.append_inj' heq rfl
    obtain rfl : o = o' := by simpa using heq
    exact ho
  · rw [List.concat_eq_append, ← List.cons_append, ← List.append_assoc] at heq
    obtain ⟨rfl, -⟩ := List.append_inj' heq rfl
    exact h past o' rest' rfl

theorem always_append {Q : List ω → ω → Prop} : ∀ {os tr : List ω}, Always Q tr →
    Always (fun past o => Q (tr ++ past) o) os → Always Q (tr ++ os)
  | [], tr, h, _ => by rwa [List.append_nil]
  | o :: os, tr, h, hos => by
      have hhead : Q tr o := by simpa using hos [] o os rfl
      have htail : Always (fun past o' => Q (tr ++ [o] ++ past) o') os := by
        intro past o' rest heq
        have := hos (o :: past) o' rest (by rw [heq]; rfl)
        simpa using this
      have := always_append (always_concat h hhead) htail
      simpa using this

/-- `Q past o` for some observation `o` of the trace and the `past` before it. -/
def Sometime (Q : List ω → ω → Prop) (tr : List ω) : Prop :=
  ∃ past o rest, tr = past ++ o :: rest ∧ Q past o

theorem not_sometime_nil (Q : List ω → ω → Prop) : ¬Sometime Q [] := by
  rintro ⟨past, o, rest, h, -⟩
  cases past <;> cases h

theorem sometime_cons {Q : List ω → ω → Prop} {o : ω} {os : List ω} :
    Sometime Q (o :: os) ↔ Q [] o ∨ Sometime (fun past => Q (o :: past)) os := by
  constructor
  · rintro ⟨past, o', rest, heq, ho'⟩
    cases past with
    | nil =>
        obtain ⟨rfl, rfl⟩ := List.cons.inj heq
        exact Or.inl ho'
    | cons a past =>
        obtain ⟨rfl, rfl⟩ := List.cons.inj heq
        exact Or.inr ⟨past, o', rest, rfl, ho'⟩
  · rintro (ho | ⟨past, o', rest, rfl, ho'⟩)
    · exact ⟨[], o, os, rfl, ho⟩
    · exact ⟨o :: past, o', rest, rfl, ho'⟩

theorem sometime_append {Q : List ω → ω → Prop} : ∀ {tr os : List ω}, Sometime Q (tr ++ os) ↔
    Sometime Q tr ∨ Sometime (fun past => Q (tr ++ past)) os
  | [], os => (or_iff_right (not_sometime_nil Q)).symm
  | o :: tr, os => by
      rw [List.cons_append, sometime_cons, sometime_append, sometime_cons, or_assoc]
      rfl

theorem not_sometime_of_mem {Q : List ω → ω → Prop} {tr : List ω}
    (h : ∀ o ∈ tr, ∀ past, ¬Q past o) :
    ¬Sometime Q tr := by
  rintro ⟨past, o, rest, rfl, ho⟩
  exact h o (by simp) past ho

/-- What always holds of a reading of the observations. -/
theorem always_of_filterMap {ω' : Type*} {g : ω → Option ω'} {Q : List ω' → ω' → Prop}
    {tr : List ω} (h : Always Q (tr.filterMap g)) :
    Always (fun past o => ∀ o', g o = some o' → Q (past.filterMap g) o') tr := by
  rintro past o rest rfl o' ho
  refine h (past.filterMap g) o' (rest.filterMap g) ?_
  rw [List.filterMap_append, List.filterMap_cons_some ho]

/-- Where a reading of the observations has no duplicates, no two of them
read the same. -/
theorem eq_of_nodup_filterMap {β : Type*} {f : ω → Option β} : ∀ {tr : List ω},
    (tr.filterMap f).Nodup → ∀ {o o' : ω} {x : β}, o ∈ tr → o' ∈ tr → f o = some x →
      f o' = some x → o = o'
  | a :: tr, h, o, o', x, ho, ho', hx, hx' => by
      have hmem : ∀ {b : ω}, b ∈ tr → f b = some x → x ∈ tr.filterMap f :=
        fun hb hbx => List.mem_filterMap.mpr ⟨_, hb, hbx⟩
      have htail : (tr.filterMap f).Nodup := by
        rw [List.filterMap_cons] at h
        split at h
        · exact h
        · exact (List.nodup_cons.mp h).2
      have hhead : f a = some x → x ∉ tr.filterMap f := by
        intro hax
        rw [List.filterMap_cons_some hax] at h
        exact (List.nodup_cons.mp h).1
      rcases List.mem_cons.mp ho with rfl | hin
      · rcases List.mem_cons.mp ho' with rfl | hin'
        · rfl
        · exact absurd (hmem hin' hx') (hhead hx)
      · rcases List.mem_cons.mp ho' with rfl | hin'
        · exact absurd (hmem hin hx) (hhead hx')
        · exact eq_of_nodup_filterMap htail hin hin' hx hx'

end Always
