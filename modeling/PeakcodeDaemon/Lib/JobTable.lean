import Mathlib.Data.List.Basic
import Mathlib.Logic.Function.Basic

/-!
# Jobs that share a table

Jobs are opened one after another, each under a key, and closed in the same
order; keys may repeat. A job may be given a handle while it is open. A table
by key is all that is kept of them: `lookup` reads off the jobs what it should
hold, which is the handle of the first open job with the key.

The table follows the jobs as long as a job is given a handle only when it is
the first with its key (`Unshadowed`):

- **opening** a job changes nothing (`lookup_open`), for it has no handle;
- **giving** a handle writes the entry of its key and no other
  (`lookup_give_first`, `lookup_give_last`);
- **closing** the first job clears the entry of its key
  (`Unshadowed.lookup_close`).

Where a later job with the same key is given a handle, the table has no place
for both.
-/

namespace JobTable

variable {K H : Type*}

/-- A job: its key, and the handle it was given. -/
abbrev Job (K H : Type*) := K × Option H

/-! ## The handles of the jobs -/

/-- The handle of the `i`th job. -/
def handleAt (jobs : List (Job K H)) (i : Nat) : Option H := jobs[i]?.bind Prod.snd

@[simp] theorem handleAt_nil (i : Nat) : handleAt ([] : List (Job K H)) i = none := rfl

/-- Jobs that are opened have no handle yet. -/
def opened (keys : List K) : List (Job K H) := keys.map fun k => (k, none)

theorem eq_none_of_opened {keys : List K} {job : Job K H} (h : job ∈ opened keys) :
    job.2 = none := by
  obtain ⟨k, -, rfl⟩ := List.mem_map.mp h
  rfl

theorem handleAt_open (jobs : List (Job K H)) (keys : List K) (i : Nat) :
    handleAt (jobs ++ opened keys) i = handleAt jobs i := by
  rcases Nat.lt_or_ge i jobs.length with hi | hi
  · rw [handleAt, List.getElem?_append_left hi, handleAt]
  · rw [handleAt, List.getElem?_append_right hi, handleAt, List.getElem?_eq_none hi]
    cases hjob : (opened keys : List (Job K H))[i - jobs.length]? with
    | none => rfl
    | some job => exact eq_none_of_opened (List.mem_of_getElem? hjob)

theorem handleAt_self (before after : List (Job K H)) (k : K) (h : Option H) :
    handleAt (before ++ (k, h) :: after) before.length = h := by
  rw [handleAt, List.getElem?_append_right (Nat.le_refl _), Nat.sub_self]
  rfl

theorem handleAt_other {before after : List (Job K H)} {k : K} {h h' : Option H} {i : Nat}
    (hi : i ≠ before.length) :
    handleAt (before ++ (k, h) :: after) i = handleAt (before ++ (k, h') :: after) i := by
  rcases Nat.lt_or_gt_of_ne hi with hi | hi
  · rw [handleAt, handleAt, List.getElem?_append_left hi, List.getElem?_append_left hi]
  · obtain ⟨j, hj⟩ := Nat.exists_eq_add_of_lt hi
    rw [handleAt, handleAt, List.getElem?_append_right (Nat.le_of_lt hi),
      List.getElem?_append_right (Nat.le_of_lt hi), show i - before.length = j + 1 by omega]
    rfl

/-! ## Handles that are not in each other's way -/

/-- Only the first job with a key has a handle. -/
def Unshadowed (jobs : List (Job K H)) : Prop :=
  jobs.Pairwise fun job job' => job'.1 = job.1 → job'.2 = none

theorem Unshadowed.open {jobs : List (Job K H)} (hjobs : Unshadowed jobs) (keys : List K) :
    Unshadowed (jobs ++ opened keys) := by
  refine List.pairwise_append.mpr ⟨hjobs, ?_, fun _ _ _ hjob' _ => eq_none_of_opened hjob'⟩
  exact List.pairwise_of_forall_mem_list fun _ _ _ hjob' _ => eq_none_of_opened hjob'

theorem Unshadowed.give_last {jobs : List (Job K H)} {k : K} {o : Option H}
    (hjobs : Unshadowed (jobs ++ [(k, o)])) (h : H) (hfree : ∀ job ∈ jobs, job.1 ≠ k) :
    Unshadowed (jobs ++ [(k, some h)]) := by
  refine List.pairwise_append.mpr
    ⟨(List.pairwise_append.mp hjobs).1, List.pairwise_singleton _ _,
      fun job hjob job' hjob' heq => ?_⟩
  rw [List.mem_singleton.mp hjob'] at heq
  exact absurd heq.symm (hfree job hjob)

theorem Unshadowed.give_first {jobs : List (Job K H)} {k : K} {o : Option H}
    (hjobs : Unshadowed ((k, o) :: jobs)) (h : H) : Unshadowed ((k, some h) :: jobs) :=
  List.pairwise_cons.mpr (List.pairwise_cons.mp hjobs)

theorem Unshadowed.tail {job : Job K H} {jobs : List (Job K H)} (hjobs : Unshadowed (job :: jobs)) :
    Unshadowed jobs :=
  (List.pairwise_cons.mp hjobs).2

/-! ## The table -/

section Lookup

variable [DecidableEq K]

/-- What the table should hold for a key. -/
def lookup : List (Job K H) → K → Option H
  | [], _ => none
  | (k, h) :: jobs, k' => if k' = k then h else lookup jobs k'

theorem lookup_head (k : K) (h : Option H) (jobs : List (Job K H)) :
    lookup ((k, h) :: jobs) k = h :=
  if_pos rfl

theorem lookup_tail {k k' : K} (hk : k' ≠ k) (h : Option H) (jobs : List (Job K H)) :
    lookup ((k, h) :: jobs) k' = lookup jobs k' :=
  if_neg hk

theorem lookup_eq_none {k : K} :
    ∀ {jobs : List (Job K H)}, (∀ job ∈ jobs, job.1 = k → job.2 = none) →
    lookup jobs k = none
  | [], _ => rfl
  | (k', h) :: jobs, hall => by
      by_cases hk : k = k'
      · subst hk
        exact (lookup_head ..).trans (hall _ (List.mem_cons_self ..) rfl)
      · rw [lookup_tail hk]
        exact lookup_eq_none fun job hjob => hall job (List.mem_cons_of_mem _ hjob)

theorem lookup_open (keys : List K) :
    ∀ jobs : List (Job K H), lookup (jobs ++ opened keys) = lookup jobs
  | [] => by
      funext k
      exact lookup_eq_none fun _ hjob _ => eq_none_of_opened hjob
  | (k, h) :: jobs => by
      funext k'
      by_cases hk : k' = k
      · rw [hk, List.cons_append, lookup_head, lookup_head]
      · rw [List.cons_append, lookup_tail hk, lookup_tail hk, lookup_open keys jobs]

/-- The last job is given a handle: it must be the first with its key. -/
theorem lookup_give_last {k : K} (h : H) : ∀ {jobs : List (Job K H)}, (∀ job ∈ jobs, job.1 ≠ k) →
    lookup (jobs ++ [(k, some h)]) = Function.update (lookup jobs) k (some h)
  | [], _ => by
      funext k'
      by_cases hk : k' = k
      · rw [hk, List.nil_append, lookup_head, Function.update_self]
      · rw [List.nil_append, lookup_tail hk, Function.update_of_ne hk]
  | (k₁, h₁) :: jobs, hfree => by
      have htail := lookup_give_last h fun job hjob => hfree job (List.mem_cons_of_mem _ hjob)
      have hne : k ≠ k₁ := (hfree _ (List.mem_cons_self ..)).symm
      funext k'
      rw [List.cons_append]
      by_cases hk₁ : k' = k₁
      · rw [hk₁, lookup_head, Function.update_of_ne hne.symm, lookup_head]
      · rw [lookup_tail hk₁, htail]
        by_cases hk : k' = k
        · rw [hk, Function.update_self, Function.update_self]
        · rw [Function.update_of_ne hk, Function.update_of_ne hk, lookup_tail hk₁]

/-- The first job is given a handle. -/
theorem lookup_give_first (k : K) (h : H) (jobs : List (Job K H)) :
    lookup ((k, some h) :: jobs) = Function.update (lookup ((k, none) :: jobs)) k (some h) := by
  funext k'
  by_cases hk : k' = k
  · rw [hk, lookup_head, Function.update_self]
  · rw [lookup_tail hk, Function.update_of_ne hk, lookup_tail hk]

/-- The first job is closed: no other with its key has a handle. -/
theorem Unshadowed.lookup_close {k : K} {o : Option H} {jobs : List (Job K H)}
    (hjobs : Unshadowed ((k, o) :: jobs)) :
    lookup jobs = Function.update (lookup ((k, o) :: jobs)) k none := by
  funext k'
  by_cases hk : k' = k
  · rw [hk, Function.update_self]
    exact lookup_eq_none (List.pairwise_cons.mp hjobs).1
  · rw [Function.update_of_ne hk, lookup_tail hk]

end Lookup

end JobTable
