import PeakcodeDaemon.Lib.Splice

/-!
# Left-to-right scanners

A `Scanner` looks for its next hit in what is left of the input: the part
to keep, the span to replace (empty where the hit is only stepped over)
and the rest, from which it goes on. `scan` is one pass of it; `drain`
starts over on the whole text after every replacement, as a
`while let Some(..) = text.find(..)` loop does.

Both are run by a fuel no input exhausts, so they compute, and both come
with the list of cuts they make. Proofs use neither the fuel nor the lists
directly but the relations `Scans` and `Drains`, whose cases are the cases
of the loop:

- **a pass is a chain of cuts** (`Scans.chain`, `Drains.chain`), each of
  them a hit somewhere (`Scans.exists_hit`, `Drains.exists_hit`);
- **the relation determines the output** (`Scans.out_eq`), and so do the
  equations (`Scans.out_eq_of_equations`);
- **outside of its hits nothing changes** (`Rewritten`,
  `Scans.rewritten`);
- **a drain ends with nothing left** (`Drains.next_eq_none`), if the
  replacement is shorter than the spans (`Scanner.Shrinks`).

A `Pass` is either kind with its cuts, and a list of passes is run one on
the other (`Pass.runAll`, `Pass.allCuts`, `Pass.chain_all`).
-/

open Splice

structure Scanner (α : Type*) where
  next : List α → Option (List α × List α × List α)
  next_append : ∀ {t skip span rest}, next t = some (skip, span, rest) →
    t = skip ++ span ++ rest
  next_shorter : ∀ {t skip span rest}, next t = some (skip, span, rest) →
    rest.length < t.length

namespace Scanner

variable {α β : Type*}

/-- The scanner that looks for `p` up to `f` and reads its hit off the match. -/
def ofMatch [DecidableEq β] (f : α → β) (p : List β)
    (hit : List α → List α → List α → List α × List α × List α)
    (hhit : ∀ a m b, m.map f = p →
      a ++ m ++ b = (hit a m b).1 ++ (hit a m b).2.1 ++ (hit a m b).2.2
        ∧ (hit a m b).2.2.length < (a ++ m ++ b).length) : Scanner α where
  next t := (splitFirst f p t).map fun (a, m, b) => hit a m b
  next_append {t skip span rest} h := by
    obtain ⟨⟨a, m, b⟩, hsplit, heq⟩ := Option.map_eq_some_iff.mp h
    obtain ⟨rfl, hm⟩ := splitFirst_eq_some hsplit
    have happ := (hhit a m b hm).1
    rwa [show hit a m b = (skip, span, rest) from heq] at happ
  next_shorter {t skip span rest} h := by
    obtain ⟨⟨a, m, b⟩, hsplit, heq⟩ := Option.map_eq_some_iff.mp h
    obtain ⟨rfl, hm⟩ := splitFirst_eq_some hsplit
    have hlt := (hhit a m b hm).2
    rwa [show hit a m b = (skip, span, rest) from heq] at hlt

variable (S : Scanner α) (r : List α)

/-! ## One pass -/

def scanFuel : Nat → List α → List α
  | 0, t => t
  | n + 1, t =>
      match S.next t with
      | none => t
      | some (skip, span, rest) =>
          skip ++ (if span.isEmpty then [] else r) ++ scanFuel n rest

/-- One pass over `t`, every nonempty span replaced by `r`. -/
def scan (t : List α) : List α := S.scanFuel r t.length t

def cutsFuel : Nat → List α → List α → List (Cut α)
  | 0, _, _ => []
  | n + 1, done, t =>
      match S.next t with
      | none => []
      | some (skip, span, rest) =>
          if span.isEmpty then cutsFuel n (done ++ skip) rest
          else ⟨done ++ skip, span, rest⟩ :: cutsFuel n (done ++ skip ++ r) rest

/-- The cuts of that pass, `done` being the output that precedes `t`. -/
def cuts (done t : List α) : List (Cut α) := S.cutsFuel r t.length done t

/-- `Scans done t cs out`: the pass turns `t` into `out` by the cuts `cs`,
with `done` already put out. -/
inductive Scans : List α → List α → List (Cut α) → List α → Prop
  | stop {done t : List α} (h : S.next t = none) : Scans done t [] t
  | keep {done t skip rest out : List α} {cs : List (Cut α)}
      (h : S.next t = some (skip, [], rest))
      (tail : Scans (done ++ skip) rest cs out) : Scans done t cs (skip ++ out)
  | cut {done t skip span rest out : List α} {cs : List (Cut α)} (hne : span ≠ [])
      (h : S.next t = some (skip, span, rest))
      (tail : Scans (done ++ skip ++ r) rest cs out) :
      Scans done t (⟨done ++ skip, span, rest⟩ :: cs) (skip ++ r ++ out)

theorem scans_fuel : ∀ {n : Nat} {t : List α}, t.length ≤ n → ∀ done,
    S.Scans r done t (S.cutsFuel r n done t) (S.scanFuel r n t)
  | 0, t, hn, done => by
      obtain rfl : t = [] := List.eq_nil_of_length_eq_zero (Nat.le_zero.mp hn)
      refine .stop ?_
      cases hnext : S.next [] with
      | none => rfl
      | some hit =>
          obtain ⟨skip, span, rest⟩ := hit
          exact absurd (S.next_shorter hnext) (Nat.not_lt_zero _)
  | n + 1, t, hn, done => by
      rw [cutsFuel, scanFuel]
      cases hnext : S.next t with
      | none => exact .stop hnext
      | some hit =>
          obtain ⟨skip, span, rest⟩ := hit
          have hrest : rest.length ≤ n := by
            have := S.next_shorter hnext
            omega
          cases span with
          | nil =>
              simpa using Scans.keep hnext (scans_fuel hrest (done ++ skip))
          | cons c span =>
              simpa using Scans.cut (List.cons_ne_nil c span) hnext
                (scans_fuel hrest (done ++ skip ++ r))

theorem scans (done t : List α) : S.Scans r done t (S.cuts r done t) (S.scan r t) :=
  S.scans_fuel r (Nat.le_refl _) done

variable {S r}

/-- Induction over the hits of a pass. -/
theorem next_induction (S : Scanner α) {P : List α → Prop} (hstop : ∀ t, S.next t = none → P t)
    (hhit : ∀ t skip span rest, S.next t = some (skip, span, rest) → P rest → P t)
    (t : List α) : P t := by
  have hscans : ∀ {done t out : List α} {cs : List (Cut α)}, S.Scans [] done t cs out → P t := by
    intro done t out cs h
    induction h with
    | stop hnext => exact hstop _ hnext
    | keep hnext _ ih => exact hhit _ _ _ _ hnext ih
    | cut _ hnext _ ih => exact hhit _ _ _ _ hnext ih
  exact hscans (S.scans [] [] t)

/-- The relation determines the output. -/
theorem Scans.out_eq {done done' t out out' : List α} {cs cs' : List (Cut α)}
    (h : S.Scans r done t cs out) (h' : S.Scans r done' t cs' out') : out = out' := by
  induction h generalizing done' cs' out' with
  | stop hnext =>
      cases h' with
      | stop => rfl
      | keep hnext' => rw [hnext] at hnext'; cases hnext'
      | cut _ hnext' => rw [hnext] at hnext'; cases hnext'
  | keep hnext _ ih =>
      cases h' with
      | stop hnext' => rw [hnext] at hnext'; cases hnext'
      | keep hnext' tail' =>
          rw [hnext] at hnext'
          cases hnext'
          rw [ih tail']
      | cut hne hnext' =>
          rw [hnext] at hnext'
          cases hnext'
          exact absurd rfl hne
  | cut hne hnext _ ih =>
      cases h' with
      | stop hnext' => rw [hnext] at hnext'; cases hnext'
      | keep hnext' =>
          rw [hnext] at hnext'
          cases hnext'
          exact absurd rfl hne
      | cut _ hnext' tail' =>
          rw [hnext] at hnext'
          cases hnext'
          rw [ih tail']

theorem scan_of_none {t : List α} (h : S.next t = none) : S.scan r t = t := by
  have hstop : S.Scans r [] t [] t := .stop h
  exact (S.scans r [] t).out_eq hstop

theorem scan_of_some {t skip span rest : List α} (hne : span ≠ [])
    (h : S.next t = some (skip, span, rest)) : S.scan r t = skip ++ r ++ S.scan r rest :=
  (S.scans r [] t).out_eq (.cut hne h (S.scans r ([] ++ skip ++ r) rest))

/-- A function with the equations of the pass is the pass. -/
theorem Scans.out_eq_of_equations {g : List α → List α} (hstop : ∀ t, S.next t = none → g t = t)
    (hhit : ∀ t skip span rest, S.next t = some (skip, span, rest) →
      g t = skip ++ (if span.isEmpty then [] else r) ++ g rest)
    {done t out : List α} {cs : List (Cut α)} (h : S.Scans r done t cs out) : out = g t := by
  induction h with
  | stop hnext => exact (hstop _ hnext).symm
  | keep hnext _ ih =>
      rw [hhit _ _ _ _ hnext, ih]
      simp
  | cut hne hnext _ ih => rw [hhit _ _ _ _ hnext, if_neg (by simpa using hne), ih]

/-- `Rewritten Span t out`: `out` is `t` with some of its spans replaced, each
admitted by `Span` between the part kept before it and all that follows. -/
inductive Rewritten (r : List α) (Span : List α → List α → List α → Prop) :
    List α → List α → Prop
  | done (t : List α) : Rewritten r Span t t
  | span {kept span rest out : List α} (h : Span kept span rest)
      (tail : Rewritten r Span rest out) :
      Rewritten r Span (kept ++ span ++ rest) (kept ++ r ++ out)

section Rewritten

variable {Span : List α → List α → List α → Prop}

theorem Rewritten.keep (hSpan : ∀ x kept span rest, Span kept span rest →
      Span (x ++ kept) span rest) {t out : List α} (h : Rewritten r Span t out) (x : List α) :
    Rewritten r Span (x ++ t) (x ++ out) := by
  cases h with
  | done => exact .done _
  | span h tail =>
      have := Rewritten.span (hSpan x _ _ _ h) tail
      simpa using this

/-- A list without a span is left as it is. -/
theorem Rewritten.eq_of_none {t out : List α} (h : Rewritten r Span t out)
    (hnone : ∀ kept span rest, t = kept ++ span ++ rest → ¬Span kept span rest) : out = t := by
  cases h with
  | done => rfl
  | span h tail => exact absurd h (hnone _ _ _ rfl)

/-- A pass keeps everything outside of the spans it hits. -/
theorem Scans.rewritten (hSpan : ∀ x kept span rest, Span kept span rest →
      Span (x ++ kept) span rest)
    (hhit : ∀ t skip span rest, S.next t = some (skip, span, rest) → span ≠ [] →
      Span skip span rest)
    {done t out : List α} {cs : List (Cut α)} (h : S.Scans r done t cs out) :
    Rewritten r Span t out := by
  induction h with
  | stop => exact .done _
  | keep hnext _ ih =>
      rw [S.next_append hnext, List.append_nil]
      exact ih.keep hSpan _
  | cut hne hnext _ ih =>
      rw [S.next_append hnext]
      exact .span (hhit _ _ _ _ hnext hne) ih

end Rewritten

/-- A pass is a chain of cuts. -/
theorem Scans.chain {done t out : List α} {cs : List (Cut α)}
    (h : S.Scans r done t cs out) : Chain r (done ++ t) cs (done ++ out) := by
  induction h with
  | stop => exact .nil _
  | keep hnext _ ih =>
      rw [S.next_append hnext]
      simpa using ih
  | cut _ hnext _ ih =>
      refine .cons (by rw [S.next_append hnext]; simp [Cut.source]) ?_
      simpa [Cut.result] using ih

/-- Every cut of a pass is a hit somewhere. -/
theorem Scans.exists_hit {done t out : List α} {cs : List (Cut α)}
    (h : S.Scans r done t cs out) :
    ∀ c ∈ cs, c.span ≠ [] ∧ ∃ t' skip, S.next t' = some (skip, c.span, c.right) := by
  induction h with
  | stop => simp
  | keep _ _ ih => exact ih
  | cut hne hnext _ ih =>
      intro c hc
      rcases List.mem_cons.mp hc with rfl | hc
      · exact ⟨hne, _, _, hnext⟩
      · exact ih c hc

/-! ## Starting over after every replacement -/

variable (S r)

def drainFuel : Nat → List α → List α
  | 0, t => t
  | n + 1, t =>
      match S.next t with
      | none => t
      | some (skip, _, rest) => drainFuel n (skip ++ r ++ rest)

/-- The loop that replaces the next span by `r` until there is none. -/
def drain (t : List α) : List α := S.drainFuel r t.length t

def drainCutsFuel : Nat → List α → List (Cut α)
  | 0, _ => []
  | n + 1, t =>
      match S.next t with
      | none => []
      | some (skip, span, rest) =>
          ⟨skip, span, rest⟩ :: drainCutsFuel n (skip ++ r ++ rest)

def drainCuts (t : List α) : List (Cut α) := S.drainCutsFuel r t.length t

/-- `Drains t cs out`: the loop turns `t` into `out` by the cuts `cs`. -/
inductive Drains : List α → List (Cut α) → List α → Prop
  | stop {t : List α} (h : S.next t = none) : Drains t [] t
  | cut {t skip span rest out : List α} {cs : List (Cut α)}
      (h : S.next t = some (skip, span, rest))
      (tail : Drains (skip ++ r ++ rest) cs out) : Drains t (⟨skip, span, rest⟩ :: cs) out

/-- The replacement is shorter than every span, which ends the loop. -/
def Shrinks : Prop :=
  ∀ t skip span rest, S.next t = some (skip, span, rest) → r.length < span.length

theorem drains_fuel (hS : S.Shrinks r) : ∀ {n : Nat} {t : List α}, t.length ≤ n →
    S.Drains r t (S.drainCutsFuel r n t) (S.drainFuel r n t)
  | 0, t, hn => by
      obtain rfl : t = [] := List.eq_nil_of_length_eq_zero (Nat.le_zero.mp hn)
      refine .stop ?_
      cases hnext : S.next [] with
      | none => rfl
      | some hit =>
          obtain ⟨skip, span, rest⟩ := hit
          exact absurd (S.next_shorter hnext) (Nat.not_lt_zero _)
  | n + 1, t, hn => by
      rw [drainCutsFuel, drainFuel]
      cases hnext : S.next t with
      | none => exact .stop hnext
      | some hit =>
          obtain ⟨skip, span, rest⟩ := hit
          refine .cut hnext (drains_fuel hS ?_)
          have hlt := hS _ _ _ _ hnext
          have hlen := congrArg List.length (S.next_append hnext)
          simp only [List.length_append] at hlen ⊢
          omega

theorem drains (hS : S.Shrinks r) (t : List α) :
    S.Drains r t (S.drainCuts r t) (S.drain r t) :=
  S.drains_fuel r hS (Nat.le_refl _)

variable {S r}

theorem Drains.chain {t out : List α} {cs : List (Cut α)} (h : S.Drains r t cs out) :
    Chain r t cs out := by
  induction h with
  | stop => exact .nil _
  | cut hnext _ ih => exact .cons (S.next_append hnext) ih

theorem Drains.exists_hit {t out : List α} {cs : List (Cut α)} (h : S.Drains r t cs out) :
    ∀ c ∈ cs, S.next c.source = some (c.left, c.span, c.right) := by
  induction h with
  | stop => simp
  | cut hnext _ ih =>
      intro c hc
      rcases List.mem_cons.mp hc with rfl | hc
      · rw [← show _ = Cut.source _ from S.next_append hnext]
        exact hnext
      · exact ih c hc

/-- The loop ends only where the scanner finds nothing. -/
theorem Drains.next_eq_none {t out : List α} {cs : List (Cut α)}
    (h : S.Drains r t cs out) : S.next out = none := by
  induction h with
  | stop hnext => exact hnext
  | cut _ _ ih => exact ih

end Scanner

/-! ## Passes -/

/-- A rewriting pass with the replacement `r`, and the cuts it makes. -/
structure Pass {α : Type*} (r : List α) where
  out : List α → List α
  cuts : List α → List (Cut α)
  chain : ∀ t, Chain r t (cuts t) (out t)

namespace Pass

variable {α : Type*} {r : List α}

def ofScan (S : Scanner α) (r : List α) : Pass r where
  out := S.scan r
  cuts := S.cuts r []
  chain t := (S.scans r [] t).chain

def ofDrain (S : Scanner α) {r : List α} (hS : S.Shrinks r) : Pass r where
  out := S.drain r
  cuts := S.drainCuts r
  chain t := (S.drains r hS t).chain

/-- The passes in order, each on what the one before left. -/
def runAll (ps : List (Pass r)) (t : List α) : List α := ps.foldl (fun t p => p.out t) t

def allCuts : List (Pass r) → List α → List (Cut α)
  | [], _ => []
  | p :: ps, t => p.cuts t ++ allCuts ps (p.out t)

@[simp] theorem runAll_cons (p : Pass r) (ps : List (Pass r)) (t : List α) :
    runAll (p :: ps) t = runAll ps (p.out t) := rfl

theorem runAll_append (ps qs : List (Pass r)) (t : List α) :
    runAll (ps ++ qs) t = runAll qs (runAll ps t) := List.foldl_append ..

theorem allCuts_append : ∀ (ps qs : List (Pass r)) (t : List α),
    allCuts (ps ++ qs) t = allCuts ps t ++ allCuts qs (runAll ps t)
  | [], _, _ => rfl
  | p :: ps, qs, t => by
      rw [List.cons_append, allCuts, allCuts, allCuts_append ps qs, List.append_assoc]
      rfl

theorem forall_mem_allCuts {Q : Cut α → Prop} : ∀ {ps : List (Pass r)} {t : List α},
    (∀ p ∈ ps, ∀ t, ∀ c ∈ p.cuts t, Q c) → ∀ c ∈ allCuts ps t, Q c
  | [], _, _, c, hc => by cases hc
  | p :: ps, t, h, c, hc => by
      rcases List.mem_append.mp hc with hc | hc
      · exact h p (List.mem_cons_self ..) t c hc
      · exact forall_mem_allCuts (fun q hq => h q (List.mem_cons_of_mem _ hq)) c hc

theorem runAll_preserves {P : List α → Prop} : ∀ {ps : List (Pass r)} {t : List α},
    (∀ p ∈ ps, ∀ t, P t → P (p.out t)) → P t → P (runAll ps t)
  | [], _, _, ht => ht
  | p :: ps, t, h, ht => by
      have hrest : ∀ q ∈ ps, ∀ t, P t → P (q.out t) := fun q hq => h q (List.mem_cons_of_mem _ hq)
      have := runAll_preserves hrest (h p (List.mem_cons_self ..) t ht)
      exact this

theorem chain_all : ∀ (ps : List (Pass r)) (t : List α), Chain r t (allCuts ps t) (runAll ps t)
  | [], t => .nil t
  | p :: ps, t => (p.chain t).append (chain_all ps (p.out t))

/-- What one of the passes removes for good is not in the output. -/
theorem runAll_avoids {ps : List (Pass r)} {p : Pass r} (hp : p ∈ ps) {w : List α}
    (hsep : Separates r w) (hr : ¬w <:+: r) (hout : ∀ t, ¬w <:+: p.out t) (t : List α) :
    ¬w <:+: runAll ps t := by
  obtain ⟨before, after, rfl⟩ := List.append_of_mem hp
  rw [runAll_append, runAll_cons]
  exact (chain_all after _).avoids hsep hr (hout _)

end Pass
