import PeakcodeDaemon.Lib.Scanner

/-!
# Scanners that catch a body by its lead

A body is found by what stands right before it, its lead. As long as the
text has the two together, and the body nowhere else (`Intact`), a scanner
that `Catches` the lead reaches it: each of its hits either ends before
the lead or takes some of it, or of the body. So a sequence of passes, one
of which catches the lead, removes the body unless a cut spoils that: it
leaves the body standing, but not untouched behind its lead (`Spoils`).

- **a pass that catches removes** (`Catches.removes_scan`,
  `Catches.removes_drain`), wherever in the sequence it stands
  (`absent_of_removes`);
- **what spoils** (`Intact.cut`, `not_spoils_of_chain`): a cut that ends
  in the lead or right behind it (`StripsLead`), or whose replacement
  spells the body anew. Any other cut passes an intact body by, or leaves
  none of it, since a cut into the body leaves less than the body.
-/

open Splice

namespace Catch

variable {α : Type*}

/-- The body stands in `t` right after its lead, and nowhere else. -/
def Intact (lead body t : List α) : Prop :=
  ∃ L R, t = L ++ lead ++ body ++ R ∧ ∀ L' R', t = L' ++ body ++ R' → L' = L ++ lead

/-- Lead and body stand wholly on one side of the cut. -/
def Beside (lead body : List α) (c : Cut α) : Prop :=
  (∃ z R, c.right = z ++ lead ++ body ++ R) ∨ ∃ L z, c.left = L ++ lead ++ body ++ z

/-- After the cut the body stands in the text, but the cut did not just
pass it by: it touched it or its lead, or it spelled the body anew. -/
def Spoils (r lead body : List α) (c : Cut α) : Prop :=
  body <:+: c.result r ∧
    ¬(Intact lead body c.source ∧ Beside lead body c ∧ Intact lead body (c.result r))

variable {lead body : List α} {r : List α}

theorem Intact.occurs {t : List α} (h : Intact lead body t) : body <:+: t := by
  obtain ⟨L, R, rfl, -⟩ := h
  exact ⟨L ++ lead, R, rfl⟩

/-- What is gone does not come back by cuts that spoil nothing. -/
theorem absent_of_chain {t u : List α} {cs : List (Cut α)} (h : Chain r t cs u)
    (hcuts : ∀ c ∈ cs, ¬Spoils r lead body c) (ht : ¬body <:+: t) : ¬body <:+: u :=
  h.preserves (P := fun t => ¬body <:+: t)
    (fun c hc hsrc hin => hcuts c hc ⟨hin, fun ⟨hintact, _⟩ => hsrc hintact.occurs⟩) ht

theorem intact_of_chain {t u : List α} {cs : List (Cut α)} (h : Chain r t cs u)
    (hcuts : ∀ c ∈ cs, ¬Spoils r lead body c) (ht : Intact lead body t) :
    Intact lead body u ∨ ¬body <:+: u := by
  refine h.preserves (P := fun t => Intact lead body t ∨ ¬body <:+: t)
    (fun c hc _ => ?_) (Or.inl ht)
  by_cases hin : body <:+: c.result r
  · have := not_and.mp (hcuts c hc) hin
    exact Or.inl (not_not.mp this).2.2
  · exact Or.inr hin

/-- A cut that reaches into lead and body has neither side hold both. -/
theorem not_beside {L : List α} {c : Cut α}
    (honce : ∀ L' R', c.source = L' ++ body ++ R' → L' = L ++ lead)
    (hstart : c.left.length < (L ++ lead ++ body).length)
    (hstop : L.length < (c.left ++ c.span).length) : ¬Beside lead body c := by
  rintro (⟨z, R', hright⟩ | ⟨L', z, hleft⟩)
  · have hpos := congrArg List.length (honce (c.left ++ c.span ++ z ++ lead) R'
      (by rw [Cut.source, hright]; simp))
    simp only [List.length_append] at hpos hstop
    omega
  · have hpos := congrArg List.length (honce (L' ++ lead) (z ++ c.span ++ c.right)
      (by rw [Cut.source, hleft]; simp))
    simp only [List.length_append, hleft] at hpos hstart
    omega

/-- The cut ends inside of the lead or right behind it, and so takes its end away
from before the body. -/
def StripsLead (lead body : List α) (c : Cut α) : Prop :=
  ∃ L R, c.source = L ++ lead ++ body ++ R ∧ L.length < (c.left ++ c.span).length ∧
    (c.left ++ c.span).length ≤ (L ++ lead).length

/-- A cut that neither strips the lead nor spells the body anew passes an intact
body by, or leaves none. -/
theorem Intact.cut {c : Cut α} (hbody : body ≠ []) (h : Intact lead body c.source)
    (hstrips : ¬StripsLead lead body c) (hmeets : ¬Meets r body c) :
    (Beside lead body c ∧ Intact lead body (c.result r)) ∨ ¬body <:+: c.result r := by
  obtain ⟨L, R, hsource, honce⟩ := h
  have hpos := List.length_pos_iff.mpr hbody
  by_cases hin : body <:+: c.result r
  swap
  · exact Or.inr hin
  -- where the body may stand after the cut, it stood before, and so behind its lead
  have honleft : ∀ {A z : List α}, c.left = A ++ body ++ z → A = L ++ lead := by
    intro A z hleft
    refine honce A (z ++ c.span ++ c.right) ?_
    rw [Cut.source, hleft]
    simp only [List.append_assoc]
  have honright : ∀ {z B : List α}, c.right = z ++ body ++ B →
      c.left ++ c.span ++ z = L ++ lead := by
    intro z B hright
    refine honce (c.left ++ c.span ++ z) B ?_
    rw [Cut.source, hright]
    simp only [List.append_assoc]
  obtain ⟨A, B, hAB⟩ := hin
  rcases Cut.occurrence_result hAB.symm hmeets with ⟨z, hleft⟩ | ⟨z, hA, hright⟩
  · obtain rfl := honleft hleft
    refine Or.inl ⟨Or.inr ⟨L, z, hleft⟩, L, z ++ r ++ c.right, ?_, fun A' B' hAB' => ?_⟩
    · rw [Cut.result, hleft]
      simp only [List.append_assoc]
    · rcases Cut.occurrence_result hAB' hmeets with ⟨z', hleft'⟩ | ⟨z', -, hright'⟩
      · exact honleft hleft'
      · have hlen := congrArg List.length (honright hright')
        rw [hleft] at hlen
        simp only [List.length_append] at hlen
        omega
  · have hbefore := honright hright
    have hlen := congrArg List.length hbefore
    by_cases hover : L.length < (c.left ++ c.span).length
    · refine absurd ⟨L, R, hsource, hover, ?_⟩ hstrips
      simp only [List.length_append] at hlen ⊢
      omega
    · obtain ⟨z₀, rfl⟩ : c.left ++ c.span <+: L :=
        List.prefix_of_prefix_length_le ⟨z, hbefore⟩ (List.prefix_append ..) (by omega)
      rw [List.append_assoc _ z₀, List.append_cancel_left_eq] at hbefore
      subst hbefore
      refine Or.inl ⟨Or.inl ⟨z₀, B, hright⟩, c.left ++ r ++ z₀, B, ?_, fun A' B' hAB' => ?_⟩
      · rw [Cut.result, hright]
        simp only [List.append_assoc]
      · rcases Cut.occurrence_result hAB' hmeets with ⟨z', hleft'⟩ | ⟨z', hA', hright'⟩
        · have hlen' := congrArg List.length (honleft hleft')
          have hle := congrArg List.length hleft'
          simp only [List.length_append] at hlen' hle
          omega
        · have heq := honright hright'
          rw [List.append_assoc _ z₀, List.append_cancel_left_eq] at heq
          rw [hA', heq, ← List.append_assoc]

/-- So along a chain of such cuts none spoils the body. -/
theorem not_spoils_of_chain {t u : List α} {cs : List (Cut α)} (hbody : body ≠ [])
    (h : Chain r t cs u) (hcuts : ∀ c ∈ cs, ¬StripsLead lead body c ∧ ¬Meets r body c)
    (ht : Intact lead body t ∨ ¬body <:+: t) : ∀ c ∈ cs, ¬Spoils r lead body c := by
  induction h with
  | nil => simp
  | @cons t u c cs hsource _ ih =>
      subst hsource
      obtain ⟨hstrips, hmeets⟩ := hcuts c (List.mem_cons_self ..)
      have hstep : ¬Spoils r lead body c ∧
          (Intact lead body (c.result r) ∨ ¬body <:+: c.result r) := by
        rcases ht with ht | ht
        · rcases ht.cut hbody hstrips hmeets with ⟨hbeside, hres⟩ | hres
          · exact ⟨fun hspoils => hspoils.2 ⟨ht, hbeside, hres⟩, Or.inl hres⟩
          · exact ⟨fun hspoils => hres hspoils.1, Or.inr hres⟩
        · have hres := Cut.avoids hmeets ht
          exact ⟨fun hspoils => hres hspoils.1, Or.inr hres⟩
      have hrest := ih (fun d hd => hcuts d (List.mem_cons_of_mem _ hd)) hstep.2
      exact List.forall_mem_cons.mpr ⟨hstep.1, hrest⟩

/-- A hit of the scanner ends before the lead, or cuts into lead and body. -/
def Catches (S : Scanner α) (lead body : List α) : Prop :=
  ∀ L R, ∃ skip span rest, S.next (L ++ lead ++ body ++ R) = some (skip, span, rest) ∧
    ((skip ++ span).length ≤ L.length ∨ span ≠ [] ∧
      skip.length < (L ++ lead ++ body).length ∧ L.length < (skip ++ span).length)

theorem rest_of_le {L R skip span rest : List α}
    (h : L ++ lead ++ body ++ R = skip ++ span ++ rest)
    (hle : (skip ++ span).length ≤ L.length) : ∃ z, rest = z ++ lead ++ body ++ R := by
  simp only [List.append_assoc L] at h
  rcases List.append_eq_append_iff.mp h with ⟨z, hz, hrest⟩ | ⟨z, hz, hrest⟩
  · obtain rfl : z = [] := by
      have := congrArg List.length hz
      rw [this, List.length_append] at hle
      exact List.eq_nil_of_length_eq_zero (by omega)
    exact ⟨[], by simpa using hrest.symm⟩
  · exact ⟨z, by simpa using hrest⟩

/-- One pass: the cursor stays left of the lead until a hit takes the body. -/
theorem Catches.scans {S : Scanner α} (hS : Catches S lead body) {done t out : List α}
    {cs : List (Cut α)} (h : S.Scans r done t cs out)
    (hcuts : ∀ c ∈ cs, ¬Spoils r lead body c) (hintact : Intact lead body (done ++ t))
    (hahead : ∃ L R, t = L ++ lead ++ body ++ R) : ¬body <:+: done ++ out := by
  induction h with
  | stop hnext =>
      obtain ⟨L, R, rfl⟩ := hahead
      obtain ⟨skip, span, rest, hhit, -⟩ := hS L R
      rw [hnext] at hhit
      cases hhit
  | keep hnext _ ih =>
      obtain ⟨L, R, rfl⟩ := hahead
      obtain ⟨skip, span, rest, hhit, hcase⟩ := hS L R
      obtain ⟨rfl, rfl, rfl⟩ : _ = skip ∧ [] = span ∧ _ = rest := by
        simpa using hnext.symm.trans hhit
      rcases hcase with hle | ⟨hne, -⟩
      · have happ := S.next_append hnext
        obtain ⟨z, hz⟩ := rest_of_le happ hle
        rw [happ] at hintact
        have := ih hcuts (by simpa using hintact) ⟨z, R, hz⟩
        simpa using this
      · exact absurd rfl hne
  | @cut done t skip span rest out cs hne hnext tail ih =>
      obtain ⟨L, R, rfl⟩ := hahead
      obtain ⟨skip', span', rest', hhit, hcase⟩ := hS L R
      obtain ⟨rfl, rfl, rfl⟩ : skip = skip' ∧ span = span' ∧ rest = rest' := by
        simpa using hnext.symm.trans hhit
      have happ := S.next_append hnext
      have hfirst := hcuts _ (List.mem_cons_self ..)
      have hrest := fun c hc => hcuts c (List.mem_cons_of_mem _ hc)
      by_cases hin : body <:+: Cut.result r ⟨done ++ skip, span, rest⟩
      · obtain ⟨-, hbeside, hres⟩ := not_not.mp (not_and.mp hfirst hin)
        rcases hcase with hle | ⟨-, hstart, hstop⟩
        · obtain ⟨z, hz⟩ := rest_of_le happ hle
          have := ih hrest (by simpa [Cut.result] using hres) ⟨z, R, hz⟩
          simpa using this
        · obtain ⟨L₀, R₀, hsrc, honce⟩ := hintact
          have hpos := congrArg List.length (honce (done ++ L ++ lead) R (by simp))
          refine absurd hbeside (not_beside (L := L₀) ?_ ?_ ?_)
          · intro L' R' heq
            refine honce L' R' (Eq.trans ?_ heq)
            rw [happ]
            simp [Cut.source]
          · simp only [List.length_append] at hpos hstart ⊢
            omega
          · simp only [List.length_append] at hpos hstop ⊢
            omega
      · have hchain := tail.chain
        have := absent_of_chain hchain hrest (by simpa [Cut.result] using hin)
        simpa using this

/-- The loop that starts over: it ends only when no lead is left. -/
theorem Catches.drains {S : Scanner α} (hS : Catches S lead body) {t out : List α}
    {cs : List (Cut α)} (h : S.Drains r t cs out) (hcuts : ∀ c ∈ cs, ¬Spoils r lead body c)
    (hintact : Intact lead body t) : ¬body <:+: out := by
  rcases intact_of_chain h.chain hcuts hintact with ⟨L, R, rfl, -⟩ | habsent
  · obtain ⟨skip, span, rest, hhit, -⟩ := hS L R
    rw [h.next_eq_none] at hhit
    cases hhit
  · exact habsent

/-! ## A sequence of passes -/

/-- The pass removes an intact body, if no cut of it spoils that. -/
def Removes (p : Pass r) (lead body : List α) : Prop :=
  ∀ t, (∀ c ∈ p.cuts t, ¬Spoils r lead body c) → Intact lead body t → ¬body <:+: p.out t

theorem Catches.removes_scan {S : Scanner α} (hS : Catches S lead body) :
    Removes (.ofScan S r) lead body := by
  intro t hcuts hintact
  obtain ⟨L, R, ht, -⟩ := id hintact
  exact hS.scans (S.scans r [] t) hcuts hintact ⟨L, R, ht⟩

theorem Catches.removes_drain {S : Scanner α} (hS : Catches S lead body) (hr : S.Shrinks r) :
    Removes (.ofDrain S hr) lead body :=
  fun t hcuts hintact => hS.drains (S.drains r hr t) hcuts hintact

/-- One pass that removes the body is enough, wherever it stands. -/
theorem absent_of_removes {p : Pass r} (hp : Removes p lead body) : ∀ {ps : List (Pass r)}
    {t : List α}, p ∈ ps → (∀ c ∈ Pass.allCuts ps t, ¬Spoils r lead body c) →
      Intact lead body t → ¬body <:+: Pass.runAll ps t
  | q :: qs, t, hmem, hcuts, hintact => by
      rw [Pass.allCuts, List.forall_mem_append] at hcuts
      have habsent : ¬body <:+: q.out t → ¬body <:+: Pass.runAll qs (q.out t) :=
        absent_of_chain (Pass.chain_all qs (q.out t)) hcuts.2
      rcases List.mem_cons.mp hmem with rfl | hmem
      · exact habsent (hp t hcuts.1 hintact)
      · rcases intact_of_chain (q.chain t) hcuts.1 hintact with hintact' | hgone
        · have := absent_of_removes hp hmem hcuts.2 hintact'
          exact this
        · exact habsent hgone

end Catch
