import PeakcodeDaemon.Lib.Catch
import PeakcodeDaemon.RedactionTurns

/-!
# What can take a lead away

A credential is found by its lead. What is replaced ahead of its turn can
end in the lead (`StripsLead`), and then the body stands there bare. In
marker mode it can be told from the text alone that this does not happen
(`leadKept_of_onlyLead`): the lead is the only one of its kind (`OnlyLead`), and
no secret stands in the text so that it ends in the lead (`EndsInLead`).

- **the marker keeps apart** (`OnlyLead.cut`, `Behind.cut`): it brings about
  no second lead of the kind, and what comes before the lead is, from the
  last marker on, what came before it in the text. So a secret without a
  closing bracket that ends in the lead stood so from the start
  (`Behind.endsInLead`).
- **turns are kept** (`Comes.not_back`): neither a key header nor an open
  bearer run comes about anew. So there are no headers when the turn of
  the runs comes, and no open runs when that of the tokens comes
  (`InTurn.cases`).
- **no credential ends in a lead** (`InTurn.strips_token`,
  `InTurn.strips_privateKey`, `InTurn.strips_bearer`): a run of token
  characters or of letters does not end before more of them, a footer has
  no letter that a token's lead or a bearer word starts with, and a header
  next to another one, or a word behind another one, is not alone.
-/

namespace PeakcodeDaemon

open Splice Utf8 Catch Scanner

/-- What may stand in a text as a credential: a lead, the body to hide and
what follows it. -/
inductive Credential : Text → Text → Text → Prop
  | token {lead body rest : Text} (hlead : lead ∈ tokenPrefixes)
      (hbody : ∀ c ∈ body, isTokenChar c = true) (hlen : 12 ≤ body.length)
      (hrest : ∀ c ∈ rest.head?, isTokenChar c = false) : Credential lead body rest
  | privateKey {label body rest : Text} (hlabel : label ∈ privateKeyLabels)
      (hlen : 12 ≤ body.length) (hrest : endHeader label <+: rest) :
      Credential (beginHeader label) body rest
  | bearer {word body rest : Text} (hword : word.map Char.toLower = bearer)
      (hbody : ∀ c ∈ body, isWhitespace c = false) (hlen : 12 ≤ body.length) :
      Credential word body rest

theorem Credential.body_length {lead body rest : Text} (h : Credential lead body rest) :
    12 ≤ body.length := by
  cases h with
  | token _ _ hlen => exact hlen
  | privateKey _ hlen => exact hlen
  | bearer _ _ hlen => exact hlen

theorem Credential.body_ne_nil {lead body rest : Text} (h : Credential lead body rest) :
    body ≠ [] := by
  rintro rfl
  exact absurd h.body_length (by decide)

/-- No lead has a letter of the marker's brackets. -/
theorem Credential.lead_free {lead body rest : Text} (h : Credential lead body rest) :
    '[' ∉ lead ∧ ']' ∉ lead := by
  cases h with
  | token hlead =>
      have hall : ∀ lead ∈ tokenPrefixes, '[' ∉ lead ∧ ']' ∉ lead := by decide
      exact hall lead hlead
  | privateKey hlabel =>
      obtain ⟨hopen, hclose, -⟩ := header_free _ hlabel
      exact ⟨hopen, hclose⟩
  | bearer hword =>
      exact ⟨not_mem_of_lower_bearer hword (by decide), not_mem_of_lower_bearer hword (by decide)⟩

/-! ## Marker mode -/

/-- Two key headers, or two bearer words. -/
inductive Rivals : Text → Text → Prop
  | headers {label label' : Text} (h : label ∈ privateKeyLabels)
      (h' : label' ∈ privateKeyLabels) : Rivals (beginHeader label) (beginHeader label')
  | words {w w' : Text} (h : w.map Char.toLower = bearer) (h' : w'.map Char.toLower = bearer) :
      Rivals w w'

/-- The text has no two lead-ins of the lead's kind. -/
def OnlyLead (lead t : Text) : Prop :=
  ∀ w w' L R L' R', Rivals lead w → Rivals lead w' → t = L ++ w ++ R → t = L' ++ w' ++ R' → L = L'

/-- The word stands before the body so that it ends in the lead. -/
def EndsInLead (L lead s : Text) : Prop := ∃ u, u ≠ [] ∧ u <+: lead ∧ s <:+ L ++ u

/-- Of what comes before the lead, a marker at most is not as it was. -/
def Behind (L L' : Text) : Prop :=
  ∃ P Q, L' = P ++ Q ∧ Q <:+ L ∧ (P = [] ∨ P.getLast? = some ']')

theorem Rivals.lead_cases {lead w : Text} (h : Rivals lead w) :
    (∃ label ∈ privateKeyLabels, lead = beginHeader label) ∨ lead.map Char.toLower = bearer := by
  cases h with
  | headers h => exact Or.inl ⟨_, h, rfl⟩
  | words h => exact Or.inr h

/-- The marker completes no rival. -/
theorem Rivals.shields {lead w : Text} (h : Rivals lead w) : Shields redactedMarker w := by
  cases h with
  | headers _ h' =>
      obtain ⟨hopen, hclose, hmarker⟩ := header_free _ h'
      exact Redactor.shields_marker hopen hclose hmarker
  | words _ h' => exact shields_bearer h'

theorem Rivals.ne_nil {lead w : Text} (h : Rivals lead w) : w ≠ [] := by
  cases h with
  | headers => exact beginHeader_ne_nil _
  | words _ h' =>
      rintro rfl
      cases h'

/-- A shielded word stands on one side of the marker, and stood there before. -/
theorem occurrence_before {m w L R : Text} {c : Cut Char} (hw : Shields m w)
    (h : c.result m = L ++ w ++ R) :
    (∃ x, c.left = L ++ w ++ x ∧ c.source = L ++ w ++ (x ++ c.span ++ c.right)) ∨
      ∃ x, L = c.left ++ m ++ x ∧ c.source = c.left ++ c.span ++ x ++ w ++ R := by
  rcases hw L R c.left c.right h.symm with ⟨x, hleft, -⟩ | ⟨x, hL, hright⟩
  · refine Or.inl ⟨x, hleft, ?_⟩
    rw [Cut.source, hleft]
    simp only [List.append_assoc]
  · refine Or.inr ⟨x, hL, ?_⟩
    rw [Cut.source, hright]
    simp only [List.append_assoc]

/-- A marker puts no two lead-ins into a text. -/
theorem OnlyLead.cut {lead : Text} {c : Cut Char} (h : OnlyLead lead c.source) :
    OnlyLead lead (c.result redactedMarker) := by
  -- one that stood left of the marker and one right of it were two before
  have hsides : ∀ {w w' L R' x x' : Text}, Rivals lead w → Rivals lead w' →
      c.left = L ++ w ++ x → c.source = c.left ++ c.span ++ x' ++ w' ++ R' → False := by
    intro w w' L R' x x' hw hw' hleft hsource
    have heq := h w w' L (x ++ c.span ++ c.right) (c.left ++ c.span ++ x') R' hw hw'
      (by rw [Cut.source, hleft]; simp only [List.append_assoc]) hsource
    have hpos := List.length_pos_iff.mpr hw.ne_nil
    have hlen := congrArg List.length heq
    simp only [hleft, List.length_append] at hlen
    omega
  intro w w' L R L' R' hw hw' ht ht'
  rcases occurrence_before hw.shields ht with ⟨x, hleft, hsource⟩ | ⟨x, rfl, hsource⟩ <;>
    rcases occurrence_before hw'.shields ht' with ⟨x', hleft', hsource'⟩ | ⟨x', rfl, hsource'⟩
  · exact h w w' L _ L' _ hw hw' hsource hsource'
  · exact (hsides hw hw' hleft hsource').elim
  · exact (hsides hw' hw hleft' hsource).elim
  · have heq := h w w' _ R _ R' hw hw' hsource hsource'
    rw [List.append_cancel_left heq]

theorem behind_self (L : Text) : Behind L L := ⟨[], L, rfl, List.suffix_refl _, Or.inl rfl⟩

/-- What stands in front of a shielded word keeps its end, up to a marker. -/
theorem Behind.cut {w L : Text} {c : Cut Char} (hw : Shields redactedMarker w)
    (h : ∀ L' R', c.source = L' ++ w ++ R' → Behind L L') :
    ∀ L' R', c.result redactedMarker = L' ++ w ++ R' → Behind L L' := by
  intro L' R' ht
  rcases occurrence_before hw ht with ⟨x, -, hsource⟩ | ⟨x, rfl, hsource⟩
  · exact h L' _ hsource
  have hmarker : redactedMarker ≠ [] := by decide
  have hlast : redactedMarker.getLast? = some ']' := by decide
  obtain ⟨P, Q, hPQ, hQ, hend⟩ := h _ R' hsource
  rcases List.append_eq_append_iff.mp hPQ with ⟨z, hP, hx⟩ | ⟨z, hbefore, hQz⟩
  · -- the marker lies before the end that was kept
    refine ⟨c.left ++ redactedMarker ++ z, Q, by rw [hx]; simp only [List.append_assoc], hQ,
      Or.inr ?_⟩
    by_cases hz : z = []
    · rw [hz, List.append_nil, List.getLast?_append_of_ne_nil _ hmarker, hlast]
    · rw [List.getLast?_append_of_ne_nil _ hz]
      rw [hP, List.getLast?_append_of_ne_nil _ hz] at hend
      exact hend.resolve_left fun hnil => hz (List.append_eq_nil_iff.mp hnil).2
  · refine ⟨c.left ++ redactedMarker, x, rfl, ?_, Or.inr ?_⟩
    · exact (hQz ▸ List.suffix_append z x).trans hQ
    · rw [List.getLast?_append_of_ne_nil _ hmarker, hlast]

/-- A word without a closing bracket that ends in the lead stood so before. -/
theorem Behind.endsInLead {L lead L' s u : Text} (h : Behind L L') (hclose : ']' ∉ s) (hne : u ≠ [])
    (hu : u <+: lead) (hs : s <:+ L' ++ u) : EndsInLead L lead s := by
  obtain ⟨P, Q, rfl, ⟨z, rfl⟩, hend⟩ := h
  refine ⟨u, hne, hu, ?_⟩
  have hQ : s <:+ Q ++ u := by
    rw [List.append_assoc] at hs
    rcases List.suffix_or_suffix_of_suffix hs (List.suffix_append P (Q ++ u)) with hs' | ⟨y, hy⟩
    · exact hs'
    · by_cases hnil : y = []
      · rw [hnil, List.nil_append] at hy
        rw [hy]
      · -- the word would reach over the bracket
        rw [← hy] at hs
        obtain ⟨x, hx⟩ := hs
        rw [← List.append_assoc, List.append_cancel_right_eq] at hx
        rw [← hx, List.getLast?_append_of_ne_nil _ hnil] at hend
        have hlast := hend.resolve_left fun h => hnil (List.append_eq_nil_iff.mp h).2
        refine absurd ?_ hclose
        rw [← hy]
        exact List.mem_append_left _ (List.mem_of_getLast? hlast)
  exact hQ.trans (by rw [List.append_assoc]; exact List.suffix_append z _)

/-- A block that ends before the body ends with its footer. -/
theorem KeySpan.footer {label body L' R' u v : Text} {c : Cut Char} (h : KeySpan label c)
    (hbody : body ≠ []) (hspan : c.left ++ c.span = L' ++ u)
    (hright : c.right = v ++ (body ++ R')) :
    endHeader label <:+ c.span ∧ endHeader label <:+ L' ++ u := by
  rcases h.ends with ⟨hend, -⟩ | ⟨-, hnil⟩
  · exact ⟨hend, hspan ▸ hend.trans (List.suffix_append ..)⟩
  · rw [hright] at hnil
    exact absurd (List.append_eq_nil_iff.mp (List.append_eq_nil_iff.mp hnil).2).1 hbody

namespace Redactor

variable {R : Redactor} {text : Text}

/-! ## What stays gone -/

/-- What does not have the middle in it ends before it. -/
theorem prefix_of_split {α : Type*} {A B before after : List α} {x : α}
    (h : A ++ B = before ++ x :: after) (hx : x ∉ A) : A <+: before := by
  rcases List.append_eq_append_iff.mp h with ⟨z, hbefore, -⟩ | ⟨z, hA, hz⟩
  · exact ⟨z, hbefore.symm⟩
  · cases z with
    | nil => rw [hA, List.append_nil]
    | cons y z =>
        obtain ⟨rfl, -⟩ := List.cons.inj hz
        exact absurd (by rw [hA]; simp) hx

/-- What hits in turn is a secret or a block, or comes behind all blocks; and a
token comes behind the bearer runs as well. -/
theorem InTurn.cases {done before : List Target} {back : Set Target} {x : Target} {c : Cut Char}
    (h : R.InTurn done back before x c) :
    c.span ∈ R.secrets ∨ (∃ label ∈ privateKeyLabels, KeySpan label c) ∨
      (∀ label ∈ privateKeyLabels, .privateKey label ∈ before) ∧
        (BearerSpan c.left c.span c.right ∧ x = .bearer ∨
          .bearer ∈ before ∧ ∃ lead ∈ tokenPrefixes, TokenSpan lead c.left c.span c.right) := by
  obtain ⟨after, horder⟩ := h.order
  have hx : x ∈ R.targets := by rw [horder]; simp
  have hhits := h.hits
  rw [targets, patternTargets, List.mem_append, List.mem_append, List.mem_cons, List.mem_map,
    List.mem_map, List.mem_map] at hx
  rcases hx with ⟨s, hs, rfl⟩ | ⟨label, hlabel, rfl⟩ | rfl | ⟨lead, hlead, rfl⟩
  · exact Or.inl (hhits ▸ hs)
  · exact Or.inr (Or.inl ⟨label, hlabel, hhits⟩)
  · rw [targets, patternTargets, ← List.append_assoc] at horder
    have hpre := prefix_of_split horder (by simp)
    refine Or.inr (Or.inr ⟨fun label hlabel => hpre.subset ?_, Or.inl ⟨hhits, rfl⟩⟩)
    exact List.mem_append_right _ (List.mem_map_of_mem hlabel)
  · rw [targets, patternTargets, ← List.append_assoc, List.append_cons] at horder
    have hpre := prefix_of_split horder (by simp)
    refine Or.inr (Or.inr ⟨fun label hlabel => hpre.subset ?_, Or.inr ⟨hpre.subset (by simp),
      lead, hlead, hhits⟩⟩)
    exact List.mem_append_left _ (List.mem_append_right _ (List.mem_map_of_mem hlabel))

/-- Behind the bearer runs only tokens are left to take. -/
theorem InTurn.token_of_bearer {done before : List Target} {back : Set Target} {x : Target}
    {c : Cut Char} (h : R.InTurn done back before x c) (hbearer : .bearer ∈ before) :
    ∃ lead ∈ tokenPrefixes, TokenSpan lead c.left c.span c.right := by
  obtain ⟨after, horder⟩ := h.order
  have hhits := h.hits
  have hno : Target.bearer ∉ R.secrets.map .secret ++ privateKeyLabels.map .privateKey := by simp
  rw [targets, patternTargets, ← List.append_assoc] at horder
  rcases List.append_eq_append_iff.mp horder with ⟨z, hbefore, hz⟩ | ⟨z, hbefore, -⟩
  · cases z with
    | nil =>
        rw [hbefore, List.append_nil] at hbearer
        exact absurd hbearer hno
    | cons y z =>
        have hx : x ∈ tokenPrefixes.map .token := by
          rw [(List.cons.inj hz).2]
          simp
        obtain ⟨lead, hlead, rfl⟩ := List.mem_map.mp hx
        exact ⟨lead, hlead, hhits⟩
  · rw [hbefore] at hno
    exact absurd (List.mem_append_left _ hbearer) hno

/-- Where its header is there is a block. -/
theorem stands_privateKey {label t : Text} (h : beginHeader label <:+: t) :
    R.StandsIn t (.privateKey label) := by
  cases hnext : (privateKeyScanner label).next t with
  | none =>
      have hnone := splitFirst_eq_none (Option.map_eq_none_iff.mp hnext)
      rw [List.map_id] at hnone
      exact absurd h hnone
  | some hit =>
      obtain ⟨skip, span, rest⟩ := hit
      refine ⟨⟨skip, span, rest⟩, ((privateKeyScanner label).next_append hnext).symm,
        keySpan_of_hit hnext, ?_⟩
      have hlt := privateKeyScanner_shrinks label R.replacement_length _ _ _ _ hnext
      rintro heq
      rw [show span = R.replacement from heq] at hlt
      exact Nat.lt_irrefl _ hlt

/-- And where a block is there is its header. -/
theorem header_of_stands {label t : Text} (h : R.StandsIn t (.privateKey label)) :
    beginHeader label <:+: t := by
  obtain ⟨c, rfl, hspan, -⟩ := h
  obtain ⟨z, hz⟩ := KeySpan.source hspan
  exact ⟨c.left, z, hz.symm⟩

/-- In marker mode no open run is left where every bearer word is covered. -/
theorem stands_bearer (hr : R.replacement = redactedMarker) {t : Text} :
    R.StandsIn t .bearer ↔ ¬BearersCovered t := by
  constructor
  · rintro ⟨c, rfl, hspan, hopen⟩ hcovered
    obtain ⟨a, m, -, hm, hsource⟩ := BearerSpan.source hspan
    obtain ⟨-, hne, hrun⟩ := hspan
    rcases hcovered a m (c.span ++ c.right) hsource hm with hbreaks | ⟨z, hz, hbreaks⟩
    · rw [takeWhile_of_breaks hbreaks] at hrun
      exact hne hrun.symm
    · rw [hz, List.takeWhile_append_of_pos marker_run, takeWhile_of_breaks hbreaks,
        List.append_nil] at hrun
      rw [hr] at hopen
      exact hopen hrun.symm
  · intro hnot
    by_contra hstands
    refine hnot fun L w z ht hw => ?_
    have happ : (z.takeWhile fun c => !isWhitespace c) ++ (z.dropWhile fun c => !isWhitespace c)
        = z := List.takeWhile_append_dropWhile
    by_cases hnil : (z.takeWhile fun c => !isWhitespace c) = []
    · refine Or.inl ?_
      rw [hnil, List.nil_append] at happ
      rw [← happ]
      exact breaks_dropWhile z
    · by_cases hopen : (z.takeWhile fun c => !isWhitespace c) = R.replacement
      · refine Or.inr ⟨_, ?_, breaks_dropWhile z⟩
        rw [← hr, ← hopen, happ]
      · refine absurd ⟨⟨L ++ w, z.takeWhile fun c => !isWhitespace c,
          z.dropWhile fun c => !isWhitespace c⟩, ?_, ⟨⟨L, w, rfl, hw⟩, hnil, ?_⟩, hopen⟩ hstands
        · rw [Cut.source, List.append_assoc, happ, ht]
        · rw [happ]

/-- In marker mode neither a key block nor a bearer run comes back. -/
theorem Comes.not_back (hr : R.replacement = redactedMarker) {done : List Target}
    {back : Set Target} {t : Text} (h : R.Comes text done back t) :
    (∀ label ∈ privateKeyLabels, .privateKey label ∉ back) ∧ .bearer ∉ back := by
  induction h with
  | start => exact ⟨fun _ _ h => h, fun h => h⟩
  | @next done before back x c _ hturn ih =>
      refine ⟨fun label hlabel => ?_, ?_⟩
      · rintro (hin | ⟨hbefore, hstands⟩)
        · exact ih.1 label hlabel hin
        · obtain ⟨hopen, hclose, hmarker⟩ := header_free label hlabel
          have hgone := fun hin => hturn.gone _ hbefore (ih.1 label hlabel) (stands_privateKey hin)
          have hin := header_of_stands hstands
          rw [hr] at hin
          exact Cut.avoids (shields_marker hopen hclose hmarker).not_meets hgone hin
      · rintro (hin | ⟨hbefore, hstands⟩)
        · exact ih.2 hin
        · obtain ⟨lead, hlead, hspan⟩ := hturn.token_of_bearer hbefore
          have hgone := hturn.gone _ hbefore ih.2
          rw [stands_bearer hr, not_not] at hgone
          rw [stands_bearer hr, hr] at hstands
          obtain ⟨rest, hrest⟩ := hspan.starts
          have hne := tokenPrefixes_ne_nil lead hlead
          -- a token starts with its lead, so its replacement keeps the words covered
          refine hstands (bearers_covered_cut ?_ (fun d hd => lead_head lead hlead d ?_) hgone)
          · rw [← hrest]
            exact List.append_ne_nil_of_left_ne_nil hne rest
          · rwa [← hrest, List.head?_append_of_ne_nil _ hne] at hd

/-! ## Where the lead is kept -/

variable {L lead body : Text}

/-- No hit that replacing in turn comes to ends in the lead of the body, and no
replacement spells the body anew. -/
def LeadKept (R : Redactor) (text lead body : Text) : Prop :=
  ∀ before x c, R.Replaces text before x c →
    ¬StripsLead lead body c ∧ ¬Meets R.replacement body c

/-- What keeps a lead in front of its body, in any text that replacing in turn
comes to. -/
structure Guarded (L lead body t : Text) (back : Set Target) : Prop where
  headers : ∀ label ∈ privateKeyLabels, .privateKey label ∉ back
  bearers : .bearer ∉ back
  alone : OnlyLead lead t
  behind : ∀ L' R', t = L' ++ (lead ++ body) ++ R' → Behind L L'

/-- In marker mode the guard is up in all that the text comes to. -/
theorem Comes.guarded (hr : R.replacement = redactedMarker)
    (hshields : Shields redactedMarker (lead ++ body)) (halone : OnlyLead lead text)
    (hbehind : ∀ L' R', text = L' ++ (lead ++ body) ++ R' → Behind L L') {done : List Target}
    {back : Set Target} {t : Text} (h : R.Comes text done back t) :
    Guarded L lead body t back := by
  refine ⟨(h.not_back hr).1, (h.not_back hr).2, ?_, ?_⟩
  · induction h with
    | start => exact halone
    | next _ _ ih => exact hr ▸ ih.cut
  · induction h with
    | start => exact hbehind
    | next _ _ ih => exact hr ▸ Behind.cut hshields ih

/-- The parts of a lead that a cut ends in. -/
theorem strips_split {c : Cut Char} (h : StripsLead lead body c) :
    ∃ L' R' u v, lead = u ++ v ∧ u ≠ [] ∧ c.left ++ c.span = L' ++ u ∧
      c.right = v ++ (body ++ R') ∧ c.source = L' ++ (lead ++ body) ++ R' := by
  obtain ⟨L', R', hsource, hstart, hstop⟩ := h
  obtain ⟨u, hu⟩ : L' <+: c.left ++ c.span := by
    refine List.prefix_of_prefix_length_le ⟨lead ++ body ++ R', ?_⟩ ⟨c.right, rfl⟩ (by omega)
    rw [show c.left ++ c.span ++ c.right = _ from hsource]
    simp only [List.append_assoc]
  have hrest : u ++ c.right = lead ++ (body ++ R') := by
    rw [Cut.source, ← hu] at hsource
    simpa only [List.append_assoc, List.append_cancel_left_eq] using hsource
  obtain ⟨v, rfl⟩ : u <+: lead := by
    refine List.prefix_of_prefix_length_le ⟨c.right, rfl⟩ ⟨body ++ R', hrest.symm⟩ ?_
    rw [← hu, List.length_append, List.length_append] at hstop
    omega
  refine ⟨L', R', u, v, rfl, ?_, hu.symm, ?_, ?_⟩
  · rintro rfl
    rw [← hu, List.append_nil] at hstart
    exact Nat.lt_irrefl _ hstart
  · rw [List.append_assoc] at hrest
    exact List.append_cancel_left hrest
  · rw [hsource]
    simp only [List.append_assoc]

/-! ## No credential ends in a lead -/

theorem tokenChar_not_space {d : Char} (h : isTokenChar d = true) : isWhitespace d = false :=
  tokenChar_avoids (by decide) h

section Strips

variable {L' R' u v : Text} {c : Cut Char}

/-- What follows the cut starts with a letter of the lead or of the body. -/
theorem head_of_rest {p : Char → Bool} (hbody : body ≠ []) (hlead : ∀ d ∈ u ++ v, p d = true)
    (hchars : ∀ d ∈ body, p d = true) (hright : c.right = v ++ (body ++ R')) :
    ∃ d ∈ c.right.head?, p d = true := by
  cases v with
  | nil =>
      obtain ⟨d, body, rfl⟩ := List.exists_cons_of_ne_nil hbody
      exact ⟨d, by rw [hright]; rfl, hchars d (List.mem_cons_self ..)⟩
  | cons d v => exact ⟨d, by rw [hright]; rfl, hlead d (by simp)⟩

/-- A footer does not end in a lead whose first letter it does not have. -/
theorem footer_apart {label : Text} (hlead : lead = u ++ v) (hu : u ≠ [])
    (hhead : ∀ d ∈ lead.head?, d ∉ endHeader label) (hd : 'D' ∉ lead) :
    ¬endHeader label <:+ L' ++ u := by
  intro hsuf
  rw [hlead] at hhead hd
  rcases List.suffix_or_suffix_of_suffix hsuf (List.suffix_append L' u) with hin | hin
  · have hmem : 'D' ∈ endHeader label := List.mem_append_left _ (List.mem_append_left _ (by decide))
    exact hd (List.mem_append_left _ (hin.subset hmem))
  · obtain ⟨d, u, rfl⟩ := List.exists_cons_of_ne_nil hu
    exact hhead d (by simp) (hin.subset (List.mem_cons_self ..))

/-- No token starts with a letter of a footer. -/
theorem head_not_mem_footer {label : Text} (hlead : lead ∈ tokenPrefixes)
    (hlabel : label ∈ privateKeyLabels) : ∀ d ∈ lead.head?, d ∉ endHeader label := by
  have hall : ∀ lead ∈ tokenPrefixes, (lead.head?.all fun d =>
      privateKeyLabels.all fun label => !(endHeader label).contains d) = true := by decide
  intro d hd
  have hlead := hall lead hlead
  rw [hd, Option.all_some] at hlead
  simpa using List.all_eq_true.mp hlead label hlabel

end Strips

variable {done before : List Target} {back : Set Target} {x : Target} {c : Cut Char}

/-- Where a token stands, what ends in its lead is a secret. -/
theorem InTurn.strips_token (h : R.InTurn done back before x c) (hlead : lead ∈ tokenPrefixes)
    (hchars : ∀ d ∈ body, isTokenChar d = true) (hbody : body ≠ [])
    (hstrips : StripsLead lead body c) : c.span ∈ R.secrets := by
  obtain ⟨L', R', u, v, rfl, hu, hspan, hright, -⟩ := strips_split hstrips
  obtain ⟨d, hd, htoken⟩ := head_of_rest hbody (tokenPrefixes_chars _ hlead) hchars hright
  rcases h.cases with hs | ⟨label, hlabel, hkey⟩ | ⟨-, ⟨hbearer, -⟩ | ⟨-, other, -, hother⟩⟩
  · exact hs
  · have hletter : ∀ lead ∈ tokenPrefixes, 'D' ∉ lead := by decide
    exact absurd (hkey.footer hbody hspan hright).2
      (footer_apart rfl hu (head_not_mem_footer hlead hlabel) (hletter _ hlead))
  · have hspace := hbearer.breaks d hd
    rw [tokenChar_not_space htoken] at hspace
    cases hspace
  · rw [hother.breaks d hd] at htoken
    cases htoken

/-- Where a key block stands alone, what ends in its header is a secret. -/
theorem InTurn.strips_privateKey {label : Text} (h : R.InTurn done back before x c)
    (hguard : Guarded L (beginHeader label) body c.source back) (hlabel : label ∈ privateKeyLabels)
    (hbody : body ≠ []) (hstrips : StripsLead (beginHeader label) body c) :
    c.span ∈ R.secrets := by
  obtain ⟨L', R', u, v, hlead, hu, hspan, hright, hsource⟩ := strips_split hstrips
  have hstands : R.StandsIn c.source (.privateKey label) :=
    stands_privateKey ⟨L', body ++ R', by rw [hsource]; simp only [List.append_assoc]⟩
  rcases h.cases with hs | ⟨other, hother, hkey⟩ | ⟨hbefore, -⟩
  · exact hs
  · -- the block is the one of this header, and too short for a footer
    obtain ⟨z, hz⟩ := hkey.source
    have hL : c.left = L' := hguard.alone _ _ c.left z L' (body ++ R')
      (.headers hlabel hother) (.headers hlabel hlabel) hz
      (by rw [hsource]; simp only [List.append_assoc])
    rw [hL, List.append_cancel_left_eq] at hspan
    have hfoot : ∀ label ∈ privateKeyLabels, ∀ other ∈ privateKeyLabels,
        ¬endHeader other <:+: beginHeader label := by decide
    refine absurd ?_ (hfoot label hlabel other hother)
    rw [hlead, ← hspan]
    exact (hkey.footer hbody (by rw [hL, hspan]) hright).1.isInfix.trans (List.infix_append' [] _ _)
  · exact absurd hstands (h.gone _ (hbefore label hlabel) (hguard.headers label hlabel))

/-- Where a bearer word stands alone, what ends in it is a secret. -/
theorem InTurn.strips_bearer (hr : R.replacement = redactedMarker)
    (h : R.InTurn done back before x c) (hguard : Guarded L lead body c.source back)
    (hword : lead.map Char.toLower = bearer) (hopen : '[' ∉ body)
    (hchars : ∀ d ∈ body, isWhitespace d = false) (hbody : body ≠ [])
    (hstrips : StripsLead lead body c) : c.span ∈ R.secrets := by
  obtain ⟨L', R', u, v, hlead, hu, hspan, hright, hsource⟩ := strips_split hstrips
  rcases h.cases with hs | ⟨label, hlabel, hkey⟩ | ⟨-, ⟨hbearer, -⟩ | ⟨hbefore, -⟩⟩
  · exact hs
  · have hfoot : ∀ label ∈ privateKeyLabels, ∀ d ∈ endHeader label, d.toLower ≠ 'b' := by
      have hall : (privateKeyLabels.all fun label =>
          (endHeader label).all fun d => d.toLower != 'b') = true := by decide
      simpa using hall
    refine absurd (hkey.footer hbody hspan hright).2 (footer_apart hlead hu (fun d hd hin => ?_)
      (not_mem_of_lower_bearer hword (by decide)))
    have hhead : (lead.map Char.toLower).head? = some d.toLower := by
      rw [List.head?_map, hd]
      rfl
    rw [hword, show bearer.head? = some 'b' by decide] at hhead
    exact hfoot label hlabel d hin (Option.some.inj hhead).symm
  · -- the run is behind this word, and does not end in it
    obtain ⟨a, m, hleft, hm, hrun⟩ := hbearer.source
    have ha : a = L' := hguard.alone _ _ a (c.span ++ c.right) L' (body ++ R')
      (.words hword hm) (.words hword hword) hrun
      (by rw [hsource]; simp only [List.append_assoc])
    have hpos := List.length_pos_iff.mpr hbearer.nonempty
    have hlen := congrArg List.length hspan
    have hlenlead := congrArg List.length hlead
    rw [hleft, ha] at hlen
    simp only [List.length_append, length_of_lower_bearer hm, length_of_lower_bearer hword]
      at hlen hlenlead
    omega
  · -- its run is open, and tokens wait for it
    have hcovered := h.gone _ hbefore hguard.bearers
    rw [stands_bearer hr, not_not] at hcovered
    obtain ⟨d, body, rfl⟩ := List.exists_cons_of_ne_nil hbody
    rcases hcovered L' lead (d :: body ++ R') (by rw [hsource]; simp) hword with
      hbreaks | ⟨z, hz, -⟩
    · have := breaks_cons.mp hbreaks
      rw [hchars d (List.mem_cons_self ..)] at this
      cases this
    · obtain rfl : d = '[' := (List.cons.inj hz).1
      exact absurd (List.mem_cons_self ..) hopen

/-- In marker mode the lead of a credential is kept if it is the only one of its
kind and no secret stands in the text so that it ends in the lead. -/
theorem leadKept_of_onlyLead (hr : R.replacement = redactedMarker) {rest : Text}
    (hcred : Credential lead body rest) (hopen : '[' ∉ body) (hclose : ']' ∉ body)
    (honce : ∀ L' R', L ++ lead ++ body ++ rest = L' ++ body ++ R' → L' = L ++ lead)
    (halone : OnlyLead lead (L ++ lead ++ body ++ rest))
    (hends : ∀ s ∈ R.secrets, ']' ∉ s ∧ ¬EndsInLead L lead s) :
    R.LeadKept (L ++ lead ++ body ++ rest) lead body := by
  have hlen := hcred.body_length
  have hbody := hcred.body_ne_nil
  have hten : redactedMarker.length = 10 := by decide
  obtain ⟨hleadopen, hleadclose⟩ := hcred.lead_free
  have hshields : Shields redactedMarker (lead ++ body) := by
    refine shields_marker (by simp [hleadopen, hopen]) (by simp [hleadclose, hclose]) fun hin => ?_
    have := hin.length_le
    rw [List.length_append] at this
    omega
  have hmeets : ∀ c, ¬Meets R.replacement body c := by
    intro c
    rw [hr]
    refine (shields_marker hopen hclose fun hin => ?_).not_meets
    have := hin.length_le
    omega
  have hbehind : ∀ L' R', L ++ lead ++ body ++ rest = L' ++ (lead ++ body) ++ R' → Behind L L' := by
    intro L' R' heq
    rw [← List.append_assoc L'] at heq
    rw [List.append_cancel_right (honce _ _ heq)]
    exact behind_self L
  rintro before x c ⟨done, back, hcomes, hturn⟩
  refine ⟨fun hstrips => ?_, hmeets c⟩
  have hguard := hcomes.guarded hr hshields halone hbehind
  have hs : c.span ∈ R.secrets := by
    cases hcred with
    | token hlead hchars => exact hturn.strips_token hlead hchars hbody hstrips
    | privateKey hlabel =>
        exact hturn.strips_privateKey hguard hlabel hbody hstrips
    | bearer hword hchars =>
        exact hturn.strips_bearer hr hguard hword hopen hchars hbody hstrips
  obtain ⟨L', R', u, v, hlead, hu, hspan, -, hsource⟩ := strips_split hstrips
  refine (hends _ hs).2 ((hguard.behind L' R' hsource).endsInLead (hends _ hs).1 hu ?_ ?_)
  · rw [hlead]
    exact List.prefix_append u v
  · rw [← hspan]
    exact List.suffix_append ..

end Redactor

end PeakcodeDaemon
