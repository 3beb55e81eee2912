import PeakcodeDaemon.RedactionClean

/-!
# Where the output of the bearer pass comes from

Each byte of a text that is being rewritten has come from a byte of the
input, or was inserted. The replacements a loop logs say which (`origins`),
and a byte of the input is `Carried` over if it is still among the origins
in the end.

- **adequacy** (`origins_faithful`, `Carried.byte`): the origins fit the
  output byte by byte, so what is carried over stands in it. Each cut keeps
  this (`Faithful.cut`), whatever the cuts are.
- **the log** (`redactBearerTokensLoop_log`): the replacements the loop logs
  are the cuts of the scanner, so the origins can be computed from the text.
- **exactness** (`carried_iff`): the bytes carried over are those that the
  hits of the pass skip (`Keeps`). What follows a bearer word is not among
  them, unless the word itself was replaced as the token of another one.
-/

namespace PeakcodeDaemon

open Splice Utf8 Scanner

/-! ## Tracking bytes -/

/-- What a replacement does to the origins of a text's bytes. -/
def Access.track (origins : List (Option Nat)) : Access → List (Option Nat)
  | .slice _ _ => origins
  | .replace _ start stop r =>
      origins.take start ++ List.replicate (byteLen r) none ++ origins.drop stop

/-- The bytes of a text that starts at `n`. -/
def offsets (n : Nat) (t : Text) : List (Option Nat) := (List.range' n (byteLen t)).map some

/-- The origins of the bytes of a text, after the accesses of a log. -/
def origins (text : Text) (log : List Access) : List (Option Nat) :=
  log.foldl Access.track (offsets 0 text)

/-- The replacement that makes a cut. -/
def edit (r : Text) (c : Cut Char) : Access :=
  .replace c.source (byteLen c.left) (byteLen (c.left ++ c.span)) r

theorem length_offsets (n : Nat) (t : Text) : (offsets n t).length = byteLen t := by
  simp [offsets]

theorem offsets_append (n : Nat) (a b : Text) :
    offsets n (a ++ b) = offsets n a ++ offsets (n + byteLen a) b := by
  rw [offsets, offsets, offsets, ← List.map_append, byteLen_append, List.range'_append_1]

theorem mem_offsets {n i : Nat} {t : Text} :
    some i ∈ offsets n t ↔ ∃ j, i = n + j ∧ j < byteLen t := by
  simp only [offsets, List.mem_map, Option.some.injEq, exists_eq_right, List.mem_range'_1]
  constructor
  · rintro ⟨hle, hlt⟩
    exact ⟨i - n, by omega, by omega⟩
  · rintro ⟨j, rfl, hj⟩
    omega

/-! ## Origins are true -/

/-- Every byte with an origin is the byte of the input there. -/
def Faithful (input : Text) (o : List (Option Nat)) (t : Text) : Prop :=
  o.length = byteLen t ∧ ∀ k i : Nat, o[k]? = some (some i) → (encode t)[k]? = (encode input)[i]?

theorem faithful_start (t : Text) : Faithful t (offsets 0 t) t := by
  refine ⟨length_offsets 0 t, fun k i h => ?_⟩
  rw [offsets, List.getElem?_map, Option.map_eq_some_iff] at h
  obtain ⟨j, hj, hi⟩ := h
  obtain ⟨hlt, rfl⟩ := List.getElem?_eq_some_iff.mp hj
  obtain rfl : i = k := by simpa using (Option.some.inj hi).symm
  rfl

theorem encode_append (a b : Text) : encode (a ++ b) = encode a ++ encode b := List.flatMap_append

/-- What precedes a cut keeps its origins, what follows it too, and what is
put in has none. -/
theorem Faithful.cut {input : Text} {o : List (Option Nat)} {c : Cut Char}
    (h : Faithful input o c.source) (r : Text) :
    Faithful input (Access.track o (edit r c)) (c.result r) := by
  obtain ⟨hlen, horigin⟩ := h
  simp only [Cut.source, byteLen_append] at hlen
  have hleft : (o.take (byteLen c.left)).length = byteLen c.left := by
    rw [List.length_take]
    omega
  refine ⟨?_, fun k i hk => ?_⟩
  · simp only [Access.track, edit, Cut.result, List.length_append, List.length_replicate,
      List.length_drop, hleft, byteLen_append] at hlen ⊢
    omega
  · simp only [Access.track, edit] at hk
    rw [Cut.result, encode_append, encode_append]
    by_cases hin : k < byteLen c.left
    · rw [List.append_assoc, List.getElem?_append_left (by omega),
        List.getElem?_take_of_lt hin] at hk
      rw [← horigin k i hk, Cut.source, encode_append, encode_append, List.append_assoc,
        List.append_assoc, List.getElem?_append_left (by rw [length_encode]; exact hin),
        List.getElem?_append_left (by rw [length_encode]; exact hin)]
    · by_cases hnew : k < byteLen c.left + byteLen r
      · -- an inserted byte
        rw [List.getElem?_append_left (by simp [hleft, hnew]),
          List.getElem?_append_right (by omega), List.getElem?_replicate] at hk
        split at hk
        · cases hk
        · cases hk
      · obtain ⟨d, rfl⟩ : ∃ d, k = byteLen c.left + byteLen r + d :=
          ⟨k - (byteLen c.left + byteLen r), by omega⟩
        have hinserted : (o.take (byteLen c.left) ++ List.replicate (byteLen r) none).length
            = byteLen c.left + byteLen r := by simp [hleft]
        rw [List.getElem?_append_right (by omega), hinserted, Nat.add_sub_cancel_left,
          List.getElem?_drop, byteLen_append] at hk
        have hresult : (encode c.left ++ encode r).length = byteLen c.left + byteLen r := by
          simp [length_encode]
        have hsource : (encode c.left ++ encode c.span).length
            = byteLen c.left + byteLen c.span := by simp [length_encode]
        rw [← horigin _ i hk, Cut.source, encode_append, encode_append,
          List.getElem?_append_right (by omega), List.getElem?_append_right (by omega), hresult,
          hsource, Nat.add_sub_cancel_left, Nat.add_sub_cancel_left]

theorem faithful_chain {input r t u : Text} {cs : List (Cut Char)} (h : Chain r t cs u) :
    ∀ {o : List (Option Nat)}, Faithful input o t →
      Faithful input ((cs.map (edit r)).foldl Access.track o) u := by
  induction h with
  | nil => exact fun ho => ho
  | cons hsource _ ih =>
      intro o ho
      rw [hsource] at ho
      exact ih (ho.cut r)

/-! ## The log of the loop -/

def Access.isReplace : Access → Bool
  | .slice _ _ => false
  | .replace _ _ _ _ => true

theorem foldl_track (log : List Access) (o : List (Option Nat)) :
    log.foldl Access.track o = (log.filter Access.isReplace).foldl Access.track o := by
  induction log generalizing o with
  | nil => rfl
  | cons a log ih =>
      cases a with
      | slice text start => exact ih o
      | replace text start stop r => exact ih _

/-- The replacements the loop makes are the cuts of the pass. -/
theorem redactBearerTokensLoop_log {r done t out : Text} {cs : List (Cut Char)}
    (h : bearerScanner.Scans r done t cs out) : ∀ {fuel : Nat}, t.length < fuel →
      (Traced.redactBearerTokensLoop r fuel (done ++ t) (byteLen done)).log.filter Access.isReplace
        = cs.map (edit r) := by
  induction h with
  | stop hnext =>
      intro fuel hfuel
      obtain ⟨fuel, rfl⟩ : ∃ n, fuel = n + 1 := ⟨fuel - 1, by omega⟩
      rw [Traced.redactBearerTokensLoop_stop hnext fuel]
      rfl
  | @keep done t skip rest out cs hnext _ ih =>
      intro fuel hfuel
      obtain ⟨fuel, rfl⟩ : ∃ n, fuel = n + 1 := ⟨fuel - 1, by omega⟩
      have hlt := bearerScanner.next_shorter hnext
      have hrec := ih (show rest.length < fuel by omega)
      rw [Traced.redactBearerTokensLoop_hit hnext fuel, if_pos rfl]
      exact hrec
  | @cut done t skip span rest out cs hne hnext _ ih =>
      intro fuel hfuel
      obtain ⟨fuel, rfl⟩ : ∃ n, fuel = n + 1 := ⟨fuel - 1, by omega⟩
      have hlt := bearerScanner.next_shorter hnext
      have hrec := ih (show rest.length < fuel by omega)
      have hsource : done ++ t = Cut.source ⟨done ++ skip, span, rest⟩ := by
        rw [bearerScanner.next_append hnext, Cut.source]
        simp
      rw [Traced.redactBearerTokensLoop_hit hnext fuel, if_neg hne, hsource, List.map_cons, ← hrec]
      rfl

theorem origins_eq (text r : Text) : origins text (Traced.redactBearerTokens text r).log
    = ((bearerScanner.cuts r [] text).map (edit r)).foldl Access.track (offsets 0 text) := by
  have hlog := redactBearerTokensLoop_log (bearerScanner.scans r [] text)
    (Nat.lt_succ_self text.length)
  rw [origins, foldl_track, ← hlog]
  rfl

/-- The origins are those of the output, byte by byte. -/
theorem origins_faithful (text r : Text) :
    ∃ out, redactBearerTokens text r = some out ∧
      Faithful text (origins text (Traced.redactBearerTokens text r).log) out := by
  refine ⟨_, Redactor.redactBearerTokens_eq text r, ?_⟩
  rw [origins_eq]
  exact faithful_chain (bearerScanner.scans r [] text).chain (faithful_start text)

/-! ## What is carried over -/

/-- The byte of the input at the offset `i` is carried over. -/
def Carried (text r : Text) (i : Nat) : Prop :=
  some i ∈ origins text (Traced.redactBearerTokens text r).log

instance (text r : Text) (i : Nat) : Decidable (Carried text r i) :=
  inferInstanceAs (Decidable (_ ∈ _))

/-- What is carried over is there to be read: the byte stands in the output. -/
theorem Carried.byte {text r : Text} {i : Nat} (h : Carried text r i) :
    ∃ out k, redactBearerTokens text r = some out ∧ k < byteLen out ∧
      (encode out)[k]? = (encode text)[i]? := by
  obtain ⟨out, hout, hlen, horigin⟩ := origins_faithful text r
  obtain ⟨k, hk⟩ := List.mem_iff_getElem?.mp h
  obtain ⟨hlt, -⟩ := List.getElem?_eq_some_iff.mp hk
  exact ⟨out, k, hout, hlen ▸ hlt, horigin k i hk⟩

/-! ## What the pass keeps -/

/-- The byte at this offset is among those that a hit skips, or that follow the last. -/
inductive Keeps : Text → Nat → Prop
  | stop {t : Text} {i : Nat} (h : bearerScanner.next t = none) (hi : i < byteLen t) : Keeps t i
  | skip {t skip span rest : Text} {i : Nat}
      (h : bearerScanner.next t = some (skip, span, rest)) (hi : i < byteLen skip) : Keeps t i
  | rest {t skip span rest : Text} {i : Nat}
      (h : bearerScanner.next t = some (skip, span, rest)) (hi : Keeps rest i) :
      Keeps t (byteLen skip + byteLen span + i)

theorem keeps_of_none {t : Text} {i : Nat} (h : bearerScanner.next t = none) :
    Keeps t i ↔ i < byteLen t := by
  constructor
  · intro hkeeps
    cases hkeeps with
    | stop _ hi => exact hi
    | skip h' => rw [h] at h'; cases h'
    | rest h' => rw [h] at h'; cases h'
  · exact .stop h

theorem keeps_of_hit {t skip span rest : Text} {i : Nat}
    (h : bearerScanner.next t = some (skip, span, rest)) :
    Keeps t i ↔ i < byteLen skip ∨ ∃ j, i = byteLen skip + byteLen span + j ∧ Keeps rest j := by
  constructor
  · intro hkeeps
    cases hkeeps with
    | stop h' => rw [h] at h'; cases h'
    | skip h' hi =>
        rw [h] at h'
        cases h'
        exact Or.inl hi
    | rest h' hi =>
        rw [h] at h'
        cases h'
        exact Or.inr ⟨_, rfl, hi⟩
  · rintro (hi | ⟨j, rfl, hj⟩)
    · exact .skip h hi
    · exact .rest h hj

/-- A text's bytes with a skipped part first. -/
theorem mem_kept {n i : Nat} {skip : Text} {o : List (Option Nat)} {P : Nat → Prop} {k : Nat}
    (ho : some i ∈ o ↔ ∃ j, i = n + k + j ∧ P j) :
    some i ∈ offsets n skip ++ o ↔
      ∃ j, i = n + j ∧ (j < byteLen skip ∨ ∃ j', j = k + j' ∧ P j') := by
  rw [List.mem_append, mem_offsets, ho]
  constructor
  · rintro (⟨j, rfl, hj⟩ | ⟨j, rfl, hj⟩)
    · exact ⟨j, rfl, Or.inl hj⟩
    · exact ⟨k + j, by omega, Or.inr ⟨j, rfl, hj⟩⟩
  · rintro ⟨j, rfl, hj | ⟨j', rfl, hj'⟩⟩
    · exact Or.inl ⟨j, rfl, hj⟩
    · exact Or.inr ⟨j', by omega, hj'⟩

/-- The origins left by the cuts of a pass: those of what it keeps. -/
theorem scans_origins {r done t out : Text} {cs : List (Cut Char)}
    (h : bearerScanner.Scans r done t cs out) :
    ∀ {o : List (Option Nat)} (n : Nat), o.length = byteLen done →
      ∃ o', (cs.map (edit r)).foldl Access.track (o ++ offsets n t) = o ++ o' ∧
        ∀ i, some i ∈ o' ↔ ∃ j, i = n + j ∧ Keeps t j := by
  induction h with
  | @stop done t hnext =>
      intro o n ho
      refine ⟨_, rfl, fun i => ?_⟩
      simp only [mem_offsets, keeps_of_none hnext]
  | @keep done t skip rest out cs hnext _ ih =>
      intro o n ho
      obtain ⟨o', hfold, ho'⟩ := ih (n + byteLen skip) (o := o ++ offsets n skip)
        (by simp [ho, length_offsets])
      refine ⟨offsets n skip ++ o', ?_, fun i => ?_⟩
      · rw [bearerScanner.next_append hnext, List.append_nil, offsets_append, ← List.append_assoc,
          hfold, List.append_assoc]
      · simp only [keeps_of_hit hnext, byteLen_nil, Nat.add_zero]
        exact mem_kept (ho' i)
  | @cut done t skip span rest out cs hne hnext _ ih =>
      intro o n ho
      obtain ⟨o', hfold, ho'⟩ := ih (n + (byteLen skip + byteLen span))
        (o := o ++ offsets n skip ++ List.replicate (byteLen r) none)
        (by simp [ho, length_offsets])
      have hskip : (o ++ offsets n skip).length = byteLen (done ++ skip) := by
        simp [ho, length_offsets]
      have hspan : (o ++ offsets n skip ++ offsets (n + byteLen skip) span).length
          = byteLen (done ++ skip ++ span) := by
        simp [ho, length_offsets]
      have htrack : Access.track (o ++ offsets n t) (edit r ⟨done ++ skip, span, rest⟩)
          = o ++ offsets n skip ++ List.replicate (byteLen r) none
            ++ offsets (n + (byteLen skip + byteLen span)) rest := by
        rw [bearerScanner.next_append hnext, offsets_append, offsets_append, byteLen_append, edit,
          Access.track, ← List.append_assoc, ← List.append_assoc, List.drop_left' hspan,
          List.append_assoc _ (offsets _ span), List.take_left' hskip]
      refine ⟨offsets n skip ++ (List.replicate (byteLen r) none ++ o'), ?_, fun i => ?_⟩
      · rw [List.map_cons, List.foldl_cons, htrack, hfold]
        simp only [List.append_assoc]
      · simp only [keeps_of_hit hnext]
        refine mem_kept ?_
        rw [List.mem_append, ho' i]
        exact or_iff_right fun hmem => by cases List.eq_of_mem_replicate hmem

theorem carried_iff {text r : Text} {i : Nat} : Carried text r i ↔ Keeps text i := by
  obtain ⟨o, hfold, ho⟩ := scans_origins (bearerScanner.scans r [] text) (o := []) 0 rfl
  rw [Carried, origins_eq]
  rw [List.nil_append] at hfold
  rw [hfold, List.nil_append, ho]
  simp

/-! ## Runs behind a bearer word -/

theorem isWhitespace_of_range {c : Char} (h : 33 ≤ c.toNat) (h' : c.toNat ≤ 132) :
    isWhitespace c = false := by
  simp only [isWhitespace, Bool.or_eq_false_iff, Bool.and_eq_false_iff, decide_eq_false_iff_not,
    beq_eq_false_iff_ne]
  omega

/-- Lowering the case makes no whitespace, and takes none away. -/
theorem isWhitespace_toLower (c : Char) : isWhitespace c.toLower = isWhitespace c := by
  rcases toLower_cases c with h | ⟨hge, hle, h⟩
  · rw [h]
  · rw [isWhitespace_of_range (by omega) (by omega), isWhitespace_of_range (by omega) (by omega)]

/-- The word is letters, and a space at its end. -/
theorem lower_bearer_split {w : Text} (hw : w.map Char.toLower = bearer) :
    ∃ letters space, w = letters ++ [space] ∧ (∀ d ∈ letters, isWhitespace d = false) ∧
      isWhitespace space = true := by
  have hmap : w.map isWhitespace = List.replicate 6 false ++ [true] := by
    have hlower := congrArg (List.map isWhitespace) hw
    rw [List.map_map, show isWhitespace ∘ Char.toLower = isWhitespace from
      funext isWhitespace_toLower] at hlower
    rw [hlower]
    decide
  obtain ⟨letters, last, rfl, hletters, hlast⟩ := List.map_eq_append_iff.mp hmap
  obtain ⟨space, rfl, hspace⟩ := List.map_eq_singleton_iff.mp hlast
  refine ⟨letters, space, rfl, fun d hd => ?_, hspace⟩
  exact List.eq_of_mem_replicate (hletters ▸ List.mem_map_of_mem hd)

/-- A run of non-whitespace that a bearer word leads, up to its end. -/
structure LedRun (text L w run R : Text) : Prop where
  text_eq : text = L ++ w ++ (run ++ R)
  word : w.map Char.toLower = bearer
  nonempty : run ≠ []
  chars : ∀ d ∈ run, isWhitespace d = false
  ends : Breaks R

/-- A run led by a bearer word itself ends in a bearer word that leads a run. -/
def Chained (text : Text) : Prop :=
  ∃ L w u w' c R, text = L ++ w ++ (u ++ w' ++ c :: R) ∧ w.map Char.toLower = bearer ∧
    w'.map Char.toLower = bearer ∧ (∀ d ∈ u, isWhitespace d = false) ∧ isWhitespace c = false

theorem Chained.append {t : Text} (h : Chained t) (x : Text) : Chained (x ++ t) := by
  obtain ⟨L, w, u, w', c, R, rfl, hw, hw', hu, hc⟩ := h
  exact ⟨x ++ L, w, u, w', c, R, by simp, hw, hw', hu, hc⟩

/-- Where a run ends is determined. -/
theorem run_unique {x y x' y' : Text} (hx : ∀ d ∈ x, isWhitespace d = false) (hy : Breaks y)
    (hx' : ∀ d ∈ x', isWhitespace d = false) (hy' : Breaks y') (h : x ++ y = x' ++ y') :
    x = x' ∧ y = y' := by
  have hstop : ∀ {d : Char} {z v : Text}, isWhitespace d = false → ¬Breaks (d :: z ++ v) := by
    intro d z v hd hbreaks
    rw [List.cons_append, breaks_cons, hd] at hbreaks
    cases hbreaks
  rcases List.append_eq_append_iff.mp h with ⟨z, rfl, rfl⟩ | ⟨z, rfl, rfl⟩
  · cases z with
    | nil => simp
    | cons d z => exact absurd hy (hstop (hx' d (by simp)))
  · cases z with
    | nil => simp
    | cons d z => exact absurd hy' (hstop (hx d (by simp)))

theorem bearerScanner_span {t skip span rest : Text}
    (hnext : bearerScanner.next t = some (skip, span, rest)) :
    (∀ d ∈ span, isWhitespace d = false) ∧ Breaks rest ∧
      ∃ a m, skip = a ++ m ∧ m.map Char.toLower = bearer := by
  obtain ⟨a, m, b, hsplit, rfl, rfl, rfl⟩ := bearerScanner_next hnext
  exact ⟨takeWhile_run b, breaks_dropWhile b, a, m, rfl, (splitFirst_eq_some hsplit).2⟩

/-- What a hit keeps of a led run, it keeps because the word that leads the
run was in the run behind an earlier one. -/
theorem Keeps.chained {t : Text} {i : Nat} (h : Keeps t i) : ∀ {L w run R : Text},
    LedRun t L w run R → byteLen (L ++ w) ≤ i → i < byteLen (L ++ w ++ run) → Chained t := by
  induction h with
  | stop hnext hi => exact fun hled _ _ => (bearerScanner_none hnext hled.text_eq hled.word).elim
  | @skip t skip span rest i hnext hi =>
      intro L w run R hled hle hlt
      rcases bearerScanner_word hnext hled.text_eq hled.word with
        ⟨heq, -⟩ | ⟨x, -, rfl, -⟩ | ⟨x, rfl, -⟩
      · rw [heq] at hle
        omega
      · simp only [byteLen_append] at hle
        omega
      · simp only [byteLen_append] at hle
        omega
  | @rest t skip span rest i hnext _ ih =>
      intro L w run R hled hle hlt
      obtain ⟨hspan, hrest, a, m, hskip, hm⟩ := bearerScanner_span hnext
      rcases bearerScanner_word hnext hled.text_eq hled.word with
        ⟨heq, happ⟩ | ⟨x, hx, rfl, happ⟩ | ⟨x, rfl, hrest'⟩
      · -- the run is the one that was replaced
        obtain ⟨rfl, -⟩ := run_unique hled.chars hled.ends hspan hrest happ
        rw [heq, byteLen_append] at hlt
        omega
      · obtain ⟨c, run, rfl⟩ := List.exists_cons_of_ne_nil hled.nonempty
        refine ⟨a, m, x, w, c, run ++ R, ?_, hm, hled.word, hx, hled.chars c (by simp)⟩
        rw [hled.text_eq, hskip]
        simp only [List.append_assoc, List.cons_append]
      · rw [bearerScanner.next_append hnext]
        refine Chained.append (ih ⟨hrest', hled.word, hled.nonempty, hled.chars, hled.ends⟩ ?_ ?_) _
        · simp only [byteLen_append] at hle ⊢
          omega
        · simp only [byteLen_append] at hlt ⊢
          omega

/-- A led run with a byte that is kept. -/
def Leaks (t : Text) : Prop :=
  ∃ L w run R i, LedRun t L w run R ∧ byteLen (L ++ w) ≤ i ∧ i < byteLen (L ++ w ++ run) ∧
    Keeps t i

/-- What stands behind the space of a replaced word is kept. -/
theorem keeps_second {space c : Char} {R : Text} : Keeps (space :: c :: R) (byteLen [space]) := by
  have hpos := Char.utf8Size_pos c
  cases hnext : bearerScanner.next (space :: c :: R) with
  | none =>
      refine .stop hnext ?_
      simp only [byteLen_cons, byteLen_nil]
      omega
  | some hit =>
      obtain ⟨skip, span, rest⟩ := hit
      refine .skip hnext ?_
      obtain ⟨-, -, a, m, rfl, hm⟩ := bearerScanner_span hnext
      have hlen : [space, c].length ≤ (a ++ m).length := by
        rw [List.length_append, length_of_lower_bearer hm]
        simp only [List.length_cons, List.length_nil]
        omega
      have happ := bearerScanner.next_append hnext
      rw [List.append_assoc] at happ
      obtain ⟨z, hz⟩ : [space, c] <+: a ++ m :=
        List.prefix_of_prefix_length_le (List.prefix_append _ R) ⟨_, happ.symm⟩ hlen
      rw [← hz]
      simp only [byteLen_append, byteLen_cons, byteLen_nil]
      omega

/-- The run behind a word found ends in a word of its own. -/
theorem leaks_of_hit {t skip span rest u w c R} (hnext : bearerScanner.next t
      = some (skip, span, rest)) (happ : span ++ rest = u ++ w ++ c :: R)
    (hu : ∀ d ∈ u, isWhitespace d = false) (hw : w.map Char.toLower = bearer)
    (hc : isWhitespace c = false) : Leaks t := by
  obtain ⟨letters, space, rfl, hletters, hspace⟩ := lower_bearer_split hw
  obtain ⟨hspan, hrest, -⟩ := bearerScanner_span hnext
  obtain ⟨rfl, rfl⟩ : span = u ++ letters ∧ rest = space :: c :: R := by
    refine run_unique hspan hrest (fun d hd => ?_) (breaks_cons.mpr hspace) (by rw [happ]; simp)
    rcases List.mem_append.mp hd with hd | hd
    · exact hu d hd
    · exact hletters d hd
  refine ⟨skip ++ u, letters ++ [space], (c :: R).takeWhile fun c => !isWhitespace c,
    (c :: R).dropWhile fun c => !isWhitespace c, _, ⟨?_, hw, ?_, takeWhile_run _,
      breaks_dropWhile _⟩, ?_, ?_, .rest hnext keeps_second⟩
  · rw [bearerScanner.next_append hnext, List.takeWhile_append_dropWhile]
    simp
  · rw [List.takeWhile_cons_of_pos (by simp [hc])]
    exact List.cons_ne_nil _ _
  · simp only [byteLen_append]
    omega
  · have hpos := Char.utf8Size_pos c
    rw [List.takeWhile_cons_of_pos (by simp [hc])]
    simp only [byteLen_append, byteLen_cons, byteLen_nil]
    omega

theorem Leaks.rest {t skip span rest : Text} (hnext : bearerScanner.next t
      = some (skip, span, rest)) (h : Leaks rest) : Leaks t := by
  obtain ⟨L, w, run, R, i, hled, hle, hlt, hkeeps⟩ := h
  refine ⟨skip ++ span ++ L, w, run, R, byteLen skip + byteLen span + i,
    ⟨?_, hled.word, hled.nonempty, hled.chars, hled.ends⟩, ?_, ?_, .rest hnext hkeeps⟩
  · rw [bearerScanner.next_append hnext, hled.text_eq]
    simp only [List.append_assoc]
  · simp only [byteLen_append] at hle ⊢
    omega
  · simp only [byteLen_append] at hlt ⊢
    omega

theorem leaks_of_chained (t : Text) : Chained t → Leaks t := by
  refine bearerScanner.next_induction (P := fun t => Chained t → Leaks t) ?_ ?_ t
  · rintro t hnext ⟨L, w, u, w', c, R, ht, hw, -, -, -⟩
    exact (bearerScanner_none hnext ht hw).elim
  · rintro t skip span rest hnext ih ⟨L, w, u, w', c, R, ht, hw, hw', hu, hc⟩
    rcases bearerScanner_word hnext ht hw with ⟨-, happ⟩ | ⟨x, hx, -, happ⟩ | ⟨x, -, hrest⟩
    · exact leaks_of_hit hnext happ.symm hu hw' hc
    · -- the first word is itself in a run, and what follows it is no whitespace
      obtain ⟨d, R', hd, hhead⟩ : ∃ d R', u ++ w' ++ c :: R = d :: R' ∧ isWhitespace d = false := by
        obtain ⟨letters, space, rfl, hletters, -⟩ := lower_bearer_split hw'
        cases u with
        | cons d u => exact ⟨d, _, rfl, hu d (List.mem_cons_self ..)⟩
        | nil =>
            cases letters with
            | cons d letters => exact ⟨d, _, rfl, hletters d (List.mem_cons_self ..)⟩
            | nil => cases length_of_lower_bearer hw'
      exact leaks_of_hit hnext (happ.trans (by rw [hd])) hx hw hhead
    · exact (ih ⟨x, w, u, w', c, R, hrest, hw, hw', hu, hc⟩).rest hnext

/-- Every run that a bearer word leads is removed, whatever is put in its
place, exactly when no such run itself ends in the word with another run
behind it. -/
theorem bearer_runs_removed_iff (text r : Text) :
    (∀ L w run R, LedRun text L w run R → ∀ i, byteLen (L ++ w) ≤ i →
      i < byteLen (L ++ w ++ run) → ¬Carried text r i) ↔ ¬Chained text := by
  constructor
  · intro hremoved hchained
    obtain ⟨L, w, run, R, i, hled, hle, hlt, hkeeps⟩ := leaks_of_chained text hchained
    exact hremoved L w run R hled i hle hlt (carried_iff.mpr hkeeps)
  · intro hnot L w run R hled i hle hlt hcarried
    exact hnot ((carried_iff.mp hcarried).chained hled hle hlt)

/-- The second word is the token of the first, and what follows it stays. -/
theorem bearer_run_carried :
    ¬∀ L w run R, LedRun "bearer bearer x".toList L w run R → ∀ i, byteLen (L ++ w) ≤ i →
      i < byteLen (L ++ w ++ run) → ¬Carried "bearer bearer x".toList redactedMarker i := by
  intro hremoved
  have hrun : ("x".toList.all fun d => !isWhitespace d) = true := by decide
  have hled : LedRun "bearer bearer x".toList "bearer ".toList "bearer ".toList "x".toList [] :=
    ⟨by decide, by decide, by decide, fun d hd => by simpa using List.all_eq_true.mp hrun d hd,
      by simp [Breaks]⟩
  exact hremoved _ _ _ _ hled 14 (by decide) (by decide) (by decide)

end PeakcodeDaemon
