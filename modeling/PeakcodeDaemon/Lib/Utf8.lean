import PeakcodeDaemon.Lib.Splice

/-!
# Byte offsets into UTF-8 text

A text is its list of characters; an offset into it counts UTF-8 bytes,
as string slices do. A slice at an offset that is past the end or inside
a character is `none` (the panic), so whatever these operations return
was cut at character boundaries (`sliceFrom_eq_some`, `sliceTo_eq_some`,
`replaceRange_eq_some`).

- **slices** at a seam of a text whose two parts are known are those parts
  (`sliceFrom_append`, `sliceTo_append`, `replaceRange_append`);
- **searches** give the offset of the leftmost match (`find_eq`), also when
  the search runs on a copy that is case-folded letter by letter and keeps
  every character's size (`find_map`);
- **bytes** (`encode_injective`): no two texts have the same encoding.
-/

namespace Utf8

open Splice

/-- Length in bytes. -/
def byteLen : List Char → Nat
  | [] => 0
  | c :: t => c.utf8Size + byteLen t

@[simp] theorem byteLen_nil : byteLen [] = 0 := rfl

@[simp] theorem byteLen_cons (c : Char) (t : List Char) :
    byteLen (c :: t) = c.utf8Size + byteLen t := rfl

@[simp] theorem byteLen_append : ∀ a b : List Char, byteLen (a ++ b) = byteLen a + byteLen b
  | [], b => (Nat.zero_add _).symm
  | c :: a, b => by
      rw [List.cons_append, byteLen_cons, byteLen_cons, byteLen_append a b, Nat.add_assoc]

theorem length_le_byteLen : ∀ t : List Char, t.length ≤ byteLen t
  | [] => Nat.le_refl _
  | c :: t => by
      have hc := Char.utf8Size_pos c
      have ht := length_le_byteLen t
      simp only [List.length_cons, byteLen_cons]
      omega

theorem byteLen_pos {t : List Char} (h : t ≠ []) : 0 < byteLen t :=
  Nat.lt_of_lt_of_le (List.length_pos_iff.mpr h) (length_le_byteLen t)

theorem byteLen_eq_length : ∀ {t : List Char}, (∀ c ∈ t, c.toNat ≤ 127) → byteLen t = t.length
  | [], _ => rfl
  | c :: t, h => by
      have hc : c.utf8Size = 1 :=
        Char.utf8Size_eq_one_iff.mpr (UInt32.le_iff_toNat_le.mpr (h c (List.mem_cons_self ..)))
      have ht := byteLen_eq_length fun d hd => h d (List.mem_cons_of_mem _ hd)
      rw [byteLen_cons, hc, ht, List.length_cons, Nat.add_comm]

/-- A text contains no other text that is as long. -/
theorem eq_of_infix_of_byteLen_le {s t : List Char} (h : s <:+: t) (hle : byteLen t ≤ byteLen s) :
    s = t := by
  obtain ⟨u, v, rfl⟩ := h
  have hu := length_le_byteLen u
  have hv := length_le_byteLen v
  simp only [byteLen_append] at hle
  obtain rfl : u = [] := List.eq_nil_of_length_eq_zero (by omega)
  obtain rfl : v = [] := List.eq_nil_of_length_eq_zero (by omega)
  simp

/-- A letter-wise map that keeps every character's size keeps offsets. -/
theorem byteLen_map {f : Char → Char} (hf : ∀ c, (f c).utf8Size = c.utf8Size) :
    ∀ t : List Char, byteLen (t.map f) = byteLen t
  | [] => rfl
  | c :: t => by rw [List.map_cons, byteLen_cons, byteLen_cons, hf c, byteLen_map hf t]

/-! ## Slices -/

/-- `text[i..]`. -/
def sliceFrom : List Char → Nat → Option (List Char)
  | t, 0 => some t
  | [], _ + 1 => none
  | c :: t, n + 1 =>
      if c.utf8Size ≤ n + 1 then sliceFrom t (n + 1 - c.utf8Size) else none

/-- `text[..i]`. -/
def sliceTo : List Char → Nat → Option (List Char)
  | _, 0 => some []
  | [], _ + 1 => none
  | c :: t, n + 1 =>
      if c.utf8Size ≤ n + 1 then (sliceTo t (n + 1 - c.utf8Size)).map (c :: ·)
      else none

@[simp] theorem sliceFrom_zero (t : List Char) : sliceFrom t 0 = some t := by
  cases t <;> rfl

@[simp] theorem sliceTo_zero (t : List Char) : sliceTo t 0 = some [] := by
  cases t <;> rfl

@[simp] theorem sliceFrom_append : ∀ a b : List Char,
    sliceFrom (a ++ b) (byteLen a) = some b
  | [], b => sliceFrom_zero b
  | c :: a, b => by
      obtain ⟨n, hn⟩ := Nat.exists_eq_succ_of_ne_zero
        (Nat.pos_iff_ne_zero.mp (byteLen_pos (List.cons_ne_nil c a)))
      rw [hn, List.cons_append, sliceFrom]
      rw [byteLen_cons] at hn
      rw [if_pos (by omega), show n + 1 - c.utf8Size = byteLen a by omega,
        sliceFrom_append a b]

@[simp] theorem sliceTo_append : ∀ a b : List Char,
    sliceTo (a ++ b) (byteLen a) = some a
  | [], b => sliceTo_zero b
  | c :: a, b => by
      obtain ⟨n, hn⟩ := Nat.exists_eq_succ_of_ne_zero
        (Nat.pos_iff_ne_zero.mp (byteLen_pos (List.cons_ne_nil c a)))
      rw [hn, List.cons_append, sliceTo]
      rw [byteLen_cons] at hn
      rw [if_pos (by omega), show n + 1 - c.utf8Size = byteLen a by omega,
        sliceTo_append a b]
      rfl

/-- `text.replace_range(start..stop, r)`. -/
def replaceRange (t : List Char) (start stop : Nat) (r : List Char) : Option (List Char) :=
  if start ≤ stop then do
    let left ← sliceTo t start
    let right ← sliceFrom t stop
    some (left ++ r ++ right)
  else none

theorem replaceRange_append (a g b r : List Char) :
    replaceRange (a ++ g ++ b) (byteLen a) (byteLen a + byteLen g) r
      = some (a ++ r ++ b) := by
  have hleft : sliceTo (a ++ g ++ b) (byteLen a) = some a := by
    rw [List.append_assoc]
    exact sliceTo_append a (g ++ b)
  have hright : sliceFrom (a ++ g ++ b) (byteLen a + byteLen g) = some b := by
    rw [← byteLen_append]
    exact sliceFrom_append (a ++ g) b
  rw [replaceRange, if_pos (Nat.le_add_right ..), hleft, hright]
  rfl

/-! ## Boundaries -/

/-- The offset is at the start of a character, or at the end of the text. -/
def IsBoundary (t : List Char) (i : Nat) : Prop := ∃ a b, t = a ++ b ∧ byteLen a = i

theorem IsBoundary.le {t : List Char} {i : Nat} (h : IsBoundary t i) : i ≤ byteLen t := by
  obtain ⟨a, b, rfl, rfl⟩ := h
  rw [byteLen_append]
  exact Nat.le_add_right ..

/-- A slice that does not panic was cut at a boundary. -/
theorem sliceFrom_eq_some : ∀ {t b : List Char} {i : Nat}, sliceFrom t i = some b →
    ∃ a, t = a ++ b ∧ byteLen a = i
  | t, b, 0, h => by
      rw [sliceFrom_zero] at h
      exact ⟨[], Option.some.inj h, rfl⟩
  | [], b, i + 1, h => by
      rw [sliceFrom] at h
      cases h
  | c :: t, b, i + 1, h => by
      rw [sliceFrom] at h
      split at h
      · rename_i hle
        obtain ⟨a, rfl, ha⟩ := sliceFrom_eq_some h
        exact ⟨c :: a, rfl, by rw [byteLen_cons]; omega⟩
      · cases h

theorem sliceTo_eq_some : ∀ {t a : List Char} {i : Nat}, sliceTo t i = some a →
    ∃ b, t = a ++ b ∧ byteLen a = i
  | t, a, 0, h => by
      rw [sliceTo_zero] at h
      obtain rfl := Option.some.inj h
      exact ⟨t, rfl, rfl⟩
  | [], a, i + 1, h => by
      rw [sliceTo] at h
      cases h
  | c :: t, a, i + 1, h => by
      rw [sliceTo] at h
      split at h
      · rename_i hle
        obtain ⟨a', hrec, rfl⟩ := Option.map_eq_some_iff.mp h
        obtain ⟨b, rfl, ha⟩ := sliceTo_eq_some hrec
        exact ⟨b, rfl, by rw [byteLen_cons]; omega⟩
      · cases h

/-- A replacement that does not panic takes out what lies between two boundaries. -/
theorem replaceRange_eq_some {t u r : List Char} {start stop : Nat}
    (h : replaceRange t start stop r = some u) :
    ∃ a g b, t = a ++ g ++ b ∧ byteLen a = start ∧ byteLen (a ++ g) = stop ∧ u = a ++ r ++ b := by
  rw [replaceRange] at h
  split at h
  · rename_i hle
    obtain ⟨a, ha, h⟩ := Option.bind_eq_some_iff.mp h
    obtain ⟨b, hb, h⟩ := Option.bind_eq_some_iff.mp h
    obtain ⟨x, hx, hstart⟩ := sliceTo_eq_some ha
    obtain ⟨y, hy, hstop⟩ := sliceFrom_eq_some hb
    obtain ⟨g, rfl⟩ : ∃ g, y = a ++ g := by
      rcases List.append_eq_append_iff.mp (hx.symm.trans hy) with ⟨g, hg, -⟩ | ⟨g, hg, -⟩
      · exact ⟨g, hg⟩
      · -- the two ends are in order, so nothing lies between them the other way
        have hlen := length_le_byteLen g
        rw [hg, byteLen_append] at hstart
        obtain rfl : g = [] := List.eq_nil_of_length_eq_zero (by omega)
        exact ⟨[], by rw [hg, List.append_nil, List.append_nil]⟩
    exact ⟨a, g, b, hy, hstart, hstop, (Option.some.inj h).symm⟩
  · cases h

/-! ## Searches -/

/-- `text.find(p)` for a string `p`. -/
def find (p : List Char) : List Char → Option Nat
  | [] => if p = [] then some 0 else none
  | c :: t => if p <+: c :: t then some 0 else (find p t).map (c.utf8Size + ·)

/-- The offset found is where the leftmost match starts, also when the
search runs on a case-folded copy. -/
theorem find_map {f : Char → Char} (hf : ∀ c, (f c).utf8Size = c.utf8Size)
    (p : List Char) : ∀ t : List Char,
    find p (t.map f) = (splitFirst f p t).map fun (a, _, _) => byteLen a
  | [] => by
      simp only [List.map_nil, find, splitFirst]
      split <;> rfl
  | c :: t => by
      by_cases hp : p <+: (c :: t).map f
      · rw [splitFirst_cons_hit hp]
        rw [List.map_cons] at hp ⊢
        rw [find, if_pos hp]
        rfl
      · rw [splitFirst_cons_miss hp]
        rw [List.map_cons] at hp ⊢
        rw [find, if_neg hp, find_map hf p t, hf c, Option.map_map, Option.map_map]
        congr 1

theorem find_eq (p t : List Char) :
    find p t = (splitFirst id p t).map fun (a, _, _) => byteLen a := by
  have h := @find_map id (fun _ => rfl) p t
  rwa [List.map_id] at h

/-- `text.find(q)` for a predicate `q`. -/
def findChar (q : Char → Bool) : List Char → Option Nat
  | [] => none
  | c :: t => if q c then some 0 else (findChar q t).map (c.utf8Size + ·)

theorem findChar_eq (q : Char → Bool) : ∀ t : List Char,
    (findChar q t).getD (byteLen t) = byteLen (t.takeWhile fun c => !q c)
  | [] => rfl
  | c :: t => by
      rw [findChar]
      cases hq : q c with
      | true => simp [hq]
      | false =>
          have ih := findChar_eq q t
          cases hf : findChar q t with
          | none => simpa [hq, hf] using ih
          | some i => simpa [hq, hf] using ih

/-! ## Bytes -/

/-- The bytes of a text. -/
def encode (t : List Char) : List UInt8 := t.flatMap String.utf8EncodeChar

theorem length_encode : ∀ t : List Char, (encode t).length = byteLen t
  | [] => rfl
  | c :: t => by
      rw [encode, List.flatMap_cons, List.length_append, String.length_utf8EncodeChar, byteLen_cons,
        ← length_encode t]
      rfl

theorem encode_injective : Function.Injective encode := by
  intro t u h
  have hbytes : t.utf8Encode = u.utf8Encode := congrArg List.toByteArray h
  have hstrings : String.ofList t = String.ofList u := by
    rwa [← String.toByteArray_inj, String.toByteArray_ofList, String.toByteArray_ofList]
  exact String.ofList_injective hstrings

/-- Bytes below 128 stand for the characters of that number. -/
theorem le_of_mem_encodeChar {n : Nat} {c : Char} (hc : n ≤ c.toNat) (hn : n ≤ 128) :
    ∀ b ∈ String.utf8EncodeChar c, n ≤ b.toNat := by
  have hbyte : ∀ v : Nat, (UInt8.ofNat v).toNat = v % 256 := fun _ => UInt8.toNat_ofNat'
  have hv : c.toNat = c.val.toNat := rfl
  intro b hb
  unfold String.utf8EncodeChar at hb
  simp only at hb
  -- one byte, or a first one from 192 on and others from 128 on
  split at hb
  · obtain rfl := List.mem_singleton.mp hb
    rw [hbyte]
    omega
  split at hb
  · simp only [List.mem_cons, List.not_mem_nil, or_false] at hb
    rcases hb with rfl | rfl <;> rw [hbyte] <;> omega
  split at hb
  · simp only [List.mem_cons, List.not_mem_nil, or_false] at hb
    rcases hb with rfl | rfl | rfl <;> rw [hbyte] <;> omega
  · simp only [List.mem_cons, List.not_mem_nil, or_false] at hb
    rcases hb with rfl | rfl | rfl | rfl <;> rw [hbyte] <;> omega

theorem le_of_mem_encode {n : Nat} {t : List Char} (ht : ∀ c ∈ t, n ≤ c.toNat) (hn : n ≤ 128) :
    ∀ b ∈ encode t, n ≤ b.toNat := by
  intro b hb
  obtain ⟨c, hc, hb⟩ := List.mem_flatMap.mp hb
  exact le_of_mem_encodeChar (ht c hc) hn b hb

end Utf8
