import PeakcodeDaemon.Lib.Json

/-!
# No two values print alike

Compact JSON is unambiguous, and not only as a whole text: a printed value
can be told from whatever follows it, up to the delimiter that ends a
number (`Delimits`).

- **characters** (`readChar_escape`): an escape is read back, whatever
  comes after it, so two strings that print alike are equal
  (`escapeAll_inj`, `quote_inj`);
- **numbers** (`number_prefix`): the one part of the grammar without an
  end of its own; a literal goes on only with characters that delimit
  nothing (`Number.tail_not_delimiter`);
- **values** (`render_inj`): the first character tells what kind of value
  it is (`Lead`), and the induction is over the value with what follows
  it left arbitrary. `render_injective` is the case of nothing.
-/

namespace Json

/-! ## Characters and strings -/

/-- The character that comes first in a string literal, and the rest of it. -/
def readChar : List Char → Option (Char × List Char)
  | '\\' :: 'u' :: '0' :: '0' :: a :: b :: t =>
      (hexValue a).bind fun high => (hexValue b).map fun low => (Char.ofNat (high * 16 + low), t)
  | '\\' :: c :: t => (unescape c).map fun d => (d, t)
  | c :: t => some (c, t)
  | [] => none

/-- Reading undoes escaping, whatever follows. -/
theorem readChar_escape (c : Char) (t : List Char) : readChar (escape c ++ t) = some (c, t) := by
  have hchar : ∀ {n : Nat}, c.toNat = n → Char.ofNat n = c := by
    rintro n rfl
    exact Char.ofNat_toNat c
  by_cases hs : special c = true
  · by_cases hq : c = '"'
    · subst hq; rfl
    by_cases hb : c = '\\'
    · subst hb; rfl
    have hn : c.toNat < 32 := by simpa [special, hq, hb] using hs
    rw [escape, if_neg hq, if_neg hb]
    split
    · rename_i h
      rw [← hchar h]
      rfl
    split
    · rename_i h
      rw [← hchar h]
      rfl
    split
    · rename_i h
      rw [← hchar h]
      rfl
    split
    · rename_i h
      rw [← hchar h]
      rfl
    split
    · rename_i h
      rw [← hchar h]
      rfl
    have hhigh := hexValue_hexDigit (c.toNat / 16) (by omega)
    have hlow := hexValue_hexDigit (c.toNat % 16) (by omega)
    have hsum : c.toNat / 16 * 16 + c.toNat % 16 = c.toNat := by omega
    simp only [List.cons_append, List.nil_append, readChar, hhigh, hlow, Option.bind_some,
      Option.map_some, hsum, Char.ofNat_toNat]
  · have hs : special c = false := by simpa using hs
    rw [escape_of_not_special hs]
    have hb : c ≠ '\\' := by
      rintro rfl
      exact absurd hs (by decide)
    rw [List.singleton_append, readChar]
    · exact fun _ _ _ hc => absurd hc hb
    · exact fun _ _ hc => absurd hc hb

/-- So an escaped character can be told from what follows it. -/
theorem escape_inj {c d : Char} {t u : List Char} (h : escape c ++ t = escape d ++ u) :
    c = d ∧ t = u := by
  have hread := congrArg readChar h
  rw [readChar_escape, readChar_escape] at hread
  exact Prod.mk.inj (Option.some.inj hread)

/-- No character is written so that the literal ends with it. -/
theorem escape_ne_quote (c : Char) (t u : List Char) : escape c ++ t ≠ '"' :: u := by
  intro h
  have hread := congrArg readChar h
  have hquote : readChar ('"' :: u) = some ('"', u) := rfl
  rw [readChar_escape, hquote] at hread
  obtain ⟨rfl, rfl⟩ := Prod.mk.inj (Option.some.inj hread)
  cases h

/-- The first quote that is not escaped ends a literal. -/
theorem escapeAll_inj : ∀ {s s' t u : List Char},
    escapeAll s ++ '"' :: t = escapeAll s' ++ '"' :: u → s = s' ∧ t = u
  | [], [], _, _, h => ⟨rfl, (List.cons.inj h).2⟩
  | [], d :: s', t, u, h => by
      rw [escapeAll_cons, List.append_assoc] at h
      exact absurd h.symm (escape_ne_quote _ _ _)
  | c :: s, [], t, u, h => by
      rw [escapeAll_cons, List.append_assoc] at h
      exact absurd h (escape_ne_quote _ _ _)
  | c :: s, d :: s', t, u, h => by
      rw [escapeAll_cons, escapeAll_cons, List.append_assoc, List.append_assoc] at h
      obtain ⟨rfl, hrest⟩ := escape_inj h
      obtain ⟨rfl, rfl⟩ := escapeAll_inj hrest
      exact ⟨rfl, rfl⟩

theorem quote_inj {s s' t u : List Char} (h : quote s ++ t = quote s' ++ u) : s = s' ∧ t = u := by
  simp only [quote, List.cons_append, List.append_assoc, List.nil_append] at h
  exact escapeAll_inj (List.cons.inj h).2

/-! ## Numbers -/

/-- What follows a value: nothing, or what ends it. -/
def Delimits (t : List Char) : Prop := ∀ c ∈ t.head?, c = ',' ∨ c = ']' ∨ c = '}'

theorem NumState.next_delimiter {c : Char} (hc : c = ',' ∨ c = ']' ∨ c = '}') (s : NumState) :
    s.next c = none := by
  rcases hc with rfl | rfl | rfl <;> cases s <;> rfl

/-- No number has a delimiter in it. -/
theorem NumState.foldlM_delimiter {c : Char} (hc : c = ',' ∨ c = ']' ∨ c = '}') :
    ∀ {t : List Char} {s s' : NumState}, t.foldlM NumState.next s = some s' → c ∉ t
  | [], _, _, _ => List.not_mem_nil
  | d :: t, s, s', h => by
      obtain ⟨s₁, hd, ht⟩ := Option.bind_eq_some_iff.mp h
      refine List.not_mem_cons_of_ne_of_not_mem ?_ (foldlM_delimiter hc ht)
      rintro rfl
      rw [NumState.next_delimiter hc] at hd
      cases hd

theorem Number.text_ne_nil (n : Number) : n.text ≠ [] := by
  obtain ⟨t, s, hend, -⟩ := n
  rintro rfl
  cases hend

/-- A number goes on only with characters that delimit nothing. -/
theorem Number.tail_not_delimiter (n : Number) {c : Char} (hc : c = ',' ∨ c = ']' ∨ c = '}') :
    c ∉ n.text.tail := by
  obtain ⟨t, s, hend, -⟩ := n
  cases t with
  | nil => cases hend
  | cons d t =>
      obtain ⟨s₀, -, hrest⟩ := Option.bind_eq_some_iff.mp hend
      exact NumState.foldlM_delimiter hc hrest

/-- A number that goes on where another one ends does not go on at all. -/
theorem number_prefix {n m : Number} {x t u : List Char} (hm : m.text = n.text ++ x)
    (ht : t = x ++ u) (hdelimits : Delimits t) : x = [] := by
  cases x with
  | nil => rfl
  | cons c x =>
      have hc := hdelimits c (by rw [ht]; rfl)
      refine absurd ?_ (m.tail_not_delimiter hc)
      rw [hm, List.tail_append_of_ne_nil n.text_ne_nil]
      exact List.mem_append_right _ (List.mem_cons_self ..)

/-- A number can be told from what follows it. -/
theorem number_inj {n m : Number} {t u : List Char} (ht : Delimits t) (hu : Delimits u)
    (h : n.text ++ t = m.text ++ u) : n = m ∧ t = u := by
  have hext : ∀ {n m : Number}, n.text = m.text → n = m := by
    rintro ⟨t, ht⟩ ⟨u, hu⟩ rfl
    rfl
  rcases List.append_eq_append_iff.mp h with ⟨x, hm, htu⟩ | ⟨x, hn, hut⟩
  · obtain rfl := number_prefix hm htu ht
    exact ⟨hext (by rw [hm, List.append_nil]), htu⟩
  · obtain rfl := number_prefix hn hut hu
    exact ⟨hext (by rw [hn, List.append_nil]), hut.symm⟩

theorem Number.ofNat_injective : Function.Injective Number.ofNat := by
  intro n m h
  have hdigits : Nat.toDigits 10 n = Nat.toDigits 10 m := congrArg Number.text h
  calc
    n = Nat.ofDigitChars 10 (Nat.toDigits 10 n) 0 := Nat.ofDigitChars_ten_toDigits.symm
    _ = Nat.ofDigitChars 10 (Nat.toDigits 10 m) 0 := by rw [hdigits]
    _ = m := Nat.ofDigitChars_ten_toDigits

/-! ## Values -/

/-- The values that a first character may belong to. -/
inductive Lead where
  | null
  | bool (b : Bool)
  | num | str | arr | obj | other
deriving DecidableEq

def leadOf (c : Char) : Lead :=
  if c = 'n' then .null else if c = 't' then .bool true
  else if c = 'f' then .bool false
  else if c = '"' then .str else if c = '[' then .arr else if c = '{' then .obj
  else if c = '-' ∨ c.isDigit then .num else .other

def Value.lead : Value → Lead
  | .null => .null
  | .bool b => .bool b
  | .num _ => .num
  | .str _ => .str
  | .arr _ => .arr
  | .obj _ => .obj

/-- What a number may start with. -/
theorem leadOf_start {c : Char} {s : NumState} (h : NumState.start c = some s) :
    leadOf c = .num := by
  have hnumber : c = '-' ∨ c.isDigit = true := by
    unfold NumState.start at h
    split at h
    · exact Or.inl ‹_›
    · split at h
      · rename_i hc
        rw [hc]
        exact Or.inr (by decide)
      · split at h
        · exact Or.inr ‹_›
        · cases h
  have hne : ∀ d : Char, d ≠ '-' → d.isDigit = false → c ≠ d := by
    rintro d hminus hdigit rfl
    rcases hnumber with hc | hc
    · exact hminus hc
    · cases hc.symm.trans hdigit
  rw [leadOf, if_neg (hne 'n' (by decide) (by decide)), if_neg (hne 't' (by decide) (by decide)),
    if_neg (hne 'f' (by decide) (by decide)), if_neg (hne '"' (by decide) (by decide)),
    if_neg (hne '[' (by decide) (by decide)), if_neg (hne '{' (by decide) (by decide)),
    if_pos hnumber]

/-- The first character of a value says what kind it is. -/
theorem render_head (v : Value) : ∃ c t, render v = c :: t ∧ leadOf c = v.lead := by
  cases v with
  | num n =>
      obtain ⟨t, s, hend, -⟩ := n
      cases t with
      | nil => cases hend
      | cons c t =>
          obtain ⟨s₀, hstart, -⟩ := Option.bind_eq_some_iff.mp hend
          exact ⟨c, t, rfl, leadOf_start hstart⟩
  | bool b => cases b <;> exact ⟨_, _, rfl, by decide⟩
  | null | str s | arr items | obj fields => exact ⟨_, _, rfl, rfl⟩

/-- Values that start the same text are of one kind. -/
theorem lead_eq {v w : Value} {t u : List Char} (h : render v ++ t = render w ++ u) :
    v.lead = w.lead := by
  obtain ⟨c, x, hv, hc⟩ := render_head v
  obtain ⟨d, y, hw, hd⟩ := render_head w
  rw [hv, hw] at h
  rw [← hc, ← hd, (List.cons.inj h).1]

/-- No value starts with this character. -/
theorem render_ne {c : Char} (hc : leadOf c = .other) (v : Value) (t u : List Char) :
    render v ++ t ≠ c :: u := by
  intro h
  obtain ⟨d, x, hv, hd⟩ := render_head v
  rw [hv] at h
  obtain rfl := (List.cons.inj h).1
  rw [hd] at hc
  cases v <;> cases hc

theorem delimits_cons {c : Char} (hc : c = ',' ∨ c = ']' ∨ c = '}') (t : List Char) :
    Delimits (c :: t) := by
  intro d hd
  obtain rfl := Option.some.inj hd
  exact hc

theorem delimits_comma (t : List Char) : Delimits (',' :: t) := delimits_cons (Or.inl rfl) t

theorem delimits_bracket (t : List Char) : Delimits (']' :: t) :=
  delimits_cons (Or.inr (Or.inl rfl)) t

theorem delimits_brace (t : List Char) : Delimits ('}' :: t) :=
  delimits_cons (Or.inr (Or.inr rfl)) t

/-- What is printed of the items after the first. -/
def moreItems : List Value → List Char
  | [] => []
  | w :: rest => ',' :: renderItems (w :: rest)

theorem renderItems_cons (v : Value) (rest : List Value) :
    renderItems (v :: rest) = render v ++ moreItems rest := by
  cases rest with
  | nil => simp [renderItems, moreItems]
  | cons w rest => rfl

/-- What is printed of the fields after the first. -/
def moreFields : List (List Char × Value) → List Char
  | [] => []
  | f :: rest => ',' :: renderFields (f :: rest)

theorem renderFields_cons (k : List Char) (v : Value) (rest : List (List Char × Value)) :
    renderFields ((k, v) :: rest) = quote k ++ ':' :: (render v ++ moreFields rest) := by
  cases rest with
  | nil => simp [renderFields, moreFields]
  | cons f rest => rfl

theorem delimits_moreItems (rest : List Value) (t : List Char) :
    Delimits (moreItems rest ++ ']' :: t) := by
  cases rest with
  | nil => exact delimits_bracket t
  | cons w rest => exact delimits_comma _

theorem delimits_moreFields (rest : List (List Char × Value)) (t : List Char) :
    Delimits (moreFields rest ++ '}' :: t) := by
  cases rest with
  | nil => exact delimits_brace t
  | cons f rest => exact delimits_comma _

/-- Of the two literals each starts with its own letter. -/
theorem bool_inj {b b' : Bool} {t u : List Char}
    (h : render (.bool b) ++ t = render (.bool b') ++ u) : b = b' ∧ t = u := by
  obtain rfl : b = b' := Lead.bool.inj (lead_eq h)
  exact ⟨rfl, List.append_cancel_left h⟩

mutual

/-- A printed value can be told from what follows it. -/
theorem render_inj : ∀ (v w : Value) {t u : List Char}, Delimits t → Delimits u →
    render v ++ t = render w ++ u → v = w ∧ t = u
  | .null, w, t, u, ht, hu, h => by
      have hlead := lead_eq h
      cases w with
      | null => exact ⟨rfl, List.append_cancel_left h⟩
      | _ => cases hlead
  | .bool b, w, t, u, ht, hu, h => by
      have hlead := lead_eq h
      cases w with
      | bool b' =>
          obtain ⟨rfl, htu⟩ := bool_inj h
          exact ⟨rfl, htu⟩
      | _ => cases hlead
  | .num n, w, t, u, ht, hu, h => by
      have hlead := lead_eq h
      cases w with
      | num m =>
          obtain ⟨rfl, htu⟩ := number_inj ht hu h
          exact ⟨rfl, htu⟩
      | _ => cases hlead
  | .str s, w, t, u, ht, hu, h => by
      have hlead := lead_eq h
      cases w with
      | str s' =>
          obtain ⟨rfl, htu⟩ := quote_inj h
          exact ⟨rfl, htu⟩
      | _ => cases hlead
  | .arr vs, w, t, u, ht, hu, h => by
      have hlead := lead_eq h
      cases w with
      | arr ws =>
          simp only [render, List.cons_append, List.append_assoc, List.nil_append] at h
          obtain ⟨rfl, htu⟩ := renderItems_inj vs ws (List.cons.inj h).2
          exact ⟨rfl, htu⟩
      | _ => cases hlead
  | .obj fs, w, t, u, ht, hu, h => by
      have hlead := lead_eq h
      cases w with
      | obj gs =>
          simp only [render, List.cons_append, List.append_assoc, List.nil_append] at h
          obtain ⟨rfl, htu⟩ := renderFields_inj fs gs (List.cons.inj h).2
          exact ⟨rfl, htu⟩
      | _ => cases hlead

/-- The items of an array end at its bracket. -/
theorem renderItems_inj : ∀ (vs ws : List Value) {t u : List Char},
    renderItems vs ++ ']' :: t = renderItems ws ++ ']' :: u → vs = ws ∧ t = u
  | [], [], t, u, h => ⟨rfl, (List.cons.inj h).2⟩
  | [], w :: ws, t, u, h => by
      rw [renderItems_cons, List.append_assoc] at h
      exact absurd h.symm (render_ne rfl w _ _)
  | v :: vs, [], t, u, h => by
      rw [renderItems_cons, List.append_assoc] at h
      exact absurd h (render_ne rfl v _ _)
  | v :: vs, w :: ws, t, u, h => by
      rw [renderItems_cons, renderItems_cons, List.append_assoc, List.append_assoc] at h
      obtain ⟨rfl, hrest⟩ := render_inj v w (delimits_moreItems _ _) (delimits_moreItems _ _) h
      cases vs with
      | nil =>
          cases ws with
          | nil => exact ⟨rfl, (List.cons.inj hrest).2⟩
          | cons w' ws => exact absurd (List.cons.inj hrest).1 (by decide)
      | cons v' vs =>
          cases ws with
          | nil => exact absurd (List.cons.inj hrest).1 (by decide)
          | cons w' ws =>
              obtain ⟨hvs, htu⟩ := renderItems_inj (v' :: vs) (w' :: ws) (List.cons.inj hrest).2
              exact ⟨by rw [hvs], htu⟩

/-- The fields of an object end at its brace. -/
theorem renderFields_inj : ∀ (fs gs : List (List Char × Value)) {t u : List Char},
    renderFields fs ++ '}' :: t = renderFields gs ++ '}' :: u → fs = gs ∧ t = u
  | [], [], t, u, h => ⟨rfl, (List.cons.inj h).2⟩
  | [], (k, w) :: gs, t, u, h => by
      rw [renderFields_cons] at h
      exact absurd (List.cons.inj h).1 (by decide)
  | (k, v) :: fs, [], t, u, h => by
      rw [renderFields_cons] at h
      exact absurd (List.cons.inj h).1 (by decide)
  | (k, v) :: fs, (k', w) :: gs, t, u, h => by
      rw [renderFields_cons, renderFields_cons, List.append_assoc, List.append_assoc] at h
      obtain ⟨rfl, hvalue⟩ := quote_inj h
      rw [List.cons_append, List.cons_append, List.append_assoc, List.append_assoc] at hvalue
      obtain ⟨rfl, hrest⟩ :=
        render_inj v w (delimits_moreFields _ _) (delimits_moreFields _ _)
          (List.cons.inj hvalue).2
      cases fs with
      | nil =>
          cases gs with
          | nil => exact ⟨rfl, (List.cons.inj hrest).2⟩
          | cons g gs => exact absurd (List.cons.inj hrest).1 (by decide)
      | cons f fs =>
          cases gs with
          | nil => exact absurd (List.cons.inj hrest).1 (by decide)
          | cons g gs =>
              obtain ⟨hfs, htu⟩ := renderFields_inj (f :: fs) (g :: gs) (List.cons.inj hrest).2
              exact ⟨by rw [hfs], htu⟩

end

/-- Different values print differently. -/
theorem render_injective : Function.Injective render := by
  intro v w h
  have hnil : Delimits [] := fun c hc => by cases hc
  exact (render_inj v w hnil hnil (by rw [h])).1

end Json
