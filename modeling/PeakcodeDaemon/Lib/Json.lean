import Mathlib.Data.List.Basic

/-!
# JSON text

Values, the compact text a serializer prints for them, and the grammar of
RFC 8259 as a pushdown automaton (`step`, `run`) that reads one character
at a time. The automaton is what makes edits to a JSON text tractable: the
text before an edit leaves it in one state, the text after depends on that
state only, so an edit keeps a text valid when it keeps the state.

- **what is printed is JSON** (`isJson_render`): by induction over the
  value, with `Reads` as the invariant: a value takes the automaton from
  where one may start to where one has ended (`Ended`), inside the same
  containers, and is read alike at both places a value may stand;
- **string literals** (`run_escapeAll`): an escaped text inside a literal
  leaves the state as it was, one character at a time (`run_escape`);
- **numbers** are kept by their literal (`Number`), which is one that the
  grammar accepts, so that nothing is said of their value;
- **one line** (`render_printable`): what is printed has no control
  character and so no line feed.
-/

namespace Json

/-! ## Numbers -/

inductive NumState where
  | minus | zero | int | point | frac | exp | expSign | expDigits
deriving DecidableEq, Repr

namespace NumState

def exponent (c : Char) : Bool := c == 'e' || c == 'E'

/-- The state behind one more character of the number. -/
def next : NumState → Char → Option NumState
  | .minus, c =>
      if c = '0' then some .zero else if c.isDigit then some .int else none
  | .zero, c =>
      if c = '.' then some .point else if exponent c then some .exp else none
  | .int, c =>
      if c.isDigit then some .int else if c = '.' then some .point
      else if exponent c then some .exp else none
  | .point, c => if c.isDigit then some .frac else none
  | .frac, c =>
      if c.isDigit then some .frac else if exponent c then some .exp else none
  | .exp, c =>
      if c = '+' ∨ c = '-' then some .expSign
      else if c.isDigit then some .expDigits else none
  | .expSign, c => if c.isDigit then some .expDigits else none
  | .expDigits, c => if c.isDigit then some .expDigits else none

/-- The literal may end here. -/
def complete : NumState → Bool
  | .zero | .int | .frac | .expDigits => true
  | _ => false

/-- A number starts with a digit or a minus sign. -/
def start (c : Char) : Option NumState :=
  if c = '-' then some .minus else if c = '0' then some .zero
  else if c.isDigit then some .int else none

end NumState

/-- The state a whole number literal ends in. -/
def numEnd : List Char → Option NumState
  | [] => none
  | c :: t => (NumState.start c).bind fun s => t.foldlM NumState.next s

/-- The text is a number of the grammar. -/
def IsNumber (t : List Char) : Prop := ∃ s, numEnd t = some s ∧ s.complete = true

/-- A number by its literal. -/
structure Number where
  text : List Char
  valid : IsNumber text

theorem NumState.foldlM_int : ∀ {t : List Char}, (∀ c ∈ t, c.isDigit) →
    t.foldlM NumState.next .int = some .int
  | [], _ => rfl
  | c :: t, h => by
      have hc : NumState.next .int c = some .int := by
        rw [NumState.next, if_pos (h c (List.mem_cons_self ..))]
      rw [List.foldlM_cons, hc]
      exact foldlM_int fun d hd => h d (List.mem_cons_of_mem _ hd)

/-- The leading digit of a positive number is not zero. -/
theorem toDigits_head {n : Nat} (hn : 0 < n) :
    ∃ c t, Nat.toDigits 10 n = c :: t ∧ c ≠ '0' := by
  induction n using Nat.strongRecOn with
  | ind n ih =>
      by_cases hlt : n < 10
      · refine ⟨n.digitChar, [], Nat.toDigits_of_lt_base hlt, ?_⟩
        simpa using Nat.pos_iff_ne_zero.mp hn
      · obtain ⟨c, t, heq, hc⟩ := ih (n / 10) (by omega) (by omega)
        refine ⟨c, t ++ [(n % 10).digitChar], ?_, hc⟩
        rw [Nat.toDigits_of_base_le (by decide) (by omega), heq]
        rfl

/-- Decimal digits are one. -/
theorem isNumber_toDigits (n : Nat) : IsNumber (Nat.toDigits 10 n) := by
  cases n with
  | zero => exact ⟨.zero, by decide, rfl⟩
  | succ n =>
      obtain ⟨c, t, heq, hc⟩ := toDigits_head (Nat.succ_pos n)
      have hdigit : ∀ d ∈ c :: t, d.isDigit := fun d hd =>
        Nat.isDigit_of_mem_toDigits (by decide) (by decide) (heq ▸ hd)
      have hstart : NumState.start c = some .int := by
        have hminus : c ≠ '-' := by
          rintro rfl
          exact absurd (hdigit '-' (List.mem_cons_self ..)) (by decide)
        rw [NumState.start, if_neg hminus, if_neg hc, if_pos (hdigit c (List.mem_cons_self ..))]
      refine ⟨.int, ?_, rfl⟩
      rw [heq, numEnd, hstart, Option.bind_some]
      exact NumState.foldlM_int fun d hd => hdigit d (List.mem_cons_of_mem _ hd)

def Number.ofNat (n : Nat) : Number := ⟨Nat.toDigits 10 n, isNumber_toDigits n⟩

/-! ## Values and their text -/

inductive Value where
  | null
  | bool (b : Bool)
  | num (n : Number)
  | str (s : List Char)
  | arr (items : List Value)
  | obj (fields : List (List Char × Value))

def hexDigit (n : Nat) : Char :=
  if n < 10 then Char.ofNat (48 + n) else Char.ofNat (87 + n)

/-- The characters no string literal holds as they are. -/
def special (c : Char) : Bool := c == '"' || c == '\\' || decide (c.toNat < 32)

/-- A character inside a string literal. -/
def escape (c : Char) : List Char :=
  if c = '"' then ['\\', '"']
  else if c = '\\' then ['\\', '\\']
  else if c.toNat = 8 then ['\\', 'b']
  else if c.toNat = 9 then ['\\', 't']
  else if c.toNat = 10 then ['\\', 'n']
  else if c.toNat = 12 then ['\\', 'f']
  else if c.toNat = 13 then ['\\', 'r']
  else if c.toNat < 32 then
    ['\\', 'u', '0', '0', hexDigit (c.toNat / 16), hexDigit (c.toNat % 16)]
  else [c]

def escapeAll (s : List Char) : List Char := s.flatMap escape

def quote (s : List Char) : List Char := '"' :: (escapeAll s ++ ['"'])

mutual

/-- Compact text, as `to_string` prints it. -/
def render : Value → List Char
  | .null => ['n', 'u', 'l', 'l']
  | .bool true => ['t', 'r', 'u', 'e']
  | .bool false => ['f', 'a', 'l', 's', 'e']
  | .num n => n.text
  | .str s => quote s
  | .arr items => '[' :: (renderItems items ++ [']'])
  | .obj fields => '{' :: (renderFields fields ++ ['}'])

def renderItems : List Value → List Char
  | [] => []
  | [v] => render v
  | v :: w :: rest => render v ++ ',' :: renderItems (w :: rest)

def renderFields : List (List Char × Value) → List Char
  | [] => []
  | [(k, v)] => quote k ++ ':' :: render v
  | (k, v) :: f :: rest => quote k ++ ':' :: (render v ++ ',' :: renderFields (f :: rest))

end

/-- Every other character is written as it is. -/
theorem escape_of_not_special {c : Char} (h : special c = false) : escape c = [c] := by
  simp only [special, Bool.or_eq_false_iff, beq_eq_false_iff_ne, decide_eq_false_iff_not] at h
  obtain ⟨⟨hq, hb⟩, hn⟩ := h
  rw [escape, if_neg hq, if_neg hb, if_neg (by omega), if_neg (by omega), if_neg (by omega),
    if_neg (by omega), if_neg (by omega), if_neg hn]

@[simp] theorem escapeAll_nil : escapeAll [] = [] := rfl

@[simp] theorem escapeAll_cons (c : Char) (s : List Char) :
    escapeAll (c :: s) = escape c ++ escapeAll s := rfl

@[simp] theorem escapeAll_append (s t : List Char) :
    escapeAll (s ++ t) = escapeAll s ++ escapeAll t := by
  simp [escapeAll]

/-- A text without special characters is written as it is. -/
theorem escapeAll_of_not_special : ∀ {s : List Char},
    (∀ c ∈ s, special c = false) → escapeAll s = s
  | [], _ => rfl
  | c :: s, h => by
      rw [escapeAll_cons, escape_of_not_special (h c (List.mem_cons_self ..)),
        escapeAll_of_not_special fun d hd => h d (List.mem_cons_of_mem _ hd)]
      rfl

/-- An escape starts with a backslash. -/
theorem backslash_mem_escape {c : Char} (h : special c = true) : '\\' ∈ escape c := by
  by_cases hq : c = '"'
  · subst hq; decide
  by_cases hb : c = '\\'
  · subst hb; decide
  have hn : c.toNat < 32 := by simpa [special, hq, hb] using h
  rw [escape, if_neg hq, if_neg hb]
  repeat' split
  all_goals simp

/-- The characters that escapes are written with. -/
def escapeLetters : List Char :=
  ['\\', '"', 'b', 't', 'n', 'f', 'r', 'u', '0', '1', '2', '3', '4', '5', '6', '7', '8', '9', 'a',
    'c', 'd', 'e']

theorem hexDigit_mem : ∀ n < 16, hexDigit n ∈ escapeLetters := by decide

/-- An escape is written with letters of its own, so no character shows in it by
accident. -/
theorem escape_subset {c : Char} (h : special c = true) : escape c ⊆ escapeLetters := by
  by_cases hq : c = '"'
  · subst hq
    simp [escape, escapeLetters]
  by_cases hb : c = '\\'
  · subst hb
    simp [escape, escapeLetters]
  have hn : c.toNat < 32 := by simpa [special, hq, hb] using h
  rw [escape, if_neg hq, if_neg hb]
  repeat' (split; · simp [escapeLetters])
  have hhigh := hexDigit_mem (c.toNat / 16) (by omega)
  have hlow := hexDigit_mem (c.toNat % 16) (by omega)
  simp only [List.cons_subset, hhigh, hlow]
  simp [escapeLetters]

/-! ## The automaton -/

/-- Where inside an escape sequence a string literal is. A `\u` escape
keeps the digits read, their value, and the high surrogate before it. -/
inductive Esc where
  | none
  | backslash
  | hex (digits value : Nat) (high : Option Nat)
  | low (high : Nat)
  | lowU (high : Nat)
deriving DecidableEq, Repr

inductive Mode where
  | value
  | itemOrEnd
  | keyOrEnd
  | key
  | colon
  | after
  | str (isKey : Bool) (esc : Esc)
  | num (s : NumState)
  | lit (rest : List Char)
deriving DecidableEq, Repr

inductive Frame where
  | arr | obj
deriving DecidableEq, Repr

/-- A state: what may come next, inside which containers. -/
abbrev State := Mode × List Frame

def isWs (c : Char) : Bool := c == ' ' || c == '\t' || c == '\n' || c == '\r'

def hexValue (c : Char) : Option Nat :=
  if c.isDigit then some (c.toNat - 48)
  else if 'a' ≤ c ∧ c ≤ 'f' then some (c.toNat - 87)
  else if 'A' ≤ c ∧ c ≤ 'F' then some (c.toNat - 55)
  else none

def isHigh (n : Nat) : Bool := decide (0xD800 ≤ n) && decide (n < 0xDC00)

def isLow (n : Nat) : Bool := decide (0xDC00 ≤ n) && decide (n < 0xE000)

/-- The character a one-letter escape stands for. -/
def unescape (c : Char) : Option Char :=
  if c = '"' then some '"' else if c = '\\' then some '\\' else if c = '/' then some '/'
  else if c = 'b' then some (Char.ofNat 8) else if c = 't' then some (Char.ofNat 9)
  else if c = 'n' then some (Char.ofNat 10) else if c = 'f' then some (Char.ofNat 12)
  else if c = 'r' then some (Char.ofNat 13) else none

/-- A value starts with its first character. -/
def startValue (st : List Frame) (c : Char) : Option State :=
  if c = '"' then some (.str false .none, st)
  else if c = '[' then some (.itemOrEnd, .arr :: st)
  else if c = '{' then some (.keyOrEnd, .obj :: st)
  else if c = 'n' then some (.lit ['u', 'l', 'l'], st)
  else if c = 't' then some (.lit ['r', 'u', 'e'], st)
  else if c = 'f' then some (.lit ['a', 'l', 's', 'e'], st)
  else (NumState.start c).map fun s => (.num s, st)

/-- Behind a value comes a comma, or the end of what it is in. -/
def afterValue (st : List Frame) (c : Char) : Option State :=
  if isWs c then some (.after, st)
  else match st with
    | .arr :: st' =>
        if c = ',' then some (.value, .arr :: st')
        else if c = ']' then some (.after, st') else none
    | .obj :: st' =>
        if c = ',' then some (.key, .obj :: st')
        else if c = '}' then some (.after, st') else none
    | [] => none

/-- One character of a `\u` escape. -/
def hexStep (n v : Nat) (high : Option Nat) (c : Char) : Option Esc :=
  (hexValue c).bind fun d =>
    if n < 3 then some (.hex (n + 1) (v * 16 + d) high)
    else match high with
      | Option.none =>
          if isHigh (v * 16 + d) then some (.low (v * 16 + d))
          else if isLow (v * 16 + d) then Option.none else some .none
      | some _ => if isLow (v * 16 + d) then some .none else Option.none

def stringStep (isKey : Bool) (esc : Esc) (c : Char) : Option Mode :=
  match esc with
  | .none =>
      if c = '"' then some (if isKey then .colon else .after)
      else if c = '\\' then some (.str isKey .backslash)
      else if c.toNat < 32 then Option.none else some (.str isKey .none)
  | .backslash =>
      if c = 'u' then some (.str isKey (.hex 0 0 Option.none))
      else if (unescape c).isSome then some (.str isKey .none) else Option.none
  | .hex n v high => (hexStep n v high c).map (.str isKey)
  | .low h => if c = '\\' then some (.str isKey (.lowU h)) else Option.none
  | .lowU h => if c = 'u' then some (.str isKey (.hex 0 0 (some h))) else Option.none

def step : State → Char → Option State
  | (.value, st), c => if isWs c then some (.value, st) else startValue st c
  | (.itemOrEnd, st), c =>
      if isWs c then some (.itemOrEnd, st)
      else if c = ']' then some (.after, st.tail) else startValue st c
  | (.keyOrEnd, st), c =>
      if isWs c then some (.keyOrEnd, st)
      else if c = '}' then some (.after, st.tail)
      else if c = '"' then some (.str true .none, st) else none
  | (.key, st), c =>
      if isWs c then some (.key, st)
      else if c = '"' then some (.str true .none, st) else none
  | (.colon, st), c =>
      if isWs c then some (.colon, st) else if c = ':' then some (.value, st) else none
  | (.after, st), c => afterValue st c
  | (.str isKey esc, st), c => (stringStep isKey esc c).map fun m => (m, st)
  | (.num s, st), c =>
      match s.next c with
      | some s' => some (.num s', st)
      | none => if s.complete then afterValue st c else none
  | (.lit rest, st), c =>
      match rest with
      | d :: rest' =>
          if c = d then some (if rest'.isEmpty then .after else .lit rest', st) else none
      | [] => none

def run (q : State) (t : List Char) : Option State := t.foldlM step q

/-- All that was opened is closed. -/
def accepting : State → Bool
  | (.after, []) => true
  | (.num s, []) => s.complete
  | _ => false

/-- The text is one JSON value, with whitespace around it allowed. -/
def IsJson (t : List Char) : Prop :=
  ∃ q, run (.value, []) t = some q ∧ accepting q = true

instance (t : List Char) : Decidable (IsJson t) :=
  match h : run (.value, []) t with
  | some q =>
      if ha : accepting q = true then isTrue ⟨q, h, ha⟩
      else isFalse fun ⟨_, h', ha'⟩ => ha (by
        rw [h] at h'
        exact Option.some.inj h' ▸ ha')
  | none => isFalse fun ⟨_, h', _⟩ => by rw [h] at h'; cases h'

@[simp] theorem run_nil (q : State) : run q [] = some q := rfl

@[simp] theorem run_cons (q : State) (c : Char) (t : List Char) :
    run q (c :: t) = (step q c).bind fun q' => run q' t := by
  simp [run, List.foldlM_cons]

/-- A text is read piece by piece. -/
theorem run_append (q : State) (t u : List Char) :
    run q (t ++ u) = (run q t).bind fun q' => run q' u := by
  simp [run, List.foldlM_append]

/-! ## What the serializer prints is JSON -/

theorem hexValue_hexDigit : ∀ n < 16, hexValue (hexDigit n) = some n := by decide

/-- A `\u` escape below the surrogates is read as one character. -/
theorem run_hex (isKey : Bool) (st : List Frame) {c₁ c₂ c₃ c₄ : Char} {d₁ d₂ d₃ d₄ : Nat}
    (h₁ : hexValue c₁ = some d₁) (h₂ : hexValue c₂ = some d₂) (h₃ : hexValue c₃ = some d₃)
    (h₄ : hexValue c₄ = some d₄) (h : ((d₁ * 16 + d₂) * 16 + d₃) * 16 + d₄ < 0xD800) :
    run (.str isKey (.hex 0 0 none), st) [c₁, c₂, c₃, c₄] = some (.str isKey .none, st) := by
  have hhigh : isHigh (((d₁ * 16 + d₂) * 16 + d₃) * 16 + d₄) = false := by
    simp [isHigh]; omega
  have hlow : isLow (((d₁ * 16 + d₂) * 16 + d₃) * 16 + d₄) = false := by
    simp [isLow]; omega
  simp [step, stringStep, hexStep, h₁, h₂, h₃, h₄, hhigh, hlow]

/-- A character read inside a string literal leaves the state where it was. -/
theorem run_escape (isKey : Bool) (st : List Frame) (c : Char) :
    run (.str isKey .none, st) (escape c) = some (.str isKey .none, st) := by
  by_cases hs : special c = true
  · by_cases hq : c = '"'
    · subst hq; rfl
    by_cases hb : c = '\\'
    · subst hb; rfl
    have hn : c.toNat < 32 := by simpa [special, hq, hb] using hs
    rw [escape, if_neg hq, if_neg hb]
    repeat' (split; · rfl)
    have h0 : hexValue '0' = some 0 := by decide
    have hhi := hexValue_hexDigit (c.toNat / 16) (by omega)
    have hlo := hexValue_hexDigit (c.toNat % 16) (by omega)
    exact run_hex isKey st h0 h0 hhi hlo (by omega)
  · have hs : special c = false := by simpa using hs
    rw [escape_of_not_special hs]
    simp only [special, Bool.or_eq_false_iff, beq_eq_false_iff_ne,
      decide_eq_false_iff_not] at hs
    obtain ⟨⟨hq, hb⟩, hn⟩ := hs
    simp [step, stringStep, hq, hb, hn]

/-- So does a whole text. -/
theorem run_escapeAll (isKey : Bool) (st : List Frame) : ∀ s : List Char,
    run (.str isKey .none, st) (escapeAll s) = some (.str isKey .none, st)
  | [] => rfl
  | c :: s => by
      rw [escapeAll_cons, run_append, run_escape, Option.bind_some, run_escapeAll isKey st s]

/-- The states a complete value can end in; they read on as `after` does. -/
def Ended (st : List Frame) (q : State) : Prop :=
  q = (.after, st) ∨ ∃ s : NumState, s.complete = true ∧ q = (.num s, st)

/-- Where a value has ended, a delimiter is read as one. -/
theorem Ended.step_eq {st : List Frame} {q : State} (h : Ended st q) {c : Char}
    (hc : c = ',' ∨ c = ']' ∨ c = '}') : step q c = afterValue st c := by
  rcases h with rfl | ⟨s, hs, rfl⟩
  · rfl
  · have hnext : s.next c = none := by
      rcases hc with rfl | rfl | rfl <;> cases s <;> rfl
    simp [step, hnext, hs]

/-- Where a value has ended and nothing is open, the text is over. -/
theorem Ended.accepting {q : State} (h : Ended [] q) : accepting q = true := by
  rcases h with rfl | ⟨s, hs, rfl⟩
  · rfl
  · exact hs

/-- The digits of a number are read by the grammar of numbers. -/
theorem run_num_foldl (st : List Frame) : ∀ (t : List Char) (s s' : NumState),
    t.foldlM NumState.next s = some s' → run (.num s, st) t = some (.num s', st)
  | [], s, s', h => by
      obtain rfl : s = s' := by simpa using h
      rfl
  | c :: t, s, s', h => by
      rw [List.foldlM_cons] at h
      obtain ⟨s₁, hs₁, hrest⟩ := Option.bind_eq_some_iff.mp h
      rw [run_cons]
      simp only [step, hs₁, Option.bind_some]
      exact run_num_foldl st t s₁ s' hrest

/-- What starts a value starts it also right after an opening bracket. -/
theorem step_value_of_start {c : Char} {st : List Frame} (hc : (startValue st c).isSome) :
    step (.value, st) c = startValue st c ∧ step (.itemOrEnd, st) c = startValue st c := by
  have hws : isWs c = false := by
    rw [Bool.eq_false_iff]
    intro hws
    have : c = ' ' ∨ c = '\t' ∨ c = '\n' ∨ c = '\r' := by
      simpa [isWs, or_assoc] using hws
    rcases this with rfl | rfl | rfl | rfl <;> simp [startValue, NumState.start] at hc
  have hend : c ≠ ']' := by
    rintro rfl
    simp [startValue, NumState.start] at hc
  simp [step, hws, hend]

/-- A value is read the same way at both places a value may stand. -/
def Reads (t : List Char) (st : List Frame) : Prop :=
  ∃ q, run (.value, st) t = some q ∧ run (.itemOrEnd, st) t = some q ∧ Ended st q

/-- What may start a value may start the first item of an array too. -/
theorem reads_of_start {c : Char} {t : List Char} {st : List Frame} {q₀ q : State}
    (hc : startValue st c = some q₀) (h : run q₀ t = some q) (hq : Ended st q) :
    Reads (c :: t) st := by
  obtain ⟨hv, hi⟩ := step_value_of_start (show (startValue st c).isSome by rw [hc]; rfl)
  exact ⟨q, by rw [run_cons, hv, hc]; exact h, by rw [run_cons, hi, hc]; exact h, hq⟩

theorem reads_number (n : Number) (st : List Frame) : Reads n.text st := by
  obtain ⟨t, s', hend, hcomplete⟩ := n
  cases t with
  | nil => cases hend
  | cons c t =>
      obtain ⟨s, hs, hfold⟩ := Option.bind_eq_some_iff.mp hend
      have hstart : startValue st c = some (.num s, st) := by
        simp only [startValue, hs, Option.map_some]
        rw [NumState.start] at hs
        repeat' (split; · (rename_i h; subst h; simp at hs))
        rfl
      exact reads_of_start hstart (run_num_foldl st t s s' hfold)
        (Or.inr ⟨s', hcomplete, rfl⟩)

theorem run_quote_key (s : List Char) (st : List Frame) :
    run (.str true .none, st) (escapeAll s ++ ['"']) = some (.colon, st) := by
  rw [run_append, run_escapeAll]
  rfl

theorem reads_quote (s : List Char) (st : List Frame) : Reads (quote s) st := by
  refine reads_of_start rfl (q := (.after, st)) ?_ (Or.inl rfl)
  rw [run_append, run_escapeAll]
  rfl

mutual

/-- A printed value takes the automaton from where a value may start to
where one has ended, inside the same containers. -/
theorem reads_render : ∀ (v : Value) (st : List Frame), Reads (render v) st
  | .null, st => reads_of_start rfl rfl (Or.inl rfl)
  | .bool true, st => reads_of_start rfl rfl (Or.inl rfl)
  | .bool false, st => reads_of_start rfl rfl (Or.inl rfl)
  | .num n, st => reads_number n st
  | .str s, st => reads_quote s st
  | .arr [], st => reads_of_start rfl rfl (Or.inl rfl)
  | .arr (v :: rest), st => by
      refine reads_of_start rfl (q := (.after, st)) ?_ (Or.inl rfl)
      obtain ⟨q, -, hq, hend⟩ := reads_items (v :: rest) st (List.cons_ne_nil v rest)
      rw [run_append, hq, Option.bind_some, run_cons, hend.step_eq (by simp)]
      rfl
  | .obj [], st => reads_of_start rfl rfl (Or.inl rfl)
  | .obj (f :: rest), st => by
      refine reads_of_start rfl (q := (.after, st)) ?_ (Or.inl rfl)
      obtain ⟨q, -, hq, hend⟩ := reads_fields (f :: rest) st (List.cons_ne_nil f rest)
      rw [run_append, hq, Option.bind_some, run_cons, hend.step_eq (by simp)]
      rfl

/-- The items of an array, with what stands between them. -/
theorem reads_items : ∀ (items : List Value) (st : List Frame), items ≠ [] →
    Reads (renderItems items) (.arr :: st)
  | [], _, h => absurd rfl h
  | [v], st, _ => reads_render v (.arr :: st)
  | v :: w :: rest, st, _ => by
      obtain ⟨q, hv, hi, hend⟩ := reads_render v (.arr :: st)
      obtain ⟨q', hv', -, hend'⟩ := reads_items (w :: rest) st (List.cons_ne_nil w rest)
      have hsep : ∀ q₀, run q₀ (render v) = some q →
          run q₀ (renderItems (v :: w :: rest)) = some q' := by
        intro q₀ h
        rw [renderItems, run_append, h, Option.bind_some, run_cons, hend.step_eq (by simp)]
        exact hv'
      exact ⟨q', hsep _ hv, hsep _ hi, hend'⟩

/-- The fields of an object start with a key each. -/
theorem reads_fields : ∀ (fields : List (List Char × Value)) (st : List Frame),
    fields ≠ [] → ∃ q, run (.key, .obj :: st) (renderFields fields) = some q
      ∧ run (.keyOrEnd, .obj :: st) (renderFields fields) = some q
      ∧ Ended (.obj :: st) q
  | [], _, h => absurd rfl h
  | [(k, v)], st, _ => by
      obtain ⟨q, hv, -, hend⟩ := reads_render v (.obj :: st)
      have hfield : run (.str true .none, .obj :: st)
          (escapeAll k ++ ['"'] ++ ':' :: render v) = some q := by
        rw [run_append, run_quote_key, Option.bind_some]
        exact hv
      exact ⟨q, hfield, hfield, hend⟩
  | (k, v) :: g :: rest, st, _ => by
      obtain ⟨q, hv, -, hend⟩ := reads_render v (.obj :: st)
      obtain ⟨q', hkey, -, hend'⟩ := reads_fields (g :: rest) st (List.cons_ne_nil g rest)
      have hfield : run (.str true .none, .obj :: st)
          (escapeAll k ++ ['"'] ++ ':' :: (render v ++ ',' :: renderFields (g :: rest)))
          = some q' := by
        rw [run_append, run_quote_key, Option.bind_some]
        show run (.value, .obj :: st) (render v ++ _) = some q'
        rw [run_append, hv, Option.bind_some, run_cons, hend.step_eq (by simp)]
        exact hkey
      exact ⟨q', hfield, hfield, hend'⟩

end

/-- Compact text is valid JSON. -/
theorem isJson_render (v : Value) : IsJson (render v) := by
  obtain ⟨q, hq, -, hend⟩ := reads_render v []
  exact ⟨q, hq, hend.accepting⟩

/-! ## Printable text

What is printed has no control characters: line feeds in strings are
escaped, and there is no white space between tokens. -/

theorem isDigit_printable {c : Char} (h : c.isDigit = true) : 32 ≤ c.toNat := by
  have := (Char.isDigit_iff_toNat.mp h).1
  exact Nat.le_trans (by decide) this

theorem NumState.next_printable {s s' : NumState} {c : Char} (h : NumState.next s c = some s') :
    32 ≤ c.toNat := by
  by_contra hc
  have hne : ∀ d : Char, 32 ≤ d.toNat → c ≠ d := by
    rintro d hd rfl
    exact hc hd
  have hdigit : c.isDigit = false := by
    cases heq : c.isDigit with
    | false => rfl
    | true => exact absurd (isDigit_printable heq) hc
  have hexponent : exponent c = false := by
    simp [exponent, hne 'e' (by decide), hne 'E' (by decide)]
  have hzero : c ≠ '0' := hne '0' (by decide)
  have hpoint : c ≠ '.' := hne '.' (by decide)
  have hplus : c ≠ '+' := hne '+' (by decide)
  have hminus : c ≠ '-' := hne '-' (by decide)
  cases s <;> simp [next, hdigit, hexponent, hzero, hpoint, hplus, hminus] at h

theorem NumState.start_printable {s : NumState} {c : Char} (h : NumState.start c = some s) :
    32 ≤ c.toNat := by
  unfold start at h
  split at h
  · rename_i hc
    rw [hc]
    decide
  · split at h
    · rename_i hc
      rw [hc]
      decide
    · split at h
      · rename_i hc
        exact isDigit_printable hc
      · cases h

theorem NumState.foldlM_printable : ∀ {t : List Char} {s s' : NumState},
    t.foldlM NumState.next s = some s' → ∀ c ∈ t, 32 ≤ c.toNat
  | [], _, _, _, c, hc => by cases hc
  | d :: t, s, s', h, c, hc => by
      obtain ⟨s₁, hd, ht⟩ := Option.bind_eq_some_iff.mp h
      rcases List.mem_cons.mp hc with rfl | hc
      · exact NumState.next_printable hd
      · exact foldlM_printable ht c hc

theorem Number.printable (n : Number) : ∀ c ∈ n.text, 32 ≤ c.toNat := by
  obtain ⟨t, s, h, -⟩ := n
  cases t with
  | nil => exact fun c hc => by cases hc
  | cons d t =>
      obtain ⟨s₀, hd, ht⟩ := Option.bind_eq_some_iff.mp h
      intro c hc
      rcases List.mem_cons.mp hc with rfl | hc
      · exact NumState.start_printable hd
      · exact NumState.foldlM_printable ht c hc

theorem all_printable {t : List Char} (h : (t.all fun c => decide (32 ≤ c.toNat)) = true) :
    ∀ c ∈ t, 32 ≤ c.toNat :=
  fun c hc => of_decide_eq_true (List.all_eq_true.mp h c hc)

theorem escape_printable (d : Char) : ∀ c ∈ escape d, 32 ≤ c.toNat := by
  intro c hc
  by_cases hd : special d = true
  · exact all_printable (t := escapeLetters) rfl c (escape_subset hd hc)
  · have hd : special d = false := by simpa using hd
    rw [escape_of_not_special hd, List.mem_singleton] at hc
    subst hc
    simp only [special, Bool.or_eq_false_iff, decide_eq_false_iff_not] at hd
    omega

theorem quote_printable (s : List Char) : ∀ c ∈ quote s, 32 ≤ c.toNat := by
  intro c hc
  rw [quote, List.mem_cons, List.mem_append, List.mem_singleton, escapeAll, List.mem_flatMap] at hc
  rcases hc with rfl | ⟨d, -, hc⟩ | rfl
  · decide
  · exact escape_printable d c hc
  · decide

mutual

/-- Nothing is printed that is below a blank, so no line ends inside of it. -/
theorem render_printable : ∀ v : Value, ∀ c ∈ render v, 32 ≤ c.toNat
  | .null => all_printable rfl
  | .bool true => all_printable rfl
  | .bool false => all_printable rfl
  | .num n => n.printable
  | .str s => quote_printable s
  | .arr items => by
      intro c hc
      rw [render, List.mem_cons, List.mem_append, List.mem_singleton] at hc
      rcases hc with rfl | hc | rfl
      · decide
      · exact renderItems_printable items c hc
      · decide
  | .obj fields => by
      intro c hc
      rw [render, List.mem_cons, List.mem_append, List.mem_singleton] at hc
      rcases hc with rfl | hc | rfl
      · decide
      · exact renderFields_printable fields c hc
      · decide

theorem renderItems_printable : ∀ items : List Value, ∀ c ∈ renderItems items, 32 ≤ c.toNat
  | [] => fun c hc => by cases hc
  | [v] => by rw [renderItems]; exact render_printable v
  | v :: w :: rest => by
      intro c hc
      rw [renderItems, List.mem_append, List.mem_cons] at hc
      rcases hc with hc | rfl | hc
      · exact render_printable v c hc
      · decide
      · exact renderItems_printable (w :: rest) c hc

theorem renderFields_printable : ∀ fields : List (List Char × Value),
    ∀ c ∈ renderFields fields, 32 ≤ c.toNat
  | [] => fun c hc => by cases hc
  | [(k, v)] => by
      intro c hc
      rw [renderFields, List.mem_append, List.mem_cons] at hc
      rcases hc with hc | rfl | hc
      · exact quote_printable k c hc
      · decide
      · exact render_printable v c hc
  | (k, v) :: f :: rest => by
      intro c hc
      rw [renderFields, List.mem_append, List.mem_cons, List.mem_append, List.mem_cons] at hc
      rcases hc with hc | rfl | hc | rfl | hc
      · exact quote_printable k c hc
      · decide
      · exact render_printable v c hc
      · decide
      · exact renderFields_printable (f :: rest) c hc

end

end Json
