import PeakcodeDaemon.Lib.Json
import PeakcodeDaemon.Lib.Splice

/-!
# The strings of a JSON text

`strings` reads a text with the automaton of `Json` and collects every
string it decodes, object keys and values alike. A serializer's text has
one escape per character, the one `escape` gives; `Canonical` says that
of a text, up to a character `stop` that may break an escape off (such a
text is no JSON any more).

- **a serializer's text is canonical** (`canonical_render`), by induction
  over the value;
- **spans may be replaced** (`Canonical.replace`), if they end outside of
  escapes (`EndsOutside`): what the replacement starts with breaks off an
  escape before it. No legible word comes of that which was not there,
  unless it meets the replacement (`Legible.of_result`);
- **what is read stands there** (`legible_of_strings`): reader and escape
  scan go along with each other (`Synced`), and what has been read so far
  is accounted for by `Tracks`, kept by one character in
  `Tracks.read` and by a text in `Tracks.reads`.

Being legible is more than occurring: a word that is found from the middle
of an escape on is not read as such.
-/

namespace Json

open Splice

/-! ## Reading -/

/-- The characters that a step inside a string literal completes. -/
def decoded : Mode → Char → List Char
  | .str _ .none, c => if c = '"' ∨ c = '\\' then [] else [c]
  | .str _ .backslash, c => (unescape c).toList
  | .str _ (.hex n v high), c =>
      match n, hexValue c, high with
      | 3, some d, none =>
          if isHigh (v * 16 + d) then [] else [Char.ofNat (v * 16 + d)]
      | 3, some d, some h =>
          [Char.ofNat (0x10000 + (h - 0xD800) * 0x400 + (v * 16 + d - 0xDC00))]
      | _, _, _ => []
  | _, _ => []

/-- A literal ends with its closing quote. -/
def closes : Mode → Char → Bool
  | .str _ .none, c => c == '"'
  | _, _ => false

/-- What was read so far: where the automaton is, the string that is open, and those
before it. -/
structure Reader where
  state : State
  cur : List Char
  strings : List (List Char)

namespace Reader

def start : Reader := ⟨(.value, []), [], []⟩

/-- One character more; a string that closes is kept. -/
def read (rd : Reader) (c : Char) : Option Reader :=
  (step rd.state c).map fun q =>
    if closes rd.state.1 c then ⟨q, [], rd.strings ++ [rd.cur]⟩
    else ⟨q, rd.cur ++ decoded rd.state.1 c, rd.strings⟩

theorem read_state {rd rd' : Reader} {c : Char} (h : rd.read c = some rd') :
    step rd.state c = some rd'.state := by
  obtain ⟨q, hq, heq⟩ := Option.map_eq_some_iff.mp h
  rw [hq, ← heq]
  split <;> rfl

/-- The reader goes where the automaton goes. -/
theorem run_of_reads : ∀ {t : List Char} {rd rd' : Reader},
    t.foldlM read rd = some rd' → run rd.state t = some rd'.state
  | [], rd, rd', h => by
      obtain rfl : rd = rd' := by simpa using h
      rfl
  | c :: t, rd, rd', h => by
      rw [List.foldlM_cons] at h
      obtain ⟨rd₁, hfirst, hrest⟩ := Option.bind_eq_some_iff.mp h
      rw [run_cons, read_state hfirst]
      exact run_of_reads hrest

/-- And it goes everywhere the automaton goes. -/
theorem reads_of_run : ∀ {t : List Char} {rd : Reader} {q : State},
    run rd.state t = some q → ∃ rd', t.foldlM read rd = some rd' ∧ rd'.state = q
  | [], rd, q, h => ⟨rd, rfl, Option.some.inj h⟩
  | c :: t, rd, q, h => by
      rw [run_cons] at h
      obtain ⟨q₁, hstep, hrest⟩ := Option.bind_eq_some_iff.mp h
      obtain ⟨rd₁, hfirst, rfl⟩ : ∃ rd₁, rd.read c = some rd₁ ∧ rd₁.state = q₁ := by
        refine ⟨_, congrArg (Option.map _) hstep, ?_⟩
        split <;> rfl
      obtain ⟨rd', hreads, hq⟩ := reads_of_run hrest
      exact ⟨rd', by rw [List.foldlM_cons, hfirst]; exact hreads, hq⟩

end Reader

/-- The decoded strings of a JSON text, in the order they close; `none` for
what is no JSON. -/
def strings (t : List Char) : Option (List (List Char)) :=
  (t.foldlM Reader.read Reader.start).bind fun rd =>
    if accepting rd.state then some rd.strings else none

/-- The strings of a text can be read when it is JSON. -/
theorem strings_isSome_iff (t : List Char) : (strings t).isSome ↔ IsJson t := by
  constructor
  · intro h
    obtain ⟨us, hus⟩ := Option.isSome_iff_exists.mp h
    obtain ⟨rd, hrd, hacc⟩ := Option.bind_eq_some_iff.mp hus
    split at hacc
    · rename_i haccepting
      exact ⟨rd.state, Reader.run_of_reads hrd, haccepting⟩
    · cases hacc
  · rintro ⟨q, hrun, hacc⟩
    obtain ⟨rd, hrd, rfl⟩ := Reader.reads_of_run (show run Reader.start.state t = some q from hrun)
    rw [strings, hrd, Option.bind_some, if_pos hacc]
    rfl

/-! ## Canonical escapes -/

/-- How much of an escape has been read. -/
inductive Pending where
  | out | slash | u | u0 | u00 | u000 | u001
deriving DecidableEq, Repr

namespace Pending

def text : Pending → List Char
  | .out => []
  | .slash => ['\\']
  | .u => ['\\', 'u']
  | .u0 => ['\\', 'u', '0']
  | .u00 => ['\\', 'u', '0', '0']
  | .u000 => ['\\', 'u', '0', '0', '0']
  | .u001 => ['\\', 'u', '0', '0', '1']

/-- The automaton's view of it. -/
def esc : Pending → Esc
  | .out => .none
  | .slash => .backslash
  | .u => .hex 0 0 none
  | .u0 => .hex 1 0 none
  | .u00 => .hex 2 0 none
  | .u000 => .hex 3 0 none
  | .u001 => .hex 3 1 none

/-- The letters of the two-character escapes. -/
def shortEscapes : List Char := ['"', '\\', 'b', 't', 'n', 'f', 'r']

/-- The last digits of the `\u000` escapes; the other five characters have short ones. -/
def lowDigits : List Char := ['0', '1', '2', '3', '4', '5', '6', '7', 'b', 'e', 'f']

def lowerDigits : List Char :=
  ['0', '1', '2', '3', '4', '5', '6', '7', '8', '9', 'a', 'b', 'c', 'd', 'e', 'f']

/-- One character; `none` where an escape goes on in a way `escape` does not write. -/
def next (stop : Char) (p : Pending) (c : Char) : Option Pending :=
  match p with
  | .out => some (if c = '\\' then .slash else .out)
  | .slash =>
      if c = 'u' then some .u else if c ∈ shortEscapes ∨ c = stop then some .out else none
  | .u => if c = '0' then some .u0 else if c = stop then some .out else none
  | .u0 => if c = '0' then some .u00 else if c = stop then some .out else none
  | .u00 =>
      if c = '0' then some .u000 else if c = '1' then some .u001
      else if c = stop then some .out else none
  | .u000 => if c ∈ lowDigits ∨ c = stop then some .out else none
  | .u001 => if c ∈ lowerDigits ∨ c = stop then some .out else none

/-- What is pending behind a text. -/
def scan (stop : Char) (p : Pending) (t : List Char) : Option Pending := t.foldlM (next stop) p

variable {stop : Char}

theorem scan_append (p : Pending) (t u : List Char) :
    scan stop p (t ++ u) = (scan stop p t).bind fun q => scan stop q u := by
  simp [scan, List.foldlM_append]

theorem scan_cons (p : Pending) (c : Char) (t : List Char) :
    scan stop p (c :: t) = (next stop p c).bind fun q => scan stop q t := by
  simp [scan, List.foldlM_cons]

/-- Without a backslash nothing is ever pending. -/
theorem scan_plain : ∀ {t : List Char}, '\\' ∉ t → scan stop .out t = some .out
  | [], _ => rfl
  | c :: t, h => by
      obtain ⟨hc, ht⟩ := not_or.mp (mt List.mem_cons.mpr h)
      rw [scan_cons, next, if_neg (Ne.symm hc), Option.bind_some, scan_plain ht]

end Pending

/-- Every escape of the text is one that `escape` writes, or broken off by `stop`. -/
def Canonical (stop : Char) (t : List Char) : Prop := (Pending.scan stop .out t).isSome

/-! ## A serializer's text is canonical -/

section Render

variable {stop : Char}

/-- The characters below the space that have no short escape. -/
theorem hexDigit_low : ∀ n < 32, n ∉ [8, 9, 10, 12, 13] →
    hexDigit (n / 16) = '0' ∧ hexDigit (n % 16) ∈ Pending.lowDigits ∨
      hexDigit (n / 16) = '1' ∧ hexDigit (n % 16) ∈ Pending.lowerDigits := by
  decide

/-- Behind a whole escape nothing is pending. -/
theorem scan_escape (c : Char) : Pending.scan stop .out (escape c) = some .out := by
  by_cases hs : special c = true
  · by_cases hq : c = '"'
    · subst hq; rfl
    by_cases hb : c = '\\'
    · subst hb; rfl
    have hn : c.toNat < 32 := by simpa [special, hq, hb] using hs
    rw [escape, if_neg hq, if_neg hb]
    split
    · rfl
    split
    · rfl
    split
    · rfl
    split
    · rfl
    split
    · rfl
    have hlow := hexDigit_low c.toNat hn (by simp [*])
    rcases hlow with ⟨hhigh, hdigit⟩ | ⟨hhigh, hdigit⟩
    · rw [hhigh]
      simp [Pending.scan, Pending.next, hdigit]
    · rw [hhigh]
      simp [Pending.scan, Pending.next, hdigit]
  · have hs : special c = false := by simpa using hs
    have hb : c ≠ '\\' := by
      rintro rfl
      exact absurd hs (by decide)
    rw [escape_of_not_special hs]
    exact Pending.scan_plain (by simpa using Ne.symm hb)

/-- Nor behind an escaped text. -/
theorem scan_escapeAll : ∀ s : List Char, Pending.scan stop .out (escapeAll s) = some .out
  | [] => rfl
  | c :: s => by
      rw [escapeAll_cons, Pending.scan_append, scan_escape, Option.bind_some, scan_escapeAll s]

theorem NumState.next_backslash (s : NumState) : s.next '\\' = none := by
  cases s <;> rfl

/-- No number has a backslash in it. -/
theorem number_plain (n : Number) : '\\' ∉ n.text := by
  obtain ⟨t, s', hend, -⟩ := n
  have hfold : ∀ (t : List Char) (s s' : NumState), t.foldlM NumState.next s = some s' →
      '\\' ∉ t := by
    intro t
    induction t with
    | nil => simp
    | cons c t ih =>
        intro s s' h
        rw [List.foldlM_cons] at h
        obtain ⟨s₁, hfirst, hrest⟩ := Option.bind_eq_some_iff.mp h
        refine List.not_mem_cons_of_ne_of_not_mem ?_ (ih s₁ s' hrest)
        rintro rfl
        rw [NumState.next_backslash] at hfirst
        cases hfirst
  cases t with
  | nil => simp
  | cons c t =>
      obtain ⟨s, hs, hrest⟩ := Option.bind_eq_some_iff.mp hend
      refine List.not_mem_cons_of_ne_of_not_mem ?_ (hfold t s s' hrest)
      rintro rfl
      cases hs

/-- Reading over a closed part of the text. -/
theorem Pending.scan_over {t : List Char} (h : scan stop .out t = some .out) (u : List Char) :
    scan stop .out (t ++ u) = scan stop .out u := by
  rw [scan_append, h, Option.bind_some]

theorem Pending.scan_over_cons {c : Char} (h : c ≠ '\\') (u : List Char) :
    scan stop .out (c :: u) = scan stop .out u := by
  rw [scan_cons, next, if_neg h, Option.bind_some]

open Pending in
theorem scan_quote (s : List Char) : scan stop .out (quote s) = some .out := by
  rw [quote, scan_over_cons (by decide), scan_over (scan_escapeAll s), scan_over_cons (by decide)]
  rfl

mutual

/-- A printed value has all its escapes in it. -/
theorem scan_render : ∀ v : Value, Pending.scan stop .out (render v) = some .out
  | .null => Pending.scan_plain (by decide)
  | .bool true => Pending.scan_plain (by decide)
  | .bool false => Pending.scan_plain (by decide)
  | .num n => Pending.scan_plain (number_plain n)
  | .str s => scan_quote s
  | .arr items => by
      rw [render, Pending.scan_over_cons (by decide), Pending.scan_over (scan_renderItems items),
        Pending.scan_over_cons (by decide)]
      rfl
  | .obj fields => by
      rw [render, Pending.scan_over_cons (by decide), Pending.scan_over (scan_renderFields fields),
        Pending.scan_over_cons (by decide)]
      rfl

theorem scan_renderItems : ∀ items : List Value,
    Pending.scan stop .out (renderItems items) = some .out
  | [] => rfl
  | [v] => scan_render v
  | v :: w :: rest => by
      rw [renderItems, Pending.scan_over (scan_render v), Pending.scan_over_cons (by decide)]
      exact scan_renderItems (w :: rest)

theorem scan_renderFields : ∀ fields : List (List Char × Value),
    Pending.scan stop .out (renderFields fields) = some .out
  | [] => rfl
  | [(k, v)] => by
      rw [renderFields, Pending.scan_over (scan_quote k), Pending.scan_over_cons (by decide)]
      exact scan_render v
  | (k, v) :: f :: rest => by
      rw [renderFields, Pending.scan_over (scan_quote k), Pending.scan_over_cons (by decide),
        Pending.scan_over (scan_render v), Pending.scan_over_cons (by decide)]
      exact scan_renderFields (f :: rest)

end

/-- So what is printed is canonical. -/
theorem canonical_render (v : Value) : Canonical stop (render v) := by
  rw [Canonical, scan_render]
  rfl

end Render

/-! ## Replacing a span of a canonical text -/

/-- No escape that `escape` writes goes on with the character. -/
def BreaksOff (stop : Char) : Prop :=
  stop ∉ ['u', '0', '1', '\\'] ∧ unescape stop = none ∧ hexValue stop = none

instance (stop : Char) : Decidable (BreaksOff stop) := inferInstanceAs (Decidable (_ ∧ _))

namespace Pending

variable {stop : Char}

/-- The stop ends whatever is pending. -/
theorem next_stop (h : BreaksOff stop) (p : Pending) : next stop p stop = some .out := by
  obtain ⟨hmem, -⟩ := h
  simp only [List.mem_cons, List.not_mem_nil, or_false, not_or] at hmem
  obtain ⟨hu, h0, h1, hb⟩ := hmem
  cases p <;> simp [next, hu, h0, h1, hb]

end Pending

/-- The word stands in the text, and not from the middle of an escape on. -/
def Legible (stop : Char) (w t : List Char) : Prop :=
  ∃ A B, t = A ++ w ++ B ∧ Pending.scan stop .out A = some .out

/-- A part of what stands there escaped stands there escaped. -/
theorem Legible.part {stop : Char} {s u t : List Char} (h : Legible stop (escapeAll u) t)
    (hs : s <:+: u) : Legible stop (escapeAll s) t := by
  obtain ⟨A, B, rfl, hA⟩ := h
  obtain ⟨x, y, rfl⟩ := hs
  refine ⟨A ++ escapeAll x, escapeAll y ++ B, ?_, ?_⟩
  · simp only [escapeAll_append, List.append_assoc]
  · rw [Pending.scan_append, hA, Option.bind_some, scan_escapeAll]

/-- The cut ends outside of escapes. -/
def EndsOutside (stop : Char) (c : Cut Char) : Prop :=
  Pending.scan stop .out (c.left ++ c.span) = some .out

section Replace

variable {stop : Char} {m : List Char} {c : Cut Char}

/-- A replacement that starts with `stop` breaks off what it comes after. -/
theorem scan_replaced (hstop : BreaksOff stop) (hm : '\\' ∉ m) {p : Pending}
    (h : Pending.scan stop .out c.left = some p) :
    Pending.scan stop .out (c.left ++ stop :: m) = some .out := by
  rw [Pending.scan_append, h, Option.bind_some, Pending.scan_cons, Pending.next_stop hstop,
    Option.bind_some, Pending.scan_plain hm]

/-- The start of a canonical text is one that can be scanned. -/
theorem Canonical.scan_left {t u : List Char} (h : Canonical stop (t ++ u)) :
    ∃ p, Pending.scan stop .out t = some p := by
  rw [Canonical, Pending.scan_append] at h
  cases ht : Pending.scan stop .out t with
  | none => simp [ht] at h
  | some p => exact ⟨p, rfl⟩

/-- A span that ends outside of escapes may be replaced so. -/
theorem Canonical.replace (hstop : BreaksOff stop) (hm : '\\' ∉ m) (h : Canonical stop c.source)
    (hc : EndsOutside stop c) : Canonical stop (c.result (stop :: m)) := by
  rw [Cut.source, List.append_assoc] at h
  obtain ⟨p, hp⟩ := h.scan_left
  rw [← List.append_assoc, Canonical, Pending.scan_append, hc, Option.bind_some] at h
  rwa [Cut.result, Canonical, Pending.scan_append, scan_replaced hstop hm hp, Option.bind_some]

/-- And it leaves nothing to read that was not there, unless it meets it. -/
theorem Legible.of_result (hstop : BreaksOff stop) (hm : '\\' ∉ m) {w : List Char}
    (hcanon : Canonical stop c.source) (hc : EndsOutside stop c)
    (h : Legible stop w (c.result (stop :: m))) (hmeets : ¬Meets (stop :: m) w c) :
    Legible stop w c.source := by
  obtain ⟨A, B, hAB, hA⟩ := h
  rw [Cut.source, List.append_assoc] at hcanon
  obtain ⟨p, hp⟩ := hcanon.scan_left
  rcases Cut.occurrence_result hAB hmeets with ⟨z, hleft⟩ | ⟨z, hz, hright⟩
  · exact ⟨A, z ++ c.span ++ c.right, by rw [Cut.source, hleft]; simp, hA⟩
  · refine ⟨c.left ++ c.span ++ z, B, by rw [Cut.source, hright]; simp, ?_⟩
    rw [Pending.scan_append, hc, Option.bind_some]
    rwa [hz, Pending.scan_append, scan_replaced hstop hm hp, Option.bind_some] at hA

end Replace

/-! ## What is read stands in the text -/

/-- One character inside a string literal with canonical escapes: either it
closes the literal, or the characters it completes, escaped, and what is
pending then spell what was pending before and the character. -/
theorem string_step {stop : Char} (hstop : BreaksOff stop) {k : Bool} {p p' : Pending} {c : Char}
    {m : Mode} (h : stringStep k p.esc c = some m) (hnext : p.next stop c = some p') :
    p = .out ∧ c = '"' ∧ p' = .out ∧ (m = .colon ∨ m = .after) ∨
      closes (.str k p.esc) c = false ∧ m = .str k p'.esc ∧
        escapeAll (decoded (.str k p.esc) c) ++ p'.text = p.text ++ [c] := by
  obtain ⟨hmem, hunescape, hhex⟩ := hstop
  simp only [List.mem_cons, List.not_mem_nil, or_false, not_or] at hmem
  obtain ⟨hu, -, -, -⟩ := hmem
  cases p with
  | out =>
      by_cases hq : c = '"'
      · subst hq
        refine Or.inl ⟨rfl, rfl, (Option.some.inj hnext).symm, ?_⟩
        obtain rfl : (if k = true then Mode.colon else Mode.after) = m := Option.some.inj h
        cases k
        · exact Or.inr rfl
        · exact Or.inl rfl
      · refine Or.inr ⟨by simpa [closes, Pending.esc] using hq, ?_⟩
        by_cases hb : c = '\\'
        · subst hb
          obtain rfl : Pending.slash = p' := Option.some.inj hnext
          obtain rfl : Mode.str k .backslash = m := Option.some.inj h
          exact ⟨rfl, rfl⟩
        · have hout : Pending.out = p' := by
            rw [Pending.next, if_neg hb] at hnext
            exact Option.some.inj hnext
          subst hout
          simp only [stringStep, Pending.esc, if_neg hq, if_neg hb] at h
          split at h
          · cases h
          · rename_i hn
            have hs : special c = false := by simp [special, hq, hb, hn]
            refine ⟨(Option.some.inj h).symm, ?_⟩
            simp [decoded, Pending.esc, Pending.text, hq, hb, escape_of_not_special hs]
  | slash =>
      refine Or.inr ⟨rfl, ?_⟩
      rw [Pending.next] at hnext
      split at hnext
      · rename_i hc
        subst hc
        obtain rfl := Option.some.inj hnext
        exact ⟨(Option.some.inj h).symm, rfl⟩
      · split at hnext
        · rename_i hc
          obtain rfl := Option.some.inj hnext
          rcases hc with hc | rfl
          · simp only [Pending.shortEscapes, List.mem_cons, List.not_mem_nil, or_false] at hc
            rcases hc with rfl | rfl | rfl | rfl | rfl | rfl | rfl <;>
              exact ⟨(Option.some.inj h).symm, rfl⟩
          · simp [stringStep, Pending.esc, hu, hunescape] at h
        · cases hnext
  | u | u0 =>
      refine Or.inr ⟨rfl, ?_⟩
      rw [Pending.next] at hnext
      split at hnext
      · rename_i hc
        subst hc
        obtain rfl := Option.some.inj hnext
        exact ⟨(Option.some.inj h).symm, rfl⟩
      · split at hnext
        · rename_i hc
          subst hc
          simp [stringStep, Pending.esc, hexStep, hhex] at h
        · cases hnext
  | u00 =>
      refine Or.inr ⟨rfl, ?_⟩
      rw [Pending.next] at hnext
      split at hnext
      · rename_i hc
        subst hc
        obtain rfl := Option.some.inj hnext
        exact ⟨(Option.some.inj h).symm, rfl⟩
      · split at hnext
        · rename_i hc
          subst hc
          obtain rfl := Option.some.inj hnext
          exact ⟨(Option.some.inj h).symm, rfl⟩
        · split at hnext
          · rename_i hc
            subst hc
            simp [stringStep, Pending.esc, hexStep, hhex] at h
          · cases hnext
  | u000 =>
      refine Or.inr ⟨rfl, ?_⟩
      rw [Pending.next] at hnext
      split at hnext
      · rename_i hc
        obtain rfl := Option.some.inj hnext
        rcases hc with hc | rfl
        · simp only [Pending.lowDigits, List.mem_cons, List.not_mem_nil, or_false] at hc
          rcases hc with rfl | rfl | rfl | rfl | rfl | rfl | rfl | rfl | rfl | rfl | rfl <;>
            exact ⟨(Option.some.inj h).symm, rfl⟩
        · simp [stringStep, Pending.esc, hexStep, hhex] at h
      · cases hnext
  | u001 =>
      refine Or.inr ⟨rfl, ?_⟩
      rw [Pending.next] at hnext
      split at hnext
      · rename_i hc
        obtain rfl := Option.some.inj hnext
        rcases hc with hc | rfl
        · simp only [Pending.lowerDigits, List.mem_cons, List.not_mem_nil, or_false] at hc
          rcases hc with rfl | rfl | rfl | rfl | rfl | rfl | rfl | rfl | rfl | rfl | rfl | rfl |
            rfl | rfl | rfl | rfl <;> exact ⟨(Option.some.inj h).symm, rfl⟩
        · simp [stringStep, Pending.esc, hexStep, hhex] at h
      · cases hnext

/-- Where the automaton stands after a step from outside string literals: at
the first character of one, or still outside, with no backslash to come in
the rest of a literal name. -/
def Entered : Mode → Prop
  | .str _ esc => esc = .none
  | .lit rest => '\\' ∉ rest
  | _ => True

/-- A step outside of string literals: it reads no backslash. -/
def Outside (c : Char) (q : State) : Prop := c ≠ '\\' ∧ Entered q.1

theorem isWs_ne_backslash {c : Char} (h : isWs c = true) : c ≠ '\\' := by
  rintro rfl
  exact absurd h (by decide)

/-- No value starts with a backslash. -/
theorem startValue_outside {st : List Frame} {c : Char} {q : State}
    (h : startValue st c = some q) : Outside c q := by
  constructor
  · rintro rfl
    simp [startValue, NumState.start] at h
  · rw [startValue] at h
    repeat' (split at h)
    all_goals first
      | (obtain rfl := Option.some.inj h; simp [Entered])
      | (obtain ⟨s, -, rfl⟩ := Option.map_eq_some_iff.mp h; exact trivial)

theorem afterValue_outside {st : List Frame} {c : Char} {q : State}
    (h : afterValue st c = some q) : Outside c q := by
  unfold afterValue at h
  constructor
  · rintro rfl
    rw [if_neg (by decide)] at h
    cases st with
    | nil => cases h
    | cons f st => cases f <;> simp at h
  · repeat' (split at h)
    all_goals first
      | (obtain rfl := Option.some.inj h; exact trivial)
      | cases h

/-- Every step from outside a string literal is one. -/
theorem step_outside {m : Mode} {st : List Frame} {c : Char} {q : State}
    (hm : ∀ k e, m ≠ .str k e) (hin : Entered m) (h : step (m, st) c = some q) :
    Outside c q := by
  cases m with
  | str k e => exact absurd rfl (hm k e)
  | value =>
      rw [step] at h
      split at h
      · rename_i hws
        obtain rfl := Option.some.inj h
        exact ⟨isWs_ne_backslash hws, trivial⟩
      · exact startValue_outside h
  | itemOrEnd =>
      rw [step] at h
      split at h
      · rename_i hws
        obtain rfl := Option.some.inj h
        exact ⟨isWs_ne_backslash hws, trivial⟩
      · split at h
        · rename_i hc
          obtain rfl := Option.some.inj h
          exact ⟨by rw [hc]; decide, trivial⟩
        · exact startValue_outside h
  | after => exact afterValue_outside h
  | num s =>
      rw [step] at h
      split at h
      · rename_i s' hs
        obtain rfl := Option.some.inj h
        refine ⟨?_, trivial⟩
        rintro rfl
        rw [NumState.next_backslash] at hs
        cases hs
      · split at h
        · exact afterValue_outside h
        · cases h
  | lit rest =>
      cases rest with
      | nil => cases h
      | cons d rest =>
          have hrest := List.not_mem_of_not_mem_cons hin
          simp only [step] at h
          split at h
          · rename_i hc
            obtain rfl := Option.some.inj h
            refine ⟨by rw [hc]; exact Ne.symm (List.ne_of_not_mem_cons hin), ?_⟩
            cases hempty : rest.isEmpty with
            | true => exact trivial
            | false => exact hrest
          · cases h
  | _ =>
      constructor
      · rintro rfl
        simp [step, isWs] at h
      · simp only [step] at h
        repeat' (split at h)
        all_goals first
          | (obtain rfl := Option.some.inj h; first | exact trivial | exact rfl)
          | cases h

/-- Reader and escape scan agree on where in an escape they are. -/
def Synced : Mode → Pending → Prop
  | .str _ esc, p => esc = p.esc
  | .lit rest, p => p = .out ∧ '\\' ∉ rest
  | _, p => p = .out

theorem synced_of_entered {m : Mode} (h : Entered m) : Synced m .out := by
  cases m with
  | str k e => exact h
  | lit rest => exact ⟨rfl, h⟩
  | _ => exact rfl

/-- What reading `w` amounts to: each string read stands escaped in `w`, and
the one being read ends it. -/
structure Tracks (stop : Char) (w : List Char) (rd : Reader) (p : Pending) : Prop where
  scanned : Pending.scan stop .out w = some p
  synced : Synced rd.state.1 p
  strings : ∀ u ∈ rd.strings, Legible stop (escapeAll u) w
  cur : ∃ A, w = A ++ escapeAll rd.cur ++ p.text ∧ Pending.scan stop .out A = some .out
  outside : (∀ k e, rd.state.1 ≠ .str k e) → rd.cur = []

/-- Both read one character more. -/
theorem Tracks.read {stop : Char} (hstop : BreaksOff stop) {w : List Char} {rd rd' : Reader}
    {p p' : Pending} {c : Char} (h : Tracks stop w rd p) (hread : rd.read c = some rd')
    (hnext : p.next stop c = some p') : Tracks stop (w ++ [c]) rd' p' := by
  obtain ⟨⟨m, st⟩, cur, us⟩ := rd
  obtain ⟨hscan, hsync, hus, ⟨A, hcur, hA⟩, hout⟩ := h
  obtain ⟨q, hq, rfl⟩ := Option.map_eq_some_iff.mp hread
  have hscan' : Pending.scan stop .out (w ++ [c]) = some p' := by
    rw [Pending.scan_append, hscan, Option.bind_some, Pending.scan_cons, hnext]
    rfl
  have hkept : ∀ {u : List Char}, Legible stop u w → Legible stop u (w ++ [c]) := by
    rintro u ⟨x, y, rfl, hx⟩
    exact ⟨x, y ++ [c], by simp, hx⟩
  have hus' : ∀ u ∈ us, Legible stop (escapeAll u) (w ++ [c]) := fun u hu => hkept (hus u hu)
  by_cases hm : ∃ k e, m = .str k e
  · obtain ⟨k, e, rfl⟩ := hm
    obtain rfl : e = p.esc := hsync
    obtain ⟨m', hm', rfl⟩ := Option.map_eq_some_iff.mp hq
    rcases string_step hstop hm' hnext with ⟨rfl, rfl, rfl, hleft⟩ | ⟨hcloses, rfl, htext⟩
    · -- the literal is closed, and its text is the end of `w`
      have hw : Legible stop (escapeAll cur) w := ⟨A, [], hcur, hA⟩
      refine ⟨hscan', synced_of_entered ?_, ?_, ⟨w ++ ['"'], ?_, hscan'⟩, fun _ => rfl⟩
      · rcases hleft with rfl | rfl <;> exact trivial
      · intro u hu
        rcases List.mem_append.mp hu with hu | hu
        · exact hus' u hu
        · obtain rfl := List.mem_singleton.mp hu
          exact hkept hw
      · show w ++ ['"'] = w ++ ['"'] ++ [] ++ []
        simp
    · simp only [hcloses]
      refine ⟨hscan', rfl, hus', ⟨A, ?_, hA⟩, fun hno => absurd rfl (hno k p'.esc)⟩
      show w ++ [c] = A ++ escapeAll (cur ++ decoded (.str k p.esc) c) ++ p'.text
      rw [escapeAll_append, List.append_assoc A, List.append_assoc (escapeAll cur), htext, hcur]
      simp only [List.append_assoc]
  · have hm : ∀ k e, m ≠ .str k e := fun k e heq => hm ⟨k, e, heq⟩
    obtain rfl : cur = [] := hout hm
    have hcloses : closes m c = false := by
      cases m with
      | str k e => exact absurd rfl (hm k e)
      | _ => rfl
    have hdecoded : decoded m c = [] := by
      cases m with
      | str k e => exact absurd rfl (hm k e)
      | _ => rfl
    obtain ⟨rfl, hin⟩ : p = .out ∧ Entered m := by
      cases m with
      | str k e => exact absurd rfl (hm k e)
      | lit rest => exact hsync
      | _ => exact ⟨hsync, trivial⟩
    obtain ⟨hc, hq⟩ := step_outside hm hin hq
    obtain rfl : Pending.out = p' := by
      rw [Pending.next, if_neg hc] at hnext
      exact Option.some.inj hnext
    simp only [hcloses, hdecoded, List.append_nil]
    exact ⟨hscan', synced_of_entered hq, hus', ⟨_, by simp [Pending.text, escapeAll], hscan'⟩,
      fun _ => rfl⟩

/-- Both read a text. -/
theorem Tracks.reads {stop : Char} (hstop : BreaksOff stop) : ∀ {t w : List Char} {rd rd' : Reader}
    {p p' : Pending}, Tracks stop w rd p → t.foldlM Reader.read rd = some rd' →
      Pending.scan stop p t = some p' → Tracks stop (w ++ t) rd' p'
  | [], w, rd, rd', p, p', h, hread, hscan => by
      obtain rfl : rd = rd' := by simpa using hread
      obtain rfl : p = p' := Option.some.inj hscan
      simpa using h
  | c :: t, w, rd, rd', p, p', h, hread, hscan => by
      rw [List.foldlM_cons] at hread
      rw [Pending.scan_cons] at hscan
      obtain ⟨rd₁, hfirst, hread⟩ := Option.bind_eq_some_iff.mp hread
      obtain ⟨p₁, hnext, hscan⟩ := Option.bind_eq_some_iff.mp hscan
      have := (h.read hstop hfirst hnext).reads hstop hread hscan
      rwa [List.append_assoc] at this

theorem tracks_start (stop : Char) : Tracks stop [] Reader.start .out :=
  ⟨rfl, rfl, by simp [Reader.start], ⟨[], rfl, rfl⟩, fun _ => rfl⟩

/-- Where the automaton is in a literal and outside of escapes, so is the scan. -/
theorem Canonical.scan_out {stop : Char} (hstop : BreaksOff stop) {t u : List Char}
    (h : Canonical stop (t ++ u)) {k : Bool} {st : List Frame}
    (hrun : run (.value, []) t = some (.str k .none, st)) :
    Pending.scan stop .out t = some .out := by
  obtain ⟨p, hp⟩ := h.scan_left
  obtain ⟨rd, hreads, hstate⟩ := @Reader.reads_of_run t Reader.start _ hrun
  have hsynced := ((tracks_start stop).reads hstop hreads hp).synced
  rw [hstate] at hsynced
  cases p with
  | out => exact hp
  | _ => cases hsynced

/-- What is read from a canonical text stands in it, escaped. -/
theorem legible_of_strings {stop : Char} (hstop : BreaksOff stop) {t : List Char}
    (hcanon : Canonical stop t) {us : List (List Char)} (hread : strings t = some us)
    {u : List Char} (hu : u ∈ us) : Legible stop (escapeAll u) t := by
  obtain ⟨rd, hrd, hacc⟩ := Option.bind_eq_some_iff.mp hread
  split at hacc
  · obtain rfl := Option.some.inj hacc
    obtain ⟨p, hp⟩ := Option.isSome_iff_exists.mp hcanon
    exact ((tracks_start stop).reads hstop hrd hp).strings u hu
  · cases hacc

end Json
