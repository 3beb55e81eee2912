import PeakcodeDaemon.RedactionClean

/-!
# Redacting twice

In marker mode redaction comes to an end: there is nothing left to redact
in what it puts out, and it leaves alone, to the last character, whatever
has nothing left to redact. So what was redacted on the way may be
redacted again by whoever holds the same secrets.

- **nothing to do** (`Clear`, `Clear.clean_eq`): a text without a secret,
  a key header, an uncovered bearer word and a token is a fixpoint. Pass
  by pass: `keys_eq_self`, `Scans.bearer_eq_self`, `tokens_eq_self`. Only
  the bearer pass may still have a hit, and puts a marker in the place of
  a marker.
- **nothing left** (`Bracketless.clear`): what comes out is clear, by
  `RedactionSecrets` and `RedactionClean`.

The two together make the fixpoints exactly the clear texts.
-/

namespace PeakcodeDaemon

open Splice Utf8 Scanner

/-! ## Passes with nothing to do -/

theorem keys_eq_self {label r t : Text} (hshrinks : (privateKeyScanner label).Shrinks r)
    (ht : ¬beginHeader label <:+: t) : (privateKeyScanner label).drain r t = t := by
  have hdrains := (privateKeyScanner label).drains r hshrinks t
  refine hdrains.chain.eq_self fun c hc hsource => ?_
  obtain ⟨b, hsplit, -⟩ := privateKeyScanner_next (hdrains.exists_hit c hc)
  obtain ⟨happ, -⟩ := splitFirst_eq_some hsplit
  exact absurd ⟨c.left, b, by rw [← happ]; exact hsource⟩ ht

theorem takeWhile_of_breaks {t : Text} (h : Breaks t) :
    (t.takeWhile fun c => !isWhitespace c) = [] := by
  cases t with
  | nil => rfl
  | cons c t => rw [List.takeWhile_cons_of_neg]; simpa using breaks_cons.mp h

theorem marker_run : ∀ c ∈ redactedMarker, (!isWhitespace c) = true := by
  have hall : (redactedMarker.all fun c => !isWhitespace c) = true := by decide
  exact List.all_eq_true.mp hall

theorem tokenChar_ascii {c : Char} (h : isTokenChar c = true) : c.toNat ≤ 127 := by
  have hbelow : ∀ {d : Char}, c.val ≤ d.val → c.toNat ≤ d.toNat :=
    fun hle => UInt32.le_iff_toNat_le.mp hle
  have hletter : c.isAlphanum = true → c.toNat ≤ 'z'.toNat := by
    intro halpha
    rcases (Bool.or_eq_true _ _).mp halpha with hletter | hdigit
    · rcases (Bool.or_eq_true _ _).mp hletter with hupper | hlower
      · have hle : c.toNat ≤ 'Z'.toNat := hbelow (of_decide_eq_true hupper).2
        exact Nat.le_trans hle (by decide)
      · exact hbelow (of_decide_eq_true ((Bool.and_eq_true _ _).mp hlower).2)
    · exact Nat.le_trans (Char.isDigit_iff_toNat.mp hdigit).2 (by decide)
  simp only [isTokenChar, Bool.or_eq_true, beq_iff_eq] at h
  rcases h with ((halpha | rfl) | rfl) | rfl
  · exact Nat.le_trans (hletter halpha) (by decide)
  all_goals decide

/-- So what holds of no token character below 128 holds of none. -/
theorem tokenChar_avoids {p : Char → Bool} (hall : ∀ n < 128,
    isTokenChar (Char.ofNat n) = true → p (Char.ofNat n) = false) {c : Char}
    (h : isTokenChar c = true) : p c = false := by
  have hchar := hall c.toNat (Nat.lt_succ_of_le (tokenChar_ascii h))
  rw [Char.ofNat_toNat] at hchar
  exact hchar h

/-- What follows a bearer word is no run, or is the marker already. -/
theorem Scans.bearer_eq_self {done t out : Text} {cs : List (Cut Char)}
    (h : bearerScanner.Scans redactedMarker done t cs out) (ht : BearersCovered t) : out = t := by
  have htail : ∀ {x y : Text}, BearersCovered (x ++ y) → BearersCovered y := by
    rintro x y hxy L w R rfl hw
    exact hxy (x ++ L) w R (by simp only [List.append_assoc]) hw
  induction h with
  | stop hnext => rfl
  | keep hnext tail ih =>
      have happ := bearerScanner.next_append hnext
      rw [List.append_nil] at happ
      rw [happ] at ht
      rw [ih (htail ht), ← happ]
  | @cut done t skip span rest out cs hne hnext tail ih =>
      have happ := bearerScanner.next_append hnext
      rw [happ] at ht
      rw [ih (htail ht), happ]
      obtain ⟨⟨a, m, rfl, hm⟩, -, hrun⟩ := bearerSpan_of_hit hnext hne
      rcases ht a m (span ++ rest) (by simp) hm with hbreaks | ⟨R, hR, hbreaks⟩
      · rw [takeWhile_of_breaks hbreaks] at hrun
        exact absurd hrun.symm hne
      · rw [hR, List.takeWhile_append_of_pos marker_run, takeWhile_of_breaks hbreaks,
          List.append_nil] at hrun
        rw [hrun]

/-- What a token pass cuts is a token. -/
theorem isToken_of_span {lead : Text} (hlead : lead ∈ tokenPrefixes) {kept span rest : Text}
    (h : TokenSpan lead kept span rest) : ∃ body, span = lead ++ body ∧ IsToken lead body := by
  obtain ⟨body, rfl⟩ := h.starts
  have hchars : ∀ c ∈ lead ++ body, isTokenChar c = true := by
    rw [← h.run]
    exact fun c hc => List.all_eq_true.mp List.all_takeWhile c hc
  have hbody : ∀ c ∈ body, isTokenChar c = true := fun c hc =>
    hchars c (List.mem_append_right _ hc)
  have hlong := h.long
  rw [byteLen_append, byteLen_eq_length fun c hc => tokenChar_ascii (hbody c hc)] at hlong
  exact ⟨body, rfl, hlead, hbody, by omega⟩

theorem tokens_eq_self {lead r t : Text} (hlead : lead ∈ tokenPrefixes)
    (ht : ∀ body, IsToken lead body → ¬lead ++ body <:+: t) :
    (tokenScanner lead (tokenPrefixes_ne_nil lead hlead)).scan r t = t := by
  have hscan := (tokenScanner lead (tokenPrefixes_ne_nil lead hlead)).scans r [] t
  refine hscan.chain.eq_self fun c hc hsource => ?_
  obtain ⟨hne, t', skip, hnext⟩ := hscan.exists_hit c hc
  obtain ⟨body, hspan, htoken⟩ :=
    isToken_of_span hlead (tokenSpan_of_hit hnext hne (tokenPrefixes_chars lead hlead))
  exact absurd ⟨c.left, c.right, by rw [← hspan]; exact hsource⟩ (ht body htoken)

theorem WorkerEvent.mapTexts_eq_self {f : Text → Text} {event : WorkerEvent}
    (h : ∀ text ∈ event.texts, f text = text) : event.mapTexts f = event := by
  cases event <;> simp_all [WorkerEvent.texts, WorkerEvent.mapTexts]

namespace Redactor

/-! ## Fixpoints -/

/-- There is nothing to redact: no secret, no key header, no bearer word with
anything but the marker behind it, no token. -/
structure Clear (R : Redactor) (t : Text) : Prop where
  secrets : ∀ s ∈ R.secrets, ¬s <:+: t
  headers : ∀ label ∈ privateKeyLabels, ¬beginHeader label <:+: t
  bearers : BearersCovered t
  tokens : ∀ lead body, IsToken lead body → ¬lead ++ body <:+: t

variable {R : Redactor}

theorem Clear.clean_eq {t : Text} (h : R.Clear t) (hr : R.replacement = redactedMarker) :
    R.clean t = t := by
  refine Pass.runAll_preserves (P := (· = t)) (fun p hp u hu => ?_) rfl
  subst hu
  rcases List.mem_append.mp hp with hp | hp
  · obtain ⟨s, hs, rfl⟩ := List.mem_map.mp hp
    exact sweep_eq_self (R.nonempty s hs) (h.secrets s hs)
  rcases List.mem_append.mp hp with hp | hp
  · rcases List.mem_append.mp hp with hp | hp
    · obtain ⟨label, hlabel, rfl⟩ := List.mem_map.mp hp
      exact keys_eq_self (privateKeyScanner_shrinks label R.replacement_length)
        (h.headers label hlabel)
    · obtain rfl := List.mem_singleton.mp hp
      show bearerScanner.scan R.replacement u = u
      rw [hr]
      exact Scans.bearer_eq_self (bearerScanner.scans redactedMarker [] u) h.bearers
  · obtain ⟨⟨lead, hlead⟩, -, rfl⟩ := List.mem_map.mp hp
    exact tokens_eq_self hlead (h.tokens lead)

/-- No secret is part of the marker, none has a bracket. -/
def Bracketless (R : Redactor) : Prop :=
  ∀ s ∈ R.secrets, ¬s <:+: redactedMarker ∧ '[' ∉ s ∧ ']' ∉ s

theorem Bracketless.replacement (h : R.Bracketless) : R.replacement = redactedMarker := by
  rw [R.replacement_eq, replacementFor, if_neg]
  rintro ⟨s, hs, hin⟩
  exact (h s hs).1 hin

theorem Bracketless.clear (h : R.Bracketless) (text : Text) : R.Clear (R.clean text) where
  secrets s hs := by
    obtain ⟨hmarker, hopen, hclose⟩ := h s hs
    refine clean_separated hs ?_ ?_ text
    · rw [h.replacement]
      exact separates_marker hopen hclose
    · rwa [h.replacement]
  headers label hlabel := clean_headers h.replacement hlabel text
  bearers := clean_bearers h.replacement text
  tokens _ _ htoken := clean_tokens h.replacement htoken text

/-- In marker mode, with secrets free of brackets, the texts that redaction
leaves as they are are those with nothing to redact; what it puts out is one
of them, and so is what it makes of an event. -/
theorem redaction_fixpoints (h : R.Bracketless) :
    (∀ text, R.redactText text = some text ↔ R.Clear text) ∧
    (∀ text out, R.redactText text = some out → R.redactText out = some out) ∧
    ∀ event out, R.redactEvent event = some out → R.redactEvent out = some out := by
  have htwice : ∀ text, R.clean (R.clean text) = R.clean text :=
    fun text => (h.clear text).clean_eq h.replacement
  refine ⟨fun text => ⟨fun hsame => ?_, fun hclear => ?_⟩, fun text out hout => ?_,
    fun event out hout => ?_⟩
  · have hclear := h.clear text
    rwa [Option.some.inj ((R.redactText_eq text).symm.trans hsame)] at hclear
  · rw [redactText_eq, hclear.clean_eq h.replacement]
  · obtain rfl := Option.some.inj ((R.redactText_eq text).symm.trans hout)
    rw [redactText_eq, htwice]
  · obtain rfl := Option.some.inj ((R.redactEvent_eq event).symm.trans hout)
    rw [redactEvent_eq, WorkerEvent.mapTexts_eq_self]
    intro text htext
    rw [WorkerEvent.texts_mapTexts] at htext
    obtain ⟨before, -, rfl⟩ := List.mem_map.mp htext
    exact htwice before

/-- A text with a secret, a bearer word and a token in it, redacted. -/
theorem redaction_fixpoints_provider :
    (fromNamedValues "provider1".toList []).redactText
        "bearer provider1, ghp_0123456789ab".toList =
      some "bearer [REDACTED] [REDACTED]".toList ∧
    (fromNamedValues "provider1".toList []).redactText "bearer [REDACTED] [REDACTED]".toList =
      some "bearer [REDACTED] [REDACTED]".toList ∧
    (fromNamedValues "provider1".toList []).Clear "bearer [REDACTED] [REDACTED]".toList := by
  have hbracketless : (fromNamedValues "provider1".toList []).Bracketless := by
    unfold Bracketless
    decide
  have hout : (fromNamedValues "provider1".toList []).redactText
      "bearer provider1, ghp_0123456789ab".toList =
        some "bearer [REDACTED] [REDACTED]".toList := by decide
  obtain ⟨hsame, htwice, -⟩ := redaction_fixpoints hbracketless
  have hagain := htwice _ _ hout
  exact ⟨hout, hagain, (hsame _).mp hagain⟩

/-- A bracket in a secret makes a difference: the marker can complete it. -/
example : (fromNamedValues "k[".toList []).redactText "kghp_0123456789ab".toList =
      some "k[REDACTED]".toList ∧
    (fromNamedValues "k[".toList []).redactText "k[REDACTED]".toList =
      some "[REDACTED]REDACTED]".toList := by decide

end Redactor

end PeakcodeDaemon
