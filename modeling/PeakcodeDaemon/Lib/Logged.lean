import Mathlib.Data.List.Basic

/-!
# Computations with a log

A computation that performs operations which may fail, and keeps a log of
all it performed, a failed one included, with which it ends. To instrument
a program is to write it over `perform`; `value` forgets the log
(`value_bind`, `value_foldlM`), so that the instrumented program computes
what the plain one does.

Where there is a value, every operation in the log succeeded (`Sound`):
this is kept by what programs are made of (`Sound.bind`, `Sound.foldlM`),
and so a program that always has a value performs no operation that fails.
`perform_bind` and `after` serve to run one symbolically.
-/

structure Logged (ε : Type) (α : Type) where
  value : Option α
  log : List ε

namespace Logged

variable {ε α β : Type}

instance : Monad (Logged ε) where
  pure a := ⟨some a, []⟩
  bind x f := match x.value with
    | none => ⟨none, x.log⟩
    | some a => ⟨(f a).value, x.log ++ (f a).log⟩

/-- One operation. -/
def perform (result : ε → Option α) (e : ε) : Logged ε α := ⟨result e, [e]⟩

/-- Gives up, as a loop does that runs out of fuel. -/
def giveUp : Logged ε α := ⟨none, []⟩

/-- The computation, when the operations `es` came before it. -/
def after (es : List ε) (x : Logged ε α) : Logged ε α := ⟨x.value, es ++ x.log⟩

@[simp] theorem value_pure (a : α) : (pure a : Logged ε α).value = some a := rfl

@[simp] theorem log_pure (a : α) : (pure a : Logged ε α).log = [] := rfl

@[simp] theorem value_giveUp : (giveUp : Logged ε α).value = none := rfl

@[simp] theorem value_after (es : List ε) (x : Logged ε α) : (x.after es).value = x.value := rfl

@[simp] theorem after_after (es es' : List ε) (x : Logged ε α) :
    (x.after es').after es = x.after (es ++ es') := by
  simp [after]

@[simp] theorem value_bind (x : Logged ε α) (f : α → Logged ε β) :
    (x >>= f).value = x.value.bind fun a => (f a).value := by
  obtain ⟨value, log⟩ := x
  cases value <;> rfl

/-- An operation that succeeds hands its result on. -/
theorem perform_bind {result : ε → Option α} {e : ε} {a : α} (h : result e = some a)
    (f : α → Logged ε β) : (perform result e >>= f) = (f a).after [e] := by
  change (match result e with
    | none => (⟨none, [e]⟩ : Logged ε β)
    | some a => ⟨(f a).value, [e] ++ (f a).log⟩) = _
  rw [h]
  rfl

theorem value_foldlM {f : α → β → Logged ε α} {g : α → β → Option α}
    (h : ∀ a b, (f a b).value = g a b) : ∀ (bs : List β) (a : α),
    (bs.foldlM f a).value = bs.foldlM g a
  | [], a => rfl
  | b :: bs, a => by
      rw [List.foldlM_cons, List.foldlM_cons, value_bind, h]
      exact congrArg _ (funext fun a' => value_foldlM h bs a')

/-! ## Logs of successes -/

/-- If there is a value, everything in the log is `ok`. -/
def Sound (ok : ε → Prop) (x : Logged ε α) : Prop := x.value.isSome = true → ∀ e ∈ x.log, ok e

variable {ok : ε → Prop}

theorem Sound.pure (a : α) : Sound ok (pure a : Logged ε α) := by
  simp [Sound]

theorem Sound.giveUp : Sound ok (giveUp : Logged ε α) := by
  simp [Sound]

theorem Sound.perform {result : ε → Option α} {e : ε} (h : ∀ a, result e = some a → ok e) :
    Sound ok (perform result e) := by
  intro hvalue e' he'
  obtain ⟨a, ha⟩ := Option.isSome_iff_exists.mp hvalue
  obtain rfl := List.mem_singleton.mp he'
  exact h a ha

theorem Sound.bind {x : Logged ε α} {f : α → Logged ε β} (hx : Sound ok x)
    (hf : ∀ a, Sound ok (f a)) : Sound ok (x >>= f) := by
  obtain ⟨value, log⟩ := x
  cases value with
  | none => simp [Sound]
  | some a =>
      intro hvalue e he
      rcases List.mem_append.mp (show e ∈ log ++ (f a).log from he) with he | he
      · exact hx rfl e he
      · exact hf a hvalue e he

theorem Sound.foldlM {f : α → β → Logged ε α} (hf : ∀ a b, Sound ok (f a b)) :
    ∀ (bs : List β) (a : α), Sound ok (bs.foldlM f a)
  | [], a => .pure a
  | b :: bs, a => by
      rw [List.foldlM_cons]
      exact (hf a b).bind fun a' => Sound.foldlM hf bs a'

end Logged
