import PeakcodeDaemon.Worker
import Mathlib.Logic.Relation

/-!
# What a session amounts to

The worker as its user may think of it. Inputs wait in line and are worked
off one at a time. A turn starts from what the turns before it left, says
what it has to say while it is the one at work, and leaves its messages
unless it is cut short. Behind the last turn comes one word of farewell at
most. Nothing here is concurrent: there are no channels, no tasks and no
deadlines.

What may not be is ruled out by the types: an input is accepted only with
the proof that there is room (`Session.accept`), a turn begins only with
one that is waiting (`Session.begin`), and the steps of `Step` ask that
the session is still open.

The views are what the other modules compare with: the inputs in order
(`inputs`), the messages each turn starts from (`starts`), and all that is
said (`speech`). The lemmas at the end say what each operation does to
them. The source has no such object; that the worker is one is
`SessionRefinement`.
-/

namespace PeakcodeDaemon

/-- A turn: the input it is for, what it has said, and the messages it left,
if it came to an end of its own. -/
structure Turn (Message : Type) where
  input : Text
  said : List Held
  result : Option (List Message)

/-- How a session ends: on request, on an input it has no room for, on a
failure it reports, or without a word. -/
inductive Ending where
  | stopped
  | overflowed (refused : Text)
  | crashed (message : Text)
  | dropped

structure Session (Message : Type) where
  past : List (Turn Message)
  current : Option (Turn Message)
  waiting : List Text
  ending : Option Ending
  bound : waiting.length ≤ maxQueuedInputs

namespace Turn

variable {Message : Type}

def items (turn : Turn Message) : List Item := turn.said.map Held.item

def events (turn : Turn Message) : List WorkerEvent := turn.said.map Held.event

/-- The messages the turns leave, one upon the other. -/
def history : List Message → List (Turn Message) → List Message :=
  List.foldl fun messages turn => turn.result.getD messages

/-- Each turn with its number, its input and the messages it starts from. -/
def starts (user : Text → Message) : Nat → List Message → List (Turn Message) →
    List (Nat × Text × List Message)
  | _, _, [] => []
  | n, messages, turn :: turns => (n, turn.input, messages ++ [user turn.input]) ::
      starts user (n + 1) (turn.result.getD messages) turns

theorem history_concat (messages : List Message) (turns : List (Turn Message))
    (turn : Turn Message) :
    history messages (turns ++ [turn]) = turn.result.getD (history messages turns) :=
  List.foldl_append

theorem starts_concat (user : Text → Message) (turn : Turn Message) :
    ∀ (n : Nat) (messages : List Message) (turns : List (Turn Message)),
    starts user n messages (turns ++ [turn]) = starts user n messages turns ++
      [(n + turns.length, turn.input, history messages turns ++ [user turn.input])]
  | n, messages, [] => rfl
  | n, messages, first :: turns => by
      have hrest := starts_concat user turn (n + 1) (first.result.getD messages) turns
      rw [List.cons_append, starts, starts, hrest, List.cons_append, List.length_cons,
        Nat.succ_add_eq_add_succ]
      rfl

/-- What holds of every turn and its number. -/
theorem forall_concat {P : Nat → Turn Message → Prop} {turns : List (Turn Message)}
    {last : Turn Message} : (∀ n turn, (turns ++ [last])[n]? = some turn → P n turn) ↔
      (∀ n turn, turns[n]? = some turn → P n turn) ∧ P turns.length last := by
  constructor
  · intro h
    refine ⟨fun n turn hturn => h n turn ?_, h _ _ List.getElem?_concat_length⟩
    obtain ⟨hlt, -⟩ := List.getElem?_eq_some_iff.mp hturn
    rwa [List.getElem?_append_left hlt]
  · rintro ⟨hfirst, hlast⟩ n turn hturn
    rcases Nat.lt_or_ge n turns.length with hlt | hge
    · rw [List.getElem?_append_left hlt] at hturn
      exact hfirst n turn hturn
    · rw [List.getElem?_append_right hge, List.getElem?_singleton] at hturn
      split at hturn
      · rename_i hzero
        obtain rfl := Option.some.inj hturn
        obtain rfl : n = turns.length := by omega
        exact hlast
      · cases hturn

end Turn

namespace Session

variable {Message : Type}

def new : Session Message := ⟨[], none, [], none, Nat.zero_le _⟩

section Views

variable (setup : Setup Message) (σ : Session Message)

def turns : List (Turn Message) := σ.past ++ σ.current.toList

def history : List Message := Turn.history setup.messages σ.past

def starts : List (Nat × Text × List Message) := Turn.starts setup.user 0 setup.messages σ.turns

/-- The input that found no room. -/
def refused : List Text :=
  match σ.ending with
  | some (.overflowed refused) => [refused]
  | _ => []

/-- All the inputs, in the order they came. -/
def inputs : List Text := σ.turns.map Turn.input ++ σ.waiting ++ σ.refused

def farewell : List WorkerEvent :=
  match σ.ending with
  | some .stopped => [doneEvent (σ.history setup).length]
  | some (.overflowed _) => [.crash queueLimitExceeded]
  | some (.crashed message) => [.crash message]
  | some .dropped | none => []

/-- What the turns have said, in order. -/
def spoken : List WorkerEvent := σ.turns.flatMap Turn.events

/-- All that is said, the farewell behind the turns. -/
def speech : List WorkerEvent := σ.spoken ++ σ.farewell setup

/-- This turn is at work, or none is. -/
def At : Option Nat → Prop
  | some n => n = σ.past.length ∧ ∃ turn, σ.current = some turn
  | none => σ.current = none

end Views

section Operations

variable (σ : Session Message)

def accept (text : Text) (hroom : σ.waiting.length < maxQueuedInputs) : Session Message :=
  { σ with
    waiting := σ.waiting ++ [text]
    bound := by rwa [List.length_append] }

def begin (text : Text) (rest : List Text) (hwaiting : σ.waiting = text :: rest) :
    Session Message :=
  { σ with
    current := some ⟨text, [], none⟩
    waiting := rest
    bound := by
      have hbound := σ.bound
      rw [hwaiting] at hbound
      exact Nat.le_of_succ_le hbound }

def say (turn : Turn Message) (held : Held) : Session Message :=
  { σ with current := some { turn with said := turn.said ++ [held] } }

/-- The turn is over, and its result is what the next one starts from. -/
def finish (turn : Turn Message) (result : Option (List Message)) : Session Message :=
  { σ with past := σ.past ++ [{ turn with result := result }], current := none }

def close (ending : Ending) : Session Message := { σ with ending := some ending }

end Operations

inductive Step (σ : Session Message) : Session Message → Prop
  | accept {text : Text} (hopen : σ.ending = none) (hroom : σ.waiting.length < maxQueuedInputs) :
      Step σ (σ.accept text hroom)
  | begin {text : Text} {rest : List Text} (hopen : σ.ending = none) (hidle : σ.current = none)
      (hwaiting : σ.waiting = text :: rest) : Step σ (σ.begin text rest hwaiting)
  | say {turn : Turn Message} {held : Held} (hopen : σ.ending = none)
      (hcurrent : σ.current = some turn) : Step σ (σ.say turn held)
  | finish {turn : Turn Message} (result : Option (List Message)) (hopen : σ.ending = none)
      (hcurrent : σ.current = some turn) : Step σ (σ.finish turn result)
  | close (ending : Ending) (hopen : σ.ending = none) (hidle : σ.current = none)
      (hfull : ∀ refused, ending = .overflowed refused → σ.waiting.length = maxQueuedInputs) :
      Step σ (σ.close ending)

/-- The session comes about step by step. -/
def Reached : Session Message → Prop := Relation.ReflTransGen Step new

/-! ## What the operations do to the views -/

section

variable {setup : Setup Message} {σ : Session Message} {turn : Turn Message}

theorem turns_of_current (hcurrent : σ.current = some turn) : σ.turns = σ.past ++ [turn] := by
  rw [turns, hcurrent]
  rfl

theorem turns_of_idle (hidle : σ.current = none) : σ.turns = σ.past := by
  rw [turns, hidle]
  exact List.append_nil _

@[simp] theorem turns_begin (hidle : σ.current = none) {text : Text} {rest : List Text}
    (hwaiting : σ.waiting = text :: rest) :
    (σ.begin text rest hwaiting).turns = σ.turns ++ [⟨text, [], none⟩] := by
  rw [turns_of_idle hidle]
  rfl

@[simp] theorem turns_say (held : Held) :
    (σ.say turn held).turns = σ.past ++ [{ turn with said := turn.said ++ [held] }] := rfl

@[simp] theorem turns_finish (result : Option (List Message)) :
    (σ.finish turn result).turns = σ.past ++ [{ turn with result := result }] :=
  List.append_nil _

/-- What has been sent of what was spoken is a beginning of it all. -/
theorem prefix_speech {sent more : List WorkerEvent} (hspoken : σ.spoken = sent ++ more) :
    sent <+: σ.speech setup := by
  rw [speech, hspoken, List.append_assoc]
  exact List.prefix_append _ _

theorem spoken_begin (hidle : σ.current = none) {text : Text} {rest : List Text}
    (hwaiting : σ.waiting = text :: rest) : (σ.begin text rest hwaiting).spoken = σ.spoken := by
  rw [spoken, turns_begin hidle, List.flatMap_append]
  exact List.append_nil _

theorem spoken_say (hcurrent : σ.current = some turn) (held : Held) :
    (σ.say turn held).spoken = σ.spoken ++ [held.event] := by
  simp [spoken, turns_of_current hcurrent, Turn.events]

theorem spoken_finish (hcurrent : σ.current = some turn) (result : Option (List Message)) :
    (σ.finish turn result).spoken = σ.spoken := by
  simp [spoken, turns_of_current hcurrent, Turn.events]

end

end Session

end PeakcodeDaemon
