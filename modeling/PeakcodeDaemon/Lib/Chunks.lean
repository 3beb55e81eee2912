import Mathlib.Data.List.Basic

/-!
# Streams that arrive in chunks

A stream as a reader meets it: one non-empty chunk after another, then the
end. What a reader leaves of a chunk it meets again before the next one
(`push`).

`cut` splits a list at the first occurrence of a delimiter. How a stream is
cut does not depend on its chunks: more behind the delimiter leaves the line
alone (`cut_append_right`), and what comes in front of it only makes the line
longer (`cut_append_left`). So a reader that goes chunk by chunk finds the
line that a single look at the whole stream finds (`cut_of_position` for one
that looks for the delimiter's position).
-/

/-- A stream in chunks, each with a first item. -/
inductive Chunks (α : Type*) where
  | done
  | chunk (head : α) (tail : List α) (rest : Chunks α)

namespace Chunks

variable {α : Type*}

/-- The whole stream. -/
def all : Chunks α → List α
  | .done => []
  | .chunk head tail rest => head :: (tail ++ rest.all)

/-- What is left of a chunk comes first. -/
def push : List α → Chunks α → Chunks α
  | [], rest => rest
  | head :: tail, rest => .chunk head tail rest

@[simp] theorem all_push :
    ∀ (left : List α) (rest : Chunks α), (push left rest).all = left ++ rest.all
  | [], _ => rfl
  | _ :: _, _ => rfl

/-! ## Cutting at a delimiter -/

section Cut

variable [DecidableEq α]

/-- What precedes the first `d`, and what follows it. -/
def cut (d : α) : List α → Option (List α × List α)
  | [] => none
  | a :: t => if a = d then some ([], t) else (cut d t).map fun (line, rest) => (a :: line, rest)

variable {d : α} {l line rest : List α}

theorem cut_append (h : d ∉ line) (rest : List α) :
    cut d (line ++ d :: rest) = some (line, rest) := by
  induction line with
  | nil => simp [cut]
  | cons a line ih =>
      rw [List.mem_cons, not_or] at h
      rw [List.cons_append, cut, if_neg (Ne.symm h.1), ih h.2]
      rfl

theorem eq_of_cut (h : cut d l = some (line, rest)) : l = line ++ d :: rest ∧ d ∉ line := by
  induction l generalizing line with
  | nil => cases h
  | cons a t ih =>
      rw [cut] at h
      split at h
      · rename_i ha
        obtain ⟨rfl, rfl⟩ := Prod.mk.inj (Option.some.inj h)
        exact ⟨by rw [ha]; rfl, List.not_mem_nil⟩
      · rename_i ha
        obtain ⟨⟨line', rest'⟩, hcut, heq⟩ := Option.map_eq_some_iff.mp h
        obtain ⟨rfl, rfl⟩ := Prod.mk.inj heq
        obtain ⟨hl, hline⟩ := ih hcut
        refine ⟨by rw [hl]; rfl, ?_⟩
        rw [List.mem_cons, not_or]
        exact ⟨Ne.symm ha, hline⟩

theorem cut_eq_none : cut d l = none ↔ d ∉ l := by
  induction l with
  | nil => simp [cut]
  | cons a t ih =>
      rw [cut, List.mem_cons, not_or]
      split
      · rename_i ha
        simp [ha]
      · rename_i ha
        rw [Option.map_eq_none_iff, ih]
        exact ⟨fun h => ⟨Ne.symm ha, h⟩, fun h => h.2⟩

/-- A list that is longer behind its first `d`. -/
theorem cut_append_right (h : cut d l = some (line, rest)) (more : List α) :
    cut d (l ++ more) = some (line, rest ++ more) := by
  obtain ⟨rfl, hline⟩ := eq_of_cut h
  rw [List.append_assoc, List.cons_append]
  exact cut_append hline _

/-- A line that is longer in front. -/
theorem cut_append_left {front : List α} (hfront : d ∉ front) (h : cut d l = some (line, rest)) :
    cut d (front ++ l) = some (front ++ line, rest) := by
  obtain ⟨rfl, hline⟩ := eq_of_cut h
  rw [← List.append_assoc]
  refine cut_append ?_ rest
  rw [List.mem_append, not_or]
  exact ⟨hfront, hline⟩

theorem cut_length (h : cut d l = some (line, rest)) : line.length + rest.length < l.length := by
  obtain ⟨rfl, -⟩ := eq_of_cut h
  simp only [List.length_append, List.length_cons]
  omega

/-- The cut at the position of the delimiter. -/
theorem cut_of_position {pos : Nat} (h : l.idxOf? d = some pos) :
    cut d l = some (l.take pos, l.drop (pos + 1)) := by
  induction l generalizing pos with
  | nil => cases h
  | cons a t ih =>
      rw [List.idxOf?_cons] at h
      rw [cut]
      by_cases ha : a = d
      · rw [if_pos (by simpa using ha)] at h
        obtain rfl := Option.some.inj h
        rw [if_pos ha]
        rfl
      · rw [if_neg (by simpa using ha)] at h
        obtain ⟨pos', hpos', rfl⟩ := Option.map_eq_some_iff.mp h
        rw [if_neg ha, ih hpos']
        rfl

end Cut

end Chunks
