import Mathlib.Data.List.Basic

namespace FlowctlGame.Interaction

variable {α : Type}

/-- What remains of a journal without its marked entries. -/
def unmarked (journal : List (α × Bool)) : List α := (journal.filter (!·.2)).map Prod.fst

theorem unmarked_append (journal journal' : List (α × Bool)) :
    unmarked (journal ++ journal') = unmarked journal ++ unmarked journal' := by
  simp [unmarked]

theorem unmarked_false (xs : List α) : unmarked (xs.map (·, false)) = xs := by
  induction xs with
  | nil => rfl
  | cons x xs ih => exact congrArg (x :: ·) ih

theorem unmarked_true (xs : List α) : unmarked (xs.map (·, true)) = [] := by
  induction xs with
  | nil => rfl
  | cons x xs ih => exact ih

theorem take_front (front : List (α × Bool)) (xs : List α) :
    (front ++ xs.map (·, false)).take ((front ++ xs.map (·, false)).length - xs.length) =
      front := by
  rw [List.length_append, List.length_map, Nat.add_sub_cancel]
  exact List.take_left

/-- A queue with its past: everything that was put in, marked if it was thrown away, and
everything that was taken out. -/
structure Fifo (α : Type) where
  journal : List (α × Bool)
  out : List α
  queue : List α
  waiting : ∃ front, journal = front ++ queue.map (·, false)
  lossless : unmarked journal = out ++ queue

namespace Fifo

def sent (f : Fifo α) : List α := f.journal.map Prod.fst

/-- All that was put in and not thrown away, in order. -/
def kept (f : Fifo α) : List α := unmarked f.journal

def empty : Fifo α where
  journal := []
  out := []
  queue := []
  waiting := ⟨[], rfl⟩
  lossless := rfl

def push (f : Fifo α) (xs : List α) : Fifo α where
  journal := f.journal ++ xs.map (·, false)
  out := f.out
  queue := f.queue ++ xs
  waiting := by
    obtain ⟨front, hfront⟩ := f.waiting
    exact ⟨front, by simp [hfront]⟩
  lossless := by simp [unmarked_append, unmarked_false, f.lossless]

def pop (f : Fifo α) (n : ℕ) : Fifo α where
  journal := f.journal
  out := f.out ++ f.queue.take n
  queue := f.queue.drop n
  waiting := by
    obtain ⟨front, hfront⟩ := f.waiting
    refine ⟨front ++ (f.queue.take n).map (·, false), ?_⟩
    rw [List.append_assoc, ← List.map_append, List.take_append_drop, hfront]
  lossless := by rw [List.append_assoc, List.take_append_drop, f.lossless]

def clear (f : Fifo α) : Fifo α where
  journal := f.journal.take (f.journal.length - f.queue.length) ++ f.queue.map (·, true)
  out := f.out
  queue := []
  waiting := ⟨_, (List.append_nil _).symm⟩
  lossless := by
    obtain ⟨front, hfront⟩ := f.waiting
    have hlossless := f.lossless
    rw [hfront, unmarked_append, unmarked_false] at hlossless
    rw [hfront, take_front, unmarked_append, unmarked_true, List.append_nil, List.append_nil]
    exact List.append_cancel_right hlossless

theorem kept_eq (f : Fifo α) : f.kept = f.out ++ f.queue := f.lossless

@[simp]
theorem sent_push (f : Fifo α) (xs : List α) : (f.push xs).sent = f.sent ++ xs := by
  simp [sent, push, Function.comp_def]

/-- Throwing away marks, it does not forget: the marked symbols are those that waited. -/
@[simp]
theorem sent_clear (f : Fifo α) : f.clear.sent = f.sent := by
  obtain ⟨front, hfront⟩ := f.waiting
  simp only [sent, clear]
  rw [hfront, take_front]
  simp [Function.comp_def]

end Fifo

end FlowctlGame.Interaction
