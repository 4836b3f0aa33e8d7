import Mathlib.Data.List.Induction

/-!
# The log of two writers

Two writers append to one log, in any order. What each of them has appended stands in the log in
its own order, and nothing else stands there.
-/

variable {α : Type*}

/-- The first writer has appended `xs` to the log and the second one `ys`. -/
inductive Interleave : List α → List α → List α → Prop
  | nil : Interleave [] [] []
  | left {xs ys log : List α} (x : α) (h : Interleave xs ys log) :
      Interleave (xs ++ [x]) ys (log ++ [x])
  | right {xs ys log : List α} (y : α) (h : Interleave xs ys log) :
      Interleave xs (ys ++ [y]) (log ++ [y])

namespace Interleave

variable {xs ys log : List α}

theorem append_left (h : Interleave xs ys log) (zs : List α) :
    Interleave (xs ++ zs) ys (log ++ zs) := by
  induction zs using List.reverseRecOn with
  | nil => simpa using h
  | append_singleton zs z ih =>
    rw [← List.append_assoc, ← List.append_assoc]
    exact ih.left z

theorem append_right (h : Interleave xs ys log) (zs : List α) :
    Interleave xs (ys ++ zs) (log ++ zs) := by
  induction zs using List.reverseRecOn with
  | nil => simpa using h
  | append_singleton zs z ih =>
    rw [← List.append_assoc, ← List.append_assoc]
    exact ih.right z

theorem mem_iff (h : Interleave xs ys log) {x : α} : x ∈ log ↔ x ∈ xs ∨ x ∈ ys := by
  induction h with
  | nil => simp
  | left y _ ih => rw [List.mem_append, List.mem_append, ih, or_right_comm]
  | right y _ ih => rw [List.mem_append, List.mem_append, ih, or_assoc]

end Interleave
