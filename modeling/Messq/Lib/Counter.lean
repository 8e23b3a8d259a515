import Mathlib

/-! # Counters

A counter gives out consecutive numbers: `Draws a xs b` says that it stood at `a`, gave out `xs` and stands at `b`.
What it gives out is strictly increasing, whatever happened between the draws. -/

namespace Messq.Lib

/-- A counter at `a` gives out `xs`, one number after the other, and ends at `b`. -/
inductive Draws : ℤ → List ℤ → ℤ → Prop
  | nil (a : ℤ) : Draws a [] a
  | cons {a b : ℤ} {xs : List ℤ} (h : Draws (a + 1) xs b) : Draws a (a :: xs) b

namespace Draws

variable {a b c x : ℤ} {xs ys : List ℤ}

theorem single (a : ℤ) : Draws a [a] (a + 1) := .cons (.nil _)

theorem append (h₁ : Draws a xs b) (h₂ : Draws b ys c) : Draws a (xs ++ ys) c := by
  induction h₁ with
  | nil => exact h₂
  | cons _ ih => exact .cons (ih h₂)

theorem le (h : Draws a xs b) : a ≤ b := by
  induction h with
  | nil => exact le_rfl
  | cons _ ih => omega

/-- Every number given out lies between the two ends. -/
theorem mem (h : Draws a xs b) (hx : x ∈ xs) : a ≤ x ∧ x < b := by
  induction h with
  | nil => cases hx
  | cons h ih =>
    rcases List.mem_cons.mp hx with rfl | hx
    · have := h.le
      omega
    · have := ih hx
      omega

/-- Every number between the two ends is given out. -/
theorem mem_of_le (h : Draws a xs b) (hle : a ≤ x) (hlt : x < b) : x ∈ xs := by
  induction h with
  | nil => omega
  | cons h ih =>
    rcases hle.eq_or_lt with rfl | hne
    · exact List.mem_cons_self
    · exact List.mem_cons_of_mem _ (ih (by omega) hlt)

theorem pairwise (h : Draws a xs b) : xs.Pairwise (· < ·) := by
  induction h with
  | nil => exact .nil
  | cons h ih =>
    refine .cons (fun y hy => ?_) ih
    have := (h.mem hy).1
    omega

end Draws

end Messq.Lib
