import Mathlib.Algebra.BigOperators.Group.List.Basic
import Mathlib.Tactic.Ring

/-!
# Weights of a list

A list of parties, each with a weight: what replacing or removing one of them does to the sum. The
equations are stated without subtraction.
-/

namespace VideoStream.Library

variable {α : Type*} (w : α → Nat)

/-- The total weight of the entries of a list. -/
def weight (l : List α) : Nat := (l.map w).sum

@[simp] theorem weight_nil : weight w [] = 0 := rfl

@[simp] theorem weight_cons (a : α) (l : List α) : weight w (a :: l) = w a + weight w l := by
  simp [weight]

@[simp] theorem weight_append (l₁ l₂ : List α) :
    weight w (l₁ ++ l₂) = weight w l₁ + weight w l₂ := by
  simp [weight]

variable {w}

/-- Replacing `a` by `b` trades the weight of the one for that of the other. -/
theorem weight_set {l : List α} {i : Nat} {a : α} (b : α) (h : l[i]? = some a) :
    weight w (l.set i b) + w a = weight w l + w b := by
  induction l generalizing i with
  | nil => simp at h
  | cons x xs ih =>
      cases i with
      | zero =>
          obtain rfl : x = a := by simpa using h
          simp only [List.set_cons_zero, weight_cons]
          ring
      | succ i =>
          have := ih (by simpa using h)
          simp only [List.set_cons_succ, weight_cons]
          omega

/-- Removing `a` takes its weight away. -/
theorem weight_eraseIdx {l : List α} {i : Nat} {a : α} (h : l[i]? = some a) :
    weight w (l.eraseIdx i) + w a = weight w l := by
  induction l generalizing i with
  | nil => simp at h
  | cons x xs ih =>
      cases i with
      | zero =>
          obtain rfl : x = a := by simpa using h
          simp only [List.eraseIdx_cons_zero, weight_cons]
          ring
      | succ i =>
          have := ih (by simpa using h)
          simp only [List.eraseIdx_cons_succ, weight_cons]
          omega

end VideoStream.Library
