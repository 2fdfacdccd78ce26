import Mathlib.Data.List.Lex
import Mathlib.Data.Nat.Basic
import Mathlib.Algebra.GroupWithZero.Nat

/-!
Decimal numerals of one width. They stand in the order of their numbers, character by character.
-/

namespace FlushDB.Lib

theorem digit_value {c : Char} (digit : c.isDigit = true) :
    '0'.toNat ≤ c.toNat ∧ c.toNat - '0'.toNat < 10 := by
  rw [Char.isDigit_iff_toNat] at digit
  have zero : '0'.toNat = 48 := rfl
  have nine : '9'.toNat = 57 := rfl
  omega

theorem ofDigitChars_first (c : Char) (cs : List Char) :
    Nat.ofDigitChars 10 (c :: cs) 0 = 10 ^ cs.length * (c.toNat - '0'.toNat) + Nat.ofDigitChars 10
      cs 0 := by
  rw [Nat.ofDigitChars_cons, Nat.mul_zero, Nat.zero_add, Nat.ofDigitChars_eq_ofDigitChars_zero]

theorem ofDigitChars_lt {cs : List Char} (digits : ∀ c ∈ cs, c.isDigit = true) :
    Nat.ofDigitChars 10 cs 0 < 10 ^ cs.length := by
  induction cs with
  | nil => exact Nat.one_pos
  | cons c cs ih =>
    have value := (digit_value (digits c List.mem_cons_self)).2
    have rest := ih fun d member => digits d (List.mem_cons_of_mem _ member)
    have most : 10 ^ cs.length * (c.toNat - '0'.toNat + 1) ≤ 10 ^ cs.length * 10 :=
      Nat.mul_le_mul_left _ value
    rw [ofDigitChars_first, List.length_cons, Nat.pow_succ]
    rw [Nat.mul_succ] at most
    omega

/-- Numerals of one width compare as their numbers do. -/
theorem ofDigitChars_lt_iff {xs ys : List Char} (width : xs.length = ys.length)
    (left : ∀ c ∈ xs, c.isDigit = true) (right : ∀ c ∈ ys, c.isDigit = true) :
    Nat.ofDigitChars 10 xs 0 < Nat.ofDigitChars 10 ys 0 ↔ xs < ys := by
  induction xs generalizing ys with
  | nil =>
    obtain rfl := List.length_eq_zero_iff.mp width.symm
    exact iff_of_false (Nat.lt_irrefl _) (List.lt_irrefl _)
  | cons x xs ih =>
    cases ys with
    | nil => cases width
    | cons y ys =>
      have same : xs.length = ys.length := Nat.succ.inj width
      have leftRest : ∀ c ∈ xs, c.isDigit = true :=
        fun c member => left c (List.mem_cons_of_mem _ member)
      have rightRest : ∀ c ∈ ys, c.isDigit = true :=
        fun c member => right c (List.mem_cons_of_mem _ member)
      have low := ofDigitChars_lt leftRest
      have high := ofDigitChars_lt rightRest
      have zero := (digit_value (left x List.mem_cons_self)).1
      have zero' := (digit_value (right y List.mem_cons_self)).1
      rw [ofDigitChars_first, ofDigitChars_first, List.cons_lt_cons_iff,
        ← ih same leftRest rightRest, same]
      rw [same] at low
      rcases lt_trichotomy x.toNat y.toNat with less | equal | greater
      · have room : 10 ^ ys.length * (x.toNat - '0'.toNat + 1) ≤
            10 ^ ys.length * (y.toNat - '0'.toNat) :=
          Nat.mul_le_mul_left _ (by omega)
        rw [Nat.mul_succ] at room
        exact iff_of_true (by omega) (Or.inl less)
      · obtain rfl := Char.toNat_inj.mp equal
        simp only [Nat.add_lt_add_iff_left, true_and, or_iff_right (Char.lt_irrefl x)]
      · have room : 10 ^ ys.length * (y.toNat - '0'.toNat + 1) ≤
            10 ^ ys.length * (x.toNat - '0'.toNat) :=
          Nat.mul_le_mul_left _ (by omega)
        rw [Nat.mul_succ] at room
        refine iff_of_false (by omega) ?_
        rintro (less | ⟨rfl, -⟩)
        · exact absurd less (Nat.lt_asymm greater)
        · exact lt_irrefl _ greater

theorem append_lt_append_iff (front : List Char) {xs ys : List Char} :
    front ++ xs < front ++ ys ↔ xs < ys := by
  induction front with
  | nil => rfl
  | cons c front ih =>
    rw [List.cons_append, List.cons_append, List.cons_lt_cons_iff, ih]
    simp only [true_and, or_iff_right (Char.lt_irrefl c)]

end FlushDB.Lib
