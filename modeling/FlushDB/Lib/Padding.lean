import Mathlib.Data.List.Lex
import Mathlib.Order.Lattice

/-!
Lists cut or filled up to a fixed length. The order of the lists is kept when the filling is the
least element, however long they were.
-/

namespace FlushDB.Lib

/-- A list cut to `n` elements, or filled up to as many. -/
def padded {α : Type} (zero : α) (n : Nat) (xs : List α) : List α :=
  xs.take n ++ List.replicate (n - (xs.take n).length) zero

theorem padded_nil {α : Type} (zero : α) (n : Nat) : padded zero n [] = List.replicate n zero := by
  simp [padded]

theorem padded_cons {α : Type} (zero : α) (n : Nat) (x : α) (xs : List α) :
    padded zero (n + 1) (x :: xs) = x :: padded zero n xs := by
  simp [padded]

section
variable {α : Type} [LinearOrder α] {zero : α}

theorem cons_le_cons_iff {x y : α} {xs ys : List α} :
    x :: xs ≤ y :: ys ↔ x < y ∨ x = y ∧ xs ≤ ys := by
  rw [← not_lt, List.cons_lt_cons_iff, not_or, not_and, not_lt, not_lt]
  constructor
  · intro ordered
    rcases lt_or_eq_of_le ordered.1 with less | same
    · exact Or.inl less
    · exact Or.inr ⟨same, ordered.2 same.symm⟩
  · intro ordered
    rcases ordered with less | ⟨same, rest⟩
    · exact ⟨less.le, fun same => absurd same less.ne'⟩
    · exact ⟨same.le, fun _ => rest⟩

theorem replicate_le_padded (least : ∀ x, zero ≤ x) (n : Nat) (xs : List α) :
    List.replicate n zero ≤ padded zero n xs := by
  induction n generalizing xs with
  | zero => simp [padded]
  | succ n ih =>
    cases xs with
    | nil => exact le_of_eq (padded_nil zero (n + 1)).symm
    | cons x xs =>
      rw [padded_cons, List.replicate_succ]
      apply cons_le_cons_iff.mpr
      rcases lt_or_eq_of_le (least x) with less | same
      · exact Or.inl less
      · exact Or.inr ⟨same, ih xs⟩

/-- Cutting and filling up keep the order: a list that ends early stands before what goes on. -/
theorem padded_le_padded (least : ∀ x, zero ≤ x) (n : Nat) {xs ys : List α} (ordered : xs ≤ ys) :
    padded zero n xs ≤ padded zero n ys := by
  induction n generalizing xs ys with
  | zero => simp [padded]
  | succ n ih =>
    cases xs with
    | nil =>
      rw [padded_nil]
      exact replicate_le_padded least _ ys
    | cons x xs =>
      cases ys with
      | nil => exact absurd ordered (not_le.mpr (List.nil_lt_cons x xs))
      | cons y ys =>
        rw [padded_cons, padded_cons]
        apply cons_le_cons_iff.mpr
        rcases cons_le_cons_iff.mp ordered with less | ⟨same, rest⟩
        · exact Or.inl less
        · exact Or.inr ⟨same, ih rest⟩

end

end FlushDB.Lib
