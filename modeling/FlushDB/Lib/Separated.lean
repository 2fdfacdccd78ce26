import Mathlib.Data.List.Lex
import Mathlib.Order.Lattice

/-!
Two lists joined by a separator that is least and that the first of them does not have. The joined
lists are ordered as the pairs are, and what lies between two joined lists of one first part has the
same first part. A list followed by the least element is the next list.
-/

namespace FlushDB.Lib

variable {α : Type*} [LinearOrder α] {separator : α}

theorem joined_lt_joined (least : ∀ x, separator ≤ x) {a b c d : List α} (first : separator ∉ a)
    (second : separator ∉ b) :
    a ++ separator :: c < b ++ separator :: d ↔ a < b ∨ a = b ∧ c < d := by
  induction a generalizing b with
  | nil =>
    cases b with
    | nil => simp
    | cons y more =>
      have above : separator < y := lt_of_le_of_ne (least y) fun same =>
        second (same ▸ List.mem_cons_self)
      simp [List.cons_lt_cons_iff, above]
  | cons x rest ih =>
    have above : separator < x := lt_of_le_of_ne (least x) fun same => first (same ▸ List.mem_cons_self)
    cases b with
    | nil => simp [List.cons_lt_cons_iff, above.ne', above.not_gt]
    | cons y more =>
      have tails := @ih more (fun inside => first (List.mem_cons_of_mem _ inside))
        fun inside => second (List.mem_cons_of_mem _ inside)
      rw [List.cons_append, List.cons_append, List.cons_lt_cons_iff, tails, List.cons_lt_cons_iff,
        List.cons.injEq]
      tauto

theorem append_least_le_iff {least : α} (bottom : ∀ x, least ≤ x) {a b : List α} :
    a ++ [least] ≤ b ↔ a < b := by
  induction a generalizing b with
  | nil =>
    cases b with
    | nil => simp
    | cons y more =>
      rw [List.nil_append, ← not_lt, List.cons_lt_cons_iff]
      simp [bottom y]
  | cons x rest ih =>
    cases b with
    | nil => simp
    | cons y more =>
      have tails : ¬ more < rest ++ [least] ↔ rest < more := not_lt.trans (@ih more)
      rw [List.cons_append, ← not_lt, List.cons_lt_cons_iff, List.cons_lt_cons_iff, ← tails]
      rcases lt_trichotomy x y with less | same | greater
      · simp [less, less.not_gt, less.ne']
      · simp [same]
      · simp [greater, greater.not_gt, greater.ne']

theorem lt_append_least_iff {least : α} (bottom : ∀ x, least ≤ x) {a b : List α} :
    b < a ++ [least] ↔ b ≤ a := by
  rw [← not_le, append_least_le_iff bottom, not_lt]

end FlushDB.Lib
