import Mathlib.Data.List.Basic

/-!
Lists cut at a separator from the end, as often as is asked, and endings that are taken off.
-/

namespace FlushDB.Lib

section
variable {α : Type} [DecidableEq α]

/-- At most `n` pieces, the last first; the last of them is all that is left. -/
def rsplitn (sep : α) : Nat → List α → List (List α)
  | 0, _ => []
  | 1, xs => [xs]
  | n + 2, xs =>
    match xs.reverse.dropWhile (· ≠ sep) with
    | [] => [xs]
    | _ :: front => (xs.reverse.takeWhile (· ≠ sep)).reverse :: rsplitn sep (n + 1) front.reverse

/-- Takes the ending off as long as there is one. -/
def trimEndMatches (ending xs : List α) : List α :=
  if 0 < ending.length ∧ ending <:+ xs then
    trimEndMatches ending (xs.take (xs.length - ending.length)) else xs
termination_by xs.length
decreasing_by
  rename_i ends
  have fits := ends.2.length_le
  rw [List.length_take]
  omega

theorem rsplitn_append {sep : α} {last : List α} (clean : sep ∉ last) (n : Nat) (front : List α) :
    rsplitn sep (n + 2) (front ++ sep :: last) = last :: rsplitn sep (n + 1) front := by
  have others : ∀ x ∈ last.reverse, decide (x ≠ sep) = true := fun x member =>
    decide_eq_true fun same => clean (same ▸ List.mem_reverse.mp member)
  have reversed : (front ++ sep :: last).reverse = last.reverse ++ sep :: front.reverse := by simp
  rw [rsplitn, reversed, List.dropWhile_append_of_pos others, List.takeWhile_append_of_pos others,
    List.dropWhile_cons_of_neg (by simp),
    List.takeWhile_cons_of_neg (by simp), List.append_nil, List.reverse_reverse]
  dsimp only
  rw [List.reverse_reverse]

theorem trimEndMatches_append {ending xs : List α} (nonempty : ending ≠ [])
    (other : ¬ ending <:+ xs) :
    trimEndMatches ending (xs ++ ending) = xs := by
  have kept : trimEndMatches ending xs = xs := by
    rw [trimEndMatches, if_neg fun ends => other ends.2]
  rw [trimEndMatches, if_pos ⟨List.length_pos_iff.mpr nonempty, List.suffix_append xs ending⟩,
    List.length_append, Nat.add_sub_cancel,
    List.take_left, kept]

end

end FlushDB.Lib
