import Mathlib.Data.List.Basic
import Mathlib.Order.Compare
import Mathlib.Order.Lattice

/-!
Binary search in a list that a three-way comparison divides into a part below, a part that
matches and a part above. Of several matches any one may be found.
-/

namespace FlushDB.Lib

variable {α : Type*}

/-- The position left when the `size` candidates from `base` on are halved down to one. -/
def narrow (f : α → Ordering) (xs : List α) : Nat → Nat → Nat → Nat
  | 0, _, base => base
  | fuel + 1, size, base =>
    if size ≤ 1 then base
    else narrow f xs fuel (size - size / 2) (if (xs[base + size / 2]?).any (fun x => f x = .gt) then
      base else base + size / 2)

/-- The index of a match, or the index at which one would keep the order. -/
def binarySearchBy (f : α → Ordering) (xs : List α) : Except Nat Nat :=
  let base := narrow f xs xs.length xs.length 0
  match xs[base]? with
  | none => .error 0
  | some x =>
    match f x with
    | .eq => .ok base
    | .lt => .error (base + 1)
    | .gt => .error base

/-- The number of elements below, when those that satisfy `below` come first. -/
def partitionPoint (below : α → Bool) (xs : List α) : Nat :=
  match binarySearchBy (fun x => if below x then .lt else .gt) xs with
  | .ok i => i
  | .error i => i

/-- The order that the search relies on. -/
def Divided (f : α → Ordering) (xs : List α) : Prop :=
  xs.Pairwise fun a b => (f b = .lt → f a = .lt) ∧ (f a = .gt → f b = .gt)

variable {f : α → Ordering} {xs : List α}

theorem binarySearchBy_ok {i : Nat} (h : binarySearchBy f xs = .ok i) :
    ∃ x, xs[i]? = some x ∧ f x = .eq := by
  unfold binarySearchBy at h
  dsimp only at h
  split at h
  · cases h
  · rename_i x found
    split at h
    · rename_i hit
      obtain rfl := Except.ok.inj h
      exact ⟨x, found, hit⟩
    · cases h
    · cases h

theorem Divided.above (divided : Divided f xs) {i j : Nat} {x y : α} (first : xs[i]? = some x)
    (second : xs[j]? = some y) (le : i ≤ j) (above : f x = .gt) : f y = .gt := by
  obtain ⟨hi, rfl⟩ := List.getElem?_eq_some_iff.mp first
  obtain ⟨hj, rfl⟩ := List.getElem?_eq_some_iff.mp second
  rcases Nat.lt_or_eq_of_le le with less | rfl
  · exact (List.pairwise_iff_getElem.mp divided i j hi hj less).2 above
  · exact above

theorem Divided.below (divided : Divided f xs) {i j : Nat} {x y : α} (first : xs[i]? = some x)
    (second : xs[j]? = some y) (le : i ≤ j) (below : f y = .lt) : f x = .lt := by
  obtain ⟨hi, rfl⟩ := List.getElem?_eq_some_iff.mp first
  obtain ⟨hj, rfl⟩ := List.getElem?_eq_some_iff.mp second
  rcases Nat.lt_or_eq_of_le le with less | rfl
  · exact (List.pairwise_iff_getElem.mp divided i j hi hj less).1 below
  · exact below

/-- What is true of the candidates that are left: one of them is the last element that is not
above, unless all are above. -/
structure Candidates (f : α → Ordering) (xs : List α) (size base : Nat) : Prop where
  inside : base + size ≤ xs.length
  positive : 0 < size
  lower : base = 0 ∨ ∃ x, xs[base]? = some x ∧ f x ≠ .gt
  upper : ∀ i x, base + size ≤ i → xs[i]? = some x → f x = .gt

theorem narrow_candidates (divided : Divided f xs) (fuel size base : Nat) (enough : size ≤ fuel + 1)
    (h : Candidates f xs size base) : Candidates f xs 1 (narrow f xs fuel size base) := by
  induction fuel generalizing size base with
  | zero =>
    have one : size = 1 := by
      have := h.positive
      omega
    subst one
    exact h
  | succ fuel ih =>
    unfold narrow
    split
    · have one : size = 1 := by
        have := h.positive
        omega
      subst one
      exact h
    · rename_i many
      have positive := h.positive
      have inside := h.inside
      have bound : base + size / 2 < xs.length := by omega
      have here : xs[base + size / 2]? = some xs[base + size / 2] := List.getElem?_eq_getElem bound
      refine ih _ _ (by omega) ?_
      rw [here]
      simp only [Option.any_some, decide_eq_true_eq]
      split
      · rename_i above
        refine ⟨by omega, by omega, h.lower, ?_⟩
        intro i x later found
        exact divided.above here found (by omega) above
      · rename_i reaches
        refine ⟨by omega, by omega, Or.inr ⟨_, here, reaches⟩, ?_⟩
        intro i x later found
        exact h.upper i x (by omega) found

/-- Without a match everything before the index is below and everything from it on is above. -/
theorem binarySearchBy_error (divided : Divided f xs) {i : Nat}
    (h : binarySearchBy f xs = .error i) :
    (∀ j x, j < i → xs[j]? = some x → f x = .lt) ∧ (∀ j x, i ≤ j → xs[j]? = some x → f x = .gt) ∧
      i ≤ xs.length := by
  rcases Nat.eq_zero_or_pos xs.length with empty | nonempty
  · have nothing : ∀ j : Nat, xs[j]? = none := fun j => by simp [List.length_eq_zero_iff.mp empty]
    simp only [binarySearchBy, nothing, Except.error.injEq] at h
    subst h
    refine ⟨?_, ?_, by omega⟩ <;> simp [nothing]
  · have start : Candidates f xs xs.length 0 := by
      refine ⟨by omega, nonempty, Or.inl rfl, ?_⟩
      intro i x later found
      have := (List.getElem?_eq_some_iff.mp found).1
      omega
    obtain ⟨inside, -, lower, upper⟩ := narrow_candidates divided xs.length xs.length 0 (by omega) start
    unfold binarySearchBy at h
    generalize narrow f xs xs.length xs.length 0 = base at h inside lower upper
    dsimp only at h
    have here : xs[base]? = some xs[base] := List.getElem?_eq_getElem (by omega)
    rw [here] at h
    dsimp only at h
    split at h
    · cases h
    · rename_i below
      obtain rfl := Except.error.inj h
      refine ⟨?_, ?_, by omega⟩
      · intro j x earlier found
        exact divided.below found here (by omega) below
      · intro j x later found
        exact upper j x later found
    · rename_i above
      obtain rfl := Except.error.inj h
      have first : base = 0 := by
        rcases lower with first | ⟨x, found, reaches⟩
        · exact first
        · rw [here] at found
          obtain rfl := Option.some.inj found
          exact absurd above reaches
      subst first
      refine ⟨by omega, ?_, by omega⟩
      intro j x later found
      exact divided.above here found later above

/-- Where the first element that fails ends all that pass, taking while it holds is filtering. -/
theorem takeWhile_eq_filter {p : α → Bool} (h : xs.Pairwise fun a b => p a = false → p b = false) :
    xs.takeWhile p = xs.filter p := by
  induction xs with
  | nil => rfl
  | cons x rest ih =>
    obtain ⟨ends, later⟩ := List.pairwise_cons.mp h
    cases passes : p x with
    | true => rw [List.takeWhile_cons_of_pos passes, List.filter_cons_of_pos passes, ih later]
    | false =>
      have none_left : rest.filter p = [] := List.filter_eq_nil_iff.mpr
        fun y member => by simp [ends y member passes]
      rw [List.takeWhile_cons_of_neg (by simp [passes]), List.filter_cons_of_neg (by simp [passes]), none_left]

/-- What passes comes before what fails. -/
theorem filter_append_filter_not {p : α → Bool}
    (h : xs.Pairwise fun a b => p a = false → p b = false) :
    xs.filter p ++ xs.filter (fun x => !p x) = xs := by
  induction xs with
  | nil => rfl
  | cons x rest ih =>
    obtain ⟨ends, later⟩ := List.pairwise_cons.mp h
    cases passes : p x with
    | true =>
      rw [List.filter_cons_of_pos passes,
        List.filter_cons_of_neg (by simp [passes]), List.cons_append, ih later]
    | false =>
      have none_left : rest.filter p = [] := List.filter_eq_nil_iff.mpr
        fun y member => by simp [ends y member passes]
      have all_left : rest.filter (fun x => !p x) = rest :=
        List.filter_eq_self.mpr fun y member => by simp [ends y member passes]
      rw [List.filter_cons_of_neg
        (by simp [passes]), List.filter_cons_of_pos (by simp [passes]), none_left, all_left]
      rfl

theorem dropWhile_eq_filter {p : α → Bool} (h : xs.Pairwise fun a b => p a = false → p b = false) :
    xs.dropWhile p = xs.filter fun x => !p x := by
  have both := List.takeWhile_append_dropWhile (p := p) (l := xs)
  rw [takeWhile_eq_filter h] at both
  conv_rhs at both => rw [← filter_append_filter_not h]
  exact List.append_cancel_left both

/-- In a sorted list the search for an element finds it where it is. -/
theorem binarySearchBy_compare_iff {κ : Type*} [LinearOrder κ] {keys : List κ}
    (sorted : keys.Pairwise fun a b => a ≤ b) (k : κ) :
    (∃ i, binarySearchBy (fun a => compare a k) keys = .ok i) ↔ k ∈ keys := by
  constructor
  · rintro ⟨i, found⟩
    obtain ⟨x, at_i, equal⟩ := binarySearchBy_ok found
    obtain rfl := compare_eq_iff_eq.mp equal
    exact List.mem_of_getElem? at_i
  · intro member
    have divided : Divided (fun a => compare a k) keys := by
      refine sorted.imp ?_
      intro a b le
      rw [compare_lt_iff_lt, compare_lt_iff_lt, compare_gt_iff_gt, compare_gt_iff_gt]
      exact ⟨le.trans_lt, fun above => above.trans_le le⟩
    cases searched : binarySearchBy (fun a => compare a k) keys with
    | ok i => exact ⟨i, rfl⟩
    | error i =>
      obtain ⟨before, after, -⟩ := binarySearchBy_error divided searched
      obtain ⟨j, at_j⟩ := List.mem_iff_getElem?.mp member
      have equal : compare k k = .eq := compare_eq_iff_eq.mpr rfl
      rcases Nat.lt_or_ge j i with early | late
      · cases equal.symm.trans (before j k early at_j)
      · cases equal.symm.trans (after j k late at_j)

end FlushDB.Lib
