import Mathlib.Data.List.Basic
import Mathlib.Data.List.Perm.Basic
import Mathlib.Data.List.Flatten
import Mathlib.Order.Basic
import Mathlib.Order.Lattice

/-!
Choosing from several sorted sources. `maxBy` is the element a max-heap gives up; the
smallest head of sorted sources is the smallest of all that is left, and taking it leaves
the rest.
-/

namespace FlushDB.Lib
variable {α : Type*}

/-- An element that no other beats, the earlier one of two equal ones. -/
def maxBy (beats : α → α → Bool) : List α → Option α
  | [] => none
  | x :: rest =>
    match maxBy beats rest with
    | none => some x
    | some y => if beats y x then some y else some x

theorem maxBy_eq_none {beats : α → α → Bool} {l : List α} (h : maxBy beats l = none) : l = [] := by
  cases l with
  | nil => rfl
  | cons x rest =>
    unfold maxBy at h
    split at h
    · cases h
    · split at h <;> cases h

theorem maxBy_mem {beats : α → α → Bool} {l : List α} {m : α} (h : maxBy beats l = some m) :
    m ∈ l := by
  induction l generalizing m with
  | nil => cases h
  | cons x rest ih =>
    unfold maxBy at h
    split at h
    · obtain rfl := Option.some.inj h
      exact List.mem_cons_self
    · rename_i y found
      split at h
      · obtain rfl := Option.some.inj h
        exact List.mem_cons_of_mem _ (ih found)
      · obtain rfl := Option.some.inj h
        exact List.mem_cons_self

theorem maxBy_unbeaten {beats : α → α → Bool} (asymm : ∀ a b, beats a b = true → beats b a = false)
    (trans : ∀ a b c, beats b a = false → beats c b = false → beats c a = false) {l : List α}
    {m : α} (h : maxBy beats l = some m) : ∀ z ∈ l, beats z m = false := by
  have irrefl : ∀ a, beats a a = false := by
    intro a
    cases self : beats a a with
    | false => rfl
    | true => exact absurd (asymm a a self) (by simp [self])
  induction l generalizing m with
  | nil => cases h
  | cons x rest ih =>
    intro z member
    unfold maxBy at h
    split at h
    · rename_i nothing
      obtain rfl := Option.some.inj h
      rw [maxBy_eq_none nothing] at member
      rw [List.mem_singleton.mp member]
      exact irrefl x
    · rename_i y found
      split at h
      · rename_i wins
        obtain rfl := Option.some.inj h
        rcases List.mem_cons.mp member with rfl | later
        · exact asymm y z wins
        · exact ih found z later
      · rename_i loses
        obtain rfl := Option.some.inj h
        rcases List.mem_cons.mp member with rfl | later
        · exact irrefl z
        · exact trans x y z (by simpa using loses) (ih found z later)

theorem eq_take_cons_drop {xs : List α} {i : Nat} {x : α} (h : xs[i]? = some x) :
    xs = xs.take i ++ x :: xs.drop (i + 1) := by
  obtain ⟨bound, here⟩ := List.getElem?_eq_some_iff.mp h
  conv_lhs => rw [← List.take_append_drop i xs]
  rw [List.drop_eq_getElem_cons bound, here]

/-- A stable sort of a part is the part of the sort. -/
theorem filter_mergeSort {le : α → α → Bool} (trans : ∀ a b c, le a b → le b c → le a c)
    (total : ∀ a b, le a b || le b a) (p : α → Bool) (l : List α) :
    (l.mergeSort le).filter p = (l.filter p).mergeSort le := by
  induction l with
  | nil => simp
  | cons a rest ih =>
    obtain ⟨front, back, whole, sorted_rest, before⟩ := List.mergeSort_cons trans total a rest
    have order := List.pairwise_mergeSort trans total (a :: rest)
    rw [whole] at order ⊢
    rw [sorted_rest] at ih
    obtain ⟨-, tail_order, -⟩ := List.pairwise_append.mp order
    have behind := (List.pairwise_cons.mp tail_order).1
    cases kept : p a with
    | false =>
      rw [List.filter_append, List.filter_cons_of_neg (by simp [kept]), ← List.filter_append, ih,
        List.filter_cons_of_neg (by simp [kept])]
    | true =>
      obtain ⟨front', back', whole', sorted_rest', before'⟩ :=
        List.mergeSort_cons trans total a (rest.filter p)
      have order' := List.pairwise_mergeSort trans total (a :: rest.filter p)
      rw [whole'] at order'
      obtain ⟨-, tail_order', -⟩ := List.pairwise_append.mp order'
      have behind' := (List.pairwise_cons.mp tail_order').1
      rw [List.filter_append, List.filter_cons_of_pos kept, List.filter_cons_of_pos kept, whole']
      rw [sorted_rest', List.filter_append] at ih
      -- both lists are cut where the elements stop being before `a`
      have cut : ∀ {xs ys : List α}, (∀ b ∈ xs, (!le a b) = true) → (∀ b ∈ ys, le a b = true) →
          (xs ++ ys).takeWhile (fun b => !le a b) = xs ∧
            (xs ++ ys).dropWhile (fun b => !le a b) = ys := by
        intro xs ys first second
        rw [List.takeWhile_append_of_pos first, List.dropWhile_append_of_pos first]
        cases ys with
        | nil => simp
        | cons y more =>
          have stop := second y List.mem_cons_self
          simp [stop]
      obtain ⟨front_eq, back_eq⟩ := @cut (front.filter p) (back.filter p)
        (fun b member => before b (List.mem_of_mem_filter member))
          (fun b member => behind b (List.mem_of_mem_filter member))
      obtain ⟨front_eq', back_eq'⟩ := cut before' behind'
      rw [ih] at front_eq back_eq
      rw [front_eq'.symm.trans front_eq, back_eq'.symm.trans back_eq]

/-- In an ascending list what is skipped up to `start` and taken up to `stop` is what lies between
them. -/
theorem between_eq_filter {κ : Type*} [LinearOrder κ] {key : α → κ} {xs : List α}
    (ascends : xs.Pairwise fun a b => key a ≤ key b) (start stop : κ) :
    (xs.dropWhile fun x => key x < start).takeWhile (fun x => key x < stop) =
      xs.filter fun x => start ≤ key x ∧ key x < stop := by
  induction xs with
  | nil => rfl
  | cons x rest ih =>
    obtain ⟨after, ascends⟩ := List.pairwise_cons.mp ascends
    by_cases early : key x < start
    · rw [List.dropWhile_cons_of_pos (by simpa using early), List.filter_cons_of_neg (by simp [early.not_ge])]
      exact ih ascends
    · have reached : ∀ y ∈ rest, ¬ key y < start :=
        fun y member less => early ((after y member).trans_lt less)
      have kept : rest.dropWhile (fun x => decide (key x < start)) = rest := by
        cases rest with
        | nil => rfl
        | cons y more =>
          rw [List.dropWhile_cons_of_neg (by simpa using reached y List.mem_cons_self)]
      rw [List.dropWhile_cons_of_neg (by simpa using early)]
      by_cases inside : key x < stop
      · have later := ih ascends
        rw [kept] at later
        rw [List.takeWhile_cons_of_pos (by simpa using inside),
          List.filter_cons_of_pos (by simpa using ⟨not_lt.mp early, inside⟩), later]
      · rw [List.takeWhile_cons_of_neg (by simpa using inside), List.filter_cons_of_neg (by simp [inside])]
        refine (List.filter_eq_nil_iff.mpr ?_).symm
        intro y member
        have past : stop ≤ key y := (not_lt.mp inside).trans (after y member)
        simp [past.not_gt]

theorem forall₂_mem_right {β : Type*} {R : α → β → Prop} {xs : List α} {ys : List β}
    (h : List.Forall₂ R xs ys) {y : β} (member : y ∈ ys) : ∃ x ∈ xs, R x y := by
  induction h with
  | nil => cases member
  | cons here _ ih =>
    rcases List.mem_cons.mp member with rfl | later
    · exact ⟨_, List.mem_cons_self, here⟩
    · obtain ⟨x, listed, related⟩ := ih later
      exact ⟨x, List.mem_cons_of_mem _ listed, related⟩

theorem flatMap_filter_of_nil {β : Type*} (f : α → List β) (p : α → Bool) (xs : List α)
    (dropped : ∀ x ∈ xs, p x = false → f x = []) : (xs.filter p).flatMap f = xs.flatMap f := by
  induction xs with
  | nil => rfl
  | cons x rest ih =>
    have later := ih fun y member => dropped y (List.mem_cons_of_mem _ member)
    cases kept : p x with
    | true => rw [List.filter_cons_of_pos kept, List.flatMap_cons, List.flatMap_cons, later]
    | false =>
      rw [List.filter_cons_of_neg
        (by simp [kept]), later, List.flatMap_cons, dropped x List.mem_cons_self kept, List.nil_append]

/-- Taking the head of one source leaves the rest of all of them. -/
theorem flatten_set_perm {sources : List (List α)} {i : Nat} {x : α} {rest : List α}
    (h : sources[i]? = some (x :: rest)) :
    sources.flatten.Perm (x :: (sources.set i rest).flatten) := by
  induction sources generalizing i with
  | nil => cases h
  | cons first others ih =>
    cases i with
    | zero =>
      rw [List.getElem?_cons_zero] at h
      obtain rfl := Option.some.inj h
      simp
    | succ i =>
      rw [List.getElem?_cons_succ] at h
      rw [List.set_cons_succ, List.flatten_cons, List.flatten_cons]
      exact ((ih h).append_left first).trans List.perm_middle

/-- What is below every head is below everything. -/
theorem le_flatten_of_le_heads {le : α → α → Prop} (trans : ∀ a b c, le a b → le b c → le a c)
    {sources : List (List α)} (sorted : ∀ s ∈ sources, s.Pairwise le) {x : α}
    (heads : ∀ s ∈ sources, ∀ y ∈ s.head?, le x y) : ∀ y ∈ sources.flatten, le x y := by
  intro y member
  obtain ⟨s, listed, inside⟩ := List.mem_flatten.mp member
  cases s with
  | nil => cases inside
  | cons head tail =>
    have first := heads _ listed head rfl
    rcases List.mem_cons.mp inside with rfl | later
    · exact first
    · exact trans x head y first ((List.pairwise_cons.mp (sorted _ listed)).1 y later)

end FlushDB.Lib
