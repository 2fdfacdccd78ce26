import Mathlib.Data.List.Basic

/-!
One pass over a sorted list in which an element that touches the whole before it is joined to it,
as intervals are. `gather` keeps every whole with its parts; what holds of single elements and is
kept by a join holds of every whole and its parts.
-/

namespace FlushDB.Lib

variable {α : Type*} (touches : α → α → Bool) (join : α → α → α)

/-- Goes on from the last whole. -/
def sweep : α → List α → List α
  | whole, [] => [whole]
  | whole, x :: rest => if touches whole x then sweep (join whole x) rest else whole :: sweep x rest

/-- The wholes with their parts. -/
def gather : α → List α → List α → List (α × List α)
  | whole, parts, [] => [(whole, parts)]
  | whole, parts, x :: rest =>
    if touches whole x then gather (join whole x) (parts ++ [x]) rest
      else (whole, parts) :: gather x [x] rest

theorem map_gather (whole : α) (parts rest : List α) :
    (gather touches join whole parts rest).map Prod.fst = sweep touches join whole rest := by
  induction rest generalizing whole parts with
  | nil => rfl
  | cons x rest ih =>
    unfold gather sweep
    split
    · exact ih _ _
    · rw [List.map_cons, ih]

theorem length_sweep_le (whole : α) (rest : List α) :
    (sweep touches join whole rest).length ≤ rest.length + 1 := by
  induction rest generalizing whole with
  | nil => exact Nat.le_refl 1
  | cons x rest ih =>
    unfold sweep
    split
    · exact Nat.le_succ_of_le (ih _)
    · exact Nat.succ_le_succ (ih x)

/-- Every element is a part of one whole. -/
theorem flatMap_gather (whole : α) (parts rest : List α) :
    (gather touches join whole parts rest).flatMap Prod.snd = parts ++ rest := by
  induction rest generalizing whole parts with
  | nil => simp [gather]
  | cons x rest ih =>
    unfold gather
    split
    · rw [ih, List.append_assoc]
      rfl
    · rw [List.flatMap_cons, ih]
      rfl

variable {touches join}

/-- The rule for wholes and their parts; `before` is the order that the elements come in. -/
theorem gather_rule {before : α → α → Prop} {made : α → List α → Prop} (single : ∀ x, made x [x])
    (joined : ∀ whole parts x, made whole parts → before whole x → touches whole x = true →
      made (join whole x) (parts ++ [x]))
    (leads : ∀ whole x y, before whole x → before whole y → before (join whole x) y) {whole : α}
    {parts rest : List α} (start : made whole parts) (sorted : (whole :: rest).Pairwise before) :
    ∀ group ∈ gather touches join whole parts rest, made group.1 group.2 := by
  induction rest generalizing whole parts with
  | nil =>
    intro group member
    rw [List.mem_singleton.mp member]
    exact start
  | cons x rest ih =>
    obtain ⟨first, later⟩ := List.pairwise_cons.mp sorted
    have here := first x List.mem_cons_self
    unfold gather
    split
    · rename_i touch
      refine ih (joined whole parts x start here touch)
        (List.pairwise_cons.mpr ⟨?_, (List.pairwise_cons.mp later).2⟩)
      intro y member
      exact leads whole x y here (first y (List.mem_cons_of_mem _ member))
    · intro group member
      rcases List.mem_cons.mp member with rfl | after
      · exact start
      · exact ih (single x) later group after

end FlushDB.Lib
