import FlushDB.Lib.BinarySearch
import FlushDB.Lib.Run

/-!
Chains of nodes, each with at most one successor: walking a chain as long as a test holds, and
linking a new node behind the node where the walk ends.
-/

namespace FlushDB.Lib
variable {α : Type*} {next next' : α → Option α}

/-- From the link `p` on, `next` leads through exactly the nodes of the list. -/
def Linked (next : α → Option α) : Option α → List α → Prop
  | p, [] => p = none
  | p, a :: rest => p = some a ∧ Linked next (next a) rest

/-- Goes on while there is a next node and it passes the test; `fuel` bounds the steps. -/
def walk (next : α → Option α) (less : α → Bool) : Nat → α → α
  | 0, current => current
  | fuel + 1, current =>
    match next current with
    | none => current
    | some a => if less a then walk next less fuel a else current

namespace Linked

theorem head {p : Option α} {nodes : List α} (h : Linked next p nodes) : p = nodes.head? := by
  cases nodes with
  | nil => exact h
  | cons a rest => exact h.1

theorem congr {p : Option α} {nodes : List α} (h : Linked next p nodes)
    (same : ∀ a ∈ nodes, next' a = next a) :
    Linked next' p nodes := by
  induction nodes generalizing p with
  | nil => exact h
  | cons a rest ih =>
    obtain ⟨here, later⟩ := h
    refine ⟨here, ?_⟩
    rw [same a List.mem_cons_self]
    exact ih later fun b member => same b (List.mem_cons_of_mem _ member)

/-- Behind its last node a first part of a chain is followed by the rest. -/
theorem suffix {start : α} {first rest : List α} (h : Linked next (next start) (first ++ rest)) :
    Linked next (next (first.getLast?.getD start)) rest := by
  induction first generalizing start with
  | nil => exact h
  | cons a more ih =>
    have later := ih h.2
    rwa [List.getLast?_cons, Option.getD_some]

/-- A new node linked behind the last node of the first part. -/
theorem insert {start new : α} {first rest : List α} (h : Linked next (next start) (first ++ rest))
    (distinct : (start :: (first ++ rest)).Nodup)
    (before : next' (first.getLast?.getD start) = some new)
    (after : next' new = next (first.getLast?.getD start))
    (others : ∀ a ∈ start :: (first ++ rest), a ≠ first.getLast?.getD start → next' a = next a) :
    Linked next' (next' start) (first ++ new :: rest) := by
  induction first generalizing start with
  | nil =>
    refine ⟨before, ?_⟩
    rw [after]
    refine Linked.congr h ?_
    intro a member
    refine others a (List.mem_cons_of_mem _ member) ?_
    rintro rfl
    exact (List.nodup_cons.mp distinct).1 member
  | cons a more ih =>
    obtain ⟨here, later⟩ := h
    obtain ⟨outside, distinct'⟩ := List.nodup_cons.mp distinct
    rw [List.getLast?_cons, Option.getD_some] at before after others
    have start_same : next' start = next start := by
      refine others start List.mem_cons_self ?_
      intro same
      rcases List.eq_nil_or_concat more with rfl | ⟨init, last, rfl⟩
      · rw [same] at outside
        exact outside List.mem_cons_self
      · rw [same] at outside
        apply outside
        simp
    refine ⟨start_same.trans here, ih later distinct' before after ?_⟩
    intro b member apart
    exact others b (List.mem_cons_of_mem _ member) apart

end Linked

/-- The walk ends at the last node of the chain that passes the test. -/
theorem walk_eq {less : α → Bool} {start : α} {first rest : List α} {fuel : Nat}
    (linked : Linked next (next (first.getLast?.getD start)) rest)
    (passed : ∀ a ∈ first, less a = true)
    (ordered : rest.Pairwise fun a b => less a = false → less b = false)
    (enough : rest.length ≤ fuel) :
    walk next less fuel (first.getLast?.getD start) =
      ((first ++ rest).filter less).getLast?.getD start := by
  have whole : first.filter less = first := List.filter_eq_self.mpr passed
  induction fuel generalizing first rest with
  | zero =>
    have nothing : rest = [] := List.length_eq_zero_iff.mp (Nat.le_zero.mp enough)
    rw [nothing, List.append_nil, whole]
    rfl
  | succ fuel ih =>
    unfold walk
    cases rest with
    | nil =>
      rw [show next (first.getLast?.getD start) = none from linked, List.append_nil, whole]
    | cons a more =>
      obtain ⟨here, later⟩ := linked
      obtain ⟨after, ordered⟩ := List.pairwise_cons.mp ordered
      rw [here]
      dsimp only
      split
      · rename_i passes
        have last : (first ++ [a]).getLast?.getD start = a := by simp
        have next_step := @ih (first ++ [a]) more (by rwa [last]) (by
          intro b member
          rcases List.mem_append.mp member with old | new
          · exact passed b old
          · rw [List.mem_singleton.mp new]
            exact passes) ordered (by simpa using enough) (by simp [whole, passes])
        rw [last, List.append_assoc, List.singleton_append] at next_step
        exact next_step
      · rename_i stops
        have stops : less a = false := Bool.eq_false_iff.mpr stops
        have none_later : more.filter less = [] := by
          rw [List.filter_eq_nil_iff]
          intro b member
          rw [after b member stops]
          simp
        rw [List.filter_append, whole, List.filter_cons_of_neg (by simp [stops]), none_later, List.append_nil]

/-- Wherever on the chain it starts, when all before that passes the test. -/
theorem walk_from {less : α → Bool} {start current : α} {nodes : List α} {fuel : Nat}
    (linked : Linked next (next start) nodes)
    (ordered : nodes.Pairwise fun a b => less a = false → less b = false)
    (on_chain : current = start ∨ (current ∈ nodes ∧ less current = true))
    (enough : nodes.length ≤ fuel) :
    walk next less fuel current = (nodes.filter less).getLast?.getD start := by
  rcases on_chain with rfl | ⟨member, passes⟩
  · exact @walk_eq _ _ less current [] nodes fuel linked (by simp) ordered enough
  · obtain ⟨before, after, rfl⟩ := List.append_of_mem member
    have split : before ++ current :: after = (before ++ [current]) ++ after := by simp
    rw [split] at linked ordered enough ⊢
    have passed : ∀ a ∈ before ++ [current], less a = true := by
      intro a inside
      rcases List.mem_append.mp inside with early | here
      · by_contra fails
        have := (List.pairwise_append.mp (List.pairwise_append.mp ordered).1).2.2 a early current
          (List.mem_singleton_self _)
          (Bool.eq_false_iff.mpr fails)
        rw [passes] at this
        cases this
      · rw [List.mem_singleton.mp here]
        exact passes
    have last : (before ++ [current]).getLast?.getD start = current := by simp
    have walked := @walk_eq _ next less start (before ++ [current]) after fuel linked.suffix passed
      (List.pairwise_append.mp ordered).2.1 (by simp only [List.length_append] at enough; omega)
    rwa [last] at walked

end FlushDB.Lib
