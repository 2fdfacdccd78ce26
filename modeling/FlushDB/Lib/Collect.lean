import Mathlib.Data.List.Forall2

/-!
A loop that gathers results and carries a state, and that stops at the first error. The state of a
failed step is kept. `collect_rule` takes what a step does to what the loop does.
-/

namespace FlushDB.Lib

variable {α β γ σ ε : Type*} (f : α → σ → Except ε (List β) × σ)

def collect : List α → List β → σ → Except ε (List β) × σ
  | [], results, state => (.ok results, state)
  | a :: rest, results, state =>
    match f a state with
    | (.error e, state) => (.error e, state)
    | (.ok more, state) => collect rest (results ++ more) state

variable {f}

/-- The state keeps the invariant, and where every step has a result for each of its items, the loop
has one for each item of its steps. -/
theorem collect_rule {inv : σ → Prop} (items : α → List γ) {gives : γ → β → Prop} {todo : List α}
    (step : ∀ a ∈ todo, ∀ state, inv state →
      inv (f a state).2 ∧ ∀ bs, (f a state).1 = .ok bs → List.Forall₂ gives (items a) bs)
    (results : List β) {state : σ} (start : inv state) :
    inv (collect f todo results state).2 ∧
      ∀ all, (collect f todo results state).1 = .ok all →
        ∃ more, List.Forall₂ gives (todo.flatMap items) more ∧ all = results ++ more := by
  induction todo generalizing results state with
  | nil =>
    refine ⟨start, ?_⟩
    intro all done
    cases done
    exact ⟨[], .nil, (List.append_nil _).symm⟩
  | cons a rest ih =>
    obtain ⟨kept, given⟩ := step a List.mem_cons_self state start
    unfold collect
    split
    · rename_i e after result
      rw [result] at kept
      exact ⟨kept, fun all failed => nomatch failed⟩
    · rename_i bs after result
      rw [result] at kept given
      obtain ⟨kept_rest, given_rest⟩ := ih (fun b member => step b (List.mem_cons_of_mem _ member))
        (results ++ bs) kept
      refine ⟨kept_rest, ?_⟩
      intro all done
      obtain ⟨more, made, rfl⟩ := given_rest all done
      refine ⟨bs ++ more, ?_, List.append_assoc _ _ _⟩
      rw [List.flatMap_cons]
      exact List.rel_append (given bs rfl) made

/-- Where no step fails the loop does not. -/
theorem collect_ok {inv : σ → Prop} {todo : List α}
    (kept : ∀ a ∈ todo, ∀ state, inv state → inv (f a state).2)
    (ok : ∀ a ∈ todo, ∀ state, inv state → ∃ bs, (f a state).1 = .ok bs) (results : List β)
    {state : σ} (start : inv state) : ∃ all, (collect f todo results state).1 = .ok all := by
  induction todo generalizing results state with
  | nil => exact ⟨results, rfl⟩
  | cons a rest ih =>
    have after := kept a List.mem_cons_self state start
    obtain ⟨bs, done⟩ := ok a List.mem_cons_self state start
    unfold collect
    split
    · rename_i e next result
      rw [result] at done
      cases done
    · rename_i more next result
      rw [result] at after
      exact ih (fun b member => kept b (List.mem_cons_of_mem _ member))
        (fun b member => ok b (List.mem_cons_of_mem _ member)) _ after

end FlushDB.Lib
