import Mathlib.Logic.Basic

/-!
Two states side by side. A program is blind to the difference between related states when both
sides answer alike and leave related states; a step of somebody else is unseen when the state it
leaves is related to what the state before it was related to.
-/

namespace FlushDB.Lib

variable {σ α ε β : Type*} {R : σ → σ → Prop}

/-- Both sides answer alike and stay related. -/
def Alike (R : σ → σ → Prop) (f : σ → α × σ) : Prop :=
  ∀ s t, R s t → ∃ a u v, f s = (a, u) ∧ f t = (a, v) ∧ R u v

/-- Steps of the left side alone keep the relation. -/
def Unseen (R : σ → σ → Prop) (f : σ → α × σ) : Prop := ∀ s t, R s t → R (f s).2 t

theorem Alike.pure (a : α) : Alike R fun s => (a, s) := fun s t h => ⟨a, s, t, rfl, rfl, h⟩

theorem Alike.answers {f : σ → α × σ} (h : Alike R f) {s t : σ} (related : R s t) :
    (f s).1 = (f t).1 ∧ R (f s).2 (f t).2 := by
  obtain ⟨a, u, v, left, right, next⟩ := h s t related
  rw [left, right]
  exact ⟨rfl, next⟩

theorem Unseen.pure (a : α) : Unseen R fun s => (a, s) := fun _ _ h => h

end FlushDB.Lib
