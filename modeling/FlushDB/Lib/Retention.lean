import Mathlib.Order.Defs.LinearOrder
import Mathlib.Data.Set.Insert

/-!
Collectors that keep the two newest marks. Several of them may work from old scans at once: an id
they have seen is still marked, or two newer marks have taken its place, and what lies below the
second-newest id of a scan lies below the second-newest mark.
-/

namespace FlushDB.Lib

variable {κ : Type*} [LinearOrder κ]

/-- The id lies below the second-newest mark. -/
def BelowSecond (marks : Set κ) (x : κ) : Prop :=
  ∃ a ∈ marks, ∃ b ∈ marks, x < a ∧ a < b

/-- The id is marked, or two newer ones are. -/
def Backed (marks : Set κ) (x : κ) : Prop :=
  x ∈ marks ∨ BelowSecond marks x

variable {marks later : Set κ} {x y : κ}

theorem BelowSecond.below (h : BelowSecond marks y) (less : x < y) : BelowSecond marks x := by
  obtain ⟨a, first, b, second, above, order⟩ := h
  exact ⟨a, first, b, second, less.trans above, order⟩

/-- What lies below two backed ids lies below two marks. -/
theorem Backed.belowSecond (lower : Backed marks x) (upper : Backed marks y) (order : x < y) {z : κ}
    (less : z < x) :
    BelowSecond marks z := by
  rcases lower with here | above
  · rcases upper with there | above
    · exact ⟨x, here, y, there, less, order⟩
    · exact above.below (less.trans order)
  · exact above.below less

section Change
variable (kept : ∀ k ∈ marks, Backed later k)
include kept

theorem BelowSecond.mono (h : BelowSecond marks x) : BelowSecond later x := by
  obtain ⟨a, first, b, second, above, order⟩ := h
  exact (kept a first).belowSecond (kept b second) order above

theorem Backed.mono (h : Backed marks x) : Backed later x := by
  rcases h with here | above
  · exact kept x here
  · exact Or.inr (above.mono kept)

end Change

/-- Taking away what lies below the second-newest mark keeps the rest backed. -/
theorem BelowSecond.backed_erase (h : BelowSecond marks y) :
    ∀ k ∈ marks, Backed (marks \ {y}) k := by
  intro k marked
  by_cases same : k = y
  · subst k
    obtain ⟨a, first, b, second, above, order⟩ := h
    exact Or.inr ⟨a, ⟨first, above.ne'⟩, b, ⟨second, (above.trans order).ne'⟩, above, order⟩
  · exact Or.inl ⟨marked, same⟩

end FlushDB.Lib
