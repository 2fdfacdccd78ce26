import Mathlib.Data.List.Basic
import Mathlib.Logic.Relation
import Mathlib.Algebra.GroupWithZero.Nat

/-!
Computations that can fail and can also stop: an index or a slice that leaves its list, and a sum
that leaves 64 bits, have no outcome at all. An outcome is a result or an error.
-/

namespace FlushDB.Lib

/-- `none` where the computation stops. -/
abbrev Checked (ε α : Type) := ExceptT ε Option α

namespace Checked
variable {ε α β γ : Type}

/-- The outcome of a computation that does not stop. -/
def outcome (x : Except ε α) : Checked ε α := ExceptT.mk (some x)

def add (a b : Nat) : Option Nat := if a + b < 2 ^ 64 then some (a + b) else none

def mul (a b : Nat) : Option Nat := if a * b < 2 ^ 64 then some (a * b) else none

def element (xs : List α) (i : Nat) : Option α := xs[i]?

def slice (xs : List α) (start stop : Nat) : Option (List α) :=
  if start ≤ stop ∧ stop ≤ xs.length then some ((xs.drop start).take (stop - start)) else none

def sliceFrom (xs : List α) (start : Nat) : Option (List α) :=
  if start ≤ xs.length then some (xs.drop start) else none

/-- So many elements from the `i`-th behind `start` on, each by its index. -/
def elements (xs : List α) (start i : Nat) : Nat → Option (List α)
  | 0 => some []
  | n + 1 => do
    let place ← add start i
    let x ← element xs place
    let rest ← elements xs start (i + 1) n
    return x :: rest

theorem add_inside {a b : Nat} (small : a + b < 2 ^ 64) : add a b = some (a + b) := if_pos small

theorem mul_inside {a b : Nat} (small : a * b < 2 ^ 64) : mul a b = some (a * b) := if_pos small

theorem slice_inside {xs : List α} {start stop : Nat} (ordered : start ≤ stop)
    (inside : stop ≤ xs.length) :
    slice xs start stop = some ((xs.drop start).take (stop - start)) := if_pos ⟨ordered, inside⟩

theorem sliceFrom_inside {xs : List α} {start : Nat} (inside : start ≤ xs.length) :
    sliceFrom xs start = some (xs.drop start) :=
  if_pos inside

theorem elements_inside {xs : List α} (small : xs.length < 2 ^ 64) {start i n : Nat}
    (inside : start + i + n ≤ xs.length) :
    elements xs start i n = some ((xs.drop (start + i)).take n) := by
  induction n generalizing i with
  | zero => simp [elements]
  | succ n ih =>
    have here : start + i < xs.length := by omega
    rw [elements, add_inside (by omega), ih (by omega), List.drop_eq_getElem_cons here, List.take_succ_cons]
    simp only [bind, Option.bind, element, List.getElem?_eq_getElem here]
    rfl

theorem some_bind (a : α) (f : α → Checked ε β) : ((some a : Option α) : Checked ε α) >>= f = f a :=
  rfl

theorem ok_bind (a : α) (f : α → Checked ε β) : outcome (.ok a) >>= f = f a := rfl

theorem outcome_map_id (x : Except ε α) : outcome (x.map id) = outcome x := by
  cases x with
  | error e => rfl
  | ok a => rfl

/-- What follows an outcome has an outcome, if it has one after every result. -/
theorem outcome_map_bind {x : Except ε α} {h : α → γ} {f : γ → Checked ε β} {g : α → Except ε β}
    (later : ∀ a, x = .ok a → f (h a) = outcome (g a)) :
    (outcome (x.map h) >>= f) = outcome (x >>= g) := by
  cases x with
  | error e => rfl
  | ok a => exact later a rfl

theorem outcome_bind {x : Except ε α} {f : α → Checked ε β} {g : α → Except ε β}
    (later : ∀ a, x = .ok a → f a = outcome (g a)) : (outcome x >>= f) = outcome (x >>= g) := by
  rw [← outcome_map_id]
  exact outcome_map_bind later

/-- Where the rest of a list begins. -/
def offset (whole rest : List α) : Nat := whole.length - rest.length

theorem offset_add {whole rest : List α} (suffix : rest <:+ whole) :
    offset whole rest + rest.length = whole.length :=
  Nat.sub_add_cancel suffix.length_le

theorem drop_offset {whole rest : List α} (suffix : rest <:+ whole) :
    whole.drop (offset whole rest) = rest := by
  obtain ⟨front, rfl⟩ := suffix
  rw [offset, List.length_append, Nat.add_sub_cancel]
  exact List.drop_left

theorem offset_drop {whole rest : List α} {n : Nat} (suffix : rest <:+ whole)
    (inside : n ≤ rest.length) :
    offset whole (rest.drop n) = offset whole rest + n := by
  have length := offset_add suffix
  rw [offset, List.length_drop]
  omega

/-- What is cut out where the rest begins is the beginning of the rest. -/
theorem slice_offset {whole rest : List α} {n : Nat} (suffix : rest <:+ whole)
    (inside : n ≤ rest.length) :
    slice whole (offset whole rest) (offset whole rest + n) = some (rest.take n) := by
  have length := offset_add suffix
  rw [slice_inside (by omega) (by omega), Nat.add_sub_cancel_left, drop_offset suffix]

/-- `x` does what `y` does where the condition holds, and stops where it does not. -/
def Tracks (fits : Prop) (x : Checked ε γ) (y : Except ε β) (view : β → γ) : Prop :=
  (fits → x = outcome (y.map view)) ∧ (¬fits → x = none)

namespace Tracks
variable {δ ζ : Type} {fits : Prop} {x : Checked ε γ} {y : Except ε β} {view : β → γ}

/-- A tracked computation does not stop exactly where the condition holds. -/
theorem isSome_iff (tracks : Tracks fits x y view) : (∃ r : Except ε γ, x = some r) ↔ fits := by
  constructor
  · rintro ⟨r, found⟩
    by_contra stops
    cases found.symm.trans (tracks.2 stops)
  · intro holds
    exact ⟨_, tracks.1 holds⟩

theorem congr {fits' : Prop} (tracks : Tracks fits x y view) (same : fits' ↔ fits) :
    Tracks fits' x y view :=
  ⟨fun holds => tracks.1 (same.mp holds), fun stops => tracks.2 fun holds => stops (same.mpr holds)⟩

theorem total (same : x = outcome (y.map view)) : Tracks True x y view :=
  ⟨fun _ => same, fun stops => absurd trivial stops⟩

/-- The condition of two steps is that of the first and, after its result, that of the second. -/
theorem bind {f : γ → Checked ε ζ} {g : β → Except ε δ} {later : β → Prop} {view' : δ → ζ}
    (first : Tracks fits x y view)
    (second : ∀ b, y = .ok b → Tracks (later b) (f (view b)) (g b) view') :
    Tracks (fits ∧ ∀ b, y = .ok b → later b) (x >>= f) (y >>= g) view' := by
  constructor
  · rintro ⟨holds, after⟩
    rw [first.1 holds]
    cases y with
    | error e => rfl
    | ok b => exact (second b rfl).1 (after b rfl)
  · intro stops
    by_cases holds : fits
    · rw [first.1 holds]
      cases y with
      | error e => exact absurd ⟨holds, fun b given => nomatch given⟩ stops
      | ok b =>
        refine (second b rfl).2 fun after => stops ⟨holds, ?_⟩
        intro c same
        obtain rfl := Except.ok.inj same
        exact after
    · rw [first.2 holds]
      rfl

/-- A step that never stops adds nothing to the condition. -/
theorem map_bind {f : γ → Checked ε ζ} {g : β → Except ε δ} {later : β → Prop} {view' : δ → ζ}
    (second : ∀ b, y = .ok b → Tracks (later b) (f (view b)) (g b) view') :
    Tracks (∀ b, y = .ok b → later b) (outcome (y.map view) >>= f) (y >>= g) view' :=
  ((total rfl).bind second).congr ⟨fun later => ⟨trivial, later⟩, fun both => both.2⟩

theorem outcome_bind {f : β → Checked ε ζ} {g : β → Except ε δ} {later : β → Prop} {view' : δ → ζ}
    (second : ∀ b, y = .ok b → Tracks (later b) (f b) (g b) view') :
    Tracks (∀ b, y = .ok b → later b) (outcome y >>= f) (y >>= g) view' := by
  rw [← outcome_map_id y]
  exact map_bind second

/-- After the last step that can stop. -/
theorem bind_total {f : γ → Checked ε ζ} {g : β → Except ε δ} {view' : δ → ζ}
    (first : Tracks fits x y view)
    (second : ∀ b, y = .ok b → Tracks True (f (view b)) (g b) view') :
    Tracks fits (x >>= f) (y >>= g) view' :=
  (first.bind second).congr ⟨fun holds => ⟨holds, fun _ _ => trivial⟩, fun both => both.1⟩

end Tracks

/-- Along a loop: what holds at every step holds at the first, and at every step from the second
on. -/
theorem forall_reached_iff {σ : Type} {next : σ → σ → Prop} {p : σ → Prop} {s : σ} :
    (∀ t, Relation.ReflTransGen next s t → p t) ↔ p s ∧ ∀ u, next s u →
      ∀ t, Relation.ReflTransGen next u t → p t := by
  constructor
  · intro all
    exact ⟨all s .refl, fun u first t later => all t (.head first later)⟩
  · rintro ⟨here, later⟩ t reached
    rcases Relation.ReflTransGen.cases_head reached with rfl | ⟨u, first, rest⟩
    · exact here
    · exact later u first t rest

end Checked

end FlushDB.Lib
