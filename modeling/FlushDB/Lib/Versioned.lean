import Mathlib.Data.List.MinMax
import Mathlib.Logic.Function.Basic

/-!
Maps that are written key by key, and stores that keep versions of their keys under numbers and show
the version with the highest one. What comes later in the numbers is written over what was there.
-/

namespace FlushDB.Lib

variable {κ ν α : Type*}

/-- The writes in their order. -/
def written [DecidableEq κ] (m : κ → ν) (writes : List (κ × ν)) : κ → ν :=
  writes.foldl (fun m w => Function.update m w.1 w.2) m

section Written
variable [DecidableEq κ]

@[simp] theorem written_nil (m : κ → ν) : written m [] = m := rfl

@[simp] theorem written_cons (m : κ → ν) (w : κ × ν) (rest : List (κ × ν)) :
    written m (w :: rest) = written (Function.update m w.1 w.2) rest := rfl

theorem written_append (m : κ → ν) (first later : List (κ × ν)) :
    written m (first ++ later) = written (written m first) later :=
  List.foldl_append

theorem written_concat (m : κ → ν) (writes : List (κ × ν)) (w : κ × ν) :
    written m (writes ++ [w]) = Function.update (written m writes) w.1 w.2 := by
  rw [written_append]
  rfl

/-- Writes of what is there already change nothing. -/
theorem written_same {m : κ → ν} {writes : List (κ × ν)} (there : ∀ w ∈ writes, m w.1 = w.2) :
    written m writes = m := by
  induction writes with
  | nil => rfl
  | cons w rest ih =>
    rw [written_cons, ← there w List.mem_cons_self, Function.update_eq_self]
    exact ih fun w' member => there w' (List.mem_cons_of_mem _ member)

/-- The last write of a key counts. -/
theorem written_cases (m : κ → ν) (writes : List (κ × ν)) (k : κ) :
    (∃ (i : Nat) (w : κ × ν), writes[i]? = some w ∧ w.1 = k ∧ written m writes k = w.2 ∧
      ∀ (j : Nat) (w' : κ × ν), writes[j]? = some w' → w'.1 = k → j ≤ i) ∨
      ((∀ w ∈ writes, w.1 ≠ k) ∧ written m writes k = m k) := by
  induction writes using List.reverseRecOn with
  | nil => exact Or.inr ⟨by rintro w ⟨⟩, rfl⟩
  | append_singleton before last ih =>
    have length : (before ++ [last])[before.length]? = some last := List.getElem?_concat_length
    rw [written_concat]
    by_cases here : last.1 = k
    · refine Or.inl ⟨before.length, last, length, here, ?_, ?_⟩
      · rw [← here, Function.update_self]
      · intro j w' found _
        have bound := (List.getElem?_eq_some_iff.mp found).1
        rw [List.length_append, List.length_singleton] at bound
        omega
    · rw [Function.update_of_ne (Ne.symm here)]
      rcases ih with ⟨i, w, found, same, shown, latest⟩ | ⟨absent, kept⟩
      · have bound := (List.getElem?_eq_some_iff.mp found).1
        refine Or.inl ⟨i, w, by rw [List.getElem?_append_left bound, found], same, shown, ?_⟩
        intro j w' found' same'
        rcases Nat.lt_or_ge j before.length with early | late
        · rw [List.getElem?_append_left early] at found'
          exact latest j w' found' same'
        · have bound' := (List.getElem?_eq_some_iff.mp found').1
          rw [List.length_append, List.length_singleton] at bound'
          obtain rfl : j = before.length := by omega
          rw [length] at found'
          exact absurd (Option.some.inj found' ▸ same') here
      · refine Or.inr ⟨?_, kept⟩
        intro w member
        rcases List.mem_append.mp member with old | new
        · exact absent w old
        · rw [List.mem_singleton.mp new]
          exact here

end Written

/-- The view shows of each key its version with the highest number, and what the base shows where
there is no version. -/
def Shows (key : α → κ) (rank : α → Nat) (value : α → ν) (versions : α → Prop) (base view : κ → ν) :
    Prop :=
  ∀ k, (∃ a, versions a ∧ key a = k ∧ view k = value a ∧ ∀ b, versions b → key b = k →
    rank b ≤ rank a) ∨
    ((∀ a, versions a → key a ≠ k) ∧ view k = base k)

/-- Versions of one key that have one number are the same. -/
def Told (key : α → κ) (rank : α → Nat) (versions : α → Prop) : Prop :=
  ∀ a b, versions a → versions b → key a = key b → rank a = rank b → a = b

namespace Shows
variable {key : α → κ} {rank : α → Nat} {value : α → ν} {versions versions' upper lower : α → Prop}
  {base mid view view' : κ → ν}

theorem unique (told : Told key rank versions) (h : Shows key rank value versions base view)
    (h' : Shows key rank value versions base view') : view = view' := by
  funext k
  rcases h k with ⟨a, held, same, shown, best⟩ | ⟨absent, shown⟩
  · rcases h' k with ⟨b, held', same', shown', best'⟩ | ⟨absent', -⟩
    · have order := best b held' same'
      have order' := best' a held same
      rw [shown, shown', told a b held held' (same.trans same'.symm) (by omega)]
    · exact absurd same (absent' a held)
  · rcases h' k with ⟨b, held', same', -⟩ | ⟨-, shown'⟩
    · exact absurd same' (absent b held')
    · rw [shown, shown']

theorem congr (same : ∀ a, versions' a ↔ versions a) (h : Shows key rank value versions base view) :
    Shows key rank value versions' base view := by
  intro k
  rcases h k with ⟨a, held, key, shown, best⟩ | ⟨absent, shown⟩
  · exact Or.inl ⟨a, (same a).mpr held, key, shown, fun b held' => best b ((same b).mp held')⟩
  · exact Or.inr ⟨fun a held => absent a ((same a).mp held), shown⟩

/-- No version shows the base. -/
theorem empty (none : ∀ a, ¬ versions a) : Shows key rank value versions base base :=
  fun _ => Or.inr ⟨fun a held => absurd held (none a), rfl⟩

/-- Versions above others are shown over them. -/
theorem layer (above : ∀ a b, upper a → lower b → rank b ≤ rank a)
    (first : Shows key rank value lower base mid) (second : Shows key rank value upper mid view) :
    Shows key rank value (fun a => upper a ∨ lower a) base view := by
  intro k
  rcases second k with ⟨a, held, same, shown, best⟩ | ⟨absent, shown⟩
  · refine Or.inl ⟨a, Or.inl held, same, shown, ?_⟩
    intro b held' same'
    rcases held' with upper | lower
    · exact best b upper same'
    · exact above a b held lower
  · rcases first k with ⟨a, held, same, shown', best⟩ | ⟨absent', shown'⟩
    · refine Or.inl ⟨a, Or.inr held, same, shown.trans shown', ?_⟩
      intro b held' same'
      rcases held' with upper | lower
      · exact absurd same' (absent b upper)
      · exact best b lower same'
    · refine Or.inr ⟨?_, shown.trans shown'⟩
      rintro a (upper | lower)
      · exact absent a upper
      · exact absent' a lower

section Lists
variable [DecidableEq κ]

/-- A version above all others is written over what was shown. -/
theorem insert {x : α} (only : ∀ a, versions' a → a = x ∨ versions a) (new : versions' x)
    (kept : ∀ a, versions a → versions' a) (above : ∀ a, versions a → rank a ≤ rank x)
    (h : Shows key rank value versions base view) :
    Shows key rank value versions' base (Function.update view (key x) (value x)) := by
  intro k
  by_cases here : key x = k
  · refine Or.inl ⟨x, new, here, ?_, ?_⟩
    · rw [← here, Function.update_self]
    · intro b held _
      rcases only b held with rfl | old
      · exact le_refl _
      · exact above b old
  · rw [Function.update_of_ne (Ne.symm here)]
    rcases h k with ⟨a, held, same, shown, best⟩ | ⟨absent, shown⟩
    · refine Or.inl ⟨a, kept a held, same, shown, ?_⟩
      intro b held' same'
      rcases only b held' with rfl | old
      · exact absurd same' here
      · exact best b old same'
    · refine Or.inr ⟨?_, shown⟩
      intro a held
      rcases only a held with rfl | old
      · exact here
      · exact absent a old

/-- The versions of a list, numbered upwards, are the writes of the list. -/
theorem ofList {list : List (κ × ν)} {first : Nat}
    (only : ∀ a, versions a → ∃ i, list[i]? = some (key a, value a) ∧ rank a = first + i)
    (all : ∀ (i : Nat) w, list[i]? = some w → ∃ a, versions a ∧ (key a, value a) = w ∧
      rank a = first + i) :
    Shows key rank value versions base (written base list) := by
  intro k
  rcases written_cases base list k with ⟨i, w, found, same, shown, latest⟩ | ⟨absent, shown⟩
  · obtain ⟨a, held, rfl, number⟩ := all i w found
    refine Or.inl ⟨a, held, same, shown, ?_⟩
    intro b held' same'
    obtain ⟨j, found', number'⟩ := only b held'
    have order := latest j _ found' same'
    omega
  · refine Or.inr ⟨?_, shown⟩
    intro a held same
    obtain ⟨i, found, -⟩ := only a held
    exact absent _ (List.mem_of_getElem? found) same

/-- The version of a list with the highest number. -/
theorem ofArgmax {list : List α} {base : κ → ν} : Shows key rank value (· ∈ list) base
    fun k => (((list.filter fun a => key a = k).argmax rank).map value).getD (base k) := by
  intro k
  cases found : (list.filter fun a => key a = k).argmax rank with
  | none =>
    refine Or.inr ⟨?_, ?_⟩
    · intro a member same
      rw [List.argmax_eq_none, List.filter_eq_nil_iff] at found
      exact found a member (decide_eq_true same)
    · simp only [found, Option.map_none, Option.getD_none]
  | some a =>
    obtain ⟨member, same⟩ := List.mem_filter.mp (List.argmax_mem found)
    refine Or.inl ⟨a, member, of_decide_eq_true same, ?_, ?_⟩
    · simp only [found, Option.map_some, Option.getD_some]
    · intro b inside same'
      exact List.le_of_mem_argmax (List.mem_filter.mpr ⟨inside, decide_eq_true same'⟩) found

end Lists

end Shows

end FlushDB.Lib
