import Mathlib.Data.List.Sort
import Mathlib.Data.List.Pairwise

/-!
A flat store of objects under ordered keys, with the operations of a bucket or of a
directory: overwrite, read, delete, create-if-absent and the sorted listing of the keys.
-/

namespace FlushDB.Lib

/-- Objects under their keys, each key once. -/
structure ObjectStore (κ ν : Type*) where
  objects : List (κ × ν) := []
  unique : (objects.map Prod.fst).Nodup := by simp

namespace ObjectStore

variable {κ ν : Type*}

def empty : ObjectStore κ ν := {}

def mapValues {μ : Type*} (f : ν → μ) (s : ObjectStore κ ν) : ObjectStore κ μ where
  objects := s.objects.map fun pair => (pair.1, f pair.2)
  unique := by
    rw [List.map_map]
    exact s.unique

section Equality
variable [DecidableEq κ]

def get (s : ObjectStore κ ν) (k : κ) : Option ν :=
  (s.objects.find? fun pair => pair.1 = k).map Prod.snd

def delete (s : ObjectStore κ ν) (k : κ) : ObjectStore κ ν where
  objects := s.objects.filter fun pair => pair.1 ≠ k
  unique := s.unique.sublist (List.Sublist.map _ List.filter_sublist)

def put (s : ObjectStore κ ν) (k : κ) (v : ν) : ObjectStore κ ν where
  objects := (k, v) :: (s.delete k).objects
  unique := by
    rw [List.map_cons, List.nodup_cons]
    refine ⟨?_, (s.delete k).unique⟩
    simp [delete]

/-- Creates the object, or fails when the key is taken. -/
def conditionalPut (s : ObjectStore κ ν) (k : κ) (v : ν) : Option (ObjectStore κ ν) :=
  if (s.get k).isSome then none else some (s.put k v)

@[simp]
theorem get_empty (k : κ) : (empty : ObjectStore κ ν).get k = none := rfl

theorem get_mapValues {μ : Type*} (f : ν → μ) (s : ObjectStore κ ν) (k : κ) :
    (s.mapValues f).get k = (s.get k).map f := by
  unfold get mapValues
  dsimp only
  rw [List.find?_map, Option.map_map, Option.map_map]
  rfl

theorem get_delete (s : ObjectStore κ ν) (k j : κ) :
    (s.delete k).get j = if j = k then none else s.get j := by
  unfold get delete
  dsimp only
  induction s.objects with
  | nil => simp
  | cons pair rest ih =>
    by_cases dropped : pair.1 = k
    · by_cases same : j = k
      · subst j
        simp [dropped]
      · have other : pair.1 ≠ j := fun eq => same (eq.symm.trans dropped)
        have swap : k ≠ j := fun eq => same eq.symm
        simpa [List.filter_cons, dropped, same, other, swap] using ih
    · by_cases hit : pair.1 = j
      · subst hit
        simp [dropped]
      · simpa [List.filter_cons, List.find?_cons, dropped, hit] using ih

@[simp]
theorem get_delete_self (s : ObjectStore κ ν) (k : κ) : (s.delete k).get k = none := by
  simp [get_delete]

theorem get_delete_ne (s : ObjectStore κ ν) {k j : κ} (other : j ≠ k) :
    (s.delete k).get j = s.get j := by
  simp [get_delete, other]

theorem get_put (s : ObjectStore κ ν) (k j : κ) (v : ν) :
    (s.put k v).get j = if j = k then some v else s.get j := by
  by_cases same : j = k
  · subst j
    simp [get, put]
  · have other : k ≠ j := fun eq => same eq.symm
    have found : (s.put k v).get j = (s.delete k).get j := by simp [get, put, other]
    rw [found, get_delete_ne s same, if_neg same]

@[simp]
theorem get_put_self (s : ObjectStore κ ν) (k : κ) (v : ν) : (s.put k v).get k = some v := by
  simp [get_put]

theorem get_put_ne (s : ObjectStore κ ν) {k j : κ} (v : ν) (other : j ≠ k) :
    (s.put k v).get j = s.get j := by
  simp [get_put, other]

theorem get_of_delete {s : ObjectStore κ ν} {k j : κ} {v : ν}
    (found : (s.delete k).get j = some v) : s.get j = some v := by
  rw [get_delete] at found
  split at found
  · cases found
  · exact found

omit [DecidableEq κ] in
theorem eq_of_objects {s t : ObjectStore κ ν} (same : s.objects = t.objects) : s = t := by
  cases s
  cases t
  cases same
  rfl

theorem delete_absent {s : ObjectStore κ ν} {k : κ} (absent : s.get k = none) : s.delete k = s := by
  apply eq_of_objects
  refine List.filter_eq_self.mpr ?_
  intro pair member
  rw [get, Option.map_eq_none_iff, List.find?_eq_none] at absent
  simpa using absent pair member

theorem put_put (s : ObjectStore κ ν) (k : κ) (v w : ν) : (s.put k v).put k w = s.put k w := by
  have same : ((s.put k v).delete k).objects = (s.delete k).objects := by
    simp [delete, put]
  exact eq_of_objects (congrArg ((k, w) :: ·) same)

/-- What is known of every object is known when one more is put of which it is known. -/
theorem forall_put {s : ObjectStore κ ν} {known : κ → ν → Prop}
    (all : ∀ j w, s.get j = some w → known j w) {k : κ} {v : ν} (here : known k v) :
    ∀ j w, (s.put k v).get j = some w → known j w := by
  intro j w found
  rw [get_put] at found
  split at found
  · rename_i same
    obtain rfl := Option.some.inj found
    exact same ▸ here
  · exact all j w found

theorem conditionalPut_some {s t : ObjectStore κ ν} {k : κ} {v : ν}
    (h : s.conditionalPut k v = some t) : s.get k = none ∧ t = s.put k v := by
  unfold conditionalPut at h
  split at h
  · cases h
  · rename_i absent
    exact ⟨by simpa using absent, (Option.some.inj h).symm⟩

theorem get_eq_some {s : ObjectStore κ ν} {k : κ} {v : ν} :
    s.get k = some v ↔ (k, v) ∈ s.objects := by
  unfold get
  constructor
  · intro found
    obtain ⟨⟨j, w⟩, first, rfl⟩ := Option.map_eq_some_iff.mp found
    have same := List.find?_some first
    obtain rfl : j = k := of_decide_eq_true same
    exact List.mem_of_find?_eq_some first
  · intro member
    cases first : s.objects.find? fun pair => pair.1 = k with
    | none => exact absurd (decide_eq_true rfl) (List.find?_eq_none.mp first (k, v) member)
    | some pair =>
      have hit := List.find?_some first
      have same : pair.1 = k := of_decide_eq_true hit
      have equal := List.inj_on_of_nodup_map s.unique (List.mem_of_find?_eq_some first) member same
      rw [equal]
      rfl

/-- The objects that pass the test. -/
def retain (s : ObjectStore κ ν) (test : κ → ν → Bool) : ObjectStore κ ν where
  objects := s.objects.filter fun pair => test pair.1 pair.2
  unique := s.unique.sublist (List.Sublist.map _ List.filter_sublist)

theorem get_retain {s : ObjectStore κ ν} {test : κ → ν → Bool} {k : κ} {v : ν} :
    (s.retain test).get k = some v ↔ s.get k = some v ∧ test k v = true := by
  rw [get_eq_some, get_eq_some]
  exact List.mem_filter

/-- Every object of `s` is in `t`, unchanged. -/
def Extends (s t : ObjectStore κ ν) : Prop := ∀ k v, s.get k = some v → t.get k = some v

theorem Extends.refl (s : ObjectStore κ ν) : Extends s s := fun _ _ found => found

/-- `shared` holds what `alone` holds under the keys of one owner, and what `base` holds under all
others. -/
structure Shares (own : κ → Prop) (base alone shared : ObjectStore κ ν) : Prop where
  mine : ∀ k, own k → shared.get k = alone.get k
  others : ∀ k, ¬ own k → shared.get k = base.get k

namespace Shares
variable {own : κ → Prop} {base alone shared : ObjectStore κ ν}

theorem put (h : Shares own base alone shared) {k : κ} (owned : own k) (v : ν) :
    Shares own base (alone.put k v) (shared.put k v) := by
  refine ⟨?_, ?_⟩
  · intro j mine
    rw [get_put, get_put, h.mine j mine]
  · intro j other
    have apart : j ≠ k := fun same => other (same ▸ owned)
    rw [get_put_ne _ _ apart, h.others j other]

theorem delete (h : Shares own base alone shared) {k : κ} (owned : own k) :
    Shares own base (alone.delete k) (shared.delete k) := by
  refine ⟨?_, ?_⟩
  · intro j mine
    rw [get_delete, get_delete, h.mine j mine]
  · intro j other
    have apart : j ≠ k := fun same => other (same ▸ owned)
    rw [get_delete_ne _ apart, h.others j other]

theorem refl (own : κ → Prop) (s : ObjectStore κ ν) : Shares own s s s :=
  ⟨fun _ _ => rfl, fun _ _ => rfl⟩

end Shares

theorem extends_put {s : ObjectStore κ ν} {k : κ} (v : ν) (absent : s.get k = none) :
    Extends s (s.put k v) := by
  intro j w found
  have other : j ≠ k := by
    rintro rfl
    rw [absent] at found
    cases found
  rw [get_put_ne s v other]
  exact found

end Equality

section Listing
variable [LinearOrder κ]

/-- The keys in ascending order. -/
def keys (s : ObjectStore κ ν) : List κ :=
  (s.objects.map Prod.fst).insertionSort (· ≤ ·)

theorem mem_keys {s : ObjectStore κ ν} {k : κ} : k ∈ s.keys ↔ (s.get k).isSome := by
  simp only [keys, List.mem_insertionSort, List.mem_map, get, Option.isSome_map,
    List.find?_isSome, decide_eq_true_eq]

theorem mem_keys_of_get {s : ObjectStore κ ν} {k : κ} {v : ν} (found : s.get k = some v) :
    k ∈ s.keys := by
  rw [mem_keys, found]
  rfl

theorem keys_sorted (s : ObjectStore κ ν) : s.keys.Pairwise (· ≤ ·) :=
  List.pairwise_insertionSort _ _

theorem keys_nodup (s : ObjectStore κ ν) : s.keys.Nodup :=
  (List.perm_insertionSort _ _).nodup_iff.mpr s.unique

theorem keys_strictly_sorted (s : ObjectStore κ ν) : s.keys.Pairwise (· < ·) :=
  (s.keys_sorted.and s.keys_nodup).imp fun pair => lt_of_le_of_ne pair.1 pair.2

theorem keys_congr {μ : Type*} {s : ObjectStore κ ν} {t : ObjectStore κ μ}
    (same : ∀ k, (s.get k).isSome = (t.get k).isSome) :
    s.keys = t.keys := by
  refine List.Perm.eq_of_pairwise ?_ s.keys_strictly_sorted t.keys_strictly_sorted
    ((List.perm_ext_iff_of_nodup s.keys_nodup t.keys_nodup).mpr fun k => ?_)
  · intro a b _ _ less greater
    exact absurd (less.trans greater) (lt_irrefl a)
  · rw [mem_keys, mem_keys, same k]

theorem keys_put_present {s : ObjectStore κ ν} {k : κ} (present : (s.get k).isSome) (v : ν) :
    (s.put k v).keys = s.keys := by
  apply keys_congr
  intro j
  rw [get_put]
  split
  · rename_i same
    rw [same, present]
    rfl
  · rfl

theorem get_of_getLast_none {s : ObjectStore κ ν} (nothing : s.keys.getLast? = none) (k : κ) :
    s.get k = none := by
  by_contra present
  have listed := mem_keys.mpr (Option.isSome_iff_ne_none.mpr present)
  rw [List.getLast?_eq_none_iff.mp nothing] at listed
  cases listed

theorem le_getLast_keys {s : ObjectStore κ ν} {k last : κ} (member : k ∈ s.keys)
    (final : s.keys.getLast? = some last) : k ≤ last := by
  obtain ⟨front, split⟩ := List.getLast?_eq_some_iff.mp final
  have sorted := s.keys_sorted
  rw [split] at member sorted
  rcases List.mem_append.mp member with early | same
  · exact (List.pairwise_append.mp sorted).2.2 k early last (List.mem_singleton_self last)
  · rw [List.mem_singleton.mp same]

theorem getLast_keys_eq {s : ObjectStore κ ν} {k : κ} (present : (s.get k).isSome)
    (greatest : ∀ j, (s.get j).isSome → j ≤ k) : s.keys.getLast? = some k := by
  cases final : s.keys.getLast? with
  | none =>
    have listed := mem_keys.mpr present
    rw [List.getLast?_eq_none_iff.mp final] at listed
    cases listed
  | some last =>
    have upper := le_getLast_keys (mem_keys.mpr present) final
    have lower := greatest last (mem_keys.mp (List.mem_of_getLast? final))
    rw [le_antisymm lower upper]

theorem getLast_keys_mem {s : ObjectStore κ ν} {last : κ} (final : s.keys.getLast? = some last) :
    (s.get last).isSome :=
  mem_keys.mp (List.mem_of_getLast? final)

end Listing

/-! Directories of one store: the keys are pairs of a directory and a name in it. -/

section Directories
variable {δ : Type*} [DecidableEq δ]

/-- The objects of one directory. -/
def inside (s : ObjectStore (δ × κ) ν) (d : δ) : ObjectStore κ ν where
  objects := (s.objects.filter fun pair => pair.1.1 = d).map fun pair => (pair.1.2, pair.2)
  unique := by
    rw [List.map_map]
    have named : (s.objects.filter fun pair => pair.1.1 = d).map
        (Prod.fst ∘ fun pair => (pair.1.2, pair.2)) =
        ((s.objects.filter fun pair => pair.1.1 = d).map Prod.fst).map
          Prod.snd := by rw [List.map_map]; rfl
    rw [named]
    refine (s.unique.sublist (List.filter_sublist.map _)).map_on ?_
    intro a first b second same
    obtain ⟨x, member, rfl⟩ := List.mem_map.mp first
    obtain ⟨y, member', rfl⟩ := List.mem_map.mp second
    have here : x.1.1 = d := of_decide_eq_true (List.mem_filter.mp member).2
    have there : y.1.1 = d := of_decide_eq_true (List.mem_filter.mp member').2
    exact Prod.ext (here.trans there.symm) same

/-- The store with the objects of one directory replaced. -/
def replace (s : ObjectStore (δ × κ) ν) (d : δ) (t : ObjectStore κ ν) : ObjectStore (δ × κ) ν where
  objects := t.objects.map (fun pair => ((d, pair.1), pair.2)) ++ s.objects.filter fun pair =>
    pair.1.1 ≠ d
  unique := by
    rw [List.map_append, List.map_map, List.nodup_append]
    refine ⟨?_, s.unique.sublist (List.filter_sublist.map _), ?_⟩
    · have named : t.objects.map (Prod.fst ∘ fun pair => ((d, pair.1), pair.2)) =
          (t.objects.map Prod.fst).map fun k => (d, k) := by
        rw [List.map_map]; rfl
      rw [named]
      exact t.unique.map fun _ _ same => (Prod.mk.inj same).2
    · intro a new b old same
      obtain ⟨x, -, rfl⟩ := List.mem_map.mp new
      obtain ⟨y, kept, rfl⟩ := List.mem_map.mp old
      have outside : y.1.1 ≠ d := of_decide_eq_true (List.mem_filter.mp kept).2
      exact outside (congrArg Prod.fst same).symm

theorem inside_replace (s : ObjectStore (δ × κ) ν) (d : δ) (t : ObjectStore κ ν) :
    (s.replace d t).inside d = t := by
  cases t
  simp [inside, replace, List.filter_append, List.filter_map, List.filter_filter, Function.comp_def]

theorem inside_replace_ne (s : ObjectStore (δ × κ) ν) {d e : δ} (other : e ≠ d)
    (t : ObjectStore κ ν) :
    (s.replace d t).inside e = s.inside e := by
  have swap : d ≠ e := fun same => other same.symm
  unfold inside replace
  congr 1
  rw [List.filter_append, List.filter_filter]
  have none_here : (t.objects.map fun pair => ((d, pair.1), pair.2)).filter
      (fun pair => decide (pair.1.1 = e)) = [] := by
    simp [List.filter_map, Function.comp_def, swap]
  rw [none_here, List.nil_append]
  congr 1
  refine List.filter_congr ?_
  intro pair _
  by_cases here : pair.1.1 = e
  · simp [here, other]
  · simp [here]

theorem mem_inside {s : ObjectStore (δ × κ) ν} {d : δ} {k : κ} {v : ν} :
    (k, v) ∈ (s.inside d).objects ↔ ((d, k), v) ∈ s.objects := by
  unfold inside
  dsimp only
  constructor
  · intro member
    obtain ⟨⟨⟨e, j⟩, w⟩, kept, same⟩ := List.mem_map.mp member
    obtain ⟨rfl, rfl⟩ := Prod.mk.inj same
    obtain ⟨stored, here⟩ := List.mem_filter.mp kept
    obtain rfl : e = d := of_decide_eq_true here
    exact stored
  · intro stored
    exact List.mem_map.mpr ⟨((d, k), v), List.mem_filter.mpr ⟨stored, decide_eq_true rfl⟩, rfl⟩

theorem mem_replace {s : ObjectStore (δ × κ) ν} {d : δ} {t : ObjectStore κ ν} {pair : (δ × κ) × ν}
    (member : pair ∈ (s.replace d t).objects) :
    pair.1.1 = d ∨ pair ∈ s.objects := by
  rcases List.mem_append.mp member with new | old
  · obtain ⟨x, -, rfl⟩ := List.mem_map.mp new
    exact Or.inl rfl
  · exact Or.inr (List.mem_filter.mp old).1

end Directories

end ObjectStore

end FlushDB.Lib
