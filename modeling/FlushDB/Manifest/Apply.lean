import FlushDB.Manifest.Types

/-!
The level lists that `ManifestUpdate::apply` leaves: the tables whose removal was not asked
for, and the added ones, with the levels below L0 sorted by their first key.
-/

namespace FlushDB.ManifestUpdate

/-- Removing by position what an id finds is removing the id, when ids are distinct. -/
theorem eraseIdx_findIdx? {tables : List SSTableMeta} {id : SstId} {idx : Nat}
    (distinct : (tables.map SSTableMeta.id).Nodup)
    (found : tables.findIdx? (fun t => t.id = id) = some idx) :
    tables.eraseIdx idx = tables.filter fun t => t.id ≠ id := by
  induction tables generalizing idx with
  | nil => cases found
  | cons t rest ih =>
    rw [List.map_cons, List.nodup_cons] at distinct
    rw [List.findIdx?_cons] at found
    by_cases same : t.id = id
    · simp only [same, decide_true, if_true, Option.some.injEq] at found
      subst idx
      have others : rest.filter (fun t => t.id ≠ id) = rest := by
        rw [List.filter_eq_self]
        intro other member
        have different : other.id ≠ id := fun eq => distinct.1 (same ▸ eq ▸ List.mem_map_of_mem member)
        simp [different]
      rw [List.eraseIdx_cons_zero, List.filter_cons_of_neg (by simp [same]), others]
    · simp only [same, decide_false, Bool.false_eq_true, if_false, Option.map_eq_some_iff] at found
      obtain ⟨later, found, rfl⟩ := found
      rw [List.eraseIdx_cons_succ, List.filter_cons_of_pos (by simp [same]), ih distinct.2 found]

theorem removeOne_ok {levels next : Levels} {entry : Level × SstId}
    (distinct : ∀ level, ((levels level).map SSTableMeta.id).Nodup)
    (h : removeOne levels entry = .ok next) (level : Level) :
    next level = (levels level).filter fun t => (level, t.id) ≠ entry := by
  unfold removeOne at h
  split at h
  · rename_i idx found
    obtain rfl := Except.ok.inj h
    by_cases same : level = entry.1
    · subst level
      rw [Function.update_self, eraseIdx_findIdx? (distinct _) found]
      refine List.filter_congr ?_
      intro t _
      simp [Prod.ext_iff]
    · rw [Function.update_of_ne same, eq_comm, List.filter_eq_self]
      intro t _
      simp [Prod.ext_iff, same]
  · cases h

theorem removeOne_distinct {levels next : Levels} {entry : Level × SstId}
    (distinct : ∀ level, ((levels level).map SSTableMeta.id).Nodup)
    (h : removeOne levels entry = .ok next) (level : Level) :
    ((next level).map SSTableMeta.id).Nodup := by
  rw [removeOne_ok distinct h]
  exact (distinct level).sublist (List.Sublist.map _ List.filter_sublist)

theorem removeAll_ok {levels removed : Levels} {removes : List (Level × SstId)}
    (distinct : ∀ level, ((levels level).map SSTableMeta.id).Nodup)
    (h : removeAll levels removes = .ok removed) :
    ∀ level, removed level = (levels level).filter fun t => (level, t.id) ∉ removes := by
  induction removes generalizing levels with
  | nil =>
    obtain rfl := Except.ok.inj h
    simp
  | cons entry rest ih =>
    unfold removeAll at h
    split at h
    · rename_i next first
      intro level
      rw [ih (removeOne_distinct distinct first) h level, removeOne_ok distinct first,
        List.filter_filter]
      refine List.filter_congr ?_
      intro t _
      simp [Bool.and_comm]
    · cases h

theorem removeAll_listed {levels removed : Levels} {removes : List (Level × SstId)}
    (h : removeAll levels removes = .ok removed) :
    ∀ entry ∈ removes, ∃ t ∈ levels entry.1, t.id = entry.2 := by
  induction removes generalizing levels with
  | nil =>
    intro entry member
    cases member
  | cons first rest ih =>
    unfold removeAll at h
    split at h
    · rename_i next removal
      unfold removeOne at removal
      split at removal
      · rename_i idx found
        obtain rfl := Except.ok.inj removal
        intro entry member
        rcases List.mem_cons.mp member with rfl | later
        · obtain ⟨bound, same, -⟩ := List.findIdx?_eq_some_iff_getElem.mp found
          exact ⟨_, List.getElem_mem bound, of_decide_eq_true same⟩
        · obtain ⟨t, left, same⟩ := ih h entry later
          refine ⟨t, ?_, same⟩
          by_cases here : entry.1 = first.1
          · rw [here, Function.update_self] at left
            rw [here]
            exact List.mem_of_mem_eraseIdx left
          · rwa [Function.update_of_ne here] at left
      · cases removal
    · cases h

/-- What is listed can be removed, each table once. -/
theorem removeAll_accepted {levels : Levels} {removes : List (Level × SstId)}
    (distinct : ∀ level, ((levels level).map SSTableMeta.id).Nodup) (once : removes.Nodup)
    (listed : ∀ entry ∈ removes, ∃ t ∈ levels entry.1, t.id = entry.2) :
    ∃ removed, removeAll levels removes = .ok removed := by
  induction removes generalizing levels with
  | nil => exact ⟨levels, rfl⟩
  | cons entry rest ih =>
    obtain ⟨unlike, once⟩ := List.nodup_cons.mp once
    obtain ⟨t, present, same⟩ := listed entry List.mem_cons_self
    have found : (levels entry.1).findIdx? (fun m => m.id = entry.2) ≠ none := by
      intro none
      exact Bool.eq_false_iff.mp (List.findIdx?_eq_none_iff.mp none t present) (decide_eq_true same)
    obtain ⟨idx, found⟩ := Option.ne_none_iff_exists'.mp found
    have first : removeOne levels entry =
        .ok (Function.update levels entry.1 ((levels entry.1).eraseIdx idx)) := by
      unfold removeOne
      rw [found]
    unfold removeAll
    rw [first]
    refine ih (removeOne_distinct distinct first) once ?_
    intro other member
    obtain ⟨u, present', same'⟩ := listed other (List.mem_cons_of_mem _ member)
    refine ⟨u, ?_, same'⟩
    rw [removeOne_ok distinct first]
    refine List.mem_filter.mpr ⟨present', decide_eq_true ?_⟩
    rintro rfl
    rw [same'] at unlike
    exact unlike member

theorem removeAll_nodup {levels removed : Levels} {removes : List (Level × SstId)}
    (distinct : ∀ level, ((levels level).map SSTableMeta.id).Nodup)
    (h : removeAll levels removes = .ok removed) :
    removes.Nodup := by
  induction removes generalizing levels with
  | nil => exact .nil
  | cons entry rest ih =>
    unfold removeAll at h
    split at h
    · rename_i next first
      refine List.nodup_cons.mpr ⟨?_, ih (removeOne_distinct distinct first) h⟩
      intro again
      obtain ⟨t, left, same⟩ := removeAll_listed h entry again
      rw [removeOne_ok distinct first] at left
      exact of_decide_eq_true (List.mem_filter.mp left).2 (Prod.ext rfl same)
    · cases h

/-- The additions of one level, in their order. -/
def addedAt (added : List (Level × SSTableMeta)) (level : Level) : List SSTableMeta :=
  (added.filter fun entry => entry.1 = level).map Prod.snd

theorem addOne_perm (levels : Levels) (entry : Level × SSTableMeta) (level : Level) :
    (addOne levels entry level).Perm (levels level ++ addedAt [entry] level) := by
  by_cases same : level = entry.1
  · subst level
    simp only [addOne, Function.update_self, addedAt, List.filter_cons, decide_true, if_true,
      List.filter_nil,
      List.map_cons, List.map_nil]
    split
    · exact .refl _
    · exact List.perm_insertionSort _ _
  · have other : ¬ entry.1 = level := fun eq => same eq.symm
    simp [addOne, same, addedAt, other]

theorem addAll_perm (levels : Levels) (added : List (Level × SSTableMeta)) (level : Level) :
    (addAll levels added level).Perm (levels level ++ addedAt added level) := by
  induction added generalizing levels with
  | nil => simp [addAll, addedAt]
  | cons entry rest ih =>
    have first := (addOne_perm levels entry level).append_right (addedAt rest level)
    have whole : addedAt [entry] level ++ addedAt rest level = addedAt (entry :: rest) level := by
      simp only [addedAt, ← List.map_append, ← List.filter_append, List.singleton_append]
    rw [List.append_assoc, whole] at first
    exact (ih (addOne levels entry)).trans first

theorem addAll_sorted {levels : Levels} {level : Level} (below : level ≠ .L0)
    (sorted : (levels level).Pairwise fun a b => a.minKey ≤ b.minKey)
    (added : List (Level × SSTableMeta)) :
    (addAll levels added level).Pairwise fun a b => a.minKey ≤ b.minKey := by
  induction added generalizing levels with
  | nil => exact sorted
  | cons entry rest ih =>
    refine @ih (addOne levels entry) ?_
    by_cases same : level = entry.1
    · subst level
      have sorts : entry.1.isOverlapping = false := by simp [Level.isOverlapping, below]
      simp only [addOne, Function.update_self, sorts, Bool.false_eq_true, if_false]
      have total : Std.Total (fun a b : SSTableMeta => a.minKey ≤ b.minKey) :=
        ⟨fun a b => le_total a.minKey b.minKey⟩
      have trans : IsTrans SSTableMeta (fun a b => a.minKey ≤ b.minKey) := ⟨fun _ _ _ => le_trans⟩
      exact List.pairwise_insertionSort _ _
    · simpa [addOne, same] using sorted

theorem apply_levels {u : ManifestUpdate} {nowMs : Nat} {current next : Manifest}
    (h : u.apply nowMs current = .ok next)
    (distinct : ∀ level, ((current.levels level).map SSTableMeta.id).Nodup) (level : Level) :
    (next.levels level).Perm
        ((current.levels level).filter (fun t => (level, t.id) ∉ u.removeSSTables) ++ addedAt
          u.addSSTables level) ∧
      (level ≠ .L0 → (current.levels level).Pairwise (fun a b => a.minKey ≤ b.minKey) →
        (next.levels level).Pairwise fun a b => a.minKey ≤ b.minKey) := by
  obtain ⟨removed, removal, -, rfl⟩ := apply_ok h
  have kept := removeAll_ok distinct removal level
  refine ⟨?_, ?_⟩
  · rw [← kept]
    exact addAll_perm removed u.addSSTables level
  · intro below sorted
    refine addAll_sorted below ?_ u.addSSTables
    rw [kept]
    exact sorted.sublist List.filter_sublist

/-- An update leaves the levels that it does not name. -/
theorem apply_untouched {u : ManifestUpdate} {nowMs : Nat} {current next : Manifest} {level : Level}
    (h : u.apply nowMs current = .ok next) (removes : ∀ entry ∈ u.removeSSTables, entry.1 ≠ level)
    (adds : ∀ entry ∈ u.addSSTables, entry.1 ≠ level) :
    next.levels level = current.levels level := by
  have removal : ∀ {removes : List (Level × SstId)} {levels removed : Levels},
      (∀ entry ∈ removes, entry.1 ≠ level) →
      removeAll levels removes = .ok removed → removed level = levels level := by
    intro removes
    induction removes with
    | nil =>
      intro levels removed _ h
      obtain rfl := Except.ok.inj h
      rfl
    | cons entry rest ih =>
      intro levels removed other h
      unfold removeAll at h
      split at h
      · rename_i next first
        rw [ih (fun e member => other e (List.mem_cons_of_mem _ member)) h]
        unfold removeOne at first
        split at first
        · obtain rfl := Except.ok.inj first
          exact Function.update_of_ne (other entry List.mem_cons_self).symm _ _
        · cases first
      · cases h
  have addition : ∀ (added : List (Level × SSTableMeta)) (levels : Levels),
      (∀ entry ∈ added, entry.1 ≠ level) →
      addAll levels added level = levels level := by
    intro added
    induction added with
    | nil => exact fun _ _ => rfl
    | cons entry rest ih =>
      intro levels other
      refine (ih (addOne levels entry) fun e member => other e (List.mem_cons_of_mem _ member)).trans ?_
      exact Function.update_of_ne (other entry List.mem_cons_self).symm _ _
  obtain ⟨removed, removed_eq, -, rfl⟩ := apply_ok h
  exact (addition _ removed adds).trans (removal removes removed_eq)

end FlushDB.ManifestUpdate
