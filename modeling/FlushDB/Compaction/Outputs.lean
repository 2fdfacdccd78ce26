import FlushDB.Compaction.Levels

/-!
The tables a merge writes: their contents are the merged entries cut into consecutive pieces,
each named by its first and last key.
-/

namespace FlushDB.CompactionExecutor
open Lib

/-- A table with its contents and the keys it is listed under. -/
def Described (out : SSTableMeta × List MergeEntry) : Prop :=
  out.2.head?.map (fun e => e.compositeKey.bytes) = some out.1.minKey ∧
    out.2.getLast?.map (fun e => e.compositeKey.bytes) = some out.1.maxKey

section Cut
variable (fileSize : List MergeEntry → Nat) (drawn : Drawn)

theorem splitFragments_flatten (target : Nat) (rest current : List MergeEntry) (size : Nat) :
    (splitFragments target current size rest).1.flatten ++
      (splitFragments target current size rest).2 = current ++ rest := by
  induction rest generalizing current size with
  | nil => simp [splitFragments]
  | cons e rest ih =>
    unfold splitFragments
    split
    · have later := ih [] 0
      simp only [List.flatten_cons, List.append_assoc, later]
      simp
    · rw [ih]
      simp

theorem nameFragments_flatten (fragments : List (List MergeEntry)) (index : Nat) :
    (nameFragments fileSize drawn index fragments).flatMap Prod.snd = fragments.flatten := by
  induction fragments generalizing index with
  | nil => rfl
  | cons fragment rest ih =>
    cases fragment with
    | nil => simp [nameFragments, ih]
    | cons first entries => simp [nameFragments, ih]

theorem outputs_flatten (target : Nat) (merged : List MergeEntry) :
    (outputs fileSize drawn target merged).flatMap Prod.snd = merged := by
  have whole := splitFragments_flatten target merged [] 0
  unfold outputs
  split
  · rename_i cut
    simpa [cut] using whole
  · rename_i first entries cut
    simpa [cut] using whole
  · rename_i fragments _ cut
    rw [nameFragments_flatten]
    simpa [cut] using whole
  · rename_i fragments last _ _ cut
    rw [nameFragments_flatten]
    simpa [cut] using whole

theorem ofEntries_described (file : SstId) (nowMs : Nat) (first : MergeEntry)
    (entries : List MergeEntry) :
    Described (SSTableMeta.ofEntries fileSize file nowMs first entries, first :: entries) := by
  refine ⟨rfl, ?_⟩
  simp only [SSTableMeta.ofEntries, List.getLastD_cons]
  rw [List.getLast?_cons, List.getLastD_eq_getLast?]
  rfl

/-- The names of a run: its own fragments from `index` on, each once. -/
theorem nameFragments_spec (fragments : List (List MergeEntry)) (index : Nat) :
    (∀ out ∈ nameFragments fileSize drawn index fragments, Described out ∧
      ∃ i, index ≤ i ∧ out.1.id = .fragment drawn.runId i) ∧
      ((nameFragments fileSize drawn index fragments).map fun out => out.1.id).Nodup := by
  induction fragments generalizing index with
  | nil => exact ⟨by simp [nameFragments], .nil⟩
  | cons fragment rest ih =>
    obtain ⟨later, distinct⟩ := ih (index + 1)
    have lift : ∀ out ∈ nameFragments fileSize drawn (index + 1) rest, Described out ∧
        ∃ i, index ≤ i ∧ out.1.id = .fragment drawn.runId i := by
      intro out member
      obtain ⟨described, i, bound, name⟩ := later out member
      exact ⟨described, i, by omega, name⟩
    cases fragment with
    | nil => exact ⟨lift, distinct⟩
    | cons first entries =>
      refine ⟨?_, ?_⟩
      · intro out member
        rcases List.mem_cons.mp member with rfl | member
        · exact ⟨ofEntries_described fileSize (.fragment drawn.runId index) drawn.nowMs first
            entries, index, le_refl _, rfl⟩
        · exact lift out member
      · rw [nameFragments, List.map_cons, List.nodup_cons]
        refine ⟨?_, distinct⟩
        intro member
        obtain ⟨out, inside, same⟩ := List.mem_map.mp member
        obtain ⟨-, i, bound, name⟩ := later out inside
        rw [name] at same
        have : i = index := (SstId.fragment.inj same).2
        omega

/-- Every output is described by its entries and has a name of this execution. -/
theorem outputs_spec (target : Nat) (merged : List MergeEntry) :
    (∀ out ∈ outputs fileSize drawn target merged, Described out ∧
      (out.1.id = .single drawn.ulid ∨ ∃ i, out.1.id = .fragment drawn.runId i)) ∧
      ((outputs fileSize drawn target merged).map fun out => out.1.id).Nodup := by
  have run : ∀ fragments, (∀ out ∈ nameFragments fileSize drawn 0 fragments, Described out ∧
      (out.1.id = .single drawn.ulid ∨ ∃ i, out.1.id = .fragment drawn.runId i)) ∧
      ((nameFragments fileSize drawn 0 fragments).map fun out => out.1.id).Nodup := by
    intro fragments
    obtain ⟨each, distinct⟩ := nameFragments_spec fileSize drawn fragments 0
    refine ⟨?_, distinct⟩
    intro out member
    obtain ⟨described, i, -, name⟩ := each out member
    exact ⟨described, Or.inr ⟨i, name⟩⟩
  unfold outputs
  split
  · exact ⟨by simp, .nil⟩
  · rename_i first entries _
    refine ⟨?_, by simp⟩
    intro out member
    obtain rfl := List.mem_singleton.mp member
    exact ⟨ofEntries_described _ _ _ _ _, Or.inl rfl⟩
  · exact run _
  · exact run _

end Cut

/-- Pieces of a merge are sorted tables, in the order of their keys. -/
theorem outputs_sorted {outs : List (SSTableMeta × List MergeEntry)}
    (described : ∀ out ∈ outs, Described out)
    (ascends : (outs.flatMap Prod.snd).Pairwise fun a b => a.compositeKey < b.compositeKey) :
    (∀ out ∈ outs, TableSorted out.1 out.2) ∧ outs.Pairwise fun a b => a.1.maxKey < b.1.minKey := by
  obtain ⟨inside, between⟩ := List.pairwise_flatMap.mp ascends
  have sound : ∀ out ∈ outs, TableSorted out.1 out.2 := by
    intro out member
    obtain ⟨first, last⟩ := described out member
    exact ⟨(inside out member).imp Or.inl, first, last⟩
  refine ⟨sound, between.imp_of_mem ?_⟩
  intro a b first second order
  obtain ⟨-, last, held, high⟩ := (sound a first).attained
  obtain ⟨⟨head, held', low⟩, -⟩ := (sound b second).attained
  rw [← high, ← low]
  exact CompositeKey.lt_iff_bytes.mp (order last held head held')

theorem writeTables_get {level : Level} {outs : List (SSTableMeta × List MergeEntry)}
    (tables : Tables) (distinct : (outs.map fun out => out.1.id).Nodup) :
    (∀ out ∈ outs, (writeTables level outs tables).get (out.1.sstPath level) = some out.2) ∧
      ∀ path, (∀ out ∈ outs, path ≠ out.1.sstPath level) →
        (writeTables level outs tables).get path = tables.get path := by
  induction outs generalizing tables with
  | nil => exact ⟨by simp, fun _ _ => rfl⟩
  | cons out rest ih =>
    rw [List.map_cons, List.nodup_cons] at distinct
    obtain ⟨written, others⟩ := ih (tables.put (out.1.sstPath level) out.2) distinct.2
    have unlike : ∀ other ∈ rest, out.1.sstPath level ≠ other.1.sstPath level := by
      intro other member same
      rw [SSTableMeta.sstPath_eq, SSTableMeta.sstPath_eq] at same
      have id : out.1.id = other.1.id := (SstPath.mk.inj same).2
      exact distinct.1 (id ▸ List.mem_map_of_mem member)
    refine ⟨?_, ?_⟩
    · intro other member
      rcases List.mem_cons.mp member with rfl | later
      · exact (others _ unlike).trans (ObjectStore.get_put_self _ _ _)
      · exact written other later
    · intro path avoids
      refine (others path fun other member => avoids other (List.mem_cons_of_mem _ member)).trans ?_
      exact ObjectStore.get_put_ne _ _ (avoids out List.mem_cons_self)

theorem pending_mergeSources (contents : List (List MergeEntry)) :
    MergeIterator.pending (mergeSources contents) = contents.flatten := by
  have entries : (mergeSources contents).map VecSource.entries = contents := by
    simp only [mergeSources, List.map_map]
    exact (List.map_congr_left fun pair _ => rfl).trans (List.zipIdx_map_fst 0 contents)
  rw [MergeIterator.pending, entries]

/-- A merge gives the newest version of every key, and drops tombstones only at the bottom. -/
theorem merge_spec {contents : List (List MergeEntry)}
    (sorted : ∀ entries ∈ contents, entries.Pairwise MergeEntry.Precedes) (bottom : Bool) :
    ∃ out, MergeIterator.Deduped contents.flatten out ∧
      merge bottom contents = out.filter fun e => !(bottom && e.isTombstone) := by
  refine ⟨MergeIterator.collectDeduped (mergeSources contents), ?_, rfl⟩
  rw [← pending_mergeSources]
  refine MergeIterator.collectDeduped_spec ?_
  intro source member
  obtain ⟨⟨entries, idx⟩, listed, rfl⟩ := List.mem_map.mp member
  exact sorted entries (List.fst_mem_of_mem_zipIdx listed)

/-- An input is read at the source level, another table at the target level. -/
theorem readTables_ok {tables : Tables} {task : CompactionTask} {ts : List SSTableMeta}
    {contents : List (List MergeEntry)} (h : readTables tables task ts = .ok contents) :
    contents = ts.map fun t =>
      Levels.tableEntries tables (if task.inputSSTables.any (fun m => m.id = t.id) then
        task.sourceLevel else task.targetLevel) t := by
  induction ts generalizing contents with
  | nil =>
    obtain rfl := Except.ok.inj h
    rfl
  | cons t rest ih =>
    simp only [readTables] at h
    split at h
    · cases h
    · rename_i entries found
      split at h
      · cases h
      · rename_i others read
        obtain rfl := Except.ok.inj h
        rw [ih read, List.map_cons]
        congr 1
        simp only [Levels.tableEntries, Tables.entries, found, Option.getD_some]

end FlushDB.CompactionExecutor
