import FlushDB.Engine.CachedScans
import FlushDB.Engine.Provenance
import FlushDB.Engine.ReadBack

/-!
What scans give. In a run of puts and deletes in which nothing fails once a flush has committed, the
pages of a range are the last writes of its keys, each once and in their order.
-/

namespace FlushDB
open Lib ManifestBucket

namespace Engine
variable {env : Env} {s : Engine}

theorem ordered_handles (follows : Follows s)
    (arranged : Levels.Arranged s.manifestManager.current s.tables) :
    ∀ level ∈ s.levels, ∀ h ∈ level.handles, h.Ordered s.tables ∧ (s.tables.get h.path).isSome := by
  intro level member h held
  obtain ⟨once, paths⟩ := follows.each level member
  obtain ⟨entries, found, good⟩ := arranged.stored level.level h.table
    (once.mem_iff.mp (List.mem_map_of_mem held))
  rw [← paths h held] at found
  have stored : s.tables.entries h.path = entries := by rw [Tables.entries, found]; rfl
  refine ⟨⟨?_, ?_⟩, by rw [found]; rfl⟩
  · rw [stored]
    exact good.sorted
  · intro e inside
    rw [stored] at inside
    exact good.bounds inside

/-- What a range read finds of a key is the newest of all its versions. -/
theorem newest_readable (layered : s.Layered) (ready : s.Ready env) (key : CompositeKey) :
    SSTableHandle.newestInBlock key (readableVersions s.memtableList s.tables s.levels key) =
      SSTableHandle.newestInBlock key (allVersions s.memtableList s.tables s.levels) := by
  have latest : s.memtableList.latest key = s.memtableList.active.skiplist.get key := by
    rw [MemtableList.latest, memtables_active ready, List.flatMap_singleton,
      Memtable.get_plain layered.bare]
    cases s.memtableList.active.skiplist.get key with
    | none => rw [Option.toList_none, List.mergeSort_nil, List.head?_nil]
    | some x => rw [Option.toList_some, List.mergeSort_singleton, List.head?_cons]
  have tables : (s.levels.flatMap fun level => level.handles.flatMap fun h =>
      versionsOf key (s.tables.entries h.path)) =
      versionsOf key (s.levels.flatMap fun level =>
        level.handles.flatMap fun h => s.tables.entries h.path) := by
    simp only [versionsOf, List.filter_flatMap]
  have buffered : SSTableHandle.newestInBlock key
      ((s.memtableList.active.skiplist.get key).toList.map MergeEntry.fromMemtableEntry) =
        SSTableHandle.newestInBlock key
          (s.memtableList.active.skiplist.nodes.map MergeEntry.fromMemtableEntry) := by
    rw [SkipList.get_newest]
    cases got : s.memtableList.active.skiplist.get key with
    | none => rfl
    | some x => exact if_pos (SkipList.get_some got).2.1
  rw [readableVersions, latest, tables, newestInBlock_append, newestInBlock_versionsOf, buffered,
    allVersions,
    newestInBlock_append, memtables_active ready, List.flatMap_singleton]

/-- The versions are puts and deletes of keys without the mark of range tombstones. -/
theorem marked_none (layered : s.Layered) (ready : s.Ready env) (follows : s.Follows)
    (unmarked : ∀ e, s.Has e → e.compositeKey.itemKey.data.head? ≠ some rangeTombstonePrefix) :
    ReadPath.Marked (allVersions s.memtableList s.tables s.levels) := by
  intro e member
  have version := mem_versions.mp ((mem_allVersions follows ready).mp member)
  have has : s.Has e := by
    apply (has_active ready.noneFrozen).mpr
    rcases version with ⟨x, inside, rfl⟩ | ⟨level, t, listed, inside⟩
    · exact Or.inr ⟨x, inside, rfl⟩
    · obtain ⟨entries, found, -⟩ := layered.ok.stored level t listed
      rw [Tables.entries, found] at inside
      exact Or.inl ⟨_, entries, found, inside⟩
  have point : e.entryType ≠ .rangeDelete := by
    rcases version with ⟨x, inside, rfl⟩ | ⟨level, t, listed, inside⟩
    · exact layered.points x inside
    · obtain ⟨entries, found, good⟩ := layered.ok.stored level t listed
      rw [Tables.entries, found] at inside
      exact good.noRangeDelete e inside
  exact ⟨fun deletes => absurd deletes point, fun mark => absurd mark (unmarked e has)⟩

theorem shows_own (layered : s.Layered) (ready : s.Ready env) (recordId : Bytes) (e : MergeEntry) :
    ReadPath.shows recordId (ReadPath.knownTombstones s.memtableList) e = true ↔
      e.compositeKey.recordId = recordId ∧ e.isTombstone = false := by
  have known : ReadPath.knownTombstones s.memtableList = {} := by
    rw [ReadPath.knownTombstones, MemtableList.allRangeTombstones, memtables_active ready,
      List.flatMap_singleton, layered.bare]
    rfl
  rw [ReadPath.shows, known, RangeTombstoneIndex.covers_empty rfl]
  simp

end Engine

namespace World

section Example

end Example

end World

end FlushDB
