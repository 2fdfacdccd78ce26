import FlushDB.Engine.Found
import FlushDB.Engine.TableLookup

/-!
Point reads against a search of everything that the memtables and the tables hold. The filters,
the binary search over key ranges and the early answer of a memtable leave out versions that are
not the newest.
-/

namespace FlushDB
open Lib

/-- Every version of the memtables, newest memtable first, then of the tables level by level. -/
def allVersions (l : MemtableList) (tables : Tables) (levels : List LevelState) : List MergeEntry :=
  (l.memtables.flatMap fun m => m.skiplist.nodes.map MergeEntry.fromMemtableEntry) ++
    levels.flatMap fun level => level.handles.flatMap fun h => tables.entries h.path

/-- The version with the highest number of all, where a tombstone is no version. -/
def linearSearch (key : CompositeKey) (versions : List MergeEntry) : Option MergeEntry :=
  (SSTableHandle.newestInBlock key versions).filter fun e => !e.isTombstone

section Newest
variable {key : CompositeKey}

/-- The newer of two findings; the first of equals. -/
def newerOf (first second : Option MergeEntry) : Option MergeEntry :=
  match second with
  | none => first
  | some e => keepNewer first e

theorem newerOf_none (second : Option MergeEntry) : newerOf none second = second := by
  cases second <;> rfl

theorem keepNewer_newerOf (first : Option MergeEntry) (second : Option MergeEntry)
    (e : MergeEntry) :
    keepNewer (newerOf first second) e = newerOf first (keepNewer second e) := by
  cases second with
  | none => rfl
  | some b =>
    cases first with
    | none => simp only [newerOf_none]
    | some a =>
      show keepNewer (if a.sequenceNumber ≥ b.sequenceNumber then some a else some b) e =
        newerOf (some a) (if b.sequenceNumber ≥ e.sequenceNumber then some b else some e)
      by_cases first : a.sequenceNumber ≥ b.sequenceNumber
      · by_cases second : b.sequenceNumber ≥ e.sequenceNumber
        · have both : a.sequenceNumber ≥ e.sequenceNumber := second.trans first
          simp only [newerOf, keepNewer, if_pos first, if_pos second, if_pos both]
        · simp only [newerOf, keepNewer, if_pos first, if_neg second]
      · by_cases second : b.sequenceNumber ≥ e.sequenceNumber
        · simp only [newerOf, keepNewer, if_neg first, if_pos second]
        · have both : ¬ a.sequenceNumber ≥ e.sequenceNumber := by omega
          simp only [newerOf, keepNewer, if_neg first, if_neg second, if_neg both]

theorem newerOf_assoc (first second third : Option MergeEntry) :
    newerOf (newerOf first second) third = newerOf first (newerOf second third) := by
  cases third with
  | none => rfl
  | some e => exact keepNewer_newerOf first second e

theorem newestInBlock_from (best : Option MergeEntry) (versions : List MergeEntry) :
    versions.foldl (fun best e => if e.compositeKey = key then keepNewer best e else best) best =
      newerOf best (SSTableHandle.newestInBlock key versions) := by
  unfold SSTableHandle.newestInBlock
  suffices general : ∀ seen,
      versions.foldl (fun best e => if e.compositeKey = key then keepNewer best e else best)
      (newerOf best seen) =
        newerOf best (versions.foldl (fun best e =>
          if e.compositeKey = key then keepNewer best e else best) seen) from
    general none
  induction versions with
  | nil => exact fun seen => rfl
  | cons e rest ih =>
    intro seen
    rw [List.foldl_cons, List.foldl_cons]
    split
    · rw [keepNewer_newerOf]
      exact ih (keepNewer seen e)
    · exact ih seen

theorem newestInBlock_append (xs ys : List MergeEntry) :
    SSTableHandle.newestInBlock key (xs ++ ys) =
      newerOf (SSTableHandle.newestInBlock key xs) (SSTableHandle.newestInBlock key ys) := by
  rw [SSTableHandle.newestInBlock, List.foldl_append]
  exact newestInBlock_from _ ys

theorem newestInBlock_findsNewest (versions : List MergeEntry) :
    FindsNewest MergeEntry.compositeKey MergeEntry.sequenceNumber key versions
      (SSTableHandle.newestInBlock key versions) := by
  have same : keepNewer = keepHighest MergeEntry.sequenceNumber := by
    funext best e
    cases best <;> rfl
  rw [SSTableHandle.newestInBlock, same]
  exact findsNewest_foldl versions

theorem newestInBlock_absent {versions : List MergeEntry}
    (absent : ∀ e ∈ versions, e.compositeKey ≠ key) :
    SSTableHandle.newestInBlock key versions = none := by
  have newest := @newestInBlock_findsNewest key versions
  cases found : SSTableHandle.newestInBlock key versions with
  | none => rfl
  | some e =>
    rw [found] at newest
    exact absurd newest.same (absent e newest.member)

/-- Lists that do not have the key can be left out. -/
theorem newestInBlock_flatMap_filter {α : Type} (f : α → List MergeEntry) (p : α → Bool)
    (xs : List α) (dropped : ∀ x ∈ xs, p x = false → ∀ e ∈ f x, e.compositeKey ≠ key) :
    SSTableHandle.newestInBlock key ((xs.filter p).flatMap f) =
      SSTableHandle.newestInBlock key (xs.flatMap f) := by
  induction xs with
  | nil => rfl
  | cons x rest ih =>
    have later := ih fun y member => dropped y (List.mem_cons_of_mem _ member)
    cases kept : p x with
    | true =>
      rw [List.filter_cons_of_pos kept, List.flatMap_cons, List.flatMap_cons, newestInBlock_append,
        newestInBlock_append, later]
    | false =>
      rw [List.filter_cons_of_neg
        (by rw [kept]; exact Bool.false_ne_true), List.flatMap_cons, newestInBlock_append, later,
        newestInBlock_absent (dropped x List.mem_cons_self kept), newerOf_none]

end Newest

section Memtables
variable {key : CompositeKey}

/-- The first node of a key is its newest. -/
theorem SkipList.get_newest (list : SkipList) :
    SSTableHandle.newestInBlock key (list.nodes.map MergeEntry.fromMemtableEntry) =
      (list.get key).map MergeEntry.fromMemtableEntry := by
  obtain ⟨nodes, sorted⟩ := list
  unfold SkipList.get
  dsimp only
  induction nodes with
  | nil => rfl
  | cons x rest ih =>
    obtain ⟨after, sorted⟩ := List.pairwise_cons.mp sorted
    rw [List.map_cons, ← List.singleton_append, newestInBlock_append]
    by_cases early : x.compositeKey < key
    · have other : SSTableHandle.newestInBlock key [MergeEntry.fromMemtableEntry x] = none := by
        refine newestInBlock_absent ?_
        intro e member
        rw [List.mem_singleton.mp member]
        exact early.ne
      rw [other, newerOf_none, List.dropWhile_cons_of_pos (by simpa using early)]
      exact ih sorted
    · rw [List.dropWhile_cons_of_neg (by simpa using early), List.head?_cons]
      have behind : ∀ y ∈ rest, y.compositeKey = key → x.compositeKey = key ∧
          y.sequenceNumber < x.sequenceNumber := by
        intro y member same
        rcases after y member with less | ⟨equal, newer⟩
        · exact absurd (same ▸ less) early
        · exact ⟨equal.trans same, newer⟩
      by_cases here : x.compositeKey = key
      · have first : SSTableHandle.newestInBlock key [MergeEntry.fromMemtableEntry x] =
            some (MergeEntry.fromMemtableEntry x) := if_pos here
        rw [first, Option.filter_some, if_pos (decide_eq_true here), Option.map_some]
        have newest := @newestInBlock_findsNewest key (rest.map MergeEntry.fromMemtableEntry)
        cases found : SSTableHandle.newestInBlock key (rest.map MergeEntry.fromMemtableEntry) with
        | none => rfl
        | some e =>
          rw [found] at newest
          obtain ⟨y, member, rfl⟩ := List.mem_map.mp newest.member
          have older : y.sequenceNumber < x.sequenceNumber := (behind y member newest.same).2
          exact if_pos older.le
      · rw [Option.filter_some, if_neg (by simpa using here), Option.map_none]
        have first : SSTableHandle.newestInBlock key [MergeEntry.fromMemtableEntry x] = none :=
          if_neg here
        rw [first, newerOf_none]
        refine newestInBlock_absent ?_
        intro e member same
        obtain ⟨y, listed, rfl⟩ := List.mem_map.mp member
        exact here (behind y listed same).1

/-- Versions of a key in a newer memtable have higher numbers. -/
def MemtableList.Stacked (l : MemtableList) : Prop :=
  l.memtables.Pairwise fun newer older => ∀ a ∈ newer.skiplist.nodes, ∀ b ∈ older.skiplist.nodes,
    a.compositeKey = b.compositeKey → b.sequenceNumber < a.sequenceNumber

def MemtableList.NoRangeDeletes (l : MemtableList) : Prop :=
  ∀ m ∈ l.memtables, m.rangeTombstones.tombstones = []

theorem RangeTombstoneIndex.covers_empty {index : RangeTombstoneIndex}
    (none : index.tombstones = []) (recordId itemKey : Bytes) (entrySequence : Nat) :
    index.covers recordId itemKey entrySequence = false := by
  rw [Bool.eq_false_iff, Ne, RangeTombstoneIndex.covers_iff, none]
  rintro ⟨ts, member, -⟩
  cases member

theorem Memtable.get_plain {m : Memtable} (none : m.rangeTombstones.tombstones = [])
    (key : CompositeKey) :
    m.get key = m.skiplist.get key := by
  unfold Memtable.get
  cases m.skiplist.get key with
  | none => rfl
  | some node =>
    rw [Option.filter_some, if_pos]
    rw [RangeTombstoneIndex.covers_empty none]
    rfl

/-- A memtable that has the key has its newest version. -/
theorem MemtableList.get_newest {l : MemtableList} (stacked : l.Stacked) (plain : l.NoRangeDeletes)
    (key : CompositeKey) :
    SSTableHandle.newestInBlock key (l.memtables.flatMap fun m =>
      m.skiplist.nodes.map MergeEntry.fromMemtableEntry) =
      (l.get key).map MergeEntry.fromMemtableEntry := by
  rw [MemtableList.get_eq]
  unfold MemtableList.Stacked at stacked
  unfold MemtableList.NoRangeDeletes at plain
  generalize l.memtables = memtables at stacked plain
  induction memtables with
  | nil => rfl
  | cons m rest ih =>
    obtain ⟨above, stacked⟩ := List.pairwise_cons.mp stacked
    have later := ih stacked fun m' member => plain m' (List.mem_cons_of_mem _ member)
    rw [List.flatMap_cons, newestInBlock_append, SkipList.get_newest, List.findSome?_cons,
      Memtable.get_plain (plain m List.mem_cons_self)]
    cases here : m.skiplist.get key with
    | none =>
      rw [Option.map_none, newerOf_none]
      exact later
    | some x =>
      have first : FindsNewest MergeEntry.compositeKey MergeEntry.sequenceNumber key
          (m.skiplist.nodes.map MergeEntry.fromMemtableEntry)
            (some (MergeEntry.fromMemtableEntry x)) := by
        have newest := @newestInBlock_findsNewest key
          (m.skiplist.nodes.map MergeEntry.fromMemtableEntry)
        rw [SkipList.get_newest, here] at newest
        exact newest
      have second := @newestInBlock_findsNewest key
        (rest.flatMap fun m => m.skiplist.nodes.map MergeEntry.fromMemtableEntry)
      cases found : SSTableHandle.newestInBlock key
          (rest.flatMap fun m => m.skiplist.nodes.map MergeEntry.fromMemtableEntry) with
      | none => rfl
      | some e =>
        rw [found] at second
        obtain ⟨m', listed, inside⟩ := List.mem_flatMap.mp second.member
        obtain ⟨y, member, rfl⟩ := List.mem_map.mp inside
        obtain ⟨x', member', same⟩ := List.mem_map.mp first.member
        have older : y.sequenceNumber < x'.sequenceNumber := by
          refine above m' listed x' member' y member ?_
          have key_x : (MergeEntry.fromMemtableEntry x').compositeKey = key := same ▸ first.same
          exact key_x.trans second.same.symm
        have number : x'.sequenceNumber = x.sequenceNumber :=
          congrArg MergeEntry.sequenceNumber same
        exact if_pos (show x.sequenceNumber ≥ y.sequenceNumber by omega)

end Memtables

section Tables
variable {renv : ReadEnv} {draw : ReadDraw} {tables : Tables} {key : CompositeKey}

/-- Tables with key ranges one behind the other. -/
structure RangesApart {α : Type} (table : α → SSTableMeta) (xs : List α) : Prop where
  valid : ∀ x ∈ xs, (table x).minKey ≤ (table x).maxKey
  apart : xs.Pairwise fun a b => (table a).maxKey < (table b).minKey

section
variable {α : Type} {table : α → SSTableMeta} {xs : List α}

/-- The binary search by the greatest key and a linear search find the same table. -/
theorem RangesApart.find (h : RangesApart table xs) (key : CompositeKey) :
    (match xs[partitionPoint (fun x => decide ((table x).maxKey < key.bytes)) xs]? with
      | some x => if (table x).containsKey key then some x else none
      | none => none) = xs.find? fun x => (table x).containsKey key := by
  have ordered : xs.Pairwise fun a b => (table a).maxKey < (table b).minKey ∧
      (table b).minKey ≤ (table b).maxKey := by
    refine h.apart.imp_of_mem ?_
    intro a b _ member less
    exact ⟨less, h.valid b member⟩
  refine find_at_partitionPoint (ordered.imp ?_) (ordered.imp ?_) ?_
  · rintro a b ⟨less, le⟩ below
    exact decide_eq_true ((less.trans_le le).trans (of_decide_eq_true below))
  · rintro a b ⟨less, le⟩ holds
    simp only [SSTableMeta.containsKey, decide_eq_true_eq] at holds ⊢
    exact less.trans_le holds.1
  · intro t member holds
    simp only [SSTableMeta.containsKey, decide_eq_true_eq] at holds
    exact decide_eq_false (not_lt.mpr holds.2)

theorem RangesApart.filter (h : RangesApart table xs) (key : CompositeKey) :
    xs.filter (fun x => (table x).containsKey key) =
      (xs.find? fun x => (table x).containsKey key).toList := by
  refine filter_eq_find (h.apart.imp ?_)
  intro a b less holds
  simp only [SSTableMeta.containsKey, decide_eq_true_eq, decide_eq_false_iff_not, not_and,
    not_le] at holds ⊢
  exact fun _ => less.trans_le holds.1

end

theorem Manifest.findSstableForKey_eq {m : Manifest} {level : Level} (below : level ≠ .L0)
    (disjoint : RangesApart id (m.sstablesAtLevel level)) (key : CompositeKey) :
    m.findSstableForKey level key = (m.sstablesAtLevel level).find? fun t => t.containsKey key := by
  unfold Manifest.findSstableForKey
  dsimp only
  split
  · rename_i empty
    rw [List.isEmpty_iff.mp empty]
    rfl
  · have found := disjoint.find key
    simp only [id] at found
    rw [if_neg (by simpa [Level.isOverlapping] using below), ← found]
    cases (m.sstablesAtLevel level)[partitionPoint (fun t => decide (t.maxKey < key.bytes))
      (m.sstablesAtLevel level)]? <;> rfl

theorem LevelState.findCandidatesForKey_eq {level : LevelState} (below : level.level ≠ .L0)
    (disjoint : RangesApart SSTableHandle.table level.handles) (key : CompositeKey) :
    level.findCandidatesForKey renv tables key =
      level.handles.filter fun h => h.table.containsKey key := by
  rw [disjoint.filter, ← disjoint.find, LevelState.findCandidatesForKey,
    if_neg (by simpa [Level.isOverlapping] using below)]
  cases level.handles[partitionPoint (fun h => decide (h.table.maxKey < key.bytes)) level.handles]? with
  | none => rfl
  | some h =>
    dsimp only
    split <;> rfl

/-- What a level promises its readers: each table has its entries in its key range, and below L0 the
ranges are apart. -/
structure LevelState.Searchable (tables : Tables) (level : LevelState) : Prop where
  ranged : ∀ h ∈ level.handles, ∀ e ∈ tables.entries h.path,
    h.table.containsKey e.compositeKey = true
  apart : level.level ≠ .L0 → RangesApart SSTableHandle.table level.handles

/-- The filter of every table knows the record ids that it was built from. -/
def ReadEnv.NoFalseNegatives (renv : ReadEnv) : Prop :=
  ∀ recordIds, ∀ id ∈ recordIds, renv.maybeContains recordIds id = true

/-- The candidates of a level are those of its tables for which a test holds that no table with the
key fails. -/
theorem LevelState.candidates_filter {level : LevelState} (searchable : level.Searchable tables)
    (complete : renv.NoFalseNegatives) (key : CompositeKey) :
    ∃ p : SSTableHandle → Bool, level.findCandidatesForKey renv tables key = level.handles.filter p ∧
      ∀ h ∈ level.handles, p h = false → ∀ e ∈ tables.entries h.path, e.compositeKey ≠ key := by
  by_cases below : level.level = .L0
  · refine ⟨fun h => h.mayContainRecord renv tables key.recordId, ?_, ?_⟩
    · rw [LevelState.findCandidatesForKey, if_pos (by simp [below, Level.isOverlapping])]
    · rintro h listed excluded e member rfl
      have known : h.mayContainRecord renv tables e.compositeKey.recordId = true :=
        complete _ _ (List.mem_map.mpr ⟨e, member, rfl⟩)
      exact Bool.false_ne_true (excluded.symm.trans known)
  · refine ⟨fun h => h.table.containsKey key, findCandidatesForKey_eq below (searchable.apart below) key, ?_⟩
    rintro h listed excluded e member rfl
    exact Bool.false_ne_true (excluded.symm.trans (searchable.ranged h listed e member))

theorem searchHandles_newest {handles : List SSTableHandle}
    (lookups : ∀ h ∈ handles, h.get renv draw tables key =
      .ok (SSTableHandle.newestInBlock key (tables.entries h.path)))
    (best : Option MergeEntry) :
    ReadPath.searchHandles renv draw tables key handles best =
      .ok (newerOf best (SSTableHandle.newestInBlock key
        (handles.flatMap fun h => tables.entries h.path))) := by
  induction handles generalizing best with
  | nil => rfl
  | cons h rest ih =>
    have later := ih fun h' member => lookups h' (List.mem_cons_of_mem _ member)
    rw [ReadPath.searchHandles, lookups h List.mem_cons_self, List.flatMap_cons,
      newestInBlock_append, ← newerOf_assoc]
    cases SSTableHandle.newestInBlock key (tables.entries h.path) with
    | none => exact later best
    | some e => exact later (keepNewer best e)

/-- The tables that are left out do not have the key. -/
theorem newestInBlock_candidates {levels : List LevelState}
    (searchable : ∀ level ∈ levels, level.Searchable tables) (complete : renv.NoFalseNegatives)
    (key : CompositeKey) :
    SSTableHandle.newestInBlock key
        ((levels.flatMap fun level => level.findCandidatesForKey renv tables key).flatMap fun h =>
          tables.entries h.path) =
      SSTableHandle.newestInBlock key
        (levels.flatMap fun level => level.handles.flatMap fun h => tables.entries h.path) := by
  induction levels with
  | nil => rfl
  | cons level rest ih =>
    obtain ⟨p, same, dropped⟩ := LevelState.candidates_filter
      (searchable level List.mem_cons_self) complete key
    rw [List.flatMap_cons, List.flatMap_append, newestInBlock_append, List.flatMap_cons,
      newestInBlock_append,
      ih fun other member => searchable other (List.mem_cons_of_mem _ member), same,
      newestInBlock_flatMap_filter _ p _ dropped]

end Tables

/-- Every version in a memtable is newer than those of its key in the tables. -/
def MemtableList.Above (l : MemtableList) (tables : Tables) (levels : List LevelState) : Prop :=
  ∀ m ∈ l.memtables, ∀ x ∈ m.skiplist.nodes, ∀ level ∈ levels, ∀ h ∈ level.handles,
    ∀ e ∈ tables.entries h.path,
    x.compositeKey = e.compositeKey → e.sequenceNumber < x.sequenceNumber

theorem ReadPath.answer_plain {l : MemtableList} (plain : l.NoRangeDeletes) (key : CompositeKey)
    (e : MergeEntry) :
    ReadPath.answer l key e = if e.isTombstone then none else some e := by
  have uncovered : l.rangeTombstoneCovers key.recordId key.itemKey e.sequenceNumber = false := by
    rw [MemtableList.rangeTombstoneCovers, List.any_eq_false]
    intro m member
    rw [RangeTombstoneIndex.covers_empty (plain m member)]
    exact Bool.false_ne_true
  unfold ReadPath.answer
  rw [uncovered]
  rfl

/-- A point read finds what a search of all versions finds, where newer memtables have the newer
versions and every table answers with its newest. -/
theorem pointRead_eq_linearSearch {renv : ReadEnv} {draw : ReadDraw} {l : MemtableList}
    {tables : Tables} {levels : List LevelState} (complete : renv.NoFalseNegatives)
    (searchable : ∀ level ∈ levels, level.Searchable tables) (stacked : l.Stacked)
    (above : l.Above tables levels) (plain : l.NoRangeDeletes) {key : CompositeKey}
    (lookups : ∀ level ∈ levels, ∀ h ∈ level.handles,
      h.get renv draw tables key = .ok (SSTableHandle.newestInBlock key (tables.entries h.path))) :
    ReadPath.pointRead renv draw key l tables levels =
      .ok (linearSearch key (allVersions l tables levels)) := by
  have memory := l.get_newest stacked plain key
  have filtered : ∀ e : MergeEntry, ReadPath.answer l key e =
      (some e).filter fun e => !e.isTombstone := by
    intro e
    rw [ReadPath.answer_plain plain, Option.filter_some]
    cases e.isTombstone <;> rfl
  rw [linearSearch, allVersions, newestInBlock_append, memory]
  unfold ReadPath.pointRead
  cases held : l.get key with
  | some x =>
    have first := @newestInBlock_findsNewest key
      (l.memtables.flatMap fun m => m.skiplist.nodes.map MergeEntry.fromMemtableEntry)
    have second := @newestInBlock_findsNewest key
      (levels.flatMap fun level => level.handles.flatMap fun h => tables.entries h.path)
    rw [memory, held] at first
    -- a version in a table is older than the one that the memtable has
    have kept : newerOf (some (MergeEntry.fromMemtableEntry x))
        (SSTableHandle.newestInBlock key (levels.flatMap fun level =>
          level.handles.flatMap fun h => tables.entries h.path)) =
          some (MergeEntry.fromMemtableEntry x) := by
      cases stored : SSTableHandle.newestInBlock key
          (levels.flatMap fun level => level.handles.flatMap fun h => tables.entries h.path) with
      | none => rfl
      | some e =>
        rw [stored] at second
        obtain ⟨m, listed, inside⟩ := List.mem_flatMap.mp first.member
        obtain ⟨x', member, same⟩ := List.mem_map.mp inside
        obtain ⟨level, listed', inside'⟩ := List.mem_flatMap.mp second.member
        obtain ⟨h, opened, entry⟩ := List.mem_flatMap.mp inside'
        have key_x : x'.compositeKey = e.compositeKey :=
          (congrArg MergeEntry.compositeKey same).trans (first.same.trans second.same.symm)
        have older := above m listed x' member level listed' h opened e entry key_x
        have number : x'.sequenceNumber = x.sequenceNumber :=
          congrArg MergeEntry.sequenceNumber same
        exact if_pos (show x.sequenceNumber ≥ e.sequenceNumber by omega)
    dsimp only
    rw [Option.map_some, kept, filtered]
  | none =>
    have answers : ∀ h ∈ levels.flatMap fun level => level.findCandidatesForKey renv tables key,
        h.get renv draw tables key = .ok (SSTableHandle.newestInBlock key (tables.entries h.path)) := by
      intro h member
      obtain ⟨level, listed, candidate⟩ := List.mem_flatMap.mp member
      obtain ⟨p, same, -⟩ := LevelState.candidates_filter (searchable level listed) complete key
      rw [same] at candidate
      exact lookups level listed h (List.mem_filter.mp candidate).1
    dsimp only
    rw [searchHandles_newest answers none, newerOf_none,
      newestInBlock_candidates searchable complete, Option.map_none, newerOf_none]
    show Except.ok _ = _
    congr 1
    cases SSTableHandle.newestInBlock key
        (levels.flatMap fun level => level.handles.flatMap fun h => tables.entries h.path) with
    | none => rfl
    | some e => exact filtered e

/-- Reads with the filters that the writer builds. -/
def bloomReads (codec : Codec) (bitsPerKey blockSizeTarget getBudgetPerRead : Nat) : ReadEnv where
  blockSizeTarget := blockSizeTarget
  getBudgetPerRead := getBudgetPerRead
  maybeContains recordIds id := (Sst.BloomFilter.build codec bitsPerKey recordIds).maybeContains id

theorem bloomReads_complete (codec : Codec) (bitsPerKey blockSizeTarget getBudgetPerRead : Nat) :
    (bloomReads codec bitsPerKey blockSizeTarget getBudgetPerRead).NoFalseNegatives :=
  fun _ _ member => Sst.BloomFilter.maybeContains_build codec bitsPerKey member

/-- Where newer memtables have the newer versions of a key, no pruning of a point read hides a
version that a linear search would choose. -/
theorem pruned_pointRead_eq (codec : Codec) (bitsPerKey blockSizeTarget getBudgetPerRead : Nat)
    {draw : ReadDraw} {l : MemtableList} {tables : Tables} {levels : List LevelState}
    (searchable : ∀ level ∈ levels, level.Searchable tables) (stacked : l.Stacked)
    (above : l.Above tables levels) (plain : l.NoRangeDeletes) {key : CompositeKey}
    (lookups : ∀ level ∈ levels, ∀ h ∈ level.handles,
      h.get (bloomReads codec bitsPerKey blockSizeTarget getBudgetPerRead) draw tables key =
        .ok (SSTableHandle.newestInBlock key (tables.entries h.path))) :
    ReadPath.pointRead (bloomReads codec bitsPerKey blockSizeTarget getBudgetPerRead) draw key l
      tables levels =
        .ok (linearSearch key (allVersions l tables levels)) ∧
      (∀ level ∈ levels, ∀ h ∈ level.handles, (∃ e ∈ tables.entries h.path, e.compositeKey = key) →
        h ∈ level.findCandidatesForKey
          (bloomReads codec bitsPerKey blockSizeTarget getBudgetPerRead) tables key) ∧
      (∀ level ∈ levels, level.level ≠ .L0 →
        level.findCandidatesForKey (bloomReads codec bitsPerKey blockSizeTarget getBudgetPerRead)
          tables key =
          level.handles.filter fun h => h.table.containsKey key) ∧
      ∀ (m : Manifest) level, level ≠ .L0 → RangesApart id (m.sstablesAtLevel level) →
        m.findSstableForKey level key = (m.sstablesAtLevel level).find? fun t => t.containsKey key := by
  have complete := bloomReads_complete codec bitsPerKey blockSizeTarget getBudgetPerRead
  refine ⟨pointRead_eq_linearSearch complete searchable stacked above plain lookups, ?_, ?_, ?_⟩
  · rintro level listed h opened ⟨e, member, same⟩
    obtain ⟨p, candidates, dropped⟩ := LevelState.candidates_filter
      (searchable level listed) complete key
    rw [candidates]
    refine List.mem_filter.mpr ⟨opened, ?_⟩
    by_contra excluded
    exact dropped h opened (by simpa using excluded) e member same
  · intro level listed below
    exact LevelState.findCandidatesForKey_eq below ((searchable level listed).apart below) key
  · intro m level below disjoint
    exact Manifest.findSstableForKey_eq below disjoint key

section Example

def versionOf (item value : UInt8) (sequenceNumber : Nat) : MemtableEntry :=
  Sst.sampleEntry item value sequenceNumber

def pointKey (item : UInt8) : CompositeKey := CompositeKey.encode ⟨[114]⟩ [item]

/-- Two memtables with a version of one key each, the older one frozen. -/
def twoMemtables (older newer : Nat) : FlushResult MemtableList := do
  let (_, l) ← (MemtableList.new {} 1).insertPrechecked (versionOf 1 7 older)
  let l ← l.freezeActiveWithGeneration 0
  let (_, l) ← l.insertPrechecked (versionOf 1 8 newer)
  return l

/-- A table of one entry below L0. -/
def pointTable : SSTableMeta where
  id := .single "01JA"
  sizeBytes := 200
  entryCount := 1
  minKey := (pointKey 2).bytes
  maxKey := (pointKey 2).bytes
  createdAtMs := 0
  sequenceRange := (2, 2)
  recordIdCount := 1
  runId := none
  fragmentIndex := none
  named := fun _ _ none => nomatch none

def pointTables : Tables :=
  ObjectStore.empty.put ⟨.L1, pointTable.id⟩ [MergeEntry.fromMemtableEntry (versionOf 2 9 2)]

def pointLevels : List LevelState :=
  [{ level := .L1, handles := [{ table := pointTable, path := ⟨.L1, pointTable.id⟩ }] }]

/-- A frozen memtable has the higher number, and the read answers with the active one's version. -/
theorem pointRead_shadowed :
    ∃ l, twoMemtables 5 3 = .ok l ∧ l.NoRangeDeletes ∧ l.Above ObjectStore.empty [] ∧
      ReadPath.pointRead (bloomReads Sst.plainCodec 10 4096 8) {} (pointKey 1) l ObjectStore.empty [] =
        .ok (some (MergeEntry.fromMemtableEntry (versionOf 1 8 3))) ∧
      linearSearch (pointKey 1) (allVersions l ObjectStore.empty []) =
        some (MergeEntry.fromMemtableEntry (versionOf 1 7 5)) := by
  refine ⟨_, rfl, ?_, ?_, ?_, ?_⟩
  · unfold MemtableList.NoRangeDeletes
    decide
  · intro m _ x _ level listed
    cases listed
  · decide
  · decide

theorem pruned_pointRead_sample :
    ∃ l, twoMemtables 3 5 = .ok l ∧
      ReadPath.pointRead (bloomReads Sst.plainCodec 10 4096 8) {}
        (pointKey 2) l pointTables pointLevels =
        .ok (linearSearch (pointKey 2) (allVersions l pointTables pointLevels)) ∧
      linearSearch (pointKey 2) (allVersions l pointTables pointLevels) =
        some (MergeEntry.fromMemtableEntry (versionOf 2 9 2)) := by
  refine ⟨_, rfl, ?_, ?_⟩
  · refine (pruned_pointRead_eq Sst.plainCodec 10 4096 8 ?_ ?_ ?_ ?_ ?_).1
    · intro level listed
      rw [List.mem_singleton.mp listed]
      refine ⟨?_, ?_⟩
      · decide
      · intro _
        exact ⟨by decide, by decide⟩
    · unfold MemtableList.Stacked
      decide
    · unfold MemtableList.Above
      decide
    · unfold MemtableList.NoRangeDeletes
      decide
    · intro level listed h opened
      rw [List.mem_singleton.mp listed] at opened
      rw [List.mem_singleton.mp opened]
      decide +kernel
  · decide

end Example

end FlushDB
