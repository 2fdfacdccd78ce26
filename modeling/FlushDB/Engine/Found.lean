import FlushDB.Compaction.Outputs
import FlushDB.Engine.Reads

/-!
What a read finds is stored: point reads give versions of their key, range reads give entries of
the memtables and the tables that no known range tombstone covers.
-/

namespace FlushDB
open Lib

/-- An entry of some object. -/
def Tables.Has (tables : Tables) (e : MergeEntry) : Prop :=
  ∃ path entries, tables.get path = some entries ∧ e ∈ entries

section Found
variable {renv : ReadEnv} {draw : ReadDraw} {tables : Tables} {key : CompositeKey} {e : MergeEntry}

theorem keepNewer_some {best : Option MergeEntry} {x : MergeEntry} (h : keepNewer best x = some e) :
    best = some e ∨ e = x := by
  unfold keepNewer at h
  split at h
  · split at h
    · exact Or.inl h
    · exact Or.inr (Option.some.inj h).symm
  · exact Or.inr (Option.some.inj h).symm

namespace SSTableHandle
variable {handle : SSTableHandle}

theorem newestInBlock_mem {block : List MergeEntry} (h : newestInBlock key block = some e) :
    e ∈ block ∧ e.compositeKey = key := by
  have folded : ∀ best, block.foldl (fun best x =>
      if x.compositeKey = key then keepNewer best x else best) best = some e →
      best = some e ∨ (e ∈ block ∧ e.compositeKey = key) := by
    clear h
    induction block with
    | nil =>
      intro best h
      exact Or.inl h
    | cons x rest ih =>
      intro best h
      rw [List.foldl_cons] at h
      rcases ih _ h with here | ⟨member, same⟩
      · split at here
        · rename_i same
          rcases keepNewer_some here with old | rfl
          · exact Or.inl old
          · exact Or.inr ⟨List.mem_cons_self, same⟩
        · exact Or.inl here
      · exact Or.inr ⟨List.mem_cons_of_mem _ member, same⟩
  exact (folded none h).resolve_left (fun none => by cases none)

theorem has_of_index {index : List IndexEntry} {entry : IndexEntry}
    (read : handle.index renv tables = .ok index) (listed : entry ∈ index) (h : e ∈ entry.block) :
    tables.Has e := by
  unfold SSTableHandle.index at read
  split at read
  · cases read
  · rename_i entries found
    obtain rfl := Except.ok.inj read
    exact ⟨handle.path, entries, found, SSTableWriter.mem_write listed h⟩

theorem fetchBlock_ok {i : Nat} {block fetched : List MergeEntry}
    (h : handle.fetchBlock draw i block = .ok fetched) :
    fetched = block := by
  unfold fetchBlock at h
  split at h
  · exact (Except.ok.inj h).symm
  · split at h
    · cases h
    · exact (Except.ok.inj h).symm

theorem fetchBlockBudgeted_ok {i : Nat} {block fetched : List MergeEntry} {budget : ReadBudget}
    (h : (handle.fetchBlockBudgeted renv draw i block budget).1 = .ok fetched) :
    fetched = block := by
  unfold fetchBlockBudgeted at h
  split at h
  · exact (Except.ok.inj h).symm
  · split at h
    · cases h
    · dsimp only at h
      split at h
      · cases h
      · exact (Except.ok.inj h).symm

theorem findBlock_mem {index : List IndexEntry} {i : Nat} {entry : IndexEntry}
    (h : findBlock index key = some (i, entry)) :
    entry ∈ index := by
  unfold findBlock at h
  cases at_ : IndexBlock.findBlockIndex index key with
  | none => simp [at_] at h
  | some j =>
    cases found : index[j]? with
    | none => simp [at_, found] at h
    | some other =>
      simp only [at_, found, Option.bind_eq_bind, Option.bind_some, Option.pure_def,
        Option.some.injEq, Prod.mk.injEq] at h
      rw [← h.2]
      exact List.mem_of_getElem? found

/-- The version a table gives for a key is one of the key, and stored. -/
theorem get_found (h : handle.get renv draw tables key = .ok (some e)) :
    tables.Has e ∧ e.compositeKey = key := by
  unfold SSTableHandle.get at h
  split at h
  · cases h
  split at h
  · cases h
  rename_i index read
  split at h
  · cases h
  rename_i i entry found
  cases fetched : handle.fetchBlock draw i entry.block with
  | error err =>
    rw [fetched] at h
    cases h
  | ok block =>
    rw [fetched] at h
    obtain ⟨member, same⟩ := newestInBlock_mem (Except.ok.inj h)
    rw [fetchBlock_ok fetched] at member
    exact ⟨has_of_index read (findBlock_mem found) member, same⟩

theorem getBudgeted_found {budget left : ReadBudget}
    (h : handle.getBudgeted renv draw tables key budget = (.ok (some e), left)) :
    tables.Has e ∧ e.compositeKey = key := by
  unfold getBudgeted at h
  split at h
  · cases h
  split at h
  · cases h
  rename_i index read
  split at h
  · cases h
  rename_i i entry found
  generalize fetches : handle.fetchBlockBudgeted renv draw i entry.block budget = result at h
  obtain ⟨fetched, left'⟩ := result
  obtain ⟨value, -⟩ := Prod.mk.inj h
  cases fetched with
  | error err => cases value
  | ok block =>
    obtain ⟨member, same⟩ := newestInBlock_mem (Except.ok.inj value)
    rw [fetchBlockBudgeted_ok (congrArg Prod.fst fetches)] at member
    exact ⟨has_of_index read (findBlock_mem found) member, same⟩

theorem scanBlock_subset {start : CompositeKey} {stop : Option CompositeKey}
    {block : List MergeEntry} (h : e ∈ (scanBlock start stop block).1) : e ∈ block := by
  induction block with
  | nil => cases h
  | cons x rest ih =>
    unfold scanBlock at h
    split at h
    · exact List.mem_cons_of_mem _ (ih h)
    · split at h
      · cases h
      · rcases List.mem_cons.mp h with rfl | later
        · exact List.mem_cons_self
        · exact List.mem_cons_of_mem _ (ih later)

theorem scanFrom_found {start : CompositeKey} {stop : Option CompositeKey} {first i : Nat}
    {index : List IndexEntry} {entries : List MergeEntry}
    (h : scanFrom draw handle start stop first i index = .ok entries) (member : e ∈ entries) :
    ∃ entry ∈ index, e ∈ entry.block := by
  induction index generalizing i entries with
  | nil =>
    obtain rfl := Except.ok.inj h
    cases member
  | cons entry rest ih =>
    unfold scanFrom at h
    split at h
    · obtain rfl := Except.ok.inj h
      cases member
    split at h
    · cases h
    rename_i block fetched
    have here : e ∈ (scanBlock start stop block).1 →
        ∃ entry' ∈ entry :: rest, e ∈ entry'.block := by
      intro kept
      have inside := scanBlock_subset kept
      rw [fetchBlock_ok fetched] at inside
      exact ⟨entry, List.mem_cons_self, inside⟩
    split at h
    · rename_i kept scanned
      obtain rfl := Except.ok.inj h
      exact here (scanned ▸ member)
    · rename_i kept scanned
      cases later : scanFrom draw handle start stop first (i + 1) rest with
      | error err =>
        rw [later] at h
        cases h
      | ok others =>
        rw [later] at h
        obtain rfl := Except.ok.inj h
        rcases List.mem_append.mp member with now | after
        · exact here (scanned ▸ now)
        · obtain ⟨entry', listed, inside⟩ := ih later after
          exact ⟨entry', List.mem_cons_of_mem _ listed, inside⟩

theorem scan_found {start : CompositeKey} {stop : Option CompositeKey} {entries : List MergeEntry}
    (h : handle.scan renv draw tables start stop = .ok entries) (member : e ∈ entries) :
    tables.Has e := by
  unfold SSTableHandle.scan at h
  split at h
  · cases h
  · rename_i index read
    obtain ⟨entry, listed, inside⟩ := scanFrom_found h member
    exact has_of_index read (List.mem_of_mem_drop listed) inside

end SSTableHandle

namespace ReadPath

theorem searchHandles_found {handles : List SSTableHandle} {best : Option MergeEntry}
    (h : searchHandles renv draw tables key handles best = .ok (some e)) :
    best = some e ∨ (tables.Has e ∧ e.compositeKey = key) := by
  induction handles generalizing best with
  | nil => exact Or.inl (Except.ok.inj h)
  | cons handle rest ih =>
    unfold searchHandles at h
    split at h
    · cases h
    · exact ih h
    · rename_i found
      rcases ih h with newer | later
      · rcases keepNewer_some newer with old | rfl
        · exact Or.inl old
        · exact Or.inr (SSTableHandle.get_found found)
      · exact Or.inr later

theorem scanHandles_found {start stop : CompositeKey} {handles : List SSTableHandle}
    {stored : List (List MergeEntry)}
    (h : scanHandles renv draw tables start stop handles = .ok stored) {entries : List MergeEntry}
    (listed : entries ∈ stored) (member : e ∈ entries) : tables.Has e := by
  induction handles generalizing stored with
  | nil =>
    obtain rfl := Except.ok.inj h
    cases listed
  | cons handle rest ih =>
    unfold scanHandles at h
    split at h
    · cases h
    · rename_i first scanned
      cases later : scanHandles renv draw tables start stop rest with
      | error err =>
        rw [later] at h
        cases h
      | ok others =>
        rw [later] at h
        obtain rfl := Except.ok.inj h
        rcases List.mem_cons.mp listed with rfl | after
        · exact SSTableHandle.scan_found scanned member
        · exact ih later after

end ReadPath

namespace Engine

theorem searchBudgeted_found {handles : List SSTableHandle} {best : Option MergeEntry}
    {budget left : ReadBudget}
    (h : searchBudgeted renv draw tables key handles best budget = .ok (some e, left)) :
    best = some e ∨ (tables.Has e ∧ e.compositeKey = key) := by
  induction handles generalizing best budget with
  | nil => exact Or.inl (Prod.mk.inj (Except.ok.inj h)).1
  | cons handle rest ih =>
    unfold searchBudgeted at h
    split at h
    · rename_i found
      rcases ih h with newer | later
      · rcases keepNewer_some newer with old | rfl
        · exact Or.inl old
        · exact Or.inr (SSTableHandle.getBudgeted_found found)
      · exact Or.inr later
    · exact ih h
    · exact Or.inl (Prod.mk.inj (Except.ok.inj h)).1
    · cases h

theorem searchLevels_found {levels : List LevelState} {best : Option MergeEntry}
    {budget : ReadBudget}
    (h : searchLevels renv draw tables key levels best budget = .ok (some e)) :
    best = some e ∨ (tables.Has e ∧ e.compositeKey = key) := by
  induction levels generalizing best budget with
  | nil => exact Or.inl (Except.ok.inj h)
  | cons level rest ih =>
    unfold searchLevels at h
    split at h
    · cases h
    · rename_i best' left searched
      have here : best' = some e → best = some e ∨ (tables.Has e ∧ e.compositeKey = key) := by
        intro same
        rw [same] at searched
        exact searchBudgeted_found searched
      split at h
      · exact here (Except.ok.inj h)
      · rcases ih h with newer | later
        · exact here newer
        · exact Or.inr later

end Engine

end Found

/-- A version that a memtable holds. -/
def MemtableList.Has (l : MemtableList) (e : MergeEntry) : Prop :=
  ∃ m ∈ l.memtables, ∃ x ∈ m.skiplist.nodes, e = MergeEntry.fromMemtableEntry x

section FoundInMemory
variable {l : MemtableList} {key : CompositeKey}

theorem Memtable.get_found {m : Memtable} {x : MemtableEntry} (h : m.get key = some x) :
    x ∈ m.skiplist.nodes ∧ x.compositeKey = key := by
  obtain ⟨found, -⟩ := Option.filter_eq_some_iff.mp h
  obtain ⟨head, same⟩ := Option.filter_eq_some_iff.mp found
  exact ⟨(List.dropWhile_sublist _).mem (List.mem_of_head? head), of_decide_eq_true same⟩

theorem MemtableList.get_found {x : MemtableEntry} (h : l.get key = some x) :
    l.Has (MergeEntry.fromMemtableEntry x) ∧ x.compositeKey = key := by
  unfold MemtableList.get at h
  cases active : l.active.get key with
  | some y =>
    rw [active, Option.some_or] at h
    obtain ⟨member, same⟩ := Memtable.get_found (active.trans h)
    exact ⟨⟨l.active, List.mem_cons_self, x, member, rfl⟩, same⟩
  | none =>
    rw [active, Option.none_or] at h
    obtain ⟨m, listed, found⟩ := List.exists_of_findSome?_eq_some h
    obtain ⟨member, same⟩ := Memtable.get_found found
    exact ⟨⟨m.2, List.mem_cons_of_mem _ (List.mem_map_of_mem listed), x, member, rfl⟩, same⟩

theorem Memtable.scanWithTombstones_subset {m : Memtable} {start stop : CompositeKey}
    {x : MemtableEntry} (h : x ∈ m.scanWithTombstones start stop) : x ∈ m.skiplist.nodes := by
  have kept : ∀ nodes last, x ∈ m.dedupAndCheckRangeTombstones last nodes → x ∈ nodes := by
    intro nodes
    induction nodes with
    | nil =>
      intro last member
      cases member
    | cons node rest ih =>
      intro last member
      unfold Memtable.dedupAndCheckRangeTombstones at member
      split at member
      · exact List.mem_cons_of_mem _ (ih _ member)
      · split at member
        · exact List.mem_cons_of_mem _ (ih _ member)
        · rcases List.mem_cons.mp member with rfl | later
          · exact List.mem_cons_self
          · exact List.mem_cons_of_mem _ (ih _ later)
  exact (List.dropWhile_sublist _).mem ((List.takeWhile_sublist _).mem (kept _ _ h))

theorem MemtableList.scanAllWithTombstones_found {start stop : CompositeKey} {x : MemtableEntry}
    (h : x ∈ l.scanAllWithTombstones start stop) : l.Has (MergeEntry.fromMemtableEntry x) := by
  have kept : ∀ entries last, x ∈ MemtableList.dedupByKey last entries → x ∈ entries := by
    intro entries
    induction entries with
    | nil =>
      intro last member
      cases member
    | cons entry rest ih =>
      intro last member
      unfold MemtableList.dedupByKey at member
      split at member
      · exact List.mem_cons_of_mem _ (ih _ member)
      · rcases List.mem_cons.mp member with rfl | later
        · exact List.mem_cons_self
        · exact List.mem_cons_of_mem _ (ih _ later)
  obtain ⟨m, listed, member⟩ := List.mem_flatMap.mp (List.mem_mergeSort.mp (kept _ _ h))
  exact ⟨m, listed, x, Memtable.scanWithTombstones_subset member, rfl⟩

end FoundInMemory

namespace RangeTombstone

/-- The tombstone deletes what is older than itself of these keys. -/
def Spans (ts : RangeTombstone) (recordId itemKey : Bytes) : Prop :=
  ts.recordId = recordId ∧ ts.startKey ≤ itemKey ∧ RangeTombstoneIndex.inRange ts itemKey = true

end RangeTombstone

theorem RangeTombstoneIndex.covers_of_spans {index : RangeTombstoneIndex} {ts : RangeTombstone}
    (member : ts ∈ index.tombstones) {recordId itemKey : Bytes} (spans : ts.Spans recordId itemKey)
    {seq : Nat} (older : seq < ts.sequenceNumber) :
    index.covers recordId itemKey seq = true :=
  covers_iff.mpr ⟨ts, member, spans.1, spans.2.1, spans.2.2, older⟩

namespace ReadPath

theorem mem_track {recordId : Bytes} {e : MergeEntry} {collector : RangeTombstoneIndex}
    {ts : RangeTombstone} (h : ts ∈ collector.tombstones) :
    ts ∈ (track recordId e collector).tombstones := by
  unfold track
  split
  · split
    · exact RangeTombstoneIndex.mem_add.mpr (Or.inr h)
    · exact h
  · exact h

theorem visit_sources (recordId : Bytes) (options : RangeReadOptions) (e : MergeEntry) (p : Page) :
    (visit recordId options e p).sources = p.sources := by
  unfold visit
  split
  · rfl
  split
  · rfl
  split
  · rfl
  split
  · rfl
  split <;> rfl

theorem visit_collector {recordId : Bytes} {options : RangeReadOptions} {e : MergeEntry} {p : Page}
    {ts : RangeTombstone} (h : ts ∈ p.collector.tombstones) :
    ts ∈ (visit recordId options e p).collector.tombstones := by
  unfold visit
  split
  · exact mem_track h
  split
  · exact h
  split
  · exact mem_track h
  split
  · exact h
  split <;> exact h

/-- An entry is taken only when no tombstone collected so far covers it. -/
theorem visit_entries {recordId : Bytes} {options : RangeReadOptions} {e x : MergeEntry} {p : Page}
    (h : x ∈ (visit recordId options e p).entries) :
    x ∈ p.entries ∨ (x = e ∧ p.collector.covers x.compositeKey.recordId x.compositeKey.itemKey
      x.sequenceNumber = false) := by
  unfold visit at h
  split at h
  · exact Or.inl h
  split at h
  · exact Or.inl h
  split at h
  · exact Or.inl h
  split at h
  · exact Or.inl h
  split at h
  · exact Or.inl h
  · rename_i uncovered
    rcases List.mem_append.mp h with old | new
    · exact Or.inl old
    · obtain rfl := List.mem_singleton.mp new
      exact Or.inr ⟨rfl, Bool.eq_false_iff.mpr uncovered⟩

/-- What a page takes comes from its sources, and no tombstone known at the start covers it. -/
theorem collect_entries {recordId : Bytes} {options : RangeReadOptions} {fuel : Nat} {p : Page}
    {x : MergeEntry} {ts : RangeTombstone} (known : ts ∈ p.collector.tombstones)
    (h : x ∈ (collect recordId options fuel p).entries) :
    x ∈ p.entries ∨ (x ∈ MergeIterator.pending p.sources ∧
      ¬ (ts.Spans x.compositeKey.recordId x.compositeKey.itemKey ∧
        x.sequenceNumber < ts.sequenceNumber)) := by
  induction fuel generalizing p with
  | zero => exact Or.inl h
  | succ fuel ih =>
    unfold collect at h
    split at h
    · exact Or.inl h
    · rename_i e sources next
      have taken := MergeIterator.nextDeduped_subset next
      have visited : x ∈ (visit recordId options e { p with sources }).entries →
          x ∈ p.entries ∨ (x ∈ MergeIterator.pending p.sources ∧
            ¬ (ts.Spans x.compositeKey.recordId x.compositeKey.itemKey ∧
              x.sequenceNumber < ts.sequenceNumber)) := by
        intro member
        rcases visit_entries member with old | ⟨rfl, uncovered⟩
        · exact Or.inl old
        · refine Or.inr ⟨taken.1, ?_⟩
          rintro ⟨spans, older⟩
          rw [RangeTombstoneIndex.covers_of_spans known spans older] at uncovered
          cases uncovered
      dsimp only at h
      split at h
      · exact visited h
      · have kept : ts ∈ (visit recordId options e { p with sources }).collector.tombstones :=
          visit_collector known
        rcases ih kept h with here | ⟨later, apart⟩
        · exact visited here
        · rw [visit_sources] at later
          exact Or.inr ⟨taken.2 x later, apart⟩

/-- The sources of a range read hold what the memtables and the tables hold. -/
theorem readSources_found {renv : ReadEnv} {draw : ReadDraw} {tables : Tables} {l : MemtableList}
    {levels : List LevelState} {start stop : CompositeKey} {sources : List VecSource}
    (h : readSources renv draw l tables levels start stop = .ok sources) {e : MergeEntry}
    (pending : e ∈ MergeIterator.pending sources) : tables.Has e ∨ l.Has e := by
  unfold readSources at h
  generalize scanned : scanHandles renv draw tables start stop
    (levels.flatMap fun level => level.findCandidatesForRange start stop) = left at h
  cases left with
  | error err => cases h
  | ok stored =>
    obtain rfl := Except.ok.inj h
    rw [CompactionExecutor.pending_mergeSources] at pending
    obtain ⟨entries, inside, member⟩ := List.mem_flatten.mp pending
    rcases List.mem_cons.mp (List.mem_of_mem_filter inside) with rfl | object
    · obtain ⟨x, held, rfl⟩ := List.mem_map.mp member
      exact Or.inr (MemtableList.scanAllWithTombstones_found held)
    · exact Or.inl (scanHandles_found scanned object member)

end ReadPath

end FlushDB
