import FlushDB.Engine.Merged

/-!
What the sources of a range read hold. They hold keys of the range only, each source in order, and
of every key after the first of the range all the versions that a reader has to choose from: those
of the tables whose object is there, and of the memtables the newest that is not deleted.
-/

namespace FlushDB
open Lib

namespace SSTableWriter

/-- The builder knows the first key of its entries. -/
theorem writeFrom_spec {blockSizeTarget : Nat} {b : BlockBuilder}
    (starts : b.firstKey = b.entries.head?.map MergeEntry.compositeKey)
    (entries : List MergeEntry) :
    ((writeFrom blockSizeTarget b entries).map IndexEntry.block).flatten = b.entries ++ entries ∧
      ∀ ie ∈ writeFrom blockSizeTarget b entries,
        ie.block.head?.map MergeEntry.compositeKey = some ie.firstKey := by
  have closed : ∀ b : BlockBuilder, b.firstKey = b.entries.head?.map MergeEntry.compositeKey →
      (b.finish.toList.map IndexEntry.block).flatten = b.entries ∧
        ∀ ie ∈ b.finish.toList, ie.block.head?.map MergeEntry.compositeKey = some ie.firstKey := by
    intro b starts
    unfold BlockBuilder.finish
    cases entries : b.entries with
    | nil =>
      rw [entries] at starts
      simp [starts]
    | cons e rest =>
      rw [entries] at starts
      simp [starts]
  induction entries generalizing b with
  | nil =>
    rw [List.append_nil]
    exact closed b starts
  | cons e rest ih =>
    have starts' : (b.addEntry e).firstKey = (b.addEntry e).entries.head?.map
        MergeEntry.compositeKey := by
      unfold BlockBuilder.addEntry
      dsimp only
      rw [starts]
      cases b.entries <;> rfl
    have added : (b.addEntry e).entries = b.entries ++ [e] := rfl
    unfold writeFrom
    dsimp only
    split
    · obtain ⟨flat, firsts⟩ := closed _ starts'
      obtain ⟨flat', firsts'⟩ := @ih {} rfl
      refine ⟨?_, ?_⟩
      · rw [List.map_append, List.flatten_append, flat, flat', added, List.append_assoc]
        rfl
      · intro ie member
        rcases List.mem_append.mp member with here | later
        · exact firsts ie here
        · exact firsts' ie later
    · obtain ⟨flat, firsts⟩ := ih starts'
      rw [flat, added, List.append_assoc]
      exact ⟨rfl, firsts⟩

theorem write_flatten (blockSizeTarget : Nat) (entries : List MergeEntry) :
    ((write blockSizeTarget entries).map IndexEntry.block).flatten = entries :=
  (@writeFrom_spec blockSizeTarget {} rfl entries).1

theorem write_indexes (blockSizeTarget : Nat) (entries : List MergeEntry) :
    Indexes IndexEntry.firstKey MergeEntry.compositeKey (write blockSizeTarget entries)
      ((write blockSizeTarget entries).map IndexEntry.block) := by
  have firsts := (@writeFrom_spec blockSizeTarget {} rfl entries).2
  rw [Indexes, List.forall₂_map_right_iff]
  exact List.forall₂_same.mpr firsts

theorem write_cut (blockSizeTarget : Nat) {entries : List MergeEntry}
    (sorted : entries.Pairwise MergeEntry.Precedes) :
    Cut MergeEntry.compositeKey ((write blockSizeTarget entries).map IndexEntry.block) := by
  refine ⟨?_, ?_⟩
  · intro block member
    obtain ⟨ie, listed, rfl⟩ := List.mem_map.mp member
    have first := (@writeFrom_spec blockSizeTarget {} rfl entries).2 ie listed
    intro empty
    rw [empty] at first
    cases first
  · rw [write_flatten]
    exact sorted.imp MergeEntry.Precedes.key_le

end SSTableWriter

namespace SSTableHandle
variable {renv : ReadEnv} {draw : ReadDraw} {tables : Tables} {h : SSTableHandle}
  {start : CompositeKey} {stop : Option CompositeKey}

theorem scanBlock_eq (block : List MergeEntry) :
    scanBlock start stop block = Lib.scanBlock MergeEntry.compositeKey start stop block := by
  induction block with
  | nil => rfl
  | cons e rest ih =>
    unfold scanBlock Lib.scanBlock
    rw [ih]

/-- A scan that succeeds reads the blocks in turn. -/
theorem scanFrom_eq {first i : Nat} {index : List IndexEntry} (after : first ≤ i)
    (firsts : ∀ ie ∈ index, ie.block.head?.map MergeEntry.compositeKey = some ie.firstKey) :
    (∀ shown, scanFrom draw h start stop first i index = .ok shown →
      shown = scanBlocks MergeEntry.compositeKey start stop (decide (i = first))
        (index.map IndexEntry.block)) ∧
    ((∀ path i, draw.fails path i = false) → ∃ shown,
      scanFrom draw h start stop first i index = .ok shown) := by
  induction index generalizing i with
  | nil => exact ⟨fun shown same => (Except.ok.inj same).symm, fun _ => ⟨[], rfl⟩⟩
  | cons ie rest ih =>
    obtain ⟨rest_eq, rest_ok⟩ :=
      @ih (i + 1) (by omega) (fun ie member => firsts ie (List.mem_cons_of_mem _ member))
    rw [show decide (i + 1 = first) = false from decide_eq_false (by omega)] at rest_eq
    obtain ⟨head, at_head, key⟩ := Option.map_eq_some_iff.mp (firsts ie List.mem_cons_self)
    have ends : (i > first ∧ stop.any (fun s => s ≤ ie.firstKey) = true) ↔
        (!decide (i = first) && stop.any fun s => ie.block.head?.any fun e => s ≤ e.compositeKey) =
          true := by
      simp only [at_head, Option.any_some, key, Bool.and_eq_true, Bool.not_eq_true',
        decide_eq_false_iff_not]
      constructor
      · rintro ⟨later, past⟩
        exact ⟨by omega, past⟩
      · rintro ⟨other, past⟩
        exact ⟨by omega, past⟩
    rw [List.map_cons]
    unfold scanFrom scanBlocks
    by_cases past : i > first ∧ stop.any (fun s => s ≤ ie.firstKey) = true
    · rw [if_pos past, if_pos (ends.mp past)]
      exact ⟨fun shown same => (Except.ok.inj same).symm, fun _ => ⟨[], rfl⟩⟩
    · rw [if_neg past, if_neg (fun p => past (ends.mpr p)), ← scanBlock_eq]
      cases fetched : h.fetchBlock draw i ie.block with
      | error e =>
        constructor
        · intro shown impossible
          cases impossible
        · intro fine
          simp [fetchBlock, fine] at fetched
      | ok block =>
        obtain rfl := fetchBlock_ok fetched
        dsimp only
        cases scanned : scanBlock start stop ie.block with
        | mk kept ended =>
          cases ended with
          | true => exact ⟨fun shown same => (Except.ok.inj same).symm, fun _ => ⟨kept, rfl⟩⟩
          | false =>
            dsimp only
            refine ⟨?_, ?_⟩
            · intro shown same
              cases later : scanFrom draw h start stop first (i + 1) rest with
              | error e =>
                rw [later] at same
                cases same
              | ok others =>
                rw [later] at same
                obtain rfl := Except.ok.inj same
                rw [← rest_eq others later]
            · intro fine
              obtain ⟨others, later⟩ := rest_ok fine
              rw [later]
              exact ⟨kept ++ others, rfl⟩

theorem scan_eq (h : SSTableHandle) (start : CompositeKey) (stop : Option CompositeKey)
    {entries : List MergeEntry} (found : tables.get h.path = some entries) :
    let index := SSTableWriter.write renv.blockSizeTarget entries
    let first := partitionPoint (fun ie => decide (ie.firstKey ≤ start)) index - 1
    (∀ shown, h.scan renv draw tables start stop = .ok shown →
      shown = scanBlocks MergeEntry.compositeKey start stop true
        ((index.map IndexEntry.block).drop first)) ∧
    ((∀ path i, draw.fails path i = false) → ∃ shown,
      h.scan renv draw tables start stop = .ok shown) := by
  intro index first
  have chosen : (IndexBlock.findBlockIndex index start).getD 0 = first := by
    unfold IndexBlock.findBlockIndex
    split
    · rename_i none
      exact (congrArg (· - 1) none).symm
    · rename_i i point
      exact (congrArg (· - 1) point).symm
  have firsts := (@SSTableWriter.writeFrom_spec renv.blockSizeTarget {} rfl entries).2
  have read := @scanFrom_eq draw h start stop first first (index.drop first) (le_refl _)
    (fun ie member => firsts ie (List.mem_of_mem_drop member))
  rw [decide_eq_true rfl, List.map_drop] at read
  have same : h.scan renv draw tables start stop =
      scanFrom draw h start stop first first (index.drop first) := by
    simp only [SSTableHandle.scan, SSTableHandle.index, found]
    rw [← chosen]
  rw [same]
  exact read

/-- A scan keeps to its range, whatever the object is. -/
theorem scan_bounds {shown : List MergeEntry} {last : CompositeKey}
    (shows : h.scan renv draw tables start (some last) = .ok shown) {e : MergeEntry}
    (member : e ∈ shown) : start ≤ e.compositeKey ∧ e.compositeKey < last := by
  cases found : tables.get h.path with
  | none => simp [SSTableHandle.scan, SSTableHandle.index, found] at shows
  | some entries =>
    rw [(scan_eq h start (some last) found).1 shown shows] at member
    simpa [InRange] using mem_scanBlocks member

/-- Of an ordered object a scan shows the entries of the range in their order, and all of those
after its first key. -/
theorem scan_spec {shown entries : List MergeEntry} {last : CompositeKey}
    (shows : h.scan renv draw tables start (some last) = .ok shown)
    (found : tables.get h.path = some entries) (sorted : entries.Pairwise MergeEntry.Precedes) :
    shown.Sublist entries ∧
      ∀ key, start < key → key < last → versionsOf key shown = versionsOf key entries := by
  have cut := SSTableWriter.write_cut renv.blockSizeTarget sorted
  have indexes := SSTableWriter.write_indexes renv.blockSizeTarget entries
  obtain ⟨before, after, blocks, below, scanned⟩ :=
    @indexed_scan_split _ _ _ _ _ start (some last) _ _ _ indexes cut _ rfl
  rw [← (scan_eq h start (some last) found).1 shown shows] at scanned
  have whole : entries = before.flatten ++ after.flatten := by
    rw [← List.flatten_append, ← blocks, SSTableWriter.write_flatten]
  rw [scanned]
  constructor
  · refine List.filter_sublist.trans ?_
    rw [whole]
    exact List.sublist_append_right _ _
  · intro key later inside
    have absent : versionsOf key before.flatten = [] := by
      refine List.filter_eq_nil_iff.mpr ?_
      intro e member same
      exact absurd (of_decide_eq_true same) ((below e member).trans_lt later).ne
    rw [whole, versionsOf, versionsOf, List.filter_append, List.filter_filter]
    rw [versionsOf] at absent
    rw [absent, List.nil_append]
    refine List.filter_congr ?_
    intro e member
    by_cases same : e.compositeKey = key
    · simp [same, InRange, later.le, inside]
    · simp [same]

end SSTableHandle

namespace MemtableEntry

theorem compareEntries_le {a b : MemtableEntry} : decide (compareEntries a b ≠ .gt) = true ↔
    (MergeEntry.fromMemtableEntry a).Precedes (MergeEntry.fromMemtableEntry b) := by
  rw [decide_eq_true_iff, Ne, compareEntries_gt]
  show ¬ Before b a ↔ a.compositeKey < b.compositeKey ∨
    (a.compositeKey = b.compositeKey ∧ b.sequenceNumber ≤ a.sequenceNumber)
  unfold Before
  rcases lt_trichotomy a.compositeKey b.compositeKey with less | same | greater
  · simp [less, less.not_gt, less.ne']
  · simp [same]
  · simp [greater, greater.not_gt, greater.ne']

theorem compareEntries_total (a b : MemtableEntry) :
    (decide (compareEntries a b ≠ .gt) || decide (compareEntries b a ≠ .gt)) = true := by
  rw [Bool.or_eq_true, compareEntries_le, compareEntries_le]
  rcases lt_trichotomy a.compositeKey b.compositeKey with less | same | greater
  · exact Or.inl (Or.inl less)
  · rcases Nat.le_total b.sequenceNumber a.sequenceNumber with newer | older
    · exact Or.inl (Or.inr ⟨same, newer⟩)
    · exact Or.inr (Or.inr ⟨same.symm, older⟩)
  · exact Or.inr (Or.inl greater)

theorem compareEntries_trans (a b c : MemtableEntry)
    (first : decide (compareEntries a b ≠ .gt) = true)
    (second : decide (compareEntries b c ≠ .gt) = true) :
    decide (compareEntries a c ≠ .gt) = true := by
  rw [compareEntries_le] at first second ⊢
  exact first.trans second

end MemtableEntry

open MemtableEntry

section Deduped
variable {key : CompositeKey}

theorem MemtableList.dedupByKey_sublist (last : Option CompositeKey)
    (entries : List MemtableEntry) :
    (MemtableList.dedupByKey last entries).Sublist entries := by
  induction entries generalizing last with
  | nil => exact .refl _
  | cons e rest ih =>
    unfold MemtableList.dedupByKey
    split
    · exact (ih last).cons e
    · exact (ih _).cons_cons e

/-- Of a key, the first entry stays, unless the key came before. -/
theorem MemtableList.dedupByKey_filter {last : Option CompositeKey} {entries : List MemtableEntry}
    (ascends : entries.Pairwise fun a b => a.compositeKey ≤ b.compositeKey)
    (above : ∀ k ∈ last, ∀ e ∈ entries, k ≤ e.compositeKey) :
    (MemtableList.dedupByKey last entries).filter (fun e => e.compositeKey = key) =
      if last = some key then [] else (entries.find? fun e => e.compositeKey = key).toList := by
  induction entries generalizing last with
  | nil => simp [MemtableList.dedupByKey]
  | cons e rest ih =>
    obtain ⟨after, ascends⟩ := List.pairwise_cons.mp ascends
    unfold MemtableList.dedupByKey
    split
    · rename_i repeated
      rw [ih ascends (fun k given e' member => above k given e' (List.mem_cons_of_mem _ member)),
        repeated]
      by_cases same : e.compositeKey = key
      · simp [same]
      · simp [same]
    · rename_i fresh
      have later := @ih (some e.compositeKey) ascends (by
        rintro k ⟨⟩ e' member
        exact after e' member)
      by_cases same : e.compositeKey = key
      · rw [List.filter_cons_of_pos
          (by simpa using same), later, if_pos (by rw [same]), if_neg (by rw [← same]; exact fresh),
          List.find?_cons_of_pos (by simpa using same)]
        rfl
      · rw [List.filter_cons_of_neg (by simpa using same), later, if_neg (by simpa using same),
          List.find?_cons_of_neg (by simpa using same)]
        split
        · rename_i passed
          -- the key of `e` is above the last one, and so are all that follow
          have less : key < e.compositeKey := lt_of_le_of_ne (above key passed e List.mem_cons_self)
            (fun eq => same eq.symm)
          have none : rest.find? (fun e => decide (e.compositeKey = key)) = none := by
            rw [List.find?_eq_none]
            intro e' member equal
            exact absurd (of_decide_eq_true equal) (less.trans_le (after e' member)).ne'
          rw [none]
          rfl
        · rfl

theorem Memtable.dedupAndCheckRangeTombstones_eq (m : Memtable) (last : Option CompositeKey)
    (entries : List MemtableEntry) :
    m.dedupAndCheckRangeTombstones last entries =
      (MemtableList.dedupByKey last entries).filter fun node =>
      !m.rangeTombstones.covers node.recordId node.itemKey node.sequenceNumber := by
  induction entries generalizing last with
  | nil => rfl
  | cons node rest ih =>
    unfold Memtable.dedupAndCheckRangeTombstones MemtableList.dedupByKey
    split
    · exact ih last
    · split
      · rename_i covered
        rw [List.filter_cons_of_neg (by simp [covered]), ih]
      · rename_i visible
        rw [List.filter_cons_of_pos (by simpa using visible), ih]

theorem SkipList.keys_ascend (list : SkipList) :
    list.nodes.Pairwise fun a b => a.compositeKey ≤ b.compositeKey := by
  refine list.sorted.imp ?_
  rintro a b (less | ⟨same, -⟩)
  · exact less.le
  · exact same.le

theorem SkipList.range_eq (list : SkipList) (start stop : CompositeKey) :
    list.range start stop = list.nodes.filter fun node => start ≤ node.compositeKey ∧
      node.compositeKey < stop :=
  between_eq_filter list.keys_ascend start stop

theorem SkipList.get_eq (list : SkipList) (key : CompositeKey) :
    list.get key = list.nodes.find? fun node => node.compositeKey = key := by
  have ascends := list.keys_ascend
  unfold SkipList.get
  generalize list.nodes = nodes at ascends
  induction nodes with
  | nil => rfl
  | cons node rest ih =>
    obtain ⟨after, ascends⟩ := List.pairwise_cons.mp ascends
    by_cases early : node.compositeKey < key
    · rw [List.dropWhile_cons_of_pos (by simpa using early), List.find?_cons_of_neg (by simpa using early.ne)]
      exact ih ascends
    · rw [List.dropWhile_cons_of_neg (by simpa using early), List.head?_cons]
      by_cases same : node.compositeKey = key
      · rw [List.find?_cons_of_pos (by simpa using same), Option.filter_some, if_pos (by simpa using same)]
      · rw [List.find?_cons_of_neg (by simpa using same), Option.filter_some, if_neg (by simpa using same)]
        have less : key < node.compositeKey := lt_of_le_of_ne (not_lt.mp early) (fun eq => same eq.symm)
        refine (List.find?_eq_none.mpr ?_).symm
        intro e member equal
        exact absurd (of_decide_eq_true equal) (less.trans_le (after e member)).ne'

/-- What a point read of the list finds is the newest of its key. -/
theorem SkipList.get_some {list : SkipList} {key : CompositeKey} {e : MemtableEntry}
    (got : list.get key = some e) :
    e ∈ list.nodes ∧ e.compositeKey = key ∧ ∀ x ∈ list.nodes, x.compositeKey = key →
      x.sequenceNumber ≤ e.sequenceNumber := by
  rw [SkipList.get_eq] at got
  obtain ⟨same, before, after, split, others⟩ := List.find?_eq_some_iff_append.mp got
  have same := of_decide_eq_true same
  refine ⟨List.mem_of_find?_eq_some got, same, ?_⟩
  intro x member at_key
  have sorted := list.sorted
  rw [split] at sorted member
  rcases List.mem_append.mp member with early | rest
  · have := others x early
    simp [at_key] at this
  · rcases List.mem_cons.mp rest with rfl | late
    · exact le_refl _
    · rcases (List.pairwise_cons.mp (List.pairwise_append.mp sorted).2.1).1 x
        late with less | ⟨-, newer⟩
      · exact absurd (same.trans at_key.symm) less.ne
      · exact newer.le

/-- The nodes of a record lie together, from its first possible key on. -/
theorem SkipList.scanRecord_valid (list : SkipList) {recordId : Bytes}
    (valid : validateRecordId recordId = .ok ()) :
    list.scanRecord recordId = list.nodes.filter fun node => node.recordId = recordId := by
  have clean := (validateRecordId_ok valid).2.1
  unfold SkipList.scanRecord
  rw [CompositeKey.minKeyForRecord_ok valid]
  dsimp only
  have ascends := list.keys_ascend
  generalize list.nodes = nodes at ascends
  induction nodes with
  | nil => rfl
  | cons node rest ih =>
    by_cases early : node.compositeKey < CompositeKey.encode recordId []
    · have other : node.recordId ≠ recordId := by
        intro same
        exact absurd early (not_lt.mpr (same ▸ CompositeKey.encode_nil_le node.compositeKey))
      rw [List.dropWhile_cons_of_pos (by simpa using early), List.filter_cons_of_neg (by simpa using other)]
      exact ih (List.pairwise_cons.mp ascends).2
    · rw [List.dropWhile_cons_of_neg (by simpa using early)]
      refine takeWhile_eq_filter ?_
      have reached : ∀ x ∈ node :: rest, CompositeKey.encode recordId [] ≤ x.compositeKey := by
        intro x member
        rcases List.mem_cons.mp member with rfl | later
        · exact not_lt.mp early
        · exact (not_lt.mp early).trans ((List.pairwise_cons.mp ascends).1 x later)
      refine ascends.imp_of_mem ?_
      intro a b first _ order other
      refine decide_eq_false fun same => of_decide_eq_false other ?_
      exact CompositeKey.recordId_of_between clean (reached a first) order same

theorem SkipList.scanRecord_invalid (list : SkipList) {recordId : Bytes} {e : FlushError}
    (invalid : validateRecordId recordId = .error e) :
    list.scanRecord recordId = [] := by
  have refused : CompositeKey.minKeyForRecord recordId = .error e := by
    simp [CompositeKey.minKeyForRecord, CompositeKey.fromRecordOnly, CompositeKey.new, invalid,
      bind, Except.bind]
  rw [SkipList.scanRecord, refused]

theorem SkipList.scanRecord_eq (list : SkipList)
    (valid : ∀ node ∈ list.nodes, validateRecordId node.recordId = .ok ()) (recordId : Bytes) :
    list.scanRecord recordId = list.nodes.filter fun node => node.recordId = recordId := by
  cases record : validateRecordId recordId with
  | error e =>
    rw [list.scanRecord_invalid record]
    refine (List.filter_eq_nil_iff.mpr ?_).symm
    intro node member same
    rw [← of_decide_eq_true same, valid node member] at record
    cases record
  | ok u => exact list.scanRecord_valid record

/-- Of a key among those that are scanned a memtable gives what its point read gives. -/
theorem Memtable.dedupAndCheckRangeTombstones_filter (m : Memtable) {p : CompositeKey → Bool}
    (scanned : p key = true) :
    (m.dedupAndCheckRangeTombstones none (m.skiplist.nodes.filter fun node => p node.compositeKey)).filter
      (fun e => e.compositeKey = key) = (m.get key).toList := by
  have ascends : (m.skiplist.nodes.filter fun node => p node.compositeKey).Pairwise fun a b =>
      a.compositeKey ≤ b.compositeKey :=
    m.skiplist.keys_ascend.filter _
  have here : (m.skiplist.nodes.filter fun node => p node.compositeKey).find?
      (fun e => e.compositeKey = key) =
      m.skiplist.get key := by
    rw [SkipList.get_eq, List.find?_filter]
    congr 1
    funext node
    by_cases same : node.compositeKey = key
    · simp [same, scanned]
    · simp [same]
  rw [Memtable.dedupAndCheckRangeTombstones_eq, List.filter_comm,
    MemtableList.dedupByKey_filter ascends (by simp),
    if_neg (by simp), here, Memtable.get]
  cases m.skiplist.get key with
  | none => rfl
  | some node =>
    by_cases covered : m.rangeTombstones.covers node.recordId node.itemKey node.sequenceNumber = true
    · simp [Option.filter_some, covered]
    · simp [Option.filter_some, covered]

theorem Memtable.scanWithTombstones_filter (m : Memtable) {start stop : CompositeKey}
    (reached : start ≤ key) (before : key < stop) :
    (m.scanWithTombstones start stop).filter (fun e => e.compositeKey = key) = (m.get key).toList := by
  rw [Memtable.scanWithTombstones, SkipList.range_eq]
  exact m.dedupAndCheckRangeTombstones_filter (p := fun key => decide (start ≤ key ∧ key < stop))
    (decide_eq_true ⟨reached, before⟩)

theorem Memtable.scanWithTombstones_bounds {m : Memtable} {start stop : CompositeKey}
    {e : MemtableEntry} (h : e ∈ m.scanWithTombstones start stop) :
    start ≤ e.compositeKey ∧ e.compositeKey < stop := by
  rw [Memtable.scanWithTombstones, Memtable.dedupAndCheckRangeTombstones_eq] at h
  have member := (MemtableList.dedupByKey_sublist _ _).mem (List.mem_of_mem_filter h)
  rw [SkipList.range_eq] at member
  exact of_decide_eq_true (List.mem_filter.mp member).2

end Deduped

namespace MemtableList

/-- The version of a key that a range read takes from the memtables. -/
def latest (l : MemtableList) (key : CompositeKey) : Option MemtableEntry :=
  ((l.memtables.flatMap fun m => (m.get key).toList).mergeSort fun a b => compareEntries a b ≠ .gt).head?

variable {l : MemtableList} {start stop : CompositeKey}

theorem scanAllWithTombstones_bounds {e : MemtableEntry}
    (h : e ∈ l.scanAllWithTombstones start stop) :
    start ≤ e.compositeKey ∧ e.compositeKey < stop := by
  obtain ⟨m, -, member⟩ := List.mem_flatMap.mp (List.mem_mergeSort.mp ((dedupByKey_sublist _ _).mem h))
  exact Memtable.scanWithTombstones_bounds member

theorem scanAllWithTombstones_sorted (l : MemtableList) (start stop : CompositeKey) :
    ((l.scanAllWithTombstones start stop).map MergeEntry.fromMemtableEntry).Pairwise
      MergeEntry.Precedes := by
  rw [List.pairwise_map]
  refine List.Pairwise.sublist (dedupByKey_sublist _ _) ?_
  refine (List.pairwise_mergeSort compareEntries_trans compareEntries_total _).imp ?_
  intro a b order
  exact compareEntries_le.mp order

theorem scanAllWithTombstones_filter {key : CompositeKey} (reached : start ≤ key)
    (before : key < stop) :
    (l.scanAllWithTombstones start stop).filter (fun e => e.compositeKey = key) =
      (l.latest key).toList := by
  have ascends : ((l.memtables.flatMap fun m => m.scanWithTombstones start stop).mergeSort fun a b =>
      decide (compareEntries a b ≠ .gt)).Pairwise fun a b => a.compositeKey ≤ b.compositeKey := by
    refine (List.pairwise_mergeSort compareEntries_trans compareEntries_total _).imp ?_
    intro a b order
    exact (compareEntries_le.mp order).key_le
  have chosen : ∀ xs : List MemtableEntry, xs.find? (fun e => decide (e.compositeKey = key)) =
      (xs.filter fun e => decide (e.compositeKey = key)).head? := fun _ => List.head?_filter.symm
  rw [scanAllWithTombstones, dedupByKey_filter ascends (by simp), if_neg (by simp), chosen,
    filter_mergeSort compareEntries_trans compareEntries_total, List.filter_flatMap]
  simp only [Memtable.scanWithTombstones_filter _ reached before]
  rfl

end MemtableList

/-- An object is in the order of its writer and within the keys that the manifest gives it. -/
structure SSTableHandle.Ordered (tables : Tables) (h : SSTableHandle) : Prop where
  sorted : (tables.entries h.path).Pairwise MergeEntry.Precedes
  inside : ∀ e ∈ tables.entries h.path, h.table.minKey ≤ e.compositeKey.bytes ∧
    e.compositeKey.bytes ≤ h.table.maxKey

instance (tables : Tables) (h : SSTableHandle) : Decidable (h.Ordered tables) :=
  decidable_of_iff ((tables.entries h.path).Pairwise MergeEntry.Precedes ∧
      ∀ e ∈ tables.entries h.path, h.table.minKey ≤ e.compositeKey.bytes ∧
        e.compositeKey.bytes ≤ h.table.maxKey)
    ⟨fun both => ⟨both.1, both.2⟩, fun ordered => ⟨ordered.sorted, ordered.inside⟩⟩

/-- The versions of a key that a range read chooses from. -/
def readableVersions (l : MemtableList) (tables : Tables) (levels : List LevelState)
    (key : CompositeKey) : List MergeEntry :=
  (l.latest key).toList.map MergeEntry.fromMemtableEntry ++
    levels.flatMap fun level => level.handles.flatMap fun h => versionsOf key (tables.entries h.path)

namespace ReadPath
variable {renv : ReadEnv} {draw : ReadDraw} {l : MemtableList} {tables : Tables}
  {levels : List LevelState}
  {start stop : CompositeKey} {sources : List VecSource}

theorem scanHandles_forall₂ {handles : List SSTableHandle} {stored : List (List MergeEntry)}
    (h : scanHandles renv draw tables start stop handles = .ok stored) :
    List.Forall₂ (fun handle shown => handle.scan renv draw tables start (some stop) = .ok shown)
      handles stored := by
  induction handles generalizing stored with
  | nil =>
    obtain rfl := Except.ok.inj h
    exact .nil
  | cons handle rest ih =>
    unfold scanHandles at h
    split at h
    · cases h
    · rename_i shown scanned
      cases others : scanHandles renv draw tables start stop rest with
      | error e =>
        rw [others] at h
        cases h
      | ok more =>
        rw [others] at h
        obtain rfl := Except.ok.inj h
        exact .cons scanned (ih others)

theorem scanHandles_ok {handles : List SSTableHandle} (fine : ∀ path i, draw.fails path i = false)
    (present : ∀ handle ∈ handles, (tables.get handle.path).isSome) :
    ∃ stored, scanHandles renv draw tables start stop handles = .ok stored := by
  induction handles with
  | nil => exact ⟨[], rfl⟩
  | cons handle rest ih =>
    obtain ⟨entries, found⟩ := Option.isSome_iff_exists.mp (present handle List.mem_cons_self)
    obtain ⟨shown, scanned⟩ :=
      (@SSTableHandle.scan_eq renv draw tables handle start (some stop) entries found).2 fine
    obtain ⟨more, others⟩ := ih fun other member => present other (List.mem_cons_of_mem _ member)
    refine ⟨shown :: more, ?_⟩
    simp only [scanHandles, scanned, others]
    rfl

theorem readSources_eq (read : readSources renv draw l tables levels start stop = .ok sources) :
    ∃ stored, List.Forall₂ (fun handle shown =>
      SSTableHandle.scan renv draw tables handle start (some stop) = .ok shown)
        (levels.flatMap fun level => level.findCandidatesForRange start stop) stored ∧
      sources = CompactionExecutor.mergeSources
        (((l.scanAllWithTombstones start stop).map MergeEntry.fromMemtableEntry :: stored).filter
          fun entries => !entries.isEmpty) := by
  unfold readSources at read
  dsimp only at read
  cases stored : scanHandles renv draw tables start stop
    (levels.flatMap fun level => level.findCandidatesForRange start stop) with
  | error e =>
    rw [stored] at read
    cases read
  | ok lists =>
    rw [stored] at read
    exact ⟨lists, scanHandles_forall₂ stored, (Except.ok.inj read).symm⟩

theorem pending_readSources {held : List MergeEntry} {stored : List (List MergeEntry)} :
    MergeIterator.pending (CompactionExecutor.mergeSources
      ((held :: stored).filter fun entries => !entries.isEmpty)) =
      held ++ stored.flatten := by
  rw [CompactionExecutor.pending_mergeSources, List.flatten_filter_not_isEmpty, List.flatten_cons]

theorem readSources_bounds (read : readSources renv draw l tables levels start stop = .ok sources)
    {e : MergeEntry} (member : e ∈ MergeIterator.pending sources) :
    start ≤ e.compositeKey ∧ e.compositeKey < stop := by
  obtain ⟨stored, scanned, rfl⟩ := readSources_eq read
  rw [pending_readSources] at member
  rcases List.mem_append.mp member with held | listed
  · obtain ⟨x, inside, rfl⟩ := List.mem_map.mp held
    exact MemtableList.scanAllWithTombstones_bounds inside
  · obtain ⟨shown, among, inside⟩ := List.mem_flatten.mp listed
    obtain ⟨handle, -, scan⟩ := forall₂_mem_right scanned among
    exact SSTableHandle.scan_bounds scan inside

theorem mergeSources_inOrder (contents : List (List MergeEntry)) :
    MergeIterator.InOrder (CompactionExecutor.mergeSources contents) := by
  have ids : (CompactionExecutor.mergeSources contents).map VecSource.sourceId =
      List.range contents.length := by
    rw [CompactionExecutor.mergeSources, List.map_map, List.range_eq_range',
      ← List.zipIdx_map_snd 0 contents]
    rfl
  rw [MergeIterator.InOrder, ids]
  exact List.pairwise_lt_range

theorem readSources_sorted (ordered : ∀ level ∈ levels, ∀ h ∈ level.handles, h.Ordered tables)
    (read : readSources renv draw l tables levels start stop = .ok sources) :
    MergeIterator.Sorted sources ∧ MergeIterator.InOrder sources := by
  obtain ⟨stored, scanned, rfl⟩ := readSources_eq read
  refine ⟨?_, mergeSources_inOrder _⟩
  intro source member
  obtain ⟨⟨entries, idx⟩, listed, rfl⟩ := List.mem_map.mp member
  rcases List.mem_cons.mp (List.mem_of_mem_filter (List.fst_mem_of_mem_zipIdx listed)) with held | among
  · dsimp only at held ⊢
    rw [held]
    exact l.scanAllWithTombstones_sorted start stop
  · obtain ⟨handle, candidate, scan⟩ := forall₂_mem_right scanned among
    obtain ⟨level, known, inside⟩ := List.mem_flatMap.mp candidate
    have sorted := (ordered level known handle (List.mem_of_mem_filter inside)).sorted
    cases found : tables.get handle.path with
    | none => simp [SSTableHandle.scan, SSTableHandle.index, found] at scan
    | some stored =>
      rw [Tables.entries, found] at sorted
      exact sorted.sublist (SSTableHandle.scan_spec scan found sorted).1

theorem stored_versions {handles : List SSTableHandle} {stored : List (List MergeEntry)}
    (known : ∀ h ∈ handles, h.Ordered tables)
    (scanned : List.Forall₂ (fun handle shown =>
      SSTableHandle.scan renv draw tables handle start (some stop) = .ok shown) handles stored)
    {key : CompositeKey} (later : start < key) (before : key < stop) :
    versionsOf key stored.flatten = handles.flatMap fun h =>
      versionsOf key (tables.entries h.path) := by
  induction scanned with
  | nil => rfl
  | @cons handle shown handles rest scan _ ih =>
    rw [List.flatten_cons, versionsOf, List.filter_append, List.flatMap_cons]
    congr 1
    · have sorted := (known handle List.mem_cons_self).sorted
      cases found : tables.get handle.path with
      | none => simp [SSTableHandle.scan, SSTableHandle.index, found] at scan
      | some entries =>
        rw [Tables.entries, found] at sorted ⊢
        exact (SSTableHandle.scan_spec scan found sorted).2 key later before
    · exact ih fun h member => known h (List.mem_cons_of_mem _ member)

/-- A key after the first of the range has all the versions that can be read. -/
theorem readSources_versions (ordered : ∀ level ∈ levels, ∀ h ∈ level.handles, h.Ordered tables)
    (read : readSources renv draw l tables levels start stop = .ok sources) {key : CompositeKey}
    (later : start < key) (before : key < stop) :
    versionsOf key (MergeIterator.pending sources) = readableVersions l tables levels key := by
  obtain ⟨stored, scanned, rfl⟩ := readSources_eq read
  rw [pending_readSources, versionsOf, List.filter_append, readableVersions]
  congr 1
  · rw [List.filter_map, ← MemtableList.scanAllWithTombstones_filter later.le before]
    rfl
  · have known : ∀ h ∈ levels.flatMap fun level => level.findCandidatesForRange start stop,
        h.Ordered tables := by
      intro h candidate
      obtain ⟨level, listed, inside⟩ := List.mem_flatMap.mp candidate
      exact ordered level listed h (List.mem_of_mem_filter inside)
    have each := stored_versions known scanned later before
    rw [versionsOf] at each
    rw [each, List.flatMap_assoc]
    refine List.flatMap_congr ?_
    intro level listed
    refine (flatMap_filter_of_nil _ _ _ ?_)
    intro h member outside
    -- the keys of the table are not in the range
    refine List.filter_eq_nil_iff.mpr ?_
    intro e inside same
    have same := of_decide_eq_true same
    obtain ⟨low, high⟩ := (ordered level listed h member).inside e inside
    have apart : h.table.maxKey < start.bytes ∨ stop.bytes < h.table.minKey := by
      rw [SSTableMeta.overlapsRange, decide_eq_false_iff_not, not_not] at outside
      exact outside
    rw [same] at low high
    rcases apart with below | above
    · exact absurd (CompositeKey.lt_iff_bytes.mp later) (high.trans_lt below).not_gt
    · exact absurd (CompositeKey.lt_iff_bytes.mp before) (above.trans_le low).not_gt

end ReadPath

end FlushDB
