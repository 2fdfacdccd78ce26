import FlushDB.Engine.LastWriter

/-!
The scans of a list of memtables. Each memtable leaves out what its own range tombstones cover
before the lists are merged, so that a range delete does not reach the memtables before it.
-/

namespace FlushDB
open Lib MemtableEntry

theorem MemtableEntry.Keyed.recordId_valid {e : MemtableEntry} (h : e.Keyed) :
    validateRecordId e.recordId = .ok () := by
  unfold Keyed at h
  split at h
  · obtain ⟨recordId, item, made, -⟩ := h
    exact CompositeKey.new_recordId made
  · obtain ⟨recordId, item, made, -⟩ := h
    exact CompositeKey.new_recordId made
  · obtain ⟨recordId, startKey, made⟩ := h
    exact CompositeKey.rangeTombstoneKey_recordId made

namespace MemtableList

section Merged
variable {entries : List MemtableEntry} {e : MemtableEntry}

theorem dedupByKey_ascends {last : Option CompositeKey}
    (ascends : entries.Pairwise fun a b => a.compositeKey ≤ b.compositeKey)
    (above : ∀ k ∈ last, ∀ e ∈ entries, k ≤ e.compositeKey) :
    (dedupByKey last entries).Pairwise (fun a b => a.compositeKey < b.compositeKey) ∧
      ∀ k ∈ last, ∀ e ∈ dedupByKey last entries, k < e.compositeKey := by
  induction entries generalizing last with
  | nil => exact ⟨.nil, fun _ _ _ member => nomatch member⟩
  | cons e rest ih =>
    obtain ⟨after, ascends⟩ := List.pairwise_cons.mp ascends
    unfold dedupByKey
    split
    · exact ih ascends fun k given x member => above k given x (List.mem_cons_of_mem _ member)
    · rename_i fresh
      obtain ⟨rest_ascends, later⟩ := @ih (some e.compositeKey) ascends (by
        rintro k ⟨⟩ x member
        exact after x member)
      refine ⟨List.pairwise_cons.mpr ⟨later _ rfl, rest_ascends⟩, ?_⟩
      intro k given x member
      have first : k < e.compositeKey :=
        lt_of_le_of_ne (above k given e List.mem_cons_self) fun same => fresh (same ▸ given)
      rcases List.mem_cons.mp member with rfl | inside
      · exact first
      · exact first.trans (later _ rfl x inside)

theorem sorted_keys (entries : List MemtableEntry) :
    (entries.mergeSort fun a b => decide (compareEntries a b ≠ .gt)).Pairwise
    fun a b => a.compositeKey ≤ b.compositeKey := by
  refine (List.pairwise_mergeSort compareEntries_trans compareEntries_total _).imp ?_
  intro a b order
  exact (compareEntries_le.mp order).key_le

theorem mergeAndFilter_ascends (entries : List MemtableEntry) :
    (mergeAndFilter entries).Pairwise fun a b => a.compositeKey < b.compositeKey :=
  (dedupByKey_ascends (sorted_keys entries) (by simp)).1.filter _

/-- Of a key the merge keeps the newest entry, when that is a put. -/
theorem mem_mergeAndFilter : e ∈ mergeAndFilter entries ↔ e.isTombstone = false ∧
    ((entries.filter fun x => x.compositeKey = e.compositeKey).mergeSort fun a b =>
      compareEntries a b ≠ .gt).head? = some e := by
  have chosen : (dedupByKey none (entries.mergeSort fun a b => compareEntries a b ≠ .gt)).filter
      (fun x => x.compositeKey = e.compositeKey) =
        (((entries.filter fun x => x.compositeKey = e.compositeKey).mergeSort
        fun a b => compareEntries a b ≠ .gt).head?).toList := by
    rw [dedupByKey_filter (sorted_keys entries) (by simp), if_neg (by simp), ← List.head?_filter,
      filter_mergeSort compareEntries_trans compareEntries_total]
  have kept : e ∈ dedupByKey none (entries.mergeSort fun a b => compareEntries a b ≠ .gt) ↔
      e ∈ (dedupByKey none (entries.mergeSort fun a b => compareEntries a b ≠ .gt)).filter
        fun x => x.compositeKey = e.compositeKey := by simp
  rw [mergeAndFilter, List.mem_filter, kept, chosen, Option.mem_toList, Bool.not_eq_true', and_comm]

end Merged

section Told
variable {l : MemtableList} {segs : List (List MemtableEntry)} {key : CompositeKey}

/-- The memtables show the versions of a key newest first. -/
theorem Told.latest_eq (h : Told l segs) (key : CompositeKey) : l.latest key = l.get key := by
  have descends : segs.reverse.Pairwise fun newer older => ∀ x ∈ newer, ∀ y ∈ older,
      y.sequenceNumber < x.sequenceNumber := by
    rw [List.pairwise_reverse]
    refine (List.pairwise_flatten.mp h.ascends).2.imp ?_
    intro older newer before x inside y inside'
    exact before y inside' x inside
  have sorted : (l.memtables.flatMap fun m => (m.get key).toList).Pairwise fun a b =>
      decide (compareEntries a b ≠ .gt) = true := by
    have held := h.held
    generalize l.memtables = memtables at held
    generalize segs.reverse = chunks at held descends
    induction held with
    | nil => exact .nil
    | @cons m chunk rest chunks here others ih =>
      obtain ⟨before, descends⟩ := List.pairwise_cons.mp descends
      rw [List.flatMap_cons, List.pairwise_append]
      refine ⟨?_, ih descends, ?_⟩
      · cases m.get key with
        | none => exact .nil
        | some e => exact List.pairwise_singleton _ _
      · intro x shown y shown'
        obtain ⟨m', listed, shown'⟩ := List.mem_flatMap.mp shown'
        obtain ⟨chunk', member, holds⟩ := forall₂_mem_right (List.Forall₂.flip others) listed
        obtain ⟨inside, same, -⟩ :=
          here.node (Option.filter_eq_some_iff.mp (Option.mem_toList.mp shown)).1
        obtain ⟨inside', same', -⟩ :=
          holds.node (Option.filter_eq_some_iff.mp (Option.mem_toList.mp shown')).1
        refine compareEntries_le.mpr (Or.inr ⟨same.trans same'.symm, ?_⟩)
        exact (before chunk' member x inside y inside').le
  rw [latest, List.mergeSort_of_pairwise sorted, get_eq, List.head?_flatMap]
  congr 1
  funext m
  exact Option.head?_toList

/-- Where the memtables show what their point reads find, the merge shows the puts that the point
read of the list finds. -/
theorem Told.mem_merged (h : Told l segs) {scanned : Memtable → List MemtableEntry}
    {within : CompositeKey → Prop}
    (shows : ∀ m ∈ l.memtables, ∀ key, within key →
      (scanned m).filter (fun e => e.compositeKey = key) = (m.get key).toList)
    (bounds : ∀ m ∈ l.memtables, ∀ e ∈ scanned m, within e.compositeKey) {e : MemtableEntry} :
    e ∈ mergeAndFilter (l.memtables.flatMap scanned) ↔
      within e.compositeKey ∧ e.isTombstone = false ∧ l.get e.compositeKey = some e := by
  rw [mem_mergeAndFilter, List.filter_flatMap]
  by_cases inside : within e.compositeKey
  · have same : (l.memtables.flatMap fun m => (scanned m).filter fun x => x.compositeKey = e.compositeKey) =
        l.memtables.flatMap fun m => (m.get e.compositeKey).toList :=
      List.flatMap_congr fun m listed => shows m listed _ inside
    have best := h.latest_eq e.compositeKey
    rw [latest] at best
    rw [same, best]
    tauto
  · have nothing : (l.memtables.flatMap fun m =>
        (scanned m).filter fun x => x.compositeKey = e.compositeKey) = [] := by
      rw [List.flatMap_eq_nil_iff]
      intro m listed
      rw [List.filter_eq_nil_iff]
      intro x member same
      exact inside (of_decide_eq_true same ▸ bounds m listed x member)
    rw [nothing]
    simp [inside]

theorem Told.mem_scan (h : Told l segs) (start stop : CompositeKey) {e : MemtableEntry} :
    e ∈ l.scan start stop ↔
    (start ≤ e.compositeKey ∧ e.compositeKey < stop) ∧ e.isTombstone = false ∧
      l.get e.compositeKey = some e := by
  refine @Told.mem_merged l segs h (fun m => m.scanWithTombstones start stop)
    (fun key => start ≤ key ∧ key < stop) ?_ ?_ e
  · intro m _ key within
    exact m.scanWithTombstones_filter within.1 within.2
  · intro m _ e member
    exact Memtable.scanWithTombstones_bounds member

theorem Told.mem_scanRecord (h : Told l segs) (recordId : Bytes) {e : MemtableEntry} :
    e ∈ l.scanRecord recordId ↔
    e.compositeKey.recordId = recordId ∧ e.isTombstone = false ∧ l.get e.compositeKey = some e := by
  have nodes : ∀ m ∈ l.memtables, m.skiplist.scanRecord recordId =
      m.skiplist.nodes.filter fun node => decide (node.compositeKey.recordId = recordId) := by
    intro m listed
    obtain ⟨chunk, member, holds⟩ := forall₂_mem_right (List.Forall₂.flip h.held) listed
    refine m.skiplist.scanRecord_eq ?_ recordId
    intro node inside
    exact (h.keyed node (List.mem_flatten.mpr ⟨chunk, List.mem_reverse.mp member,
      (holds.nodes node).mp inside⟩)).recordId_valid
  refine @Told.mem_merged l segs h (fun m => m.scanRecordWithTombstones recordId)
    (fun key => key.recordId = recordId) ?_ ?_ e
  · intro m listed key within
    rw [Memtable.scanRecordWithTombstones, nodes m listed]
    exact m.dedupAndCheckRangeTombstones_filter (p := fun key => decide (key.recordId = recordId))
      (decide_eq_true within)
  · intro m listed e member
    rw [Memtable.scanRecordWithTombstones, nodes m listed,
      Memtable.dedupAndCheckRangeTombstones_eq] at member
    have inside := (dedupByKey_sublist _ _).mem (List.mem_of_mem_filter member)
    exact of_decide_eq_true (List.mem_filter.mp inside).2

/-- Exactly the puts that are the last change of their key, in the order of the keys. -/
structure ListsLive (history : List MemtableEntry) (within : CompositeKey → Prop)
    (out : List MemtableEntry) : Prop where
  ascends : out.Pairwise fun a b => a.compositeKey < b.compositeKey
  live : ∀ e, e ∈ out ↔ within e.compositeKey ∧ e.entryType = .put ∧
    lastChange e.compositeKey history = some e

/-- What the reads of the list promise of the range deletes in it. -/
structure Respects (l : MemtableList) (history : List MemtableEntry) : Prop where
  scan : ∀ start stop, ListsLive history (fun key => start ≤ key ∧ key < stop) (l.scan start stop)
  scanRecord : ∀ recordId, ListsLive history (fun key => key.recordId = recordId)
    (l.scanRecord recordId)
  get : ∀ key e, l.get key = some e → e.entryType = .put →
    l.rangeTombstoneCovers e.recordId e.itemKey e.sequenceNumber = false

/-- A put is the last change of the key in its segment, and behind it are segments with changes of
the key of which each ends with a range delete. -/
def Resurfaces (key : CompositeKey) (segments : List (List MemtableEntry)) : Prop :=
  ∃ before put after, outcomes key segments = before ++ put :: after ∧ put.entryType = .put ∧
    after ≠ [] ∧
    ∀ r ∈ after, r.entryType = .rangeDelete

/-- A put that resurfaces is found, and a later range delete of the list covers it. -/
theorem Told.resurfaced (h : Told l segs) {key : CompositeKey} (lost : Resurfaces key segs) :
    ∃ e, l.get key = some e ∧ e.entryType = .put ∧ e.compositeKey = key ∧
      l.rangeTombstoneCovers key.recordId key.itemKey e.sequenceNumber = true := by
  obtain ⟨before, put, after, split, type, nonempty, ranges⟩ := lost
  have own : put.entryType ≠ .rangeDelete := by simp [type]
  have skipped : after.reverse.find? (fun e => decide (e.entryType ≠ .rangeDelete)) = none := by
    rw [List.find?_eq_none]
    intro r member
    simp [ranges r (List.mem_reverse.mp member)]
  have surfaced := h.get_filter key
  rw [split, List.reverse_append, List.reverse_cons, List.append_assoc, List.find?_append, skipped,
    Option.none_or,
    List.singleton_append, List.find?_cons_of_pos (by simpa using own)] at surfaced
  have got := (Option.filter_eq_some_iff.mp surfaced).1
  obtain ⟨-, -, same⟩ := h.found got own
  refine ⟨put, got, type, same, ?_⟩
  have last : lastChange key segs.flatten = some (after.getLast nonempty) := by
    rw [lastChange_flatten, split, List.getLast?_append_of_ne_nil _ (List.cons_ne_nil _ _),
      List.getLast?_cons_of_ne_nil nonempty, List.getLast?_eq_some_getLast nonempty]
  exact h.covered_of_last got own last (ranges _ (List.getLast_mem nonempty))

/-- Without one, what is found is the last change of the key. -/
theorem Told.found_live (h : Told l segs) {key : CompositeKey} (none_lost : ¬ Resurfaces key segs)
    {e : MemtableEntry} (got : l.get key = some e) (type : e.entryType = .put) :
    lastChange key segs.flatten = some e := by
  have own : e.entryType ≠ .rangeDelete := by simp [type]
  have surfaced := h.get_filter key
  rw [got, Option.filter_some, if_pos (decide_eq_true own)] at surfaced
  obtain ⟨-, later, earlier, split, ranges⟩ := List.find?_eq_some_iff_append.mp surfaced.symm
  have whole : outcomes key segs = earlier.reverse ++ e :: later.reverse := by
    rw [← List.reverse_reverse (outcomes key segs), split]
    simp
  rw [lastChange_flatten, whole]
  cases later with
  | nil => simp
  | cons r rest =>
    refine absurd ⟨earlier.reverse, e, (r :: rest).reverse, whole, type, by simp, ?_⟩ none_lost
    intro x member
    have := ranges x (List.mem_reverse.mp member)
    simpa using this

theorem Told.respects_iff (h : Told l segs) :
    Respects l segs.flatten ↔ ∀ key, ¬ Resurfaces key segs := by
  constructor
  · intro respects key lost
    obtain ⟨e, got, type, same, covered⟩ := h.resurfaced lost
    have uncovered := respects.get key e got type
    rw [MemtableEntry.recordId, MemtableEntry.itemKey, same, covered] at uncovered
    cases uncovered
  · intro none_lost
    have live : ∀ e : MemtableEntry, e.isTombstone = false ∧ l.get e.compositeKey = some e ↔
        e.entryType = .put ∧ lastChange e.compositeKey segs.flatten = some e := by
      intro e
      have put : e.isTombstone = false ↔ e.entryType = .put := by
        cases type : e.entryType <;> simp [MemtableEntry.isTombstone, type]
      rw [put]
      refine and_congr_right ?_
      intro type
      exact ⟨fun got => h.found_live (none_lost _) got type,
        fun last => (h.found_last last (by simp [type])).1⟩
    refine ⟨?_, ?_, ?_⟩
    · intro start stop
      refine ⟨mergeAndFilter_ascends _, ?_⟩
      intro e
      rw [h.mem_scan, live]
    · intro recordId
      refine ⟨mergeAndFilter_ascends _, ?_⟩
      intro e
      rw [h.mem_scanRecord, live]
    · intro key e got type
      have last := h.found_live (none_lost key) got type
      obtain ⟨-, -, same⟩ := h.found got (by simp [type])
      rw [MemtableEntry.recordId, MemtableEntry.itemKey, same]
      exact (h.found_last last (by simp [type])).2

end Told

section History
variable {ops : List Op} {config : MemtableConfig} {start : Nat} {l : MemtableList}

/-- The reads of the list respect its range deletes exactly when no put resurfaces from before
them. -/
theorem reads_respect_iff (keyed : ∀ e, Op.insert e ∈ ops → e.Keyed)
    (run : exec step (new config start) ops = some l) :
    Respects l (numbered start ops) ↔ ∀ key, ¬ Resurfaces key (segments start [] ops) := by
  have respects := (told keyed run).respects_iff
  rwa [segments_flatten, List.nil_append] at respects

end History

/-- Of the record `r`: a put of `a`, a freeze, a delete of all keys from `a` on. -/
def uncovered : List Op :=
  let entry : EntryType → List UInt8 → List UInt8 → MemtableEntry := fun type item value =>
    ⟨CompositeKey.encode ⟨[114]⟩ item, ⟨value⟩, ⟨[]⟩, .none, 0, type, 0⟩
  [.insert (entry .put [97] [1]), .freeze, .insert (entry .rangeDelete [rangeTombstonePrefix, 97] [])]

theorem uncovered_keyed : ∀ e, Op.insert e ∈ uncovered → e.Keyed := by
  intro e member
  simp only [uncovered, List.mem_cons, Op.insert.injEq, reduceCtorEq, List.not_mem_nil, or_false,
    false_or] at member
  rcases member with rfl | rfl
  · exact ⟨⟨[114]⟩, ⟨[97]⟩, by decide, by decide⟩
  · exact ⟨⟨[114]⟩, ⟨[97]⟩, by decide⟩

theorem uncovered_runs : ∃ l, exec step (new {} 1) uncovered = some l :=
  Option.isSome_iff_exists.mp (by decide)

theorem reads_respect_iff_uncovered :
    ∃ l, exec step (new {} 1) uncovered = some l ∧ ¬ Respects l (numbered 1 uncovered) := by
  obtain ⟨l, run⟩ := uncovered_runs
  refine ⟨l, run, ?_⟩
  rw [reads_respect_iff uncovered_keyed run]
  intro none_lost
  apply none_lost (CompositeKey.encode ⟨[114]⟩ [97])
  exact ⟨[], _, [_], rfl, rfl, by simp, by simp⟩

/-- The scans and the point read still show the put that the range delete covers. -/
theorem covered_put_shown :
    ¬ ∀ (config : MemtableConfig) (start : Nat) (ops : List Op) (l : MemtableList),
    (∀ e, Op.insert e ∈ ops → e.Keyed) → exec step (new config start) ops = some l →
      Respects l (numbered start ops) := by
  intro promised
  obtain ⟨l, run⟩ := uncovered_runs
  let put : MemtableEntry := ⟨CompositeKey.encode ⟨[114]⟩ [97], ⟨[1]⟩, ⟨[]⟩, .none, 1, .put, 0⟩
  have got : (exec step (new {} 1) uncovered).bind (fun l => l.get put.compositeKey) =
      some put := by decide
  rw [run, Option.bind_some] at got
  have listed : put ∈ l.scanRecord ⟨[114]⟩ := by
    rw [(told uncovered_keyed run).mem_scanRecord]
    exact ⟨by decide, rfl, got⟩
  have live := (((promised {} 1 uncovered l uncovered_keyed run).scanRecord ⟨[114]⟩).live put).mp listed
  have last : (lastChange put.compositeKey (numbered 1 uncovered)).map
      MemtableEntry.sequenceNumber = some 2 := by decide
  rw [live.2.2] at last
  cases last

end MemtableList

end FlushDB
