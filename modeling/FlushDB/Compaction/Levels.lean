import FlushDB.Compaction.Executor
import FlushDB.Manifest.Apply

/-!
What the levels of a namespace have to satisfy, what a reader sees in them, and when tables can
be replaced by others without a change of either.
-/

namespace FlushDB
open Lib

/-- A stored table: sorted, named after its first and last key, without range tombstones. -/
structure TableOk (t : SSTableMeta) (entries : List MergeEntry) : Prop where
  sorted : entries.Pairwise MergeEntry.Precedes
  first : entries.head?.map (fun e => e.compositeKey.bytes) = some t.minKey
  last : entries.getLast?.map (fun e => e.compositeKey.bytes) = some t.maxKey
  noRangeDelete : ∀ e ∈ entries, e.entryType ≠ .rangeDelete

/-- A stored table with whatever entries: sorted, named after its first and last key. -/
structure TableSorted (t : SSTableMeta) (entries : List MergeEntry) : Prop where
  sorted : entries.Pairwise MergeEntry.Precedes
  first : entries.head?.map (fun e => e.compositeKey.bytes) = some t.minKey
  last : entries.getLast?.map (fun e => e.compositeKey.bytes) = some t.maxKey

theorem TableOk.tableSorted {t : SSTableMeta} {entries : List MergeEntry} (h : TableOk t entries) :
    TableSorted t entries :=
  ⟨h.sorted, h.first, h.last⟩

namespace Levels

/-- The entries of a table that the manifest lists at the level. -/
def tableEntries (tables : Tables) (level : Level) (t : SSTableMeta) : List MergeEntry :=
  tables.entries (t.sstPath level)

def levelEntries (m : Manifest) (tables : Tables) (level : Level) : List MergeEntry :=
  (m.sstablesAtLevel level).flatMap (tableEntries tables level)

def allEntries (m : Manifest) (tables : Tables) : List MergeEntry :=
  Level.all.flatMap (levelEntries m tables)

/-- Versions of one key have different sequence numbers. -/
def Distinguished (a b : MergeEntry) : Prop :=
  a.compositeKey = b.compositeKey → a.sequenceNumber ≠ b.sequenceNumber

instance : DecidableRel Distinguished := fun a b =>
  inferInstanceAs (Decidable (a.compositeKey = b.compositeKey → a.sequenceNumber ≠ b.sequenceNumber))

/-- The level invariants. -/
structure Ok (m : Manifest) (tables : Tables) : Prop where
  distinct : (m.allSSTables.map fun listed => listed.2.id).Nodup
  stored : ∀ level, ∀ t ∈ m.sstablesAtLevel level,
    ∃ entries, tables.get (t.sstPath level) = some entries ∧ TableOk t entries
  disjoint : ∀ level, level ≠ .L0 → (m.sstablesAtLevel level).Pairwise fun a b => a.maxKey < b.minKey
  newer : ∀ lower higher : Level, lower.asU8 < higher.asU8 → ∀ a ∈ levelEntries m tables lower,
    ∀ b ∈ levelEntries m tables higher, a.compositeKey = b.compositeKey →
      b.sequenceNumber < a.sequenceNumber
  sequences : (allEntries m tables).Pairwise Distinguished

/-- Where tables are, whatever versions they hold. -/
structure Arranged (m : Manifest) (tables : Tables) : Prop where
  distinct : (m.allSSTables.map fun listed => listed.2.id).Nodup
  stored : ∀ level, ∀ t ∈ m.sstablesAtLevel level,
    ∃ entries, tables.get (t.sstPath level) = some entries ∧ TableSorted t entries
  disjoint : ∀ level, level ≠ .L0 → (m.sstablesAtLevel level).Pairwise fun a b => a.maxKey < b.minKey

theorem Ok.arranged {m : Manifest} {tables : Tables} (ok : Ok m tables) : Arranged m tables := by
  refine ⟨ok.distinct, ?_, ok.disjoint⟩
  intro level t listed
  obtain ⟨entries, found, good⟩ := ok.stored level t listed
  exact ⟨entries, found, good.tableSorted⟩

/-- The version of a key with the highest sequence number. -/
def newest (entries : List MergeEntry) (key : CompositeKey) : Option MergeEntry :=
  (entries.filter fun e => e.compositeKey = key).argmax MergeEntry.sequenceNumber

/-- What the newest version over all tables says; a tombstone says that there is nothing. -/
def visible (m : Manifest) (tables : Tables) (key : CompositeKey) : Option (Bytes × Bytes) :=
  match newest (allEntries m tables) key with
  | none => none
  | some e => if e.isTombstone then none else some (e.value, e.metadata)

theorem mem_levelEntries {m : Manifest} {tables : Tables} {level : Level} {e : MergeEntry} :
    e ∈ levelEntries m tables level ↔ ∃ t ∈ m.sstablesAtLevel level,
      e ∈ tableEntries tables level t :=
  List.mem_flatMap

theorem mem_allEntries {m : Manifest} {tables : Tables} {e : MergeEntry} :
    e ∈ allEntries m tables ↔ ∃ level, e ∈ levelEntries m tables level := by
  unfold allEntries
  rw [List.mem_flatMap]
  constructor
  · rintro ⟨level, -, member⟩
    exact ⟨level, member⟩
  · rintro ⟨level, member⟩
    exact ⟨level, level.mem_all, member⟩

theorem newest_eq_none {entries : List MergeEntry} {key : CompositeKey} :
    newest entries key = none ↔ ∀ x ∈ entries, x.compositeKey ≠ key := by
  simp [newest, List.argmax_eq_none, List.filter_eq_nil_iff]

instance : Std.Symm Distinguished := ⟨fun _ _ h key seq => h key.symm seq.symm⟩

theorem eq_of_same_version {entries : List MergeEntry} (h : entries.Pairwise Distinguished)
    {a b : MergeEntry} (first : a ∈ entries) (second : b ∈ entries)
    (key : a.compositeKey = b.compositeKey) (seq : a.sequenceNumber = b.sequenceNumber) :
    a = b := by
  by_contra different
  exact h.forall first second different key seq

theorem newest_eq_some {entries : List MergeEntry} (h : entries.Pairwise Distinguished)
    {key : CompositeKey} {e : MergeEntry} : newest entries key = some e ↔
      e ∈ entries ∧ e.compositeKey = key ∧ ∀ x ∈ entries, x.compositeKey = key →
        x.sequenceNumber ≤ e.sequenceNumber := by
  constructor
  · intro found
    obtain ⟨member, same⟩ := List.mem_filter.mp (List.argmax_mem found)
    refine ⟨member, of_decide_eq_true same, ?_⟩
    intro x inside key
    exact List.le_of_mem_argmax (List.mem_filter.mpr ⟨inside, decide_eq_true key⟩) found
  · rintro ⟨member, same, best⟩
    cases found : newest entries key with
    | none => exact absurd same (newest_eq_none.mp found e member)
    | some top =>
      obtain ⟨inside, key_top⟩ := List.mem_filter.mp (List.argmax_mem found)
      have key_top := of_decide_eq_true key_top
      have upper : e.sequenceNumber ≤ top.sequenceNumber :=
        List.le_of_mem_argmax (List.mem_filter.mpr ⟨member, decide_eq_true same⟩) found
      have lower := best top inside key_top
      rw [eq_of_same_version h inside member (key_top.trans same.symm) (by omega)]

end Levels

namespace TableSorted
variable {t : SSTableMeta} {entries : List MergeEntry}

/-- The first key of the table is the key of an entry, and so is the last. -/
theorem attained (h : TableSorted t entries) :
    (∃ e ∈ entries, e.compositeKey.bytes = t.minKey) ∧
      ∃ e ∈ entries, e.compositeKey.bytes = t.maxKey := by
  obtain ⟨first, head, key⟩ := Option.map_eq_some_iff.mp h.first
  obtain ⟨last, final, key'⟩ := Option.map_eq_some_iff.mp h.last
  exact ⟨⟨first, List.mem_of_head? head, key⟩, last, List.mem_of_getLast? final, key'⟩

theorem bounds (h : TableSorted t entries) {e : MergeEntry} (member : e ∈ entries) :
    t.minKey ≤ e.compositeKey.bytes ∧ e.compositeKey.bytes ≤ t.maxKey := by
  obtain ⟨first, head, key⟩ := Option.map_eq_some_iff.mp h.first
  obtain ⟨last, final, key'⟩ := Option.map_eq_some_iff.mp h.last
  have sorted := h.sorted
  constructor
  · rw [← key]
    obtain ⟨tail, whole⟩ := List.head?_eq_some_iff.mp head
    rw [whole] at member sorted
    rcases List.mem_cons.mp member with rfl | later
    · exact le_refl _
    · exact CompositeKey.le_iff_bytes.mp ((List.pairwise_cons.mp sorted).1 e later).key_le
  · rw [← key']
    obtain ⟨init, whole⟩ := List.getLast?_eq_some_iff.mp final
    rw [whole] at member sorted
    rcases List.mem_append.mp member with early | same
    · have order := (List.pairwise_append.mp sorted).2.2 e early last (List.mem_singleton_self _)
      exact CompositeKey.le_iff_bytes.mp order.key_le
    · rw [List.mem_singleton.mp same]

theorem min_le_max (h : TableSorted t entries) : t.minKey ≤ t.maxKey := by
  obtain ⟨⟨e, member, -⟩, -⟩ := h.attained
  exact (h.bounds member).1.trans (h.bounds member).2

end TableSorted

end FlushDB
