import FlushDB.Engine.TableLookup
import FlushDB.Sstable.Prefilters

/-!
The range of keys that the index of a table shows. It ends with the first key of the last block, and
what stands behind that key in the block is outside.
-/

namespace FlushDB.Sst
open Lib

namespace IndexBlock

def keyRange (index : List IndexEntry) : Option (CompositeKey × CompositeKey) :=
  match index.head?, index.getLast? with
  | some first, some last => some (first.firstKey, last.firstKey)
  | _, _ => none

def overlaps (index : List IndexEntry) (start stop : CompositeKey) : Bool :=
  match keyRange index with
  | none => false
  | some (indexMin, indexMax) =>
    if indexMax < start then false
    else if indexMin > stop then false
    else true

end IndexBlock

def SSTableHandle.keyRange (h : SSTableHandle) : Option (CompositeKey × CompositeKey) :=
  IndexBlock.keyRange h.indexBlock

def SSTableHandle.overlaps (h : SSTableHandle) (start stop : CompositeKey) : Bool :=
  IndexBlock.overlaps h.indexBlock start stop

def SSTableReader.keyRange (r : SSTableReader) :
    FlushResult (Option (CompositeKey × CompositeKey)) :=
  match r.index with
  | none => notLoaded
  | some index => .ok (IndexBlock.keyRange index)

/-- The file has an entry between the bounds. -/
def HoldsBetween (entries : List MemtableEntry) (start stop : CompositeKey) : Prop :=
  ∃ e ∈ entries, start ≤ e.compositeKey ∧ e.compositeKey ≤ stop

/-- The range is there, and no entry is outside of it. -/
def Brackets (range : Option (CompositeKey × CompositeKey)) (entries : List MemtableEntry) : Prop :=
  ∃ low high, range = some (low, high) ∧ ∀ e ∈ entries, low ≤ e.compositeKey ∧ e.compositeKey ≤ high

/-- The key that the last block starts with. -/
def lastBlockKey (target : Nat) (entries : List MemtableEntry) : Option CompositeKey :=
  (SSTableWriter.cutBlocks target [] entries).getLast?.bind fun b =>
    b.head?.map MemtableEntry.compositeKey

/-- The last block has versions of one key only. -/
def LastBlockOneKey (target : Nat) (entries : List MemtableEntry) : Prop :=
  ∀ b ∈ (SSTableWriter.cutBlocks target [] entries).getLast?, ∀ e ∈ b,
    some e.compositeKey = lastBlockKey target entries

theorem cutBlocks_cut (target : Nat) {entries : List MemtableEntry}
    (sorted : entries.Pairwise fun a b => a.compositeKey ≤ b.compositeKey) :
    Cut MemtableEntry.compositeKey (SSTableWriter.cutBlocks target [] entries) := by
  refine ⟨SSTableWriter.cutBlocks_ne_nil _ _ _, ?_⟩
  rw [SSTableWriter.flatten_cutBlocks, List.nil_append]
  exact sorted

namespace IndexBlock
variable {index : List IndexEntry} {target : Nat} {entries : List MemtableEntry}
  (indexes : Indexes IndexEntry.firstKey MemtableEntry.compositeKey index
  (SSTableWriter.cutBlocks target [] entries))
  (nonempty : entries ≠ []) (sorted : entries.Pairwise fun a b => a.compositeKey ≤ b.compositeKey)
include indexes nonempty sorted

/-- The range of the index, with what is known of its ends. -/
theorem keyRange_spec :
    ∃ low high, keyRange index = some (low, high) ∧ lastBlockKey target entries = some high ∧
      (∀ e ∈ entries, low ≤ e.compositeKey) ∧
      ((∀ e ∈ entries, e.compositeKey ≤ high) ↔ LastBlockOneKey target entries) := by
  have flat := SSTableWriter.flatten_cutBlocks target [] entries
  rw [List.nil_append] at flat
  have cut := cutBlocks_cut target sorted
  have some : index ≠ [] := by
    intro none
    rw [none] at indexes
    rw [List.forall₂_nil_left_iff.mp indexes] at flat
    exact nonempty flat.symm
  obtain ⟨first, head⟩ : ∃ first, index.head? = .some first := ⟨_, List.head?_eq_some_head some⟩
  obtain ⟨last, final⟩ : ∃ last, index.getLast? = .some last :=
    ⟨_, List.getLast?_eq_some_getLast some⟩
  obtain ⟨before, block, whole, starts⟩ := indexes.last_block final
  have lastKey : lastBlockKey target entries = .some last.firstKey := by
    rw [lastBlockKey, whole, List.getLast?_append, List.getLast?_singleton, Option.some_or,
      Option.bind_some]
    exact starts
  refine ⟨first.firstKey, last.firstKey, ?_, lastKey, ?_, ?_⟩
  · simp only [keyRange, head, final]
  · intro e member
    rw [← flat] at member
    exact indexes.first_le cut head member
  · have upper := indexes.le_last_iff cut final
    rw [flat] at upper
    rw [upper]
    unfold LastBlockOneKey
    simp only [lastKey, Option.some.injEq]

theorem overlaps_iff {start stop : CompositeKey} (holds : HoldsBetween entries start stop) :
    overlaps index start stop = true ↔ ∀ key ∈ lastBlockKey target entries, start ≤ key := by
  obtain ⟨low, high, range, lastKey, lower, -⟩ := keyRange_spec indexes nonempty sorted
  obtain ⟨e, member, -, below⟩ := holds
  have reached : ¬ low > stop := not_lt.mpr ((lower e member).trans below)
  simp only [overlaps, range, lastKey, Option.mem_def, Option.some.injEq, forall_eq', if_neg reached]
  split
  · rename_i above
    exact iff_of_false Bool.false_ne_true (not_le.mpr above)
  · rename_i inside
    exact iff_of_true rfl (not_lt.mp inside)

theorem brackets_iff : Brackets (keyRange index) entries ↔ LastBlockOneKey target entries := by
  obtain ⟨low, high, range, -, lower, upper⟩ := keyRange_spec indexes nonempty sorted
  rw [← upper, range]
  constructor
  · rintro ⟨low', high', same, inside⟩ e member
    obtain ⟨rfl, rfl⟩ := Prod.mk.inj (Option.some.inj same)
    exact (inside e member).2
  · intro below
    exact ⟨low, high, rfl, fun e member => ⟨lower e member, below e member⟩⟩

end IndexBlock

/-- Bounds that hold an entry overlap the index of a written file exactly when they start at or
before the key that the last block starts with, and its range brackets the keys exactly when the
last block has no other key. An open table, where the sizes fit the format, answers as the index
does. -/
theorem overlaps_written_iff {codec : Codec} {config : SstConfig} {entries : List MemtableEntry}
    {state : WriteState} {s : Sections}
    (sorted : entries.Pairwise fun a b => a.compositeKey ≤ b.compositeKey)
    (counted : SSTableWriter.Counted config.blockSizeTarget entries)
    (added : SSTableWriter.addEntries codec config {} entries = .ok state)
    (finished : SSTableWriter.sections codec config state = .ok s) :
    ∃ closed, SSTableWriter.closeBlock codec config state = .ok closed ∧
      (∀ start stop, (HoldsBetween entries start stop → IndexBlock.overlaps closed.index start stop = true) ↔
        (HoldsBetween entries start stop → ∀ key ∈ lastBlockKey config.blockSizeTarget entries,
          start ≤ key)) ∧
      (Brackets (IndexBlock.keyRange closed.index) entries ↔
        LastBlockOneKey config.blockSizeTarget entries) ∧
      (codec.Lossless → (∀ e ∈ entries, Encodable e) → entries.length < 2 ^ 64 → s.Fits →
        ∀ backend path,
        ∃ info stored opened reader handle, SSTableWriter.write codec config backend path entries =
          .ok (info, stored) ∧
          SSTableReader.openFile codec stored path info.fileSize = .ok opened ∧
            opened.loadMetadata = .ok reader ∧
          SSTableHandle.openFile codec stored path info.fileSize = .ok handle ∧
          handle.keyRange = IndexBlock.keyRange closed.index ∧
            reader.keyRange = .ok (IndexBlock.keyRange closed.index) ∧
          ∀ start stop, handle.overlaps start stop = IndexBlock.overlaps closed.index start stop) := by
  have nonempty : entries ≠ [] := by
    rintro rfl
    cases (SSTableWriter.sections_keys added finished).1
  obtain ⟨closed, -, -, closes, -⟩ := SSTableWriter.sections_ok finished
  obtain ⟨pending, cuts, -⟩ := SSTableWriter.closeBlock_cuts added closes
  have indexes := cuts.indexes
  rw [counted.writtenBlocks] at indexes
  refine ⟨closed, closes, ?_, IndexBlock.brackets_iff indexes nonempty sorted, ?_⟩
  · intro start stop
    exact forall_congr' fun holds => IndexBlock.overlaps_iff indexes nonempty sorted holds
  · intro lossless encodable count fits backend path
    have sized : ∀ state s, SSTableWriter.addEntries codec config {} entries = .ok state →
        SSTableWriter.sections codec config state = .ok s → s.Fits := by
      intro state' s' added' finished'
      obtain rfl := Except.ok.inj (added.symm.trans added')
      obtain rfl := Except.ok.inj (finished.symm.trans finished')
      exact fits
    obtain ⟨info, opened, reader, handle, f, written, rfl, opensReader, loads, opensHandle, opens,
      state', closed', added', closes', same⟩ :=
      write_opens lossless config nonempty encodable count counted sized backend path
    obtain rfl := Except.ok.inj (added.symm.trans added')
    obtain rfl := Except.ok.inj (closes.symm.trans closes')
    obtain ⟨-, -, -, -, index⟩ := opens.loaded
    obtain ⟨-, -, handleIndex⟩ := opens.opened
    refine ⟨info, f.backend, opened, reader, handle, written, opensReader, loads, opensHandle, ?_,
      ?_, ?_⟩
    · rw [SSTableHandle.keyRange, handleIndex, same]
    · rw [SSTableReader.keyRange, index, same]
    · intro start stop
      rw [SSTableHandle.overlaps, handleIndex, same]

section Example

theorem sampleEntries_sorted :
    sampleEntries.Pairwise fun a b => a.compositeKey ≤ b.compositeKey := by
  decide

/-- The last block has one entry. -/
theorem overlaps_written_sample :
    ∃ closed info stored handle, SSTableWriter.write plainCodec plainConfig ObjectStore.empty
      "t.sst" sampleEntries = .ok (info, stored) ∧
      SSTableHandle.openFile plainCodec stored "t.sst" info.fileSize = .ok handle ∧
      handle.keyRange = IndexBlock.keyRange closed ∧
        Brackets (IndexBlock.keyRange closed) sampleEntries := by
  have counted : SSTableWriter.Counted plainConfig.blockSizeTarget sampleEntries :=
    SSTableWriter.counted_of_target (by decide) _
  obtain ⟨state, -, s, added, -, finished, -⟩ :=
    write_built plainCodec_lossless plainConfig (by decide) sampleEntries_encodable counted
  obtain ⟨closed, -, -, brackets, opens⟩ := overlaps_written_iff sampleEntries_sorted counted added
    finished
  obtain ⟨info, stored, opened, reader, handle, written, -, -, openedHandle, range, -⟩ :=
    opens plainCodec_lossless sampleEntries_encodable
      (by decide) (sampleEntries_fit state s added finished) ObjectStore.empty "t.sst"
  have single : LastBlockOneKey plainConfig.blockSizeTarget sampleEntries := by
    unfold LastBlockOneKey
    decide +kernel
  exact ⟨closed.index, info, stored, handle, written, openedHandle, range, brackets.mpr single⟩

/-- All entries in one block. -/
def wideConfig : SstConfig where
  blockSizeTarget := 4096
  compression := .none

theorem sampleEntries_fit_wide :
    ∀ state s, SSTableWriter.addEntries plainCodec wideConfig {} sampleEntries = .ok state →
    SSTableWriter.sections plainCodec wideConfig state = .ok s → s.Fits :=
  @fits_of_lengths plainCodec wideConfig sampleEntries 50 4 29 24 (by decide +kernel) (by decide)

/-- The entry at the end of the only block is not found between any bounds that start behind the
first key. -/
theorem overlaps_misses :
    ∃ info opened reader handle, ∃ stored : Backend,
      SSTableWriter.write plainCodec wideConfig ObjectStore.empty "t.sst" sampleEntries =
        .ok (info, stored) ∧
      SSTableReader.openFile plainCodec stored "t.sst" info.fileSize = .ok opened ∧
        opened.loadMetadata = .ok reader ∧
      SSTableHandle.openFile plainCodec stored "t.sst" info.fileSize = .ok handle ∧
      HoldsBetween sampleEntries (CompositeKey.encode ⟨[114]⟩ [2]) (CompositeKey.encode ⟨[114]⟩ [2]) ∧
      handle.overlaps (CompositeKey.encode ⟨[114]⟩ [2]) (CompositeKey.encode ⟨[114]⟩ [2]) = false ∧
      ¬ Brackets handle.keyRange sampleEntries := by
  obtain ⟨info, opened, reader, handle, f, written, path, opensReader, loads, opensHandle, opens, -⟩ :=
    write_opens plainCodec_lossless wideConfig (show sampleEntries ≠
      [] by decide) sampleEntries_encodable (by decide)
      (SSTableWriter.counted_of_target (by decide) _) sampleEntries_fit_wide ObjectStore.empty "t.sst"
  obtain ⟨-, -, index⟩ := opens.opened
  have indexes := f.built.blocks.imp fun _ _ stored => stored.firstKey
  have holds : HoldsBetween sampleEntries (CompositeKey.encode ⟨[114]⟩ [2])
      (CompositeKey.encode ⟨[114]⟩ [2]) :=
    ⟨sampleEntry 2 9 301, by decide, le_refl _, le_refl _⟩
  have lastKey : lastBlockKey wideConfig.blockSizeTarget sampleEntries = some sampleKey := by
    decide +kernel
  refine ⟨info, opened, reader, handle, f.backend, written, opensReader, loads, opensHandle, holds,
    ?_, ?_⟩
  · rw [SSTableHandle.overlaps, index, ← Bool.not_eq_true,
      IndexBlock.overlaps_iff indexes (by decide) sampleEntries_sorted holds, lastKey]
    decide
  · rw [SSTableHandle.keyRange, index, IndexBlock.brackets_iff indexes (by decide) sampleEntries_sorted]
    unfold LastBlockOneKey
    decide +kernel

end Example

end FlushDB.Sst
