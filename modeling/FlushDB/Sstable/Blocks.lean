import FlushDB.Engine.MergeIterator
import FlushDB.Lib.BinarySearch

/-!
The blocks of a table file and their index. The writer closes a block when the encoding of its
entries has reached the target size, and the index keeps the first key of every block. A block is
kept as its entries.
-/

namespace FlushDB
open Lib

/-- Seven bits a byte. -/
def varintLen (value : Nat) : Nat :=
  if value = 0 then 1 else (value.log2 + 1 + 6) / 7

structure IndexEntry where
  firstKey : CompositeKey
  block : List MergeEntry

structure BlockBuilder where
  entries : List MergeEntry := []
  bufferLen : Nat := 0
  firstKey : Option CompositeKey := none
  lastRecordId : Option Bytes := none

namespace BlockBuilder

/-- A record id that repeats the one before is written as the length zero. -/
def addEntry (b : BlockBuilder) (e : MergeEntry) : BlockBuilder :=
  let recordId := e.compositeKey.recordId
  let itemKey := e.compositeKey.itemKey
  let recordLen := if b.lastRecordId = some recordId then varintLen 0
    else varintLen recordId.len + recordId.len
  { entries := b.entries ++ [e]
    bufferLen := b.bufferLen + recordLen + (varintLen itemKey.len + itemKey.len) +
      (1 + varintLen e.value.len + e.value.len) + (varintLen e.metadata.len + e.metadata.len) +
      (1 + varintLen e.sequenceNumber)
    firstKey := b.firstKey.or (some e.compositeKey)
    lastRecordId := some recordId }

def isFull (blockSizeTarget : Nat) (b : BlockBuilder) : Bool := b.bufferLen ≥ blockSizeTarget

/-- Nothing for a block without entries. -/
def finish (b : BlockBuilder) : Option IndexEntry :=
  b.firstKey.map fun firstKey => ⟨firstKey, b.entries⟩

end BlockBuilder

namespace SSTableWriter

/-- The index of the file that the builder and the entries still to be written give. -/
def writeFrom (blockSizeTarget : Nat) : BlockBuilder → List MergeEntry → List IndexEntry
  | b, [] => b.finish.toList
  | b, e :: rest =>
    let b := b.addEntry e
    if b.isFull blockSizeTarget then b.finish.toList ++ writeFrom blockSizeTarget {} rest
    else writeFrom blockSizeTarget b rest

def write (blockSizeTarget : Nat) (entries : List MergeEntry) : List IndexEntry :=
  writeFrom blockSizeTarget {} entries

theorem mem_finish {b : BlockBuilder} {ie : IndexEntry} (h : ie ∈ b.finish.toList) :
    ie.block = b.entries := by
  obtain ⟨firstKey, -, rfl⟩ := Option.map_eq_some_iff.mp (Option.mem_toList.mp h)
  rfl

theorem mem_writeFrom {blockSizeTarget : Nat} {entries : List MergeEntry} {b : BlockBuilder}
    {ie : IndexEntry} {e : MergeEntry} (written : ie ∈ writeFrom blockSizeTarget b entries)
    (h : e ∈ ie.block) : e ∈ b.entries ∨ e ∈ entries := by
  induction entries generalizing b with
  | nil =>
    rw [mem_finish written] at h
    exact Or.inl h
  | cons next rest ih =>
    have added : e ∈ (b.addEntry next).entries → e ∈ b.entries ∨ e ∈ next :: rest := by
      intro member
      rcases List.mem_append.mp member with old | new
      · exact Or.inl old
      · rw [List.mem_singleton.mp new]
        exact Or.inr List.mem_cons_self
    unfold writeFrom at written
    dsimp only at written
    split at written
    · rcases List.mem_append.mp written with closed | later
      · rw [mem_finish closed] at h
        exact added h
      · rcases ih later with none | member
        · cases none
        · exact Or.inr (List.mem_cons_of_mem _ member)
    · rcases ih written with here | member
      · exact added here
      · exact Or.inr (List.mem_cons_of_mem _ member)

/-- Blocks hold entries of the table only. -/
theorem mem_write {blockSizeTarget : Nat} {entries : List MergeEntry} {ie : IndexEntry}
    {e : MergeEntry} (written : ie ∈ write blockSizeTarget entries) (h : e ∈ ie.block) :
    e ∈ entries := by
  rcases mem_writeFrom written h with none | member
  · cases none
  · exact member

end SSTableWriter

namespace IndexBlock

/-- The last block that starts at or before the key. -/
def findBlockIndex (index : List IndexEntry) (key : CompositeKey) : Option Nat :=
  match partitionPoint (fun e => e.firstKey ≤ key) index with
  | 0 => none
  | i + 1 => some i

end IndexBlock

end FlushDB
