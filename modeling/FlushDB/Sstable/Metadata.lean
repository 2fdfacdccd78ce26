import FlushDB.Sstable.Prefilters

/-!
What the sections of a file may hold when they are accepted. The filter is divided by its number of
bits, and the dedup block is found by a subtraction; the decoders do not look at either.
-/

namespace FlushDB.Sst
open Lib

/-- The difference of two offsets; nothing where the program stops. -/
def SstFooter.Checked.dedupBlockOffset (f : SstFooter) : Option Nat :=
  if f.dedupBlockSize ≤ f.bloomFilterOffset then some (f.bloomFilterOffset - f.dedupBlockSize)
    else none

namespace BloomFilter
variable {f : BloomFilter}

theorem deserialize_sized {data : List UInt8} (read : deserialize data = .ok f) :
    f.numBits ≤ f.bits.length * 8 := by
  unfold deserialize at read
  split at read
  · cases read
  · dsimp only at read
    split at read
    · cases read
    · rename_i enough
      obtain rfl := Except.ok.inj read
      exact Nat.le_of_not_lt enough

/-- Without bits, the first probe divides by zero. -/
theorem maybeContains_zero (recordId : Bytes) (zero : f.numBits = 0) (keys : f.numKeys ≠ 0)
    (hashes : f.numHashFunctions ≠ 0) :
    Checked.maybeContains f recordId = none := by
  obtain ⟨n, count⟩ := Nat.exists_eq_succ_of_ne_zero hashes
  rw [Checked.maybeContains, if_neg keys, count, List.range_succ_eq_map, Checked.probe,
    Checked.bitIndex, if_pos zero]
  rfl

theorem maybeContains_isSome_iff (sized : f.numBits ≤ f.bits.length * 8) (recordId : Bytes) :
    (Checked.maybeContains f recordId).isSome ↔ f.numBits ≠ 0 ∨ f.numKeys = 0 ∨
      f.numHashFunctions = 0 := by
  by_cases zero : f.numBits = 0
  · by_cases keys : f.numKeys = 0
    · simp [Checked.maybeContains, keys]
    · by_cases hashes : f.numHashFunctions = 0
      · simp [Checked.maybeContains, hashes, Checked.probe, keys]
      · simp [maybeContains_zero recordId zero keys hashes, zero, keys, hashes]
  · rw [Checked.maybeContains_inside recordId sized zero]
    simp [zero]

end BloomFilter

theorem FilterBlock.deserialize_bloom {data : List UInt8} {f : FilterBlock}
    (read : FilterBlock.deserialize data = .ok f) :
    ∃ rest, data = 0x00 :: rest ∧ BloomFilter.deserialize rest = .ok f.bloom := by
  cases data with
  | nil => cases read
  | cons tag rest =>
    simp only [FilterBlock.deserialize] at read
    split at read
    · rename_i bloom
      subst tag
      cases found : BloomFilter.deserialize rest with
      | error e =>
        rw [found] at read
        cases read
      | ok bloom =>
        rw [found] at read
        obtain rfl := Except.ok.inj read
        exact ⟨rest, rfl, found⟩
    · cases read

namespace SstFooter

theorem decode_offsets {codec : Codec} {bytes : List UInt8} {f : SstFooter}
    (read : decode codec bytes = .ok f) :
    f.bloomFilterOffset = fromLeBytes (part 0 8 bytes) ∧
      f.dedupBlockSize = fromLeBytes (part 76 4 bytes) := by
  unfold decode at read
  split at read
  · cases read
  split at read
  · cases read
  dsimp only at read
  split at read
  · cases read
  cases kind : CompressionType.fromU8 (bytes.getD 64 0) with
  | error e =>
    rw [kind] at read
    cases read
  | ok compressionType =>
    rw [kind] at read
    obtain rfl := Except.ok.inj read
    exact ⟨rfl, rfl⟩

/-- The dedup block of a written file lies before its filter. -/
theorem dedupBlockOffset_written (config : SstConfig) (s : Sections) :
    (Checked.dedupBlockOffset (SSTableWriter.footer config s)).isSome := by
  have smaller : s.dedup.length % 2 ^ 32 ≤ s.dedup.length := Nat.mod_le _ _
  unfold Checked.dedupBlockOffset SSTableWriter.footer
  rw [if_pos (by dsimp only; omega)]
  rfl

end SstFooter

/-- An accepted filter can be asked exactly when it has bits, or no probe is made; the dedup block
of an accepted footer has an offset exactly when it is no longer than what stands before the
filter. -/
theorem accepted_metadata_safe_iff (codec : Codec) :
    (∀ data f, FilterBlock.deserialize data = .ok f → ∀ recordId,
        ((BloomFilter.Checked.maybeContains f.bloom recordId).isSome ↔
          f.bloom.numBits ≠ 0 ∨ f.bloom.numKeys = 0 ∨ f.bloom.numHashFunctions = 0)) ∧
      ∀ bytes f, SstFooter.decode codec bytes = .ok f →
        ((SstFooter.Checked.dedupBlockOffset f).isSome ↔
          fromLeBytes (SstFooter.part 76 4 bytes) ≤ fromLeBytes (SstFooter.part 0 8 bytes)) := by
  constructor
  · intro data f read recordId
    obtain ⟨rest, -, bloom⟩ := FilterBlock.deserialize_bloom read
    exact BloomFilter.maybeContains_isSome_iff (BloomFilter.deserialize_sized bloom) recordId
  · intro bytes f read
    obtain ⟨offset, size⟩ := SstFooter.decode_offsets read
    rw [← offset, ← size, SstFooter.Checked.dedupBlockOffset]
    split
    · rename_i inside
      simp [inside]
    · rename_i outside
      simp [outside]

section Example

/-- A filter with one key, one hash function and eight bits. -/
def eightBits : List UInt8 := 0x00 :: (leBytes 8 8 ++ leBytes 4 1 ++ leBytes 8 1 ++ [0xFF])

/-- A footer that puts a dedup block of one byte before the filter. -/
def dedupBefore : SstFooter where
  bloomFilterOffset := 1
  bloomFilterSize := 0
  indexBlockOffset := 0
  indexBlockSize := 0
  entryCount := 0
  minKey := List.replicate 16 0
  maxKey := List.replicate 16 0
  compressionType := .none
  formatVersion := 1
  dedupBlockSize := 1

theorem dedupBefore_fits : dedupBefore.Fits := by
  constructor <;> decide

theorem accepted_metadata_safe_sample :
    (∃ f, FilterBlock.deserialize eightBits = .ok f ∧
      ∀ recordId, (BloomFilter.Checked.maybeContains f.bloom recordId).isSome) ∧
      SstFooter.decode plainCodec (dedupBefore.encode plainCodec) = .ok dedupBefore ∧
      (SstFooter.Checked.dedupBlockOffset dedupBefore).isSome := by
  obtain ⟨filters, footers⟩ := accepted_metadata_safe_iff plainCodec
  have read : FilterBlock.deserialize eightBits = .ok ⟨[0xFF], 8, 1, 1⟩ := rfl
  have accepted := SstFooter.decode_encode dedupBefore_fits plainCodec
  refine ⟨⟨_, read, fun recordId => ?_⟩, accepted, ?_⟩
  · exact (filters _ _ read recordId).mpr (.inl (by decide))
  · exact (footers _ _ accepted).mpr (by decide)

/-- The header of a filter with one key, one hash function and no bits. -/
def noBits : List UInt8 := 0x00 :: (leBytes 8 0 ++ leBytes 4 1 ++ leBytes 8 1)

/-- A footer that puts a dedup block before the beginning of the file. -/
def earlyDedup : SstFooter := { dedupBefore with bloomFilterOffset := 0 }

theorem earlyDedup_fits : earlyDedup.Fits := by
  constructor <;> decide

theorem accepted_metadata_stops :
    (∃ f, FilterBlock.deserialize noBits = .ok f ∧
      ∀ recordId, BloomFilter.Checked.maybeContains f.bloom recordId = none) ∧
      SstFooter.decode plainCodec (earlyDedup.encode plainCodec) = .ok earlyDedup ∧
      SstFooter.Checked.dedupBlockOffset earlyDedup = none := by
  refine ⟨⟨⟨[], 0, 1, 1⟩, rfl, ?_⟩, SstFooter.decode_encode earlyDedup_fits plainCodec, by decide⟩
  intro recordId
  exact BloomFilter.maybeContains_zero recordId rfl (by decide) (by decide)

end Example

end FlushDB.Sst
