import FlushDB.Lib.Padding
import FlushDB.Sstable.RoundTrip

/-!
The two filters a read passes before it looks into a table: the range of keys in the footer and
the filter of record ids. Neither turns away what the writer has put into the file.
-/

namespace FlushDB.Sst
open Lib

namespace SstFooter

theorem truncateKey_le {a b : CompositeKey} (ordered : a ≤ b) : truncateKey a ≤ truncateKey b :=
  padded_le_padded (fun _ => UInt8.le_iff_toNat_le.mpr (Nat.zero_le _)) minMaxKeyTruncationLen
    (CompositeKey.le_iff_bytes.mp ordered)

/-- The fields as they come out of their widths. -/
def wrapped (f : SstFooter) : SstFooter :=
  { f with
    bloomFilterOffset := f.bloomFilterOffset % 256 ^ 8
    bloomFilterSize := f.bloomFilterSize % 256 ^ 4
    indexBlockOffset := f.indexBlockOffset % 256 ^ 8
    indexBlockSize := f.indexBlockSize % 256 ^ 4
    entryCount := f.entryCount % 256 ^ 8
    formatVersion := f.formatVersion % 256 ^ 2
    dedupBlockSize := f.dedupBlockSize % 256 ^ 4 }

theorem encode_wrapped (codec : Codec) (f : SstFooter) :
    f.wrapped.encode codec = f.encode codec := by
  simp only [encode, body, wrapped, leBytes_mod]

theorem wrapped_fits {f : SstFooter} (minKey : f.minKey.length = 16)
    (maxKey : f.maxKey.length = 16) : f.wrapped.Fits := by
  refine ⟨?_, ?_, ?_, ?_, ?_, minKey, maxKey, ?_, ?_⟩
  all_goals exact Nat.mod_lt _ (by decide)

end SstFooter

namespace SSTableWriter
variable {codec : Codec} {config : SstConfig}

/-- The footer is read from the end of the file, whatever the sizes before it. -/
theorem openFile_written {backend stored : Backend} {path : String} {entries : List MemtableEntry}
    {info : SstInfo} (written : write codec config backend path entries = .ok (info, stored)) :
    ∃ reader s, SSTableReader.openFile codec stored path info.fileSize = .ok reader ∧
      reader.footer = (footer config s).wrapped ∧
        entries.head?.map MemtableEntry.compositeKey = some s.minKey ∧
      entries.getLast?.map MemtableEntry.compositeKey = some s.maxKey := by
  obtain ⟨state, s, added, finished, rfl, rfl⟩ := write_ok written
  have size : (SSTableWriter.info codec config path s).fileSize =
      (assemble codec config s).length := rfl
  obtain ⟨minKey, maxKey⟩ := sections_keys added finished
  have fits : (footer config s).wrapped.Fits :=
    SstFooter.wrapped_fits (truncateKey_length _) (truncateKey_length _)
  have long : ((footer config s).encode codec).length = footerSize := by
    rw [← SstFooter.encode_wrapped, SstFooter.length_encode fits]
  have decodes : SstFooter.decode codec ((footer config s).encode codec) =
      .ok (footer config s).wrapped := by
    rw [← SstFooter.encode_wrapped, SstFooter.decode_encode fits]
  -- the footer is what stands behind the rest of the file
  obtain ⟨front, whole⟩ : ∃ front, assemble codec config s =
    front ++ ((footer config s).encode codec ++ []) :=
    ⟨_, by rw [assemble, List.append_nil]⟩
  have offset : (SSTableWriter.info codec config path s).fileSize - footerSize = front.length := by
    rw [size, whole, List.append_nil, List.length_append, long, Nat.add_sub_cancel]
  have range : Backend.getRange (backend.put path (assemble codec config s)) path
      ((SSTableWriter.info codec config path s).fileSize - footerSize) footerSize =
        .ok ((footer config s).encode codec) := by
    rw [offset, ← long]
    apply getRange_append
    rw [ObjectStore.get_put_self, whole]
  let reader : SSTableReader :=
    { codec, backend := backend.put path (assemble codec config s), path,
      fileSize := (SSTableWriter.info codec config path s).fileSize
      footer := (footer config s).wrapped }
  refine ⟨reader, s, ?_, rfl, minKey, maxKey⟩
  simp only [SSTableReader.openFile, range, decodes, bind, Except.bind]
  rfl

end SSTableWriter

/-- The range in the footer of a written file turns no key away that lies between the first and
the last: truncation keeps the order. -/
theorem mayContainKey_written {codec : Codec} {config : SstConfig} {backend stored : Backend}
    {path : String} {entries : List MemtableEntry} {info : SstInfo}
    (written : SSTableWriter.write codec config backend path entries = .ok (info, stored)) :
    (∀ a b : CompositeKey, a ≤ b → SstFooter.truncateKey a ≤ SstFooter.truncateKey b) ∧
      ∃ reader first last, SSTableReader.openFile codec stored path info.fileSize = .ok reader ∧
        entries.head? = some first ∧ entries.getLast? = some last ∧
        ∀ key, first.compositeKey ≤ key → key ≤ last.compositeKey →
          reader.footer.mayContainKey key = true := by
  refine ⟨fun a b ordered => SstFooter.truncateKey_le ordered, ?_⟩
  obtain ⟨reader, s, opens, footer, least, greatest⟩ := SSTableWriter.openFile_written written
  obtain ⟨first, head, minKey⟩ := Option.map_eq_some_iff.mp least
  obtain ⟨last, final, maxKey⟩ := Option.map_eq_some_iff.mp greatest
  refine ⟨reader, first, last, opens, head, final, ?_⟩
  intro key low high
  rw [minKey] at low
  rw [maxKey] at high
  rw [footer, SstFooter.mayContainKey, decide_eq_true_eq]
  exact ⟨SstFooter.truncateKey_le low, SstFooter.truncateKey_le high⟩

theorem mayContainKey_written_sample :
    ∃ info stored reader, SSTableWriter.write plainCodec plainConfig ObjectStore.empty "t.sst"
      sampleEntries =
        .ok (info, stored) ∧
      SSTableReader.openFile plainCodec stored "t.sst" info.fileSize = .ok reader ∧
      reader.footer.mayContainKey (CompositeKey.encode ⟨[114]⟩ [1, 0]) = true := by
  obtain ⟨state, s, added, made⟩ := @SSTableWriter.sections_total plainCodec plainConfig
    sampleEntries plainCodec_lossless
    (SSTableWriter.counted_of_target (by decide) _) (by decide)
  obtain ⟨info, stored, -, -, written, -⟩ := write_reads plainCodec_lossless
    (fun e member => encodable_of_built (sampleEntries_built e member)
      (sampleEntries_sized e member)) (by decide) added made
    (sampleEntries_fit state s added made) ObjectStore.empty "t.sst"
  obtain ⟨-, reader, first, last, opens, head, final, between⟩ := mayContainKey_written written
  cases head
  cases final
  exact ⟨info, stored, reader, written, opens, between _ (by decide) (by decide)⟩

namespace BloomFilter

/-! The same with every index, remainder and sum checked: nothing where the program would stop. -/
namespace Checked

def bitIndex (numBits : Nat) (recordId : Bytes) (k : Nat) : Option Nat :=
  if numBits = 0 then none else some (BloomFilter.bitIndex numBits recordId k)

def setBit (bits : List UInt8) (i : Nat) : Option (List UInt8) :=
  if i / 8 < bits.length then some (BloomFilter.setBit bits i) else none

def bitSet (bits : List UInt8) (i : Nat) : Option Bool :=
  if i / 8 < bits.length then some (BloomFilter.bitSet bits i) else none

def setBits (numBits : Nat) (recordId : Bytes) (hashes : List Nat) (bits : List UInt8) :
    Option (List UInt8) :=
  hashes.foldlM (fun bits k => bitIndex numBits recordId k >>= setBit bits) bits

def build (codec : Codec) (bitsPerKey : Nat) (recordIds : List Bytes) : Option BloomFilter :=
  let keys := recordIds.dedup
  if keys.length = 0 then
    some { bits := List.replicate 8 0, numBits := 64, numHashFunctions := 1, numKeys := 0 }
  else if keys.length * bitsPerKey ≥ 2 ^ 64 ∨ max (keys.length * bitsPerKey) 64 + 7 ≥ 2 ^ 64 then
    none
  else do
    let numBits := (max (keys.length * bitsPerKey) 64 + 7) / 8 * 8
    let numHashFunctions := max (codec.hashFunctions (numBits / keys.length)).toNat 1
    let bits ← keys.foldlM (fun bits recordId => setBits numBits recordId (List.range numHashFunctions) bits)
      (List.replicate (numBits / 8) 0)
    return { bits, numBits, numHashFunctions, numKeys := keys.length }

/-- A probe that finds no bit is the last. -/
def probe (f : BloomFilter) (recordId : Bytes) : List Nat → Option Bool
  | [] => some true
  | k :: rest => do
    let i ← bitIndex f.numBits recordId k
    if ← bitSet f.bits i then probe f recordId rest else return false

def maybeContains (f : BloomFilter) (recordId : Bytes) : Option Bool :=
  if f.numKeys = 0 then some false else probe f recordId (List.range f.numHashFunctions)

section
variable {bits : List UInt8} {numBits : Nat}

theorem bitIndex_inside (recordId : Bytes) (k : Nat) (sized : numBits ≤ bits.length * 8)
    (some : numBits ≠ 0) :
    BloomFilter.bitIndex numBits recordId k / 8 < bits.length := by
  have below : BloomFilter.bitIndex numBits recordId k < numBits :=
    Nat.mod_lt _ (Nat.pos_of_ne_zero some)
  omega

theorem bitIndex_eq (recordId : Bytes) (k : Nat) (nonzero : numBits ≠ 0) :
    bitIndex numBits recordId k = some (BloomFilter.bitIndex numBits recordId k) := if_neg nonzero

theorem setBit_inside {i : Nat} (inside : i / 8 < bits.length) :
    (some i >>= setBit bits) = some (BloomFilter.setBit bits i) := if_pos inside

theorem bitSet_inside {i : Nat} (inside : i / 8 < bits.length) :
    bitSet bits i = some (BloomFilter.bitSet bits i) :=
  if_pos inside

theorem probe_cons {f : BloomFilter} {recordId : Bytes} {k i : Nat} {set : Bool} {rest : List Nat}
    (index : bitIndex f.numBits recordId k = some i) (found : bitSet f.bits i = some set) :
    probe f recordId (k :: rest) = if set then probe f recordId rest else some false := by
  simp only [probe, index, found, bind, Option.bind]
  rfl

theorem setBits_inside (recordId : Bytes) (hashes : List Nat) (sized : bits.length * 8 = numBits)
    (nonzero : numBits ≠ 0) :
    setBits numBits recordId hashes bits =
      some (hashes.foldl (fun bits k =>
        BloomFilter.setBit bits (BloomFilter.bitIndex numBits recordId k)) bits) := by
  induction hashes generalizing bits with
  | nil => rfl
  | cons k rest ih =>
    have inside := bitIndex_inside recordId k sized.ge nonzero
    rw [setBits, List.foldlM_cons, bitIndex_eq recordId k nonzero, setBit_inside inside,
      List.foldl_cons]
    exact ih (by rw [length_setBit]; exact sized)

theorem setKeys_inside (keys : List Bytes) (hashes : List Nat) (sized : bits.length * 8 = numBits)
    (nonzero : numBits ≠ 0) :
    keys.foldlM (fun bits recordId => setBits numBits recordId hashes bits) bits =
      some (keys.foldl (fun bits recordId =>
        hashes.foldl (fun bits k =>
          BloomFilter.setBit bits (BloomFilter.bitIndex numBits recordId k)) bits) bits) := by
  induction keys generalizing bits with
  | nil => rfl
  | cons key rest ih =>
    rw [List.foldlM_cons, setBits_inside key hashes sized nonzero, List.foldl_cons]
    exact ih (by rw [length_foldl_setBit]; exact sized)

end

theorem bits_lt {keys bitsPerKey : Nat} (few : keys < 2 ^ 31) (wide : bitsPerKey < 2 ^ 32) :
    keys * bitsPerKey < 2 ^ 63 :=
  (Nat.mul_lt_mul'' few wide).trans_eq (Nat.pow_add 2 31 32).symm

/-- The builder stays inside its array and below 64 bits. -/
theorem build_inside (codec : Codec) {bitsPerKey : Nat} {recordIds : List Bytes}
    (wide : bitsPerKey < 2 ^ 32) (few : recordIds.dedup.length < 2 ^ 31) :
    build codec bitsPerKey recordIds = some (BloomFilter.build codec bitsPerKey recordIds) := by
  have product := bits_lt few wide
  unfold build BloomFilter.build
  dsimp only
  split
  · rfl
  · rw [if_neg (by omega), setKeys_inside _ _ (by rw [List.length_replicate]; omega) (by omega)]
    rfl

theorem probe_inside {f : BloomFilter} (recordId : Bytes) (hashes : List Nat)
    (sized : f.numBits ≤ f.bits.length * 8) (nonzero : f.numBits ≠ 0) :
    probe f recordId hashes =
      some (hashes.all fun k => BloomFilter.bitSet f.bits (BloomFilter.bitIndex f.numBits recordId k)) := by
  induction hashes with
  | nil => rfl
  | cons k rest ih =>
    have inside := bitIndex_inside recordId k sized nonzero
    rw [probe_cons (bitIndex_eq recordId k nonzero) (bitSet_inside inside), ih, List.all_cons]
    cases BloomFilter.bitSet f.bits (BloomFilter.bitIndex f.numBits recordId k) with
    | false => rfl
    | true => rfl

theorem maybeContains_inside {f : BloomFilter} (recordId : Bytes)
    (sized : f.numBits ≤ f.bits.length * 8) (nonzero : f.numBits ≠ 0) :
    maybeContains f recordId = some (f.maybeContains recordId) := by
  unfold maybeContains BloomFilter.maybeContains
  split
  · rfl
  · exact probe_inside recordId _ sized nonzero

end Checked

theorem build_numBits_pos (codec : Codec) (bitsPerKey : Nat) (recordIds : List Bytes) :
    (build codec bitsPerKey recordIds).numBits ≠ 0 := by
  unfold build
  dsimp only
  split
  · decide
  · simp only
    omega

theorem build_numBits_lt (codec : Codec) {bitsPerKey : Nat} {recordIds : List Bytes}
    (wide : bitsPerKey < 2 ^ 32) (few : recordIds.dedup.length < 2 ^ 31) :
    (build codec bitsPerKey recordIds).numBits < 2 ^ 64 := by
  have product := Checked.bits_lt few wide
  unfold build
  dsimp only
  split
  · decide
  · simp only
    omega

end BloomFilter

end FlushDB.Sst
