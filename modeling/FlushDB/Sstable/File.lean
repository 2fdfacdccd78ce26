import FlushDB.Lib.BlockIndex
import FlushDB.Lib.ObjectStore
import FlushDB.Sstable.BlockFormat
import Mathlib.Data.List.Dedup

/-!
The table file: a header, the blocks, the hashes of the idempotency tokens, the filter of the
record ids, the index of the blocks and a footer that says where these are; the writer that puts
it together and the reader that takes it apart.
-/

namespace FlushDB.Sst
open Lib

def sstableMagic : Nat := 0x464C4442
def formatVersion : Nat := 1
def footerSize : Nat := 80
def headerSize : Nat := 16
def minMaxKeyTruncationLen : Nat := 16

structure SstConfig where
  blockSizeTarget : Nat := 4096
  compression : CompressionType := .snappy
  bloomBitsPerKey : Nat := 10

section Hash

def rotateLeft (x k : UInt64) : UInt64 := (x <<< k) ||| (x >>> (64 - k))

def word (bytes : List UInt8) : UInt64 := UInt64.ofNat (fromLeBytes bytes)

def hashC1 : UInt64 := 0x87c37b91114253d5
def hashC2 : UInt64 := 0x4cf5ad432745937f

def mixK1 (k : UInt64) : UInt64 := rotateLeft (k * hashC1) 31 * hashC2
def mixK2 (k : UInt64) : UInt64 := rotateLeft (k * hashC2) 33 * hashC1

/-- The whole blocks of sixteen bytes; what is left is shorter than one. -/
def hashBlocks : Nat → List UInt8 → UInt64 → UInt64 → UInt64 × UInt64 × List UInt8
  | 0, data, h1, h2 => (h1, h2, data)
  | blocks + 1, data, h1, h2 =>
    let h1 := (rotateLeft (h1 ^^^ mixK1 (word (data.take 8))) 27 + h2) * 5 + 0x52dce729
    let h2 := (rotateLeft (h2 ^^^ mixK2 (word ((data.drop 8).take 8))) 31 + h1) * 5 + 0x38495ab5
    hashBlocks blocks (data.drop 16) h1 h2

def fmix64 (k : UInt64) : UInt64 :=
  let k := (k ^^^ (k >>> 33)) * 0xff51afd7ed558ccd
  let k := (k ^^^ (k >>> 33)) * 0xc4ceb9fe1a85ec53
  k ^^^ (k >>> 33)

/-- A tail of at most eight bytes leaves the second word as it is. -/
def murmurhash3X64128 (data : List UInt8) (seed : UInt64) : UInt64 × UInt64 :=
  let (h1, h2, tail) := hashBlocks (data.length / 16) data seed seed
  let h2 := h2 ^^^ mixK2 (word (tail.drop 8)) ^^^ UInt64.ofNat data.length
  let h1 := h1 ^^^ mixK1 (word (tail.take 8)) ^^^ UInt64.ofNat data.length
  let h1 := h1 + h2
  let h2 := h2 + h1
  let h1 := fmix64 h1
  let h2 := fmix64 h2
  let h1 := h1 + h2
  (h1, h2 + h1)

end Hash

structure DedupBlock where
  hashes : List Bytes

namespace DedupBlock

def hashToken (token : IdempotencyToken) : Bytes :=
  let (h1, h2) := murmurhash3X64128 token.data.toList 0x42
  ⟨leBytes 8 h1.toNat ++ leBytes 8 h2.toNat⟩

/-- `DedupBlockBuilder`: the hashes of the tokens, each once and sorted. -/
def build (tokens : List IdempotencyToken) : DedupBlock where
  hashes := (((tokens.filter fun token => !token.isNone).map hashToken).dedup).mergeSort (· ≤ ·)

def serialize (d : DedupBlock) : List UInt8 :=
  leBytes 4 d.hashes.length ++ d.hashes.flatMap Bytes.data

def chunks : Nat → List UInt8 → List Bytes
  | 0, _ => []
  | count + 1, data => ⟨data.take 16⟩ :: chunks count (data.drop 16)

def deserialize (data : List UInt8) : FlushResult DedupBlock :=
  if data.length < 4 then corrupted "dedup block too short"
  else
    let count := fromLeBytes (data.take 4)
    let hashData := data.drop 4
    if hashData.length % 16 ≠ 0 then corrupted "dedup block size not aligned to 16-byte hashes"
    else if hashData.length / 16 ≠ count then corrupted "dedup block count mismatch"
    else .ok ⟨chunks count hashData⟩

end DedupBlock

structure BloomFilter where
  bits : List UInt8
  numBits : Nat
  numHashFunctions : Nat
  numKeys : Nat

namespace BloomFilter

def bitIndex (numBits : Nat) (recordId : Bytes) (k : Nat) : Nat :=
  let (h1, h2) := murmurhash3X64128 recordId.data 0
  (h1 + UInt64.ofNat k * h2).toNat % numBits

def setBit (bits : List UInt8) (i : Nat) : List UInt8 :=
  bits.modify (i / 8) fun b => b ||| ((1 : UInt8) <<< UInt8.ofNat (i % 8))

/-- `BloomFilterBuilder`: a bit for every record id and hash function. -/
def build (codec : Codec) (bitsPerKey : Nat) (recordIds : List Bytes) : BloomFilter :=
  let keys := recordIds.dedup
  if keys.length = 0 then
    { bits := List.replicate 8 0, numBits := 64, numHashFunctions := 1, numKeys := 0 }
  else
    let numBits := (max (keys.length * bitsPerKey) 64 + 7) / 8 * 8
    let numHashFunctions := max (codec.hashFunctions (numBits / keys.length)).toNat 1
    { bits := keys.foldl (fun bits recordId =>
        (List.range numHashFunctions).foldl (fun bits k => setBit bits (bitIndex numBits recordId k)) bits)
        (List.replicate (numBits / 8) 0)
      numBits
      numHashFunctions
      numKeys := keys.length }

def bitSet (bits : List UInt8) (i : Nat) : Bool :=
  bits.getD (i / 8) 0 &&& ((1 : UInt8) <<< UInt8.ofNat (i % 8)) ≠ 0

def maybeContains (f : BloomFilter) (recordId : Bytes) : Bool :=
  if f.numKeys = 0 then false
  else (List.range f.numHashFunctions).all fun k => bitSet f.bits (bitIndex f.numBits recordId k)

def serialize (f : BloomFilter) : List UInt8 :=
  leBytes 8 f.numBits ++ leBytes 4 f.numHashFunctions ++ leBytes 8 f.numKeys ++ f.bits

def deserialize (data : List UInt8) : FlushResult BloomFilter :=
  if data.length < 20 then corrupted "bloom filter data too short for header"
  else
    let numBits := fromLeBytes (data.take 8)
    let bits := data.drop 20
    if bits.length * 8 < numBits then corrupted "bloom filter bit array too short"
    else .ok
      { bits
        numBits
        numHashFunctions := fromLeBytes ((data.drop 8).take 4)
        numKeys := fromLeBytes ((data.drop 12).take 8) }

end BloomFilter

/-- The only filter there is carries the tag zero. -/
structure FilterBlock where
  bloom : BloomFilter

def FilterBlock.maybeContains (f : FilterBlock) (recordId : Bytes) : Bool :=
  f.bloom.maybeContains recordId

def FilterBlock.serialize (f : FilterBlock) : List UInt8 := 0x00 :: f.bloom.serialize

def FilterBlock.deserialize : List UInt8 → FlushResult FilterBlock
  | [] => corrupted "filter block is empty"
  | tag :: data =>
    if tag = 0x00 then (BloomFilter.deserialize data).map FilterBlock.mk else
      corrupted s!"unknown filter block type: {tag}"

structure IndexEntry where
  firstKey : CompositeKey
  blockOffset : Nat
  blockSize : Nat
  uncompressedSize : Nat
  deriving DecidableEq

namespace IndexBlock

/-- The last block that starts at or before the key. -/
def findBlockIndex (index : List IndexEntry) (key : CompositeKey) : Option Nat :=
  match partitionPoint (fun e => decide (e.firstKey ≤ key)) index with
  | 0 => none
  | i + 1 => some i

def findBlock (index : List IndexEntry) (key : CompositeKey) : Option IndexEntry :=
  (findBlockIndex index key).bind fun i => index[i]?

def entryBytes (e : IndexEntry) : List UInt8 :=
  framed e.firstKey.bytes.data ++ leBytes 8 e.blockOffset ++ leBytes 4 e.blockSize ++ leBytes 4
    e.uncompressedSize

def serialize (entries : List IndexEntry) : List UInt8 :=
  leBytes 4 entries.length ++ entries.flatMap entryBytes

def readEntry (data : List UInt8) : FlushResult (IndexEntry × List UInt8) :=
  if data.isEmpty then corrupted "index block entry truncated"
  else do
    let (keyLen, data) ← varint data
    if keyLen + 16 > data.length then corrupted "index block entry truncated"
    else
      let firstKey ← CompositeKey.fromBytes ⟨data.take keyLen⟩
      let data := data.drop keyLen
      return ({ firstKey
                blockOffset := fromLeBytes (data.take 8)
                blockSize := fromLeBytes ((data.drop 8).take 4)
                uncompressedSize := fromLeBytes ((data.drop 12).take 4) }, data.drop 16)

def readEntries : Nat → List UInt8 → FlushResult (List IndexEntry)
  | 0, _ => .ok []
  | count + 1, data => do
    let (entry, data) ← readEntry data
    let rest ← readEntries count data
    return entry :: rest

def deserialize (data : List UInt8) : FlushResult (List IndexEntry) :=
  if data.length < 4 then corrupted "index block too short"
  else readEntries (fromLeBytes (data.take 4)) (data.drop 4)

end IndexBlock

structure SstFooter where
  bloomFilterOffset : Nat
  bloomFilterSize : Nat
  indexBlockOffset : Nat
  indexBlockSize : Nat
  entryCount : Nat
  minKey : List UInt8
  maxKey : List UInt8
  compressionType : CompressionType
  formatVersion : Nat
  dedupBlockSize : Nat
  deriving DecidableEq

namespace SstFooter

/-- The part that the checksum covers. -/
def body (f : SstFooter) : List UInt8 :=
  leBytes 8 f.bloomFilterOffset ++ leBytes 4 f.bloomFilterSize ++ leBytes 8 f.indexBlockOffset ++
    leBytes 4 f.indexBlockSize ++ leBytes 8 f.entryCount ++ f.minKey ++ f.maxKey ++
    [f.compressionType.asU8, 0x00] ++ leBytes 2 f.formatVersion

def encode (codec : Codec) (f : SstFooter) : List UInt8 :=
  f.body ++ leBytes 4 (codec.crc32 f.body).toNat ++ leBytes 4 sstableMagic ++ leBytes 4 f.dedupBlockSize

def part (offset length : Nat) (bytes : List UInt8) : List UInt8 := (bytes.drop offset).take length

def decode (codec : Codec) (bytes : List UInt8) : FlushResult SstFooter :=
  if bytes.length ≠ footerSize then corrupted "footer must be exactly 80 bytes"
  else if fromLeBytes (part 72 4 bytes) ≠ sstableMagic then corrupted "invalid SSTable magic"
  else
    let storedCrc := fromLeBytes (part 68 4 bytes)
    let computedCrc := (codec.crc32 (bytes.take 68)).toNat
    if storedCrc ≠ computedCrc then .error (.crcMismatch storedCrc computedCrc)
    else do
      let compressionType ← CompressionType.fromU8 (bytes.getD 64 0)
      return { bloomFilterOffset := fromLeBytes (part 0 8 bytes)
               bloomFilterSize := fromLeBytes (part 8 4 bytes)
               indexBlockOffset := fromLeBytes (part 12 8 bytes)
               indexBlockSize := fromLeBytes (part 20 4 bytes)
               entryCount := fromLeBytes (part 24 8 bytes)
               minKey := part 32 16 bytes
               maxKey := part 48 16 bytes
               compressionType
               formatVersion := fromLeBytes (part 66 2 bytes)
               dedupBlockSize := fromLeBytes (part 76 4 bytes) }

def dedupBlockOffset (f : SstFooter) : Nat := f.bloomFilterOffset - f.dedupBlockSize

/-- The first sixteen bytes, filled up with zeros. -/
def truncateKey (key : CompositeKey) : List UInt8 :=
  let bytes := key.bytes.data.take minMaxKeyTruncationLen
  bytes ++ List.replicate (minMaxKeyTruncationLen - bytes.length) 0

def mayContainKey (f : SstFooter) (key : CompositeKey) : Bool :=
  f.minKey ≤ truncateKey key ∧ truncateKey key ≤ f.maxKey

end SstFooter

structure SstHeader where
  compression : CompressionType
  entryCount : Nat

def SstHeader.encode (h : SstHeader) : List UInt8 :=
  leBytes 4 sstableMagic ++ leBytes 2 formatVersion ++ [h.compression.asU8, 0x00] ++ leBytes 8
    h.entryCount

structure SstInfo where
  path : String
  entryCount : Nat
  fileSize : Nat
  minKey : CompositeKey
  maxKey : CompositeKey
  bloomFilterOffset : Nat
  bloomFilterSize : Nat
  indexBlockOffset : Nat
  indexBlockSize : Nat
  dedupBlockSize : Nat
  compression : CompressionType

/-- Files under their paths. -/
abbrev Backend := ObjectStore String (List UInt8)

/-- A range that reaches beyond the end gives what there is. -/
def Backend.getRange (backend : Backend) (path : String) (offset length : Nat) :
    FlushResult (List UInt8) :=
  match backend.get path with
  | none => .error (.notFound path)
  | some file =>
    if length = 0 then .ok []
    else if offset ≥ file.length then
      .error (.io s!"offset {offset} is at or beyond file size {file.length}")
    else .ok ((file.drop offset).take length)

structure WriteState where
  output : List UInt8 := List.replicate headerSize 0
  blockBuilder : BlockBuilder := {}
  recordIds : List Bytes := []
  tokens : List IdempotencyToken := []
  index : List IndexEntry := []
  entryCount : Nat := 0
  minKey : Option CompositeKey := none
  maxKey : Option CompositeKey := none

/-- What stands between the header and the footer. -/
structure Sections where
  output : List UInt8
  dedup : List UInt8
  filter : List UInt8
  index : List UInt8
  entryCount : Nat
  minKey : CompositeKey
  maxKey : CompositeKey

namespace SSTableWriter

section
variable (codec : Codec) (config : SstConfig)

def flushBlock (state : WriteState) : FlushResult WriteState := do
  let finished ← state.blockBuilder.finish codec config.compression
  return { state with
    output := state.output ++ finished.data
    blockBuilder := {}
    index := state.index ++
      [{ firstKey := finished.firstKey
         blockOffset := state.output.length
         blockSize := finished.data.length % 2 ^ 32
         uncompressedSize := finished.uncompressedSize }]
    recordIds := state.recordIds ++ finished.recordIds
    tokens := state.tokens ++ finished.idempotencyTokens }

/-- One entry; a block that has reached its target is closed. -/
def addEntry (state : WriteState) (e : MemtableEntry) : FlushResult WriteState :=
  let state :=
    { state with
      blockBuilder := state.blockBuilder.addEntry e
      minKey := state.minKey.or (some e.compositeKey)
      maxKey := some e.compositeKey
      entryCount := state.entryCount + 1 }
  if state.blockBuilder.isFull config.blockSizeTarget then flushBlock codec config state
    else .ok state

def addEntries : WriteState → List MemtableEntry → FlushResult WriteState
  | state, [] => .ok state
  | state, e :: rest => do
    let state ← addEntry codec config state e
    addEntries state rest

/-- The last block, unless it is empty. -/
def closeBlock (state : WriteState) : FlushResult WriteState :=
  if state.blockBuilder.isEmpty then .ok state else flushBlock codec config state

/-- The first part of `finish`: the last block, and the sections that follow the blocks. -/
def sections (state : WriteState) : FlushResult Sections := do
  let state ← closeBlock codec config state
  match state.minKey, state.maxKey with
  | some minKey, some maxKey =>
    return { output := state.output
             dedup := (DedupBlock.build state.tokens).serialize
             filter := (FilterBlock.mk
               (BloomFilter.build codec config.bloomBitsPerKey state.recordIds)).serialize
             index := IndexBlock.serialize state.index
             entryCount := state.entryCount
             minKey
             maxKey }
  | _, _ => .error (.invalidArgument "cannot write empty SSTable")

def footer (s : Sections) : SstFooter where
  bloomFilterOffset := s.output.length + s.dedup.length
  bloomFilterSize := s.filter.length % 2 ^ 32
  indexBlockOffset := s.output.length + s.dedup.length + s.filter.length
  indexBlockSize := s.index.length % 2 ^ 32
  entryCount := s.entryCount
  minKey := SstFooter.truncateKey s.minKey
  maxKey := SstFooter.truncateKey s.maxKey
  compressionType := config.compression
  formatVersion := formatVersion
  dedupBlockSize := s.dedup.length % 2 ^ 32

/-- The header is filled in at the end. -/
def assemble (s : Sections) : List UInt8 :=
  SstHeader.encode { compression := config.compression, entryCount := s.entryCount } ++
    s.output.drop headerSize ++
    s.dedup ++ s.filter ++ s.index ++ (footer config s).encode codec

def info (path : String) (s : Sections) : SstInfo where
  path := path
  entryCount := s.entryCount
  fileSize := (assemble codec config s).length
  minKey := s.minKey
  maxKey := s.maxKey
  bloomFilterOffset := (footer config s).bloomFilterOffset
  bloomFilterSize := (footer config s).bloomFilterSize
  indexBlockOffset := (footer config s).indexBlockOffset
  indexBlockSize := (footer config s).indexBlockSize
  dedupBlockSize := (footer config s).dedupBlockSize
  compression := config.compression

def write (backend : Backend) (path : String) (entries : List MemtableEntry) :
    FlushResult (SstInfo × Backend) := do
  let state ← addEntries codec config {} entries
  let s ← sections codec config state
  return (info codec config path s, backend.put path (assemble codec config s))

end

end SSTableWriter

structure SSTableReader where
  codec : Codec
  backend : Backend
  path : String
  fileSize : Nat
  footer : SstFooter
  filter : Option FilterBlock := none
  index : Option (List IndexEntry) := none
  dedup : Option DedupBlock := none

namespace SSTableReader

def openFile (codec : Codec) (backend : Backend) (path : String) (fileSize : Nat) :
    FlushResult SSTableReader := do
  let bytes ← backend.getRange path (fileSize - footerSize) footerSize
  let footer ← SstFooter.decode codec bytes
  return { codec, backend, path, fileSize, footer }

def loadMetadata (r : SSTableReader) : FlushResult SSTableReader := do
  let bytes ← r.backend.getRange r.path r.footer.bloomFilterOffset r.footer.bloomFilterSize
  let filter ← FilterBlock.deserialize bytes
  let bytes ← r.backend.getRange r.path r.footer.indexBlockOffset r.footer.indexBlockSize
  let index ← IndexBlock.deserialize bytes
  let bytes ← r.backend.getRange r.path r.footer.dedupBlockOffset r.footer.dedupBlockSize
  let dedup ← DedupBlock.deserialize bytes
  return { r with filter := some filter, index := some index, dedup := some dedup }

def notLoaded {α : Type} : FlushResult α :=
  .error (.invalidArgument "SSTable metadata not loaded — call load_metadata() first")

def blockCount (r : SSTableReader) : FlushResult Nat :=
  match r.index with
  | none => notLoaded
  | some index => .ok index.length

def getBlock (r : SSTableReader) (blockIndex : Nat) : FlushResult (List BlockEntry) :=
  match r.index with
  | none => notLoaded
  | some index =>
    match index[blockIndex]? with
    | none =>
      .error (.invalidArgument s!"block index {blockIndex} out of range (0..{index.length})")
    | some entry => do
      let raw ← r.backend.getRange r.path entry.blockOffset entry.blockSize
      decodeBlock r.codec raw r.footer.compressionType

def requireMetadata (r : SSTableReader) : FlushResult (FilterBlock × List IndexEntry) :=
  match r.filter, r.index with
  | some filter, some index => .ok (filter, index)
  | _, _ => notLoaded

/-- The first entry of the key in its block. -/
def get (r : SSTableReader) (key : CompositeKey) : FlushResult (Option BlockEntry) := do
  let (filter, index) ← r.requireMetadata
  if !r.footer.mayContainKey key then return none
  else if !filter.maybeContains key.recordId then return none
  else
    match IndexBlock.findBlock index key with
    | none => return none
    | some entry =>
      let raw ← r.backend.getRange r.path entry.blockOffset entry.blockSize
      let entries ← decodeBlock r.codec raw r.footer.compressionType
      return entries.find? fun e => e.compositeKey = key

end SSTableReader

/-- The blocks from the `i`-th on, where the scan began at the block `first`. -/
def scanFrom (getBlock : Nat → FlushResult (List BlockEntry)) (start : CompositeKey)
    (stop : Option CompositeKey) (first : Nat) :
    Nat → List IndexEntry → FlushResult (List BlockEntry)
  | _, [] => .ok []
  | i, entry :: rest =>
    if i > first ∧ stop.any fun s => s ≤ entry.firstKey then .ok []
    else do
      let entries ← getBlock i
      match scanBlock BlockEntry.compositeKey start stop entries with
      | (kept, true) => return kept
      | (kept, false) =>
        let later ← scanFrom getBlock start stop first (i + 1) rest
        return kept ++ later

def SSTableReader.scan (r : SSTableReader) (start : CompositeKey) (stop : Option CompositeKey) :
    FlushResult (List BlockEntry) := do
  let (_, index) ← r.requireMetadata
  let first := (IndexBlock.findBlockIndex index start).getD 0
  scanFrom r.getBlock start stop first first (index.drop first)

structure SstableIterator where
  currentBlockIdx : Nat := 0
  currentEntries : List BlockEntry := []
  currentEntryIdx : Nat := 0

namespace SstableIterator

/-- `fuel` bounds the blocks that can still be loaded. -/
def next (r : SSTableReader) :
    Nat → SstableIterator → FlushResult (Option BlockEntry × SstableIterator)
  | fuel, it =>
    match it.currentEntries[it.currentEntryIdx]? with
    | some entry => .ok (some entry, { it with currentEntryIdx := it.currentEntryIdx + 1 })
    | none => do
      let blockCount ← r.blockCount
      if it.currentBlockIdx ≥ blockCount then return (none, it)
      else
        let entries ← r.getBlock it.currentBlockIdx
        match fuel with
        | 0 => return (none, it)
        | fuel + 1 =>
          next r fuel { currentBlockIdx := it.currentBlockIdx + 1, currentEntries := entries,
                        currentEntryIdx := 0 }

/-- Calls `next` until it gives nothing, at most so many times. -/
def collect (r : SSTableReader) : Nat → SstableIterator → FlushResult (List BlockEntry)
  | 0, _ => .ok []
  | calls + 1, it => do
    let blockCount ← r.blockCount
    match ← next r blockCount it with
    | (none, _) => return []
    | (some entry, it) =>
      let rest ← collect r calls it
      return entry :: rest

end SstableIterator

end FlushDB.Sst
