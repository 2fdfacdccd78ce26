import FlushDB.Lib.Codec
import FlushDB.Types.Entry

/-!
The bytes of a block: entries one after another, their fields behind varint lengths, a record id
that repeats the one before left out, and a checksum at the end. The compressors and the checksum
come from outside.
-/

namespace FlushDB

inductive CompressionType where
  | none | snappy | zstd
  deriving DecidableEq

def CompressionType.asU8 : CompressionType → UInt8
  | .none => 0
  | .snappy => 1
  | .zstd => 2

def CompressionType.fromU8 (value : UInt8) : FlushResult CompressionType :=
  if value = 0 then .ok .none
  else if value = 1 then .ok .snappy
  else if value = 2 then .ok .zstd
  else .error (.corruptedData s!"unknown compression type: {value}")

/-- What the format takes from libraries: the compressors, the checksum and the number of hash
functions for so many bits a key, which is computed in floating point. -/
structure Codec where
  compress : CompressionType → List UInt8 → FlushResult (List UInt8)
  decompress : CompressionType → List UInt8 → FlushResult (List UInt8)
  crc32 : List UInt8 → UInt32
  hashFunctions : Nat → UInt32

/-- A compressor takes every input, and its output gives the input back. -/
def Codec.Lossless (codec : Codec) : Prop :=
  ∀ kind data, ∃ packed, codec.compress kind data = .ok packed ∧
    codec.decompress kind packed = .ok data

def Codec.pack (codec : Codec) : CompressionType → List UInt8 → FlushResult (List UInt8)
  | .none, data => .ok data
  | kind, data => codec.compress kind data

def Codec.unpack (codec : Codec) : CompressionType → List UInt8 → FlushResult (List UInt8)
  | .none, data => .ok data
  | kind, data => codec.decompress kind data

namespace Sst
open Lib

def inlineTag : UInt8 := 0x00
def blobRefTag : UInt8 := 0x01

inductive EntryValue where
  | inline (bytes : Bytes)
  | blobRef (blobId : Bytes) (offset size : Nat)
  deriving DecidableEq

structure BlockEntry where
  compositeKey : CompositeKey
  value : EntryValue
  metadata : Bytes
  entryType : EntryType
  sequenceNumber : Nat
  deriving DecidableEq

def BlockEntry.ofMemtable (e : MemtableEntry) : BlockEntry where
  compositeKey := e.compositeKey
  value := .inline e.value
  metadata := e.metadata
  entryType := e.entryType
  sequenceNumber := e.sequenceNumber

/-- A byte string behind its length. -/
def framed (bytes : List UInt8) : List UInt8 := encodeVarint bytes.length ++ bytes

structure FinishedBlock where
  data : List UInt8
  firstKey : CompositeKey
  lastKey : CompositeKey
  entryCount : Nat
  uncompressedSize : Nat
  recordIds : List Bytes
  idempotencyTokens : List IdempotencyToken

structure BlockBuilder where
  buffer : List UInt8 := []
  entryCount : Nat := 0
  firstKey : Option CompositeKey := none
  lastKey : Option CompositeKey := none
  recordIdsSeen : List Bytes := []
  idempotencyTokens : List IdempotencyToken := []
  lastRecordId : Option Bytes := none

namespace BlockBuilder

/-- The bytes of one entry; `repeats` leaves its record id out. -/
def entryBytes (repeats : Bool) (e : MemtableEntry) : List UInt8 :=
  (if repeats then encodeVarint 0 else framed e.recordId.data) ++ framed e.itemKey.data ++
    (inlineTag :: framed e.value.data) ++ framed
      e.metadata.data ++ (e.entryType.asU8 :: encodeVarint e.sequenceNumber)

/-- The count is a `u32`, which wraps. -/
def addEntry (b : BlockBuilder) (e : MemtableEntry) : BlockBuilder where
  buffer := b.buffer ++ entryBytes (b.entryCount > 0 ∧ b.lastRecordId = some e.recordId) e
  entryCount := (b.entryCount + 1) % 2 ^ 32
  firstKey := b.firstKey.or (some e.compositeKey)
  lastKey := some e.compositeKey
  recordIdsSeen := b.recordIdsSeen.insert e.recordId
  idempotencyTokens := if e.idempotencyKey.isNone then b.idempotencyTokens else
    b.idempotencyTokens ++ [e.idempotencyKey]
  lastRecordId := some e.recordId

def isFull (blockSizeTarget : Nat) (b : BlockBuilder) : Bool := b.buffer.length ≥ blockSizeTarget

def isEmpty (b : BlockBuilder) : Bool := b.entryCount = 0

def finish (codec : Codec) (compression : CompressionType) (b : BlockBuilder) :
    FlushResult FinishedBlock :=
  if b.entryCount = 0 then .error (.invalidArgument "cannot finish empty block")
  else
    match b.firstKey, b.lastKey with
    | some firstKey, some lastKey => do
      let buffer := b.buffer ++ leBytes 4 (codec.crc32 b.buffer).toNat
      let data ← codec.pack compression buffer
      return {
        data
        firstKey
        lastKey
        entryCount := b.entryCount
        uncompressedSize := buffer.length % 2 ^ 32
        recordIds := b.recordIdsSeen
        idempotencyTokens := b.idempotencyTokens }
    | _, _ => .error (.invalidArgument "cannot finish empty block")

end BlockBuilder

def corrupted {α : Type} (message : String) : FlushResult α := .error (.corruptedData message)

/-- A number, and the bytes behind it. -/
def varint (buf : List UInt8) : FlushResult (Nat × List UInt8) :=
  match decodeVarint buf with
  | .error message => corrupted message
  | .ok read => .ok read

/-- So many bytes, and those behind them. -/
def slice (length : Nat) (message : String) (buf : List UInt8) :
    FlushResult (List UInt8 × List UInt8) :=
  if length > buf.length then corrupted message else .ok (buf.take length, buf.drop length)

def byte (message : String) : List UInt8 → FlushResult (UInt8 × List UInt8)
  | [] => corrupted message
  | b :: rest => .ok (b, rest)

/-- A field behind its length. -/
def field (message : String) (buf : List UInt8) : FlushResult (List UInt8 × List UInt8) := do
  let (length, buf) ← varint buf
  slice length message buf

def decodeValue (tag : UInt8) (data : List UInt8) : FlushResult EntryValue :=
  if tag = inlineTag then .ok (.inline ⟨data⟩)
  else if tag = blobRefTag then
    if data.length < 2 then corrupted "blob_ref data too short"
    else
      let blobIdLen := fromLeBytes (data.take 2)
      if data.length < 2 + blobIdLen + 8 + 4 then corrupted "blob_ref fields truncated"
      else
        let fields := data.drop (2 + blobIdLen)
        .ok (.blobRef ⟨(data.drop 2).take blobIdLen⟩ (fromLeBytes (fields.take 8))
          (fromLeBytes ((fields.drop 8).take 4)))
  else corrupted s!"unknown entry value tag: {tag}"

namespace BlockEntryIterator

/-- The record id, which the length zero repeats. -/
def decodeRecordId (lastRecordId : Option Bytes) (buf : List UInt8) :
    FlushResult (Bytes × List UInt8) := do
  let (length, buf) ← varint buf
  if length = 0 then
    match lastRecordId with
    | some recordId => return (recordId, buf)
    | none => corrupted "first entry in block has record_id_len=0"
  else
    let (recordId, buf) ← slice length "record_id truncated" buf
    return (⟨recordId⟩, buf)

/-- One entry, and the bytes behind it. The record id of the entry is the last one seen by the
next. -/
def decodeNext (lastRecordId : Option Bytes) (buf : List UInt8) :
    FlushResult (BlockEntry × Bytes × List UInt8) := do
  let (recordId, buf) ← decodeRecordId lastRecordId buf
  let (itemKey, buf) ← field "item_key truncated" buf
  let compositeKey ← CompositeKey.fromBytes ⟨recordId.data ++ separator :: itemKey⟩
  let (tag, buf) ← byte "value tag missing" buf
  let (valueData, buf) ← field "value data truncated" buf
  let value ← decodeValue tag valueData
  let (metadata, buf) ← field "metadata truncated" buf
  let (kind, buf) ← byte "entry_type missing" buf
  let entryType ← EntryType.fromU8 kind
  let (sequenceNumber, buf) ← varint buf
  return ({ compositeKey, value, metadata := ⟨metadata⟩, entryType, sequenceNumber }, recordId, buf)

/-- Entries until the data ends. An entry takes bytes, so the length bounds their number. -/
def collect : Nat → Option Bytes → List UInt8 → FlushResult (List BlockEntry)
  | _, _, [] => .ok []
  | 0, _, _ => .ok []
  | fuel + 1, lastRecordId, buf => do
    let (entry, recordId, buf) ← decodeNext lastRecordId buf
    let rest ← collect fuel (some recordId) buf
    return entry :: rest

/-- The entries' bytes, once their checksum is right. -/
def new (codec : Codec) (rawBlock : List UInt8) (compression : CompressionType) :
    FlushResult (List UInt8) := do
  let decompressed ← codec.unpack compression rawBlock
  if decompressed.length < 4 then corrupted "block too short for CRC"
  else
    let payload := decompressed.take (decompressed.length - 4)
    let storedCrc := fromLeBytes (decompressed.drop (decompressed.length - 4))
    let computedCrc := (codec.crc32 payload).toNat
    if storedCrc ≠ computedCrc then .error (.crcMismatch storedCrc computedCrc) else return payload

end BlockEntryIterator

def decodeBlock (codec : Codec) (data : List UInt8) (compression : CompressionType) :
    FlushResult (List BlockEntry) := do
  let payload ← BlockEntryIterator.new codec data compression
  BlockEntryIterator.collect payload.length none payload

/-- Sizes and numbers are 64 bits wide, and a record id is not empty. -/
structure Encodable (e : MemtableEntry) : Prop where
  recordId : e.recordId.data ≠ []
  key : e.compositeKey.bytes.len < 2 ^ 64
  value : e.value.len < 2 ^ 64
  metadata : e.metadata.len < 2 ^ 64
  sequenceNumber : e.sequenceNumber < 2 ^ 64

/-- The bytes of entries that follow `count` others, of which the last has the given record id.
Where the count of the builder has wrapped to zero, the record id is written again. -/
def encodeEntries : Nat → Option Bytes → List MemtableEntry → List UInt8
  | _, _, [] => []
  | count, last, e :: rest =>
    BlockBuilder.entryBytes (count % 2 ^ 32 > 0 ∧ last = some e.recordId) e ++ encodeEntries
      (count + 1) (some e.recordId) rest

@[simp]
theorem varint_encodeVarint {value : Nat} (fits : value < 2 ^ 64) (rest : List UInt8) :
    varint (encodeVarint value ++ rest) = .ok (value, rest) := by
  simp [varint, decodeVarint_encodeVarint fits]

theorem slice_append (bytes rest : List UInt8) (message : String) :
    slice bytes.length message (bytes ++ rest) = .ok (bytes, rest) := by
  simp [slice]

theorem field_framed {bytes : List UInt8} (fits : bytes.length < 2 ^ 64) (rest : List UInt8)
    (message : String) :
    field message (framed bytes ++ rest) = .ok (bytes, rest) := by
  simp only [field, framed, List.append_assoc, varint_encodeVarint fits, bind, Except.bind]
  exact slice_append bytes rest message

theorem key_parts (key : CompositeKey) :
    CompositeKey.fromBytes ⟨key.recordId.data ++ separator :: key.itemKey.data⟩ = .ok key := by
  have whole : key.recordId.data ++ separator :: key.itemKey.data = key.bytes.data :=
    CompositeKey.split_at_separator key.separated
  simp only [whole, CompositeKey.fromBytes, dif_pos key.separated]

theorem key_length (key : CompositeKey) :
    key.bytes.len = key.recordId.len + 1 + key.itemKey.len := by
  have whole := congrArg List.length (CompositeKey.split_at_separator key.separated)
  simp only [List.length_append, List.length_cons] at whole
  simp only [Bytes.len, CompositeKey.recordId, CompositeKey.itemKey]
  omega

namespace BlockEntryIterator

theorem decodeRecordId_framed {recordId : Bytes} (nonempty : recordId.data ≠ [])
    (fits : recordId.len < 2 ^ 64) (last : Option Bytes) (rest : List UInt8) :
    decodeRecordId last (framed recordId.data ++ rest) = .ok (recordId, rest) := by
  have present : recordId.data.length ≠ 0 := by simpa using nonempty
  have read := slice_append recordId.data rest "record_id truncated"
  simp only [decodeRecordId, framed, List.append_assoc, bind, Except.bind]
  rw [varint_encodeVarint (show recordId.data.length < 2 ^ 64 from fits)]
  simp only [if_neg present, read]
  rfl

theorem decodeRecordId_repeated (recordId : Bytes) (rest : List UInt8) :
    decodeRecordId (some recordId) (encodeVarint 0 ++ rest) = .ok (recordId, rest) := by
  simp only [decodeRecordId, varint_encodeVarint (show 0 < 2 ^ 64 by decide), bind, Except.bind]
  rfl

/-- An entry is read back, with or without its record id. -/
theorem decodeNext_entryBytes {e : MemtableEntry} (ok : Encodable e) {last : Option Bytes}
    {repeats : Bool} (known : repeats = true → last = some e.recordId) (rest : List UInt8) :
    decodeNext last (BlockBuilder.entryBytes repeats e ++ rest) =
      .ok (BlockEntry.ofMemtable e, e.recordId, rest) := by
  have length := key_length e.compositeKey
  have keyFits := ok.key
  have itemKey : e.itemKey.data.length < 2 ^ 64 := by
    have : e.itemKey.data.length = e.compositeKey.itemKey.len := rfl
    omega
  have recordId : e.recordId.len < 2 ^ 64 := by
    have : e.recordId.len = e.compositeKey.recordId.len := rfl
    omega
  have first : ∀ buf, decodeRecordId last
      ((if repeats = true then encodeVarint 0 else framed e.recordId.data) ++ buf) =
        .ok (e.recordId, buf) := by
    intro buf
    split
    · rename_i left_out
      rw [known left_out]
      exact decodeRecordId_repeated _ _
    · exact decodeRecordId_framed ok.recordId recordId _ _
  have key : CompositeKey.fromBytes ⟨e.recordId.data ++ separator :: e.itemKey.data⟩ =
      .ok e.compositeKey :=
    key_parts e.compositeKey
  simp only [decodeNext, BlockBuilder.entryBytes, List.append_assoc, List.cons_append, first,
    field_framed itemKey,
    field_framed (show e.value.data.length < 2 ^ 64 from ok.value),
    field_framed (show e.metadata.data.length < 2 ^ 64 from ok.metadata),
    varint_encodeVarint ok.sequenceNumber, key, byte, decodeValue, EntryType.fromU8_asU8, bind,
      Except.bind, if_true]
  rfl

theorem entryBytes_ne_nil (repeats : Bool) (e : MemtableEntry) :
    BlockBuilder.entryBytes repeats e ≠ [] := by
  simp [BlockBuilder.entryBytes]

theorem collect_encodeEntries {es : List MemtableEntry} (ok : ∀ e ∈ es, Encodable e) {fuel : Nat}
    (enough : es.length ≤ fuel) (count : Nat) (last : Option Bytes) :
    collect fuel last (encodeEntries count last es) = .ok (es.map BlockEntry.ofMemtable) := by
  induction es generalizing fuel count last with
  | nil =>
    cases fuel with
    | zero => rfl
    | succ fuel => rfl
  | cons e rest ih =>
    obtain ⟨fuel, rfl⟩ : ∃ n, fuel = n + 1 := ⟨fuel - 1, by simp at enough; omega⟩
    have read := @decodeNext_entryBytes e (ok e List.mem_cons_self) last
      (count % 2 ^ 32 > 0 ∧ last = some e.recordId)
      (fun both => (of_decide_eq_true both).2) (encodeEntries (count + 1) (some e.recordId) rest)
    have others := ih (fun e' member => ok e' (List.mem_cons_of_mem _ member))
      (by simpa using enough) (count + 1) (some e.recordId)
    have step : ∀ buf, buf ≠ [] → collect (fuel + 1) last buf = (do
        let (entry, recordId, buf) ← decodeNext last buf
        let rest ← collect fuel (some recordId) buf
        return entry :: rest) := by
      intro buf some
      cases buf with
      | nil => exact absurd rfl some
      | cons b tail => rfl
    have nonempty : encodeEntries count last (e :: rest) ≠ [] := by
      simp [encodeEntries, entryBytes_ne_nil]
    rw [step _ nonempty]
    simp only [encodeEntries, read, bind, Except.bind, others]
    rfl

/-- A payload is found before its checksum. -/
theorem new_unpacked {codec : Codec} {compression : CompressionType} {data payload : List UInt8}
    (unpacks : codec.unpack compression data = .ok (payload ++ leBytes 4 (codec.crc32 payload).toNat)) :
    new codec data compression = .ok payload := by
  have crc : fromLeBytes (leBytes 4 (codec.crc32 payload).toNat) = (codec.crc32 payload).toNat :=
    fromLeBytes_leBytes (codec.crc32 payload).toNat_lt
  have long : ¬ payload.length + 4 < 4 := by omega
  simp only [new, unpacks, bind, Except.bind, List.length_append, length_leBytes, if_neg long,
    Nat.add_sub_cancel,
    List.take_left, List.drop_left, crc]
  simp only [ne_eq, not_true, if_false]
  rfl

theorem new_finished (codec : Codec) (lossless : codec.Lossless) (compression : CompressionType)
    (buffer : List UInt8) :
    ∃ data, codec.pack compression (buffer ++ leBytes 4 (codec.crc32 buffer).toNat) = .ok data ∧
      new codec data compression = .ok buffer := by
  obtain ⟨data, packs, unpacks⟩ : ∃ data,
      codec.pack compression (buffer ++ leBytes 4 (codec.crc32 buffer).toNat) = .ok data ∧
        codec.unpack compression data = .ok (buffer ++ leBytes 4 (codec.crc32 buffer).toNat) := by
    cases compression with
    | none => exact ⟨_, rfl, rfl⟩
    | snappy => exact lossless .snappy _
    | zstd => exact lossless .zstd _
  exact ⟨data, packs, new_unpacked unpacks⟩

end BlockEntryIterator

/-- The builder has taken these entries. -/
structure BlockBuilder.Holds (b : BlockBuilder) (es : List MemtableEntry) : Prop where
  buffer : b.buffer = encodeEntries 0 none es
  entryCount : b.entryCount = es.length % 2 ^ 32
  firstKey : b.firstKey = es.head?.map MemtableEntry.compositeKey
  lastKey : b.lastKey = es.getLast?.map MemtableEntry.compositeKey
  lastRecordId : b.lastRecordId = es.getLast?.map MemtableEntry.recordId
  recordIds : ∀ id, id ∈ b.recordIdsSeen ↔ id ∈ es.map MemtableEntry.recordId
  tokens : b.idempotencyTokens = (es.map MemtableEntry.idempotencyKey).filter fun token => !token.isNone

theorem length_le_encodeEntries (count : Nat) (last : Option Bytes) (es : List MemtableEntry) :
    es.length ≤ (encodeEntries count last es).length := by
  induction es generalizing count last with
  | nil => exact Nat.zero_le _
  | cons e rest ih =>
    have one := List.length_pos_iff.mpr (BlockEntryIterator.entryBytes_ne_nil
      (count % 2 ^ 32 > 0 ∧ last = some e.recordId) e)
    have others := ih (count + 1) (some e.recordId)
    simp only [encodeEntries, List.length_append, List.length_cons]
    omega

theorem length_encodeEntries_le {bound : Nat} {es : List MemtableEntry}
    (each : ∀ e ∈ es, ∀ repeats, (BlockBuilder.entryBytes repeats e).length ≤ bound) (count : Nat)
    (last : Option Bytes) :
    (encodeEntries count last es).length ≤ bound * es.length := by
  induction es generalizing count last with
  | nil => exact Nat.zero_le _
  | cons e rest ih =>
    have one := each e List.mem_cons_self (count % 2 ^ 32 > 0 ∧ last = some e.recordId)
    have others := ih (fun e' member => each e' (List.mem_cons_of_mem _ member)) (count + 1)
      (some e.recordId)
    rw [encodeEntries, List.length_append, List.length_cons, Nat.mul_succ]
    omega

theorem length_encodeEntries_le_append (count : Nat) (last : Option Bytes)
    (es more : List MemtableEntry) :
    (encodeEntries count last es).length ≤ (encodeEntries count last (es ++ more)).length := by
  induction es generalizing count last with
  | nil => exact Nat.zero_le _
  | cons e rest ih =>
    rw [List.cons_append, encodeEntries, encodeEntries, List.length_append, List.length_append]
    exact Nat.add_le_add_left (ih _ _) _

theorem encodeEntries_concat (count : Nat) (last : Option Bytes) (es : List MemtableEntry)
    (e : MemtableEntry) :
    encodeEntries count last (es ++ [e]) = encodeEntries count last es ++ BlockBuilder.entryBytes
      ((count + es.length) % 2 ^ 32 > 0 ∧ (es.getLast?.map MemtableEntry.recordId).or last =
        some e.recordId) e := by
  induction es generalizing count last with
  | nil =>
    simp only [List.nil_append, encodeEntries, List.append_nil]
    rfl
  | cons first rest ih =>
    have carried : (rest.getLast?.map MemtableEntry.recordId).or (some first.recordId) =
        ((first :: rest).getLast?.map MemtableEntry.recordId).or last := by
      cases rest with
      | nil => rfl
      | cons second others => simp [List.getLast?_cons]
    have behind : count + 1 + rest.length = count + (first :: rest).length := by
      rw [List.length_cons]
      omega
    rw [List.cons_append, encodeEntries, ih, carried, behind, encodeEntries, List.append_assoc]

namespace BlockBuilder

theorem holds_empty : Holds {} [] := ⟨rfl, rfl, rfl, rfl, rfl, fun _ => Iff.rfl, rfl⟩

theorem Holds.addEntry {b : BlockBuilder} {es : List MemtableEntry} (h : b.Holds es)
    (e : MemtableEntry) :
    (b.addEntry e).Holds (es ++ [e]) := by
  refine ⟨?_, ?_, ?_, by simp [BlockBuilder.addEntry], by simp [BlockBuilder.addEntry], ?_, ?_⟩
  · rw [encodeEntries_concat]
    simp only [BlockBuilder.addEntry, h.buffer, h.entryCount, h.lastRecordId, Nat.zero_add,
      Option.or_none]
  · rw [BlockBuilder.addEntry, h.entryCount, List.length_append, List.length_singleton, Nat.mod_add_mod]
  · rw [BlockBuilder.addEntry, h.firstKey]
    cases es with
    | nil => rfl
    | cons first rest => rfl
  · intro id
    rw [BlockBuilder.addEntry, List.mem_insert_iff, h.recordIds id, List.map_append,
      List.mem_append, or_comm]
    simp
  · rw [BlockBuilder.addEntry, h.tokens, List.map_append, List.filter_append]
    cases absent : e.idempotencyKey.isNone with
    | true => simp [absent]
    | false => simp [absent]

theorem Holds.isFull {b : BlockBuilder} {es : List MemtableEntry} (h : b.Holds es) (target : Nat) :
    b.isFull target = decide ((encodeEntries 0 none es).length ≥ target) := by
  rw [BlockBuilder.isFull, h.buffer]

/-- What a finished block has of its builder, whose count has not wrapped to zero. -/
theorem finish_ok {codec : Codec} {compression : CompressionType} {b : BlockBuilder}
    {block : FinishedBlock} (finished : b.finish codec compression = .ok block) :
    b.entryCount ≠ 0 ∧ codec.pack compression (b.buffer ++ leBytes 4 (codec.crc32 b.buffer).toNat) =
      .ok block.data ∧
      b.firstKey = some block.firstKey ∧ block.uncompressedSize < 2 ^ 32 ∧
      block.recordIds = b.recordIdsSeen ∧ block.idempotencyTokens = b.idempotencyTokens := by
  unfold BlockBuilder.finish at finished
  split at finished
  · cases finished
  rename_i counted
  split at finished
  · rename_i firstKey lastKey first last
    obtain ⟨data, packed, made⟩ := bind_ok finished
    obtain rfl := Except.ok.inj made
    exact ⟨counted, packed, first, Nat.mod_lt _ (by decide), rfl, rfl⟩
  · cases finished

theorem Holds.finish_total {codec : Codec} (lossless : codec.Lossless)
    (compression : CompressionType) {b : BlockBuilder} {es : List MemtableEntry} (h : b.Holds es)
    (counted : es.length % 2 ^ 32 ≠ 0) : ∃ block, b.finish codec compression = .ok block := by
  obtain ⟨data, packs, -⟩ := BlockEntryIterator.new_finished codec lossless compression b.buffer
  have counts : ¬ b.entryCount = 0 := by rwa [h.entryCount]
  have nonempty : es ≠ [] := by
    rintro rfl
    exact counted rfl
  obtain ⟨first, rest, rfl⟩ := List.exists_cons_of_ne_nil nonempty
  have firstKey : b.firstKey = some first.compositeKey := h.firstKey
  obtain ⟨final, last⟩ : ∃ final, (first :: rest).getLast? = some final := ⟨_, List.getLast?_cons⟩
  have lastKey : b.lastKey = some final.compositeKey := by rw [h.lastKey, last, Option.map_some]
  simp only [BlockBuilder.finish, if_neg counts, firstKey, lastKey, packs, bind, Except.bind]
  exact ⟨_, rfl⟩

/-- A finished block decodes to the entries that were added. -/
theorem Holds.decodes {codec : Codec} (lossless : codec.Lossless) {compression : CompressionType}
    {b : BlockBuilder} {es : List MemtableEntry} {block : FinishedBlock} (h : b.Holds es)
    (finished : b.finish codec compression = .ok block) (ok : ∀ e ∈ es, Encodable e) :
    decodeBlock codec block.data compression = .ok (es.map BlockEntry.ofMemtable) := by
  obtain ⟨data, packs, unpacks⟩ := BlockEntryIterator.new_finished codec lossless compression b.buffer
  obtain rfl := Except.ok.inj (packs.symm.trans (finish_ok finished).2.1)
  have enough : es.length ≤ b.buffer.length := by
    rw [h.buffer]
    exact length_le_encodeEntries _ _ _
  simp only [decodeBlock, unpacks, bind, Except.bind]
  rw [h.buffer] at enough ⊢
  exact BlockEntryIterator.collect_encodeEntries ok enough 0 none

end BlockBuilder

end Sst

end FlushDB
