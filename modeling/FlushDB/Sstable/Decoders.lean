import FlushDB.Engine.PageToken
import FlushDB.Sstable.Cursors

/-!
The decoders of the index, of the token hashes and of page tokens as they move through their bytes,
and where exactly the decoders of a file stop. Only lengths written as varints can leave 64 bits.
-/

namespace FlushDB
open Lib Checked

namespace Sst

namespace IndexBlock

def Checked.readEntry (data : List UInt8) (pos : Nat) : Checked FlushError (IndexEntry × Nat) :=
  if pos ≥ data.length then outcome (corrupted "index block entry truncated")
  else do
    let (keyLen, pos) ← varintAt data pos
    let behindKey ← add pos keyLen
    let stop ← add behindKey 16
    if stop > data.length then outcome (corrupted "index block entry truncated")
    else
      let key ← Checked.slice data pos behindKey
      let firstKey ← outcome (CompositeKey.fromBytes ⟨key⟩)
      let sizeStart ← add behindKey 8
      let blockOffset ← Checked.slice data behindKey sizeStart
      let uncompressedStart ← add sizeStart 4
      let blockSize ← Checked.slice data sizeStart uncompressedStart
      let stop ← add uncompressedStart 4
      let uncompressedSize ← Checked.slice data uncompressedStart stop
      return ({ firstKey
                blockOffset := fromLeBytes blockOffset
                blockSize := fromLeBytes blockSize
                uncompressedSize := fromLeBytes uncompressedSize }, stop)

def Checked.readEntries (data : List UInt8) : Nat → Nat → Checked FlushError (List IndexEntry)
  | 0, _ => return []
  | count + 1, pos => do
    let (entry, pos) ← Checked.readEntry data pos
    let rest ← Checked.readEntries data count pos
    return entry :: rest

def Checked.deserialize (data : List UInt8) : Checked FlushError (List IndexEntry) :=
  if data.length < 4 then outcome (corrupted "index block too short")
  else do
    let count ← Checked.slice data 0 4
    Checked.readEntries data (fromLeBytes count) 4

/-- An entry of the index is followed by the next one. -/
def Follows (s t : Nat × List UInt8) : Prop :=
  ∃ count read, s.1 = count + 1 ∧ readEntry s.2 = .ok read ∧ t = (count, read.2)

/-- The key length of every entry that is reached fits, with the sixteen bytes behind the key. -/
def EntriesFit (data : List UInt8) (count : Nat) (rest : List UInt8) : Prop :=
  ∀ s, Relation.ReflTransGen Follows (count, rest) s → s.1 ≠ 0 → LengthFits 16 data s.2

section
variable {data rest : List UInt8}

theorem entriesFit_zero : EntriesFit data 0 rest := by
  refine forall_reached_iff.mpr ⟨fun some => absurd rfl some, ?_⟩
  rintro u ⟨count, read, more, -⟩
  cases more

theorem entriesFit_succ {count : Nat} : EntriesFit data (count + 1) rest ↔
    LengthFits 16 data rest ∧ ∀ read, readEntry rest = .ok read → EntriesFit data count read.2 := by
  refine forall_reached_iff.trans (and_congr (by simp) ?_)
  constructor
  · intro later read found
    exact later _ ⟨count, read, rfl, found, rfl⟩
  · rintro later u ⟨fewer, read, same, found, rfl⟩
    obtain rfl := Nat.succ.inj same
    exact later read found

theorem readEntry_suffix {read : IndexEntry × List UInt8} (found : readEntry rest = .ok read) :
    read.2 <:+ rest := by
  unfold readEntry at found
  split at found
  · cases found
  · obtain ⟨⟨keyLen, left⟩, first, found⟩ := bind_ok found
    dsimp only at found
    split at found
    · cases found
    · obtain ⟨firstKey, -, found⟩ := bind_ok found
      obtain rfl := Except.ok.inj found
      exact (List.drop_suffix _ _).trans ((List.drop_suffix _ _).trans (varint_suffix first).1)

theorem readEntry_tracks (suffix : rest <:+ data) (small : data.length < 2 ^ 63) :
    Tracks (LengthFits 16 data rest) (Checked.readEntry data (offset data rest)) (readEntry rest)
      fun read => (read.1, offset data read.2) := by
  have whole := offset_add suffix
  unfold Checked.readEntry readEntry
  cases rest with
  | nil =>
    rw [if_pos (by simpa using whole.ge)]
    refine (Tracks.total ?_).congr (iff_of_true ?_ trivial)
    · rfl
    · intro read found
      cases found
  | cons b left =>
    rw [List.length_cons] at whole
    rw [if_neg (by omega), if_neg (by simp), varintAt_eq suffix small]
    refine Tracks.map_bind fun read found => ?_
    replace suffix := (varint_suffix found).1.trans suffix
    replace whole := offset_add suffix
    obtain ⟨keyLen, rest⟩ := read
    dsimp only at suffix whole ⊢
    constructor
    · intro fits
      rw [add_inside (by omega), some_bind, add_inside (by omega), some_bind]
      by_cases short : keyLen + 16 > rest.length
      · rw [if_pos (by omega), if_pos short]
        rfl
      · have key := @offset_drop UInt8 data rest keyLen suffix (by omega)
        have sizes := (List.drop_suffix keyLen rest).trans suffix
        have enough : 16 ≤ (rest.drop keyLen).length := by
          rw [List.length_drop]
          omega
        have first := @slice_offset UInt8 data (rest.drop keyLen) 8 sizes (by omega)
        have second := @slice_offset UInt8 data ((rest.drop keyLen).drop 8) 4
          ((List.drop_suffix _ _).trans sizes) (by rw [List.length_drop]; omega)
        have third := @slice_offset UInt8 data ((rest.drop keyLen).drop 12) 4
          ((List.drop_suffix _ _).trans sizes) (by rw [List.length_drop]; omega)
        have behind := @offset_drop UInt8 data (rest.drop keyLen) 16 sizes enough
        rw [offset_drop sizes (by omega)] at second third
        rw [if_neg (by omega), if_neg short, slice_offset suffix (by omega), some_bind]
        cases CompositeKey.fromBytes ⟨rest.take keyLen⟩ with
        | error e => rfl
        | ok firstKey =>
          rw [ok_bind, ← key, add_inside
            (by omega), some_bind, first, some_bind, add_inside (by omega), some_bind, second, some_bind,
            add_inside (by omega), some_bind, third, some_bind, ← behind]
          rfl
    · intro large
      by_cases first : offset data rest + keyLen < 2 ^ 64
      · rw [add_inside first, some_bind, add, if_neg large]
        rfl
      · rw [add, if_neg first]
        rfl

theorem readEntries_tracks {count : Nat} (suffix : rest <:+ data) (small : data.length < 2 ^ 63) :
    Tracks (EntriesFit data count rest) (Checked.readEntries data count (offset data rest))
      (readEntries count rest) id := by
  induction count generalizing rest with
  | zero =>
    refine (Tracks.total ?_).congr (iff_of_true entriesFit_zero trivial)
    rfl
  | succ count ih =>
    refine ((readEntry_tracks suffix small).bind fun read found => ?_).congr entriesFit_succ
    refine (ih ((readEntry_suffix found).trans suffix)).bind_total fun later _ => ?_
    exact Tracks.total rfl

/-- The index is read without a stop exactly where the key lengths fit. -/
theorem deserialize_tracks (small : data.length < 2 ^ 63) :
    Tracks (4 ≤ data.length → EntriesFit data (fromLeBytes (data.take 4)) (data.drop 4))
      (Checked.deserialize data) (deserialize data) id := by
  unfold Checked.deserialize deserialize
  by_cases short : data.length < 4
  · rw [if_pos short, if_pos short]
    refine (Tracks.total ?_).congr (iff_of_true (fun long => absurd long (Nat.not_le.mpr short)) trivial)
    rfl
  · have long := Nat.le_of_not_lt short
    have count : Checked.slice data 0 4 = some (data.take 4) := slice_inside (Nat.zero_le _) long
    have start : offset data (data.drop 4) = 4 := by
      rw [offset, List.length_drop]
      omega
    have entries := @readEntries_tracks data (data.drop 4) (fromLeBytes (data.take 4))
      (List.drop_suffix _ _) small
    rw [start] at entries
    rw [if_neg short, if_neg short, count, some_bind]
    exact entries.congr ⟨fun fits => fits long, fun fits _ => fits⟩

end

end IndexBlock

namespace DedupBlock

def Checked.hash (hashData : List UInt8) (i : Nat) : Option Bytes := do
  let start ← mul i 16
  let stop ← add start 16
  let hash ← Checked.slice hashData start stop
  return ⟨hash⟩

/-- So many hashes from the `i`-th on. -/
def Checked.chunks (hashData : List UInt8) : Nat → Nat → Option (List Bytes)
  | _, 0 => some []
  | i, count + 1 => do
    let hash ← Checked.hash hashData i
    let rest ← Checked.chunks hashData (i + 1) count
    return hash :: rest

def Checked.deserialize (data : List UInt8) : Checked FlushError DedupBlock :=
  if data.length < 4 then outcome (corrupted "dedup block too short")
  else do
    let count := fromLeBytes (← Checked.slice data 0 4)
    let hashData ← sliceFrom data 4
    if hashData.length % 16 ≠ 0 then
      outcome (corrupted "dedup block size not aligned to 16-byte hashes")
    else if hashData.length / 16 ≠ count then outcome (corrupted "dedup block count mismatch")
    else
      let hashes ← Checked.chunks hashData 0 count
      return ⟨hashes⟩

theorem Checked.chunks_eq {hashData : List UInt8} (small : hashData.length < 2 ^ 63) {i count : Nat}
    (inside : (i + count) * 16 ≤ hashData.length) :
    Checked.chunks hashData i count = some (DedupBlock.chunks count (hashData.drop (i * 16))) := by
  induction count generalizing i with
  | zero => rfl
  | succ count ih =>
    have here : Checked.hash hashData i = some ⟨(hashData.drop (i * 16)).take 16⟩ := by
      have bytes := @slice_inside UInt8 hashData (i * 16) (i * 16 + 16) (by omega) (by omega)
      rw [Nat.add_sub_cancel_left] at bytes
      simp only [Checked.hash,
        mul_inside (show i * 16 <
          2 ^ 64 by omega), add_inside (show i * 16 + 16 < 2 ^ 64 by omega), bytes, bind, pure,
        Option.bind]
    have later := @ih (i + 1) (by omega)
    rw [show (i + 1) * 16 = i * 16 + 16 by omega, ← List.drop_drop] at later
    simp only [Checked.chunks, here, later, DedupBlock.chunks, bind, pure, Option.bind]

/-- The hashes are read without a stop, whatever the bytes are. -/
theorem deserialize_total {data : List UInt8} (small : data.length < 2 ^ 63) :
    Checked.deserialize data = outcome (deserialize data) := by
  unfold Checked.deserialize deserialize
  by_cases short : data.length < 4
  · rw [if_pos short, if_pos short]
  · have count : Checked.slice data 0 4 = some (data.take 4) :=
      slice_inside (Nat.zero_le _) (Nat.le_of_not_lt short)
    have hashes : sliceFrom data 4 = some (data.drop 4) := sliceFrom_inside (Nat.le_of_not_lt short)
    rw [if_neg short, if_neg short, count, some_bind]
    dsimp only
    rw [hashes, some_bind]
    by_cases unaligned : (data.drop 4).length % 16 ≠ 0
    · rw [if_pos unaligned, if_pos unaligned]
    by_cases mismatch : (data.drop 4).length / 16 ≠ fromLeBytes (data.take 4)
    · rw [if_neg unaligned, if_neg unaligned, if_pos mismatch, if_pos mismatch]
    · have within : (data.drop 4).length < 2 ^ 63 :=
        (List.drop_suffix 4 data).length_le.trans_lt small
      rw [if_neg unaligned, if_neg unaligned, if_neg mismatch, if_neg mismatch,
        Checked.chunks_eq within (by omega), some_bind]
      rfl

end DedupBlock

end Sst

namespace PageToken

/-- The average behind a token, where there is one. -/
def Checked.average (data : List UInt8) (avgPos : Nat) : Option (Option Nat) := do
  let announced ← if avgPos < data.length then (element data avgPos).map (· == 1) else some false
  if announced then
    let stop ← add avgPos 5
    if stop ≤ data.length then
      let start ← add avgPos 1
      let bytes ← Checked.slice data start stop
      return some (fromLeBytes bytes)
    else return none
  else return none

def Checked.decode (data : List UInt8) : Checked FlushError PageToken :=
  if data.length < 12 then outcome (.error (.invalidArgument "page token too short"))
  else do
    let keyLen := fromLeBytes (← Checked.slice data 0 4)
    let behindKey ← add 4 keyLen
    let avgPos ← add behindKey 8
    if data.length < avgPos then outcome (.error (.invalidArgument "page token truncated"))
    else
      let key ← Checked.slice data 4 behindKey
      let lastCompositeKey ← outcome (CompositeKey.fromBytes ⟨key⟩)
      let sequence ← Checked.slice data behindKey avgPos
      let avgItemSizeBytes ← Checked.average data avgPos
      return { lastCompositeKey, lastSequenceNumber := fromLeBytes sequence, avgItemSizeBytes }

theorem Checked.average_eq {data : List UInt8} (small : data.length < 2 ^ 63) (avgPos : Nat) :
    Checked.average data avgPos = some (if data[avgPos]? = some 1 ∧ avgPos + 5 ≤ data.length then
      some (fromLeBytes ((data.drop (avgPos + 1)).take 4)) else none) := by
  by_cases more : avgPos < data.length
  · by_cases announced : data[avgPos] = 1
    · by_cases whole : avgPos + 5 ≤ data.length
      · have bytes := @slice_inside UInt8 data (avgPos + 1) (avgPos + 5) (by omega) whole
        rw [show avgPos + 5 - (avgPos + 1) = 4 by omega] at bytes
        simp [Checked.average, more, element, announced, whole,
          add_inside (show avgPos + 5 < 2 ^ 64 by omega),
          add_inside (show avgPos + 1 < 2 ^ 64 by omega), bytes]
      · simp [Checked.average, more, element, announced, whole,
          add_inside (show avgPos + 5 < 2 ^ 64 by omega)]
    · simp [Checked.average, more, element, announced]
  · simp [Checked.average, more]

/-- A page token is read without a stop, whatever a client hands back. -/
theorem decode_total {data : List UInt8} (small : data.length < 2 ^ 63) :
    Checked.decode data = outcome (decode ⟨data⟩) := by
  have len : Bytes.len ⟨data⟩ = data.length := rfl
  unfold Checked.decode decode
  rw [len]
  by_cases short : data.length < 12
  · rw [if_pos short, if_pos short]
  have length : Checked.slice data 0 4 = some (data.take 4) :=
    slice_inside (Nat.zero_le _) (by omega)
  have keyLen : fromLeBytes (data.take 4) < 256 ^ 4 :=
    fromLeBytes_lt (List.length_take_of_le (by omega))
  rw [if_neg short, if_neg short, length, some_bind]
  dsimp only
  rw [add_inside (by omega), some_bind, add_inside (by omega), some_bind]
  by_cases truncated : data.length < 4 + fromLeBytes (data.take 4) + 8
  · rw [if_pos truncated, if_pos truncated]
  have inside := Nat.le_of_not_lt truncated
  have key := @slice_inside UInt8 data 4 (4 + fromLeBytes (data.take 4)) (by omega) (by omega)
  have sequence := @slice_inside UInt8 data (4 + fromLeBytes (data.take 4))
    (4 + fromLeBytes (data.take 4) + 8) (by omega) (by omega)
  rw [Nat.add_sub_cancel_left] at key sequence
  rw [if_neg truncated, if_neg truncated, key, some_bind]
  cases CompositeKey.fromBytes ⟨(data.drop 4).take (fromLeBytes (data.take 4))⟩ with
  | error e => rfl
  | ok lastCompositeKey =>
    rw [ok_bind, sequence, some_bind, Checked.average_eq small, some_bind]
    rfl

end PageToken

namespace Sst

/-- A payload with its checksum behind it is decoded without a stop exactly where its lengths
fit. -/
theorem decodeBlockAt_matching (codec : Codec) {payload : List UInt8}
    (small : payload.length + 4 < 2 ^ 63) :
    (∃ r, decodeBlockAt codec (payload ++ leBytes 4 (codec.crc32 payload).toNat) .none = some r) ↔
      BlockCursor.EntriesFit none payload := by
  have unpacked : ∀ unpacked, codec.unpack .none
      (payload ++ leBytes 4 (codec.crc32 payload).toNat) = .ok unpacked →
      unpacked.length < 2 ^ 63 := by
    intro unpacked same
    obtain rfl := Except.ok.inj same
    rw [List.length_append, length_leBytes]
    exact small
  refine ((decodeBlockAt_tracks unpacked).congr ?_).isSome_iff
  rw [BlockEntryIterator.new_unpacked rfl]
  constructor
  · intro fits other same
    obtain rfl := Except.ok.inj same
    exact fits
  · intro fits
    exact fits payload rfl

/-- A slice has fewer than 2^63 bytes. A block with a matching checksum and an index are decoded
without a stop exactly where the lengths in them fit, token hashes and page tokens always. -/
theorem decoders_total_iff (codec : Codec) :
    (∀ payload : List UInt8, payload.length + 4 < 2 ^ 63 →
      ((∃ r, decodeBlockAt codec (payload ++ leBytes 4 (codec.crc32 payload).toNat) .none = some r) ↔
        BlockCursor.EntriesFit none payload)) ∧
      ∀ data : List UInt8, data.length < 2 ^ 63 →
        ((∃ r, IndexBlock.Checked.deserialize data = some r) ↔
          (4 ≤ data.length → IndexBlock.EntriesFit data (fromLeBytes (data.take 4)) (data.drop 4))) ∧
        (∃ r, DedupBlock.Checked.deserialize data = some r) ∧
          ∃ r, PageToken.Checked.decode data = some r := by
  constructor
  · intro payload small
    exact decodeBlockAt_matching codec small
  · intro data small
    exact ⟨(IndexBlock.deserialize_tracks small).isSome_iff,
      ⟨_, DedupBlock.deserialize_total small⟩, ⟨_, PageToken.decode_total small⟩⟩

/-- The largest number, in ten bytes. -/
def largestLength : List UInt8 := List.replicate 9 0xFF ++ [0x01]

/-- One put, as a block has it. -/
def onePut : List UInt8 := [1, 114, 1, 1, inlineTag, 1, 7, 0, EntryType.put.asU8, 5]

theorem onePut_fits : BlockCursor.EntriesFit none onePut := by
  refine BlockCursor.entriesFit_iff.mpr ⟨⟨?_, ?_⟩, ?_⟩
  · rintro _ ⟨⟩
    decide
  · rintro _ ⟨⟩
    refine ⟨?_, ?_⟩
    · rintro _ ⟨⟩
      decide
    · rintro _ ⟨⟩ _ - _ ⟨⟩
      refine ⟨?_, ?_⟩
      · rintro _ ⟨⟩
        decide
      · rintro _ ⟨⟩ _ - _ ⟨⟩
        decide
  · rintro _ ⟨⟩
    exact BlockCursor.entriesFit_nil _

/-- The index of that block: a key of three bytes, and where the block stands. -/
def onePutIndex : List UInt8 :=
  leBytes 4 1 ++ 3 :: [114, separator, 1] ++ leBytes 8 0 ++ leBytes 4 14 ++ leBytes 4 14

theorem onePutIndex_fits : IndexBlock.EntriesFit onePutIndex 1 (onePutIndex.drop 4) := by
  refine IndexBlock.entriesFit_succ.mpr ⟨?_, fun _ _ => IndexBlock.entriesFit_zero⟩
  rintro _ ⟨⟩
  decide

/-- A block of one put and its index are decoded; the largest length stops neither the token hashes
nor the page tokens. -/
theorem decoders_total_largest :
    (∃ r, decodeBlockAt plainCodec (onePut ++ leBytes 4 (plainCodec.crc32 onePut).toNat) .none = some r) ∧
      (∃ r, IndexBlock.Checked.deserialize onePutIndex = some r) ∧
      (∃ r, DedupBlock.Checked.deserialize largestLength = some r) ∧
        ∃ r, PageToken.Checked.decode largestLength = some r := by
  obtain ⟨blocks, others⟩ := decoders_total_iff plainCodec
  refine ⟨(blocks onePut (by decide)).mpr onePut_fits, ?_, (others largestLength (by decide)).2⟩
  exact (others onePutIndex (by decide)).1.mpr fun _ => onePutIndex_fits

theorem largestLength_stops :
    decodeBlockAt plainCodec (largestLength ++ leBytes 4 (plainCodec.crc32 largestLength).toNat)
      .none = none ∧
    IndexBlock.Checked.deserialize (leBytes 4 1 ++ largestLength) = none := by
  constructor
  · refine Option.eq_none_iff_forall_ne_some.mpr fun r decoded => ?_
    have fits := (decodeBlockAt_matching plainCodec (by decide)).mp ⟨r, decoded⟩
    exact absurd ((BlockCursor.entriesFit_iff.mp fits).1.1 (2 ^ 64 - 1, []) rfl) (by decide)
  · rfl

end Sst

end FlushDB
