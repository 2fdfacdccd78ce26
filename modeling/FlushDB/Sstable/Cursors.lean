import FlushDB.Lib.Checked
import FlushDB.Sstable.RoundTrip
import FlushDB.Engine.PageToken

/-!
The decoders as they move through their bytes: a position, and every index, slice and sum of
positions checked. A length is added to the position before it is compared with what is there; where
that sum leaves 64 bits the program stops, and nowhere else.
-/

namespace FlushDB.Sst
open Lib Checked

/-- A number at a position, and the position behind it. -/
def varintAt (buf : List UInt8) (pos : Nat) : Checked FlushError (Nat × Nat) := do
  let rest ← sliceFrom buf pos
  let (value, left) ← outcome (varint rest)
  let pos ← add pos (rest.length - left.length)
  return (value, pos)

def sliceAt (length : Nat) (message : String) (buf : List UInt8) (pos : Nat) :
    Checked FlushError (List UInt8 × Nat) := do
  let stop ← add pos length
  if stop > buf.length then outcome (corrupted message)
  else
    let bytes ← Checked.slice buf pos stop
    return (bytes, stop)

def byteAt (message : String) (buf : List UInt8) (pos : Nat) : Checked FlushError (UInt8 × Nat) :=
  if pos ≥ buf.length then outcome (corrupted message)
  else do
    let b ← (element buf pos : Option UInt8)
    let pos ← add pos 1
    return (b, pos)

def fieldAt (message : String) (buf : List UInt8) (pos : Nat) :
    Checked FlushError (List UInt8 × Nat) := do
  let (length, pos) ← varintAt buf pos
  sliceAt length message buf pos

def valueAt (tag : UInt8) (data : List UInt8) : Checked FlushError EntryValue :=
  if tag = inlineTag then return .inline ⟨data⟩
  else if tag = blobRefTag then
    if data.length < 2 then outcome (corrupted "blob_ref data too short")
    else do
      let blobIdLen := fromLeBytes (← Checked.slice data 0 2)
      let offsetStart ← add 2 blobIdLen
      let sizeStart ← add offsetStart 8
      let stop ← add sizeStart 4
      if data.length < stop then outcome (corrupted "blob_ref fields truncated")
      else
        let blobId ← Checked.slice data 2 offsetStart
        let offset ← Checked.slice data offsetStart sizeStart
        let size ← Checked.slice data sizeStart stop
        return .blobRef ⟨blobId⟩ (fromLeBytes offset) (fromLeBytes size)
  else outcome (corrupted s!"unknown entry value tag: {tag}")

/-- The iterator over the entries of a block. -/
structure BlockCursor where
  data : List UInt8
  offset : Nat := 0
  lastRecordId : Option Bytes := none

namespace BlockCursor

def recordIdAt (lastRecordId : Option Bytes) (buf : List UInt8) :
    Checked FlushError (Bytes × Nat) := do
  let (length, pos) ← varintAt buf 0
  if length = 0 then
    match lastRecordId with
    | some recordId => return (recordId, pos)
    | none => outcome (corrupted "first entry in block has record_id_len=0")
  else
    let (recordId, pos) ← sliceAt length "record_id truncated" buf pos
    return (⟨recordId⟩, pos)

def decodeNext (r : BlockCursor) : Checked FlushError (BlockEntry × BlockCursor) := do
  let buf ← sliceFrom r.data r.offset
  let (recordId, pos) ← recordIdAt r.lastRecordId buf
  let (itemKey, pos) ← fieldAt "item_key truncated" buf pos
  let separated ← add recordId.len 1
  let _ ← add separated itemKey.length
  let compositeKey ← outcome (CompositeKey.fromBytes ⟨recordId.data ++ separator :: itemKey⟩)
  let (tag, pos) ← byteAt "value tag missing" buf pos
  let (valueData, pos) ← fieldAt "value data truncated" buf pos
  let value ← valueAt tag valueData
  let (metadata, pos) ← fieldAt "metadata truncated" buf pos
  let (kind, pos) ← byteAt "entry_type missing" buf pos
  let entryType ← outcome (EntryType.fromU8 kind)
  let (sequenceNumber, pos) ← varintAt buf pos
  let offset ← add r.offset pos
  return ({ compositeKey, value, metadata := ⟨metadata⟩, entryType, sequenceNumber },
    { r with offset, lastRecordId := some recordId })

/-- Calls of `next` until there are no more entries; nothing where there were more calls than
`fuel`. -/
def collect : Nat → BlockCursor → Checked FlushError (List BlockEntry)
  | fuel, r =>
    if r.offset ≥ r.data.length then return []
    else
      match fuel with
      | 0 => (none : Option (List BlockEntry))
      | fuel + 1 => do
        let (entry, r) ← decodeNext r
        let rest ← collect fuel r
        return entry :: rest

/-- The entries' bytes, once their checksum is right. -/
def new (codec : Codec) (rawBlock : List UInt8) (compression : CompressionType) :
    Checked FlushError BlockCursor := do
  let decompressed ← outcome (codec.unpack compression rawBlock)
  if decompressed.length < 4 then outcome (corrupted "block too short for CRC")
  else
    let payloadLen := decompressed.length - 4
    let storedCrc := fromLeBytes (← sliceFrom decompressed payloadLen)
    let payload ← Checked.slice decompressed 0 payloadLen
    let computedCrc := (codec.crc32 payload).toNat
    if storedCrc ≠ computedCrc then outcome (.error (.crcMismatch storedCrc computedCrc))
      else return { data := payload }

end BlockCursor

/-- As many calls are made as the payload has bytes, at most. -/
def decodeBlockAt (codec : Codec) (data : List UInt8) (compression : CompressionType) :
    Checked FlushError (List BlockEntry) := do
  let r ← BlockCursor.new codec data compression
  BlockCursor.collect r.data.length r

/-- The length that stands at `rest`, if one does, and what is added to it leave the position within
64 bits. -/
def LengthFits (extra : Nat) (buf rest : List UInt8) : Prop :=
  ∀ read, varint rest = .ok read → offset buf read.2 + read.1 + extra < 2 ^ 64

section Fields
variable {buf rest : List UInt8}

theorem readVarint_suffix {i value : Nat} {read : Nat × List UInt8}
    (found : readVarint i value buf = .ok read) :
    read.2 <:+ buf ∧ read.2.length < buf.length := by
  induction buf generalizing i value with
  | nil => cases found
  | cons b rest ih =>
    unfold readVarint at found
    split at found
    · cases found
    · dsimp only at found
      split at found
      · obtain rfl := Except.ok.inj found
        exact ⟨List.suffix_cons b rest, Nat.lt_succ_self _⟩
      · obtain ⟨suffix, shorter⟩ := ih found
        exact ⟨suffix.trans (List.suffix_cons b rest), shorter.trans (Nat.lt_succ_self _)⟩

theorem varint_suffix {read : Nat × List UInt8} (found : varint buf = .ok read) :
    read.2 <:+ buf ∧ read.2.length < buf.length := by
  unfold varint decodeVarint at found
  split at found
  · cases found
  · rename_i ok
    obtain rfl := Except.ok.inj found
    split at ok
    · cases ok
    · exact readVarint_suffix ok

theorem slice_ok {length : Nat} {message : String} {read : List UInt8 × List UInt8}
    (found : slice length message buf = .ok read) :
    read.2 <:+ buf ∧ read.1.length ≤ buf.length := by
  unfold slice at found
  split at found
  · cases found
  · obtain rfl := Except.ok.inj found
    exact ⟨List.drop_suffix _ _, List.length_take_le' _ _⟩

theorem field_ok {message : String} {read : List UInt8 × List UInt8}
    (found : field message buf = .ok read) :
    read.2 <:+ buf ∧ read.1.length ≤ buf.length := by
  obtain ⟨⟨length, left⟩, first, second⟩ := bind_ok found
  obtain ⟨suffix, shorter⟩ := varint_suffix first
  obtain ⟨later, within⟩ := slice_ok second
  exact ⟨later.trans suffix, within.trans shorter.le⟩

theorem byte_ok {message : String} {read : UInt8 × List UInt8}
    (found : byte message buf = .ok read) : read.2 <:+ buf := by
  cases buf with
  | nil => cases found
  | cons b rest =>
    obtain rfl := Except.ok.inj found
    exact List.suffix_cons b rest

variable (suffix : rest <:+ buf) (small : buf.length < 2 ^ 63)
include suffix

theorem sliceAt_tracks (length : Nat) (message : String) :
    Tracks (offset buf rest + length < 2 ^ 64) (sliceAt length message buf (offset buf rest))
      (slice length message rest)
      fun read => (read.1, offset buf read.2) := by
  have whole := offset_add suffix
  unfold sliceAt slice
  constructor
  · intro fits
    rw [add_inside fits, some_bind]
    by_cases short : length > rest.length
    · rw [if_pos (by omega), if_pos short]
      rfl
    · have inside := Nat.le_of_not_lt short
      rw [if_neg (by omega), if_neg short, slice_offset suffix inside, some_bind, ← offset_drop suffix inside]
      rfl
  · intro large
    rw [add, if_neg large]
    rfl

include small

/-- The number is read where it stands as it is read from the rest. -/
theorem varintAt_eq :
    varintAt buf (offset buf rest) = outcome ((varint rest).map fun read => (read.1, offset buf read.2)) := by
  have whole := offset_add suffix
  unfold varintAt
  rw [sliceFrom_inside (by omega), some_bind, drop_offset suffix]
  cases found : varint rest with
  | error e => rfl
  | ok read =>
    obtain ⟨behind, shorter⟩ := varint_suffix found
    have inside := offset_add (behind.trans suffix)
    have moved : offset buf rest + (rest.length - read.2.length) = offset buf read.2 := by omega
    rw [ok_bind]
    dsimp only
    rw [add_inside (by omega), some_bind, moved]
    rfl

theorem fieldAt_tracks (message : String) :
    Tracks (LengthFits 0 buf rest) (fieldAt message buf (offset buf rest)) (field message rest)
      fun read => (read.1, offset buf read.2) := by
  unfold fieldAt field
  rw [varintAt_eq suffix small]
  refine Tracks.map_bind fun read found => ?_
  exact sliceAt_tracks ((varint_suffix found).1.trans suffix) read.1 message

theorem byteAt_eq (message : String) :
    byteAt message buf (offset buf rest) = outcome
      ((byte message rest).map fun read => (read.1, offset buf read.2)) := by
  have whole := offset_add suffix
  unfold byteAt
  cases rest with
  | nil =>
    rw [if_pos (by simpa using whole.ge)]
    rfl
  | cons b left =>
    rw [List.length_cons] at whole
    have here : buf[offset buf (b :: left)]? = some b := by
      rw [← List.head?_drop, drop_offset suffix]
      rfl
    have behind := offset_add ((List.suffix_cons b left).trans suffix)
    have moved : offset buf (b :: left) + 1 = offset buf left := by omega
    rw [if_neg (by omega), element, here, some_bind, add_inside (by omega), some_bind, moved]
    rfl

end Fields

/-- A reference to a blob is taken apart without a stop, its one length being 16 bits wide. -/
theorem valueAt_eq {data : List UInt8} (small : data.length < 2 ^ 63) (tag : UInt8) :
    valueAt tag data = outcome (decodeValue tag data) := by
  unfold valueAt decodeValue
  split
  · rfl
  split
  swap
  · rfl
  split
  · rfl
  rename_i long
  have narrow : fromLeBytes (data.take 2) < 256 ^ 2 :=
    fromLeBytes_lt (List.length_take_of_le (by omega))
  have idLength : Checked.slice data 0 2 = some (data.take 2) := slice_inside (by decide) (by omega)
  rw [idLength, some_bind]
  dsimp only
  rw [add_inside (by omega), some_bind, add_inside (by omega), some_bind, add_inside (by omega), some_bind]
  by_cases short : data.length < 2 + fromLeBytes (data.take 2) + 8 + 4
  · rw [if_pos short, if_pos short]
  · have blobId := @slice_inside UInt8 data 2 (2 + fromLeBytes (data.take 2)) (by omega) (by omega)
    have start := @slice_inside UInt8 data (2 + fromLeBytes (data.take 2))
      (2 + fromLeBytes (data.take 2) + 8) (by omega) (by omega)
    have size := @slice_inside UInt8 data (2 + fromLeBytes (data.take 2) + 8)
      (2 + fromLeBytes (data.take 2) + 8 + 4) (by omega) (by omega)
    rw [Nat.add_sub_cancel_left] at blobId start size
    rw [← List.drop_drop] at size
    rw [if_neg short, if_neg short, blobId, some_bind, start, some_bind, size, some_bind]
    rfl

namespace BlockCursor

/-- Every length in the entry at the beginning of the bytes leaves the position within 64 bits: that
of the record id, and those of the three fields behind it as far as the entry can be read. -/
def EntryFits (lastRecordId : Option Bytes) (buf : List UInt8) : Prop :=
  LengthFits 0 buf buf ∧ ∀ recordId, BlockEntryIterator.decodeRecordId lastRecordId buf = .ok recordId →
    LengthFits 0 buf recordId.2 ∧ ∀ itemKey, field "item_key truncated" recordId.2 = .ok itemKey →
      ∀ compositeKey, CompositeKey.fromBytes ⟨recordId.1.data ++ separator :: itemKey.1⟩ =
        .ok compositeKey →
        ∀ tag, byte "value tag missing" itemKey.2 = .ok tag →
          LengthFits 0 buf tag.2 ∧ ∀ valueData, field "value data truncated" tag.2 = .ok valueData →
            ∀ value, decodeValue tag.1 valueData.1 = .ok value → LengthFits 0 buf valueData.2

theorem recordIdAt_tracks {buf : List UInt8} (small : buf.length < 2 ^ 63)
    (lastRecordId : Option Bytes) :
    Tracks (LengthFits 0 buf buf) (recordIdAt lastRecordId buf)
      (BlockEntryIterator.decodeRecordId lastRecordId buf)
      fun read => (read.1, Checked.offset buf read.2) := by
  have start := varintAt_eq (List.suffix_refl buf) small
  rw [show Checked.offset buf buf = 0 from Nat.sub_self _] at start
  unfold recordIdAt BlockEntryIterator.decodeRecordId
  rw [start]
  refine Tracks.map_bind fun read found => ?_
  obtain ⟨suffix, -⟩ := varint_suffix found
  dsimp only
  by_cases repeats : read.1 = 0
  · have inside := offset_add suffix
    have near : Checked.offset buf read.2 + read.1 + 0 < 2 ^ 64 := by omega
    rw [if_pos repeats, if_pos repeats]
    refine (Tracks.total ?_).congr (iff_of_true near trivial)
    cases lastRecordId with
    | some recordId => rfl
    | none => rfl
  · rw [if_neg repeats, if_neg repeats]
    refine ((sliceAt_tracks suffix read.1 "record_id truncated").bind fun recordId _ =>
      Tracks.total rfl).congr ?_
    simp

theorem decodeRecordId_ok {lastRecordId : Option Bytes} {buf : List UInt8}
    {read : Bytes × List UInt8}
    (found : BlockEntryIterator.decodeRecordId lastRecordId buf = .ok read) :
    read.2 <:+ buf ∧ read.2.length < buf.length ∧
      (lastRecordId = some read.1 ∨ read.1.len ≤ buf.length) := by
  obtain ⟨⟨length, left⟩, first, second⟩ := bind_ok found
  obtain ⟨suffix, shorter⟩ := varint_suffix first
  dsimp only at second suffix shorter
  split at second
  · cases lastRecordId with
    | none => cases second
    | some recordId =>
      obtain rfl := Except.ok.inj second
      exact ⟨suffix, shorter, Or.inl rfl⟩
  · obtain ⟨⟨bytes, behind⟩, taken, made⟩ := bind_ok second
    obtain ⟨later, within⟩ := slice_ok taken
    obtain rfl := Except.ok.inj made
    exact ⟨later.trans suffix, later.length_le.trans_lt shorter, Or.inr (within.trans shorter.le)⟩

/-- What is known of the iterator between two entries. -/
structure Inside (r : BlockCursor) (rest : List UInt8) : Prop where
  suffix : rest <:+ r.data
  offset : r.offset = Checked.offset r.data rest
  small : r.data.length < 2 ^ 63
  recordId : ∀ recordId ∈ r.lastRecordId, recordId.len < 2 ^ 63

def movedTo (r : BlockCursor) (recordId : Bytes) (rest : List UInt8) : BlockCursor :=
  { r with offset := Checked.offset r.data rest, lastRecordId := some recordId }

variable {r : BlockCursor} {rest : List UInt8}

/-- What the rest of the bytes leaves after an entry, and how far it is read. -/
theorem decodeNext_ok {lastRecordId : Option Bytes} {read : BlockEntry × Bytes × List UInt8}
    (found : BlockEntryIterator.decodeNext lastRecordId rest = .ok read) :
    read.2.2 <:+ rest ∧ read.2.2.length < rest.length ∧
      (lastRecordId = some read.2.1 ∨ read.2.1.len ≤ rest.length) := by
  obtain ⟨⟨recordId, buf⟩, first, found⟩ := bind_ok found
  obtain ⟨suffix, shorter, bounded⟩ := decodeRecordId_ok first
  obtain ⟨⟨itemKey, buf⟩, second, found⟩ := bind_ok found
  obtain ⟨compositeKey, -, found⟩ := bind_ok found
  obtain ⟨⟨tag, buf⟩, third, found⟩ := bind_ok found
  obtain ⟨⟨valueData, buf⟩, fourth, found⟩ := bind_ok found
  obtain ⟨value, -, found⟩ := bind_ok found
  obtain ⟨⟨metadata, buf⟩, fifth, found⟩ := bind_ok found
  obtain ⟨⟨kind, buf⟩, sixth, found⟩ := bind_ok found
  obtain ⟨entryType, -, found⟩ := bind_ok found
  obtain ⟨⟨sequenceNumber, buf⟩, last, found⟩ := bind_ok found
  obtain rfl := Except.ok.inj found
  have behind := (varint_suffix last).1.trans <| (byte_ok sixth).trans <| (field_ok fifth).1.trans <|
    (field_ok fourth).1.trans <| (byte_ok third).trans (field_ok second).1
  exact ⟨behind.trans suffix, behind.length_le.trans_lt shorter, bounded⟩

theorem Inside.next (inside : r.Inside rest) {read : BlockEntry × Bytes × List UInt8}
    (found : BlockEntryIterator.decodeNext r.lastRecordId rest = .ok read) :
    (r.movedTo read.2.1 read.2.2).Inside read.2.2 := by
  obtain ⟨suffix, -, bounded⟩ := decodeNext_ok found
  refine ⟨suffix.trans inside.suffix, rfl, inside.small, ?_⟩
  intro recordId last
  obtain rfl := Option.some.inj last
  rcases bounded with repeated | short
  · exact inside.recordId _ repeated
  · exact short.trans_lt (inside.suffix.length_le.trans_lt inside.small)

/-- An entry is decoded without a stop exactly where its lengths fit, and it is the entry of the
bytes that are left. -/
theorem decodeNext_tracks (inside : r.Inside rest) :
    Tracks (EntryFits r.lastRecordId rest) (decodeNext r)
      (BlockEntryIterator.decodeNext r.lastRecordId rest)
      fun read => (read.1, r.movedTo read.2.1 read.2.2) := by
  have whole := offset_add inside.suffix
  have below := inside.small
  have small : rest.length < 2 ^ 63 := inside.suffix.length_le.trans_lt below
  unfold decodeNext BlockEntryIterator.decodeNext
  rw [inside.offset, sliceFrom_inside (by omega), some_bind, drop_offset inside.suffix]
  refine (recordIdAt_tracks small r.lastRecordId).bind fun recordId first => ?_
  obtain ⟨suffix, -, bounded⟩ := decodeRecordId_ok first
  refine (fieldAt_tracks suffix small "item_key truncated").bind fun itemKey second => ?_
  obtain ⟨later, within⟩ := field_ok second
  have recordIdSmall : recordId.1.len < 2 ^ 63 := by
    rcases bounded with repeated | short
    · exact inside.recordId _ repeated
    · exact short.trans_lt small
  have keySmall : itemKey.1.length < 2 ^ 63 := (within.trans suffix.length_le).trans_lt small
  replace suffix := later.trans suffix
  dsimp only
  rw [add_inside (by omega), some_bind, add_inside (by omega), some_bind]
  refine Tracks.outcome_bind fun compositeKey _ => ?_
  rw [byteAt_eq suffix small]
  refine Tracks.map_bind fun tag third => ?_
  replace suffix := (byte_ok third).trans suffix
  refine (fieldAt_tracks suffix small "value data truncated").bind fun valueData fourth => ?_
  obtain ⟨later, within⟩ := field_ok fourth
  have dataSmall := (within.trans suffix.length_le).trans_lt small
  replace suffix := later.trans suffix
  dsimp only
  rw [valueAt_eq dataSmall]
  refine Tracks.outcome_bind fun value _ => ?_
  -- no length is read behind the metadata
  refine (fieldAt_tracks suffix small "metadata truncated").bind_total fun metadata fifth => ?_
  replace suffix := (field_ok fifth).1.trans suffix
  dsimp only
  rw [byteAt_eq suffix small]
  refine (Tracks.total rfl).bind_total fun kind sixth => ?_
  replace suffix := (byte_ok sixth).trans suffix
  dsimp only
  refine (Tracks.outcome_bind fun entryType _ => ?_).congr (iff_of_true trivial fun _ _ => trivial)
  rw [varintAt_eq suffix small]
  refine (Tracks.total rfl).bind_total fun sequenceNumber last => ?_
  replace suffix := (varint_suffix last).1.trans suffix
  have inner := offset_add suffix
  have outer := offset_add (suffix.trans inside.suffix)
  have moved : Checked.offset r.data rest + Checked.offset rest sequenceNumber.2 =
      Checked.offset r.data sequenceNumber.2 := by omega
  dsimp only
  rw [add_inside (by omega), some_bind, moved]
  exact Tracks.total rfl

/-- One entry is decoded, and the next one follows it. -/
def Follows (s t : Option Bytes × List UInt8) : Prop :=
  ∃ read, BlockEntryIterator.decodeNext s.1 s.2 = .ok read ∧ t = (some read.2.1, read.2.2)

/-- The lengths of every entry that is reached fit. -/
def EntriesFit (lastRecordId : Option Bytes) (buf : List UInt8) : Prop :=
  ∀ s, Relation.ReflTransGen Follows (lastRecordId, buf) s → EntryFits s.1 s.2

theorem entriesFit_nil (lastRecordId : Option Bytes) : EntriesFit lastRecordId [] := by
  refine forall_reached_iff.mpr ⟨⟨?_, ?_⟩, ?_⟩
  · intro read found
    cases found
  · intro recordId found
    cases found
  · rintro u ⟨read, found, -⟩
    cases found

theorem entriesFit_iff {lastRecordId : Option Bytes} {buf : List UInt8} :
    EntriesFit lastRecordId buf ↔ EntryFits lastRecordId buf ∧
      ∀ read, BlockEntryIterator.decodeNext lastRecordId buf = .ok read →
        EntriesFit (some read.2.1) read.2.2 := by
  refine forall_reached_iff.trans (and_congr_right fun _ => ?_)
  constructor
  · intro later read found
    exact later _ ⟨read, found, rfl⟩
  · rintro later u ⟨read, found, rfl⟩
    exact later read found

theorem collect_ended {fuel : Nat} (inside : r.Inside []) :
    Tracks (EntriesFit r.lastRecordId []) (collect fuel r)
      (BlockEntryIterator.collect fuel r.lastRecordId []) id := by
  have ended : r.offset ≥ r.data.length := by
    rw [inside.offset]
    exact (offset_add inside.suffix).ge
  unfold collect
  rw [if_pos ended]
  refine (Tracks.total ?_).congr (iff_of_true (entriesFit_nil _) trivial)
  cases fuel with
  | zero => rfl
  | succ fuel => rfl

/-- There are at least as many calls as there are bytes left, and each takes some. -/
theorem collect_tracks {fuel : Nat} (inside : r.Inside rest) (enough : rest.length ≤ fuel) :
    Tracks (EntriesFit r.lastRecordId rest) (collect fuel r)
      (BlockEntryIterator.collect fuel r.lastRecordId rest) id := by
  induction fuel generalizing r rest with
  | zero =>
    obtain rfl := List.length_eq_zero_iff.mp (Nat.le_zero.mp enough)
    exact collect_ended inside
  | succ fuel ih =>
    cases rest with
    | nil => exact collect_ended inside
    | cons b left =>
      have whole := offset_add inside.suffix
      have place := inside.offset
      rw [List.length_cons] at whole
      rw [collect, if_neg (by omega)]
      refine ((decodeNext_tracks inside).bind fun read found => ?_).congr entriesFit_iff
      obtain ⟨-, shorter, -⟩ := decodeNext_ok found
      refine (ih (inside.next found) (by omega)).bind_total fun later _ => ?_
      exact Tracks.total rfl

theorem new_ok {codec : Codec} {data payload : List UInt8} {compression : CompressionType}
    (made : BlockEntryIterator.new codec data compression = .ok payload) :
    ∃ unpacked, codec.unpack compression data = .ok unpacked ∧
      payload.length ≤ unpacked.length := by
  obtain ⟨unpacked, unpacks, made⟩ := bind_ok made
  refine ⟨unpacked, unpacks, ?_⟩
  split at made
  · cases made
  · dsimp only at made
    split at made
    · cases made
    · obtain rfl := Except.ok.inj made
      exact List.length_take_le' _ _

/-- What the checksum guards is found without a stop. -/
theorem new_eq (codec : Codec) (data : List UInt8) (compression : CompressionType) :
    new codec data compression =
      outcome ((BlockEntryIterator.new codec data compression).map fun payload => { data := payload }) := by
  unfold new BlockEntryIterator.new
  cases codec.unpack compression data with
  | error e => rfl
  | ok decompressed =>
    rw [ok_bind]
    show _ = outcome (Except.map _ (ite _ _ _))
    by_cases short : decompressed.length < 4
    · rw [if_pos short, if_pos short]
      rfl
    · have crc : sliceFrom decompressed (decompressed.length - 4) =
          some (decompressed.drop (decompressed.length - 4)) :=
        sliceFrom_inside (Nat.sub_le _ _)
      have payload : Checked.slice decompressed 0 (decompressed.length - 4) =
          some (decompressed.take (decompressed.length - 4)) :=
        slice_inside (Nat.zero_le _) (Nat.sub_le _ _)
      rw [if_neg short, if_neg short]
      dsimp only
      rw [crc, some_bind, payload, some_bind]
      split
      · rfl
      · rfl

end BlockCursor

/-- A block is decoded without a stop exactly where every length in its payload fits. -/
theorem decodeBlockAt_tracks {codec : Codec} {data : List UInt8} {compression : CompressionType}
    (small : ∀ unpacked, codec.unpack compression data = .ok unpacked → unpacked.length < 2 ^ 63) :
    Tracks (∀ payload, BlockEntryIterator.new codec data compression = .ok payload →
      BlockCursor.EntriesFit none payload)
      (decodeBlockAt codec data compression) (decodeBlock codec data compression) id := by
  unfold decodeBlockAt decodeBlock
  rw [BlockCursor.new_eq]
  refine Tracks.map_bind fun payload made => ?_
  have start : ({ data := payload } : BlockCursor).Inside payload := by
    obtain ⟨unpacked, unpacks, within⟩ := BlockCursor.new_ok made
    exact ⟨List.suffix_refl _, (Nat.sub_self _).symm, within.trans_lt (small unpacked unpacks), nofun⟩
  exact BlockCursor.collect_tracks start le_rfl

end FlushDB.Sst
