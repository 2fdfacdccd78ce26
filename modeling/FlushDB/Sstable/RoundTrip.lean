import FlushDB.Sstable.Cuts

/-!
What the writer stores, the reader gives back: the footer finds the sections, every section is
read as it was written, and the blocks hold the entries in their order.
-/

namespace FlushDB.Sst
open Lib

namespace DedupBlock

theorem chunks_flatMap {hashes : List Bytes} (sized : ∀ h ∈ hashes, h.len = 16) :
    chunks hashes.length (hashes.flatMap Bytes.data) = hashes := by
  induction hashes with
  | nil => rfl
  | cons h rest ih =>
    have here : h.data.length = 16 := sized h List.mem_cons_self
    have later := ih fun other member => sized other (List.mem_cons_of_mem _ member)
    simp only [List.length_cons, chunks, List.flatMap_cons]
    rw [← here, List.take_left, List.drop_left, later]

theorem length_hashes {hashes : List Bytes} (sized : ∀ h ∈ hashes, h.len = 16) :
    (hashes.flatMap Bytes.data).length = 16 * hashes.length := by
  induction hashes with
  | nil => rfl
  | cons h rest ih =>
    have here : h.data.length = 16 := sized h List.mem_cons_self
    have later := ih fun other member => sized other (List.mem_cons_of_mem _ member)
    simp only [List.flatMap_cons, List.length_append, List.length_cons]
    omega

theorem hashToken_len (token : IdempotencyToken) : (hashToken token).len = 16 := by
  simp [hashToken, Bytes.len]

theorem build_sized {tokens : List IdempotencyToken} {h : Bytes}
    (member : h ∈ (build tokens).hashes) : h.len = 16 := by
  simp only [build, List.mem_mergeSort, List.mem_dedup, List.mem_map] at member
  obtain ⟨token, -, rfl⟩ := member
  exact hashToken_len token

/-- What is read of a written block: its hashes, where their number fits into its field. -/
theorem deserialize_serialize_eq {d : DedupBlock} (sized : ∀ h ∈ d.hashes, h.len = 16) :
    deserialize d.serialize = if d.hashes.length < 2 ^ 32 then .ok d else
      corrupted "dedup block count mismatch" := by
  have length := length_hashes sized
  have long : ¬ (leBytes 4 d.hashes.length ++ d.hashes.flatMap Bytes.data).length < 4 := by
    simp only [List.length_append, length_leBytes]
    omega
  have head : (leBytes 4 d.hashes.length ++ d.hashes.flatMap Bytes.data).take 4 =
      leBytes 4 (d.hashes.length % 256 ^ 4) := by
    rw [leBytes_mod]
    exact List.take_left' (length_leBytes _ _)
  have tail : (leBytes 4 d.hashes.length ++ d.hashes.flatMap Bytes.data).drop 4 =
      d.hashes.flatMap Bytes.data :=
    List.drop_left' (length_leBytes _ _)
  have count : fromLeBytes (leBytes 4 (d.hashes.length % 256 ^ 4)) = d.hashes.length % 2 ^ 32 :=
    fromLeBytes_leBytes (Nat.mod_lt _ (by decide))
  have aligned : ¬ (d.hashes.flatMap Bytes.data).length % 16 ≠ 0 := by omega
  have counted : (d.hashes.flatMap Bytes.data).length / 16 = d.hashes.length := by omega
  simp only [deserialize, serialize, if_neg long, head, tail, count, if_neg aligned, counted]
  by_cases few : d.hashes.length < 2 ^ 32
  · have whole : ¬ d.hashes.length ≠ d.hashes.length % 2 ^ 32 :=
      not_not.mpr (Nat.mod_eq_of_lt few).symm
    rw [if_pos few, if_neg whole, Nat.mod_eq_of_lt few, chunks_flatMap sized]
  · have wrapped : d.hashes.length ≠ d.hashes.length % 2 ^ 32 := by omega
    rw [if_neg few, if_pos wrapped]

theorem deserialize_serialize {d : DedupBlock} (sized : ∀ h ∈ d.hashes, h.len = 16)
    (fits : d.serialize.length < 2 ^ 32) :
    deserialize d.serialize = .ok d := by
  have length := length_hashes sized
  have few : d.hashes.length < 2 ^ 32 := by
    simp only [serialize, List.length_append, length_leBytes] at fits
    omega
  rw [deserialize_serialize_eq sized, if_pos few]

end DedupBlock

namespace BloomFilter

theorem length_setBit (bits : List UInt8) (i : Nat) : (setBit bits i).length = bits.length := by
  simp [setBit]

theorem length_foldl_setBit (indices : List Nat) (f : Nat → Nat) (bits : List UInt8) :
    (indices.foldl (fun bits k => setBit bits (f k)) bits).length = bits.length := by
  induction indices generalizing bits with
  | nil => rfl
  | cons k rest ih => rw [List.foldl_cons, ih, length_setBit]

theorem length_foldl_keys (keys : List Bytes) (hashes numBits : Nat) (bits : List UInt8) :
    (keys.foldl (fun bits recordId =>
      (List.range hashes).foldl (fun bits k => setBit bits (bitIndex numBits recordId k)) bits)
        bits).length = bits.length := by
  induction keys generalizing bits with
  | nil => rfl
  | cons key rest ih => rw [List.foldl_cons, ih, length_foldl_setBit]

theorem build_bits (codec : Codec) (bitsPerKey : Nat) (recordIds : List Bytes) :
    (build codec bitsPerKey recordIds).bits.length * 8 =
      (build codec bitsPerKey recordIds).numBits := by
  unfold build
  dsimp only
  split
  · rfl
  · simp only [length_foldl_keys, List.length_replicate]
    omega

/-- The fields fit the widths they are written in. -/
structure Fits (f : BloomFilter) : Prop where
  bits : f.bits.length * 8 = f.numBits
  numHashFunctions : f.numHashFunctions < 2 ^ 32
  numKeys : f.numKeys < 2 ^ 64

theorem length_serialize (f : BloomFilter) : f.serialize.length = 20 + f.bits.length := by
  simp only [serialize, List.length_append, length_leBytes]

theorem deserialize_serialize {f : BloomFilter} (fits : Fits f) (small : f.numBits < 2 ^ 64) :
    deserialize f.serialize = .ok f := by
  have length := length_serialize f
  have bits := fits.bits
  have numBits : f.numBits < 256 ^ 8 := small
  have long : ¬ f.serialize.length < 20 := by omega
  have first : f.serialize.take 8 = leBytes 8 f.numBits := by
    simp only [serialize, List.append_assoc]
    exact List.take_left' (length_leBytes _ _)
  have second : (f.serialize.drop 8).take 4 = leBytes 4 f.numHashFunctions := by
    simp [serialize]
  have third : (f.serialize.drop 12).take 8 = leBytes 8 f.numKeys := by
    simp [serialize, List.drop_append]
  have tail : f.serialize.drop 20 = f.bits := by
    have twenty : (leBytes 8 f.numBits ++ leBytes 4 f.numHashFunctions ++ leBytes 8 f.numKeys).length = 20 := by
      simp only [List.length_append, length_leBytes]
    exact List.drop_left' twenty
  have enough : ¬ f.bits.length * 8 < f.numBits := by omega
  have hashes := @fromLeBytes_leBytes 4 f.numHashFunctions fits.numHashFunctions
  have keys := @fromLeBytes_leBytes 8 f.numKeys fits.numKeys
  simp only [deserialize, if_neg long, first, second, third, tail, fromLeBytes_leBytes numBits,
    hashes, keys, if_neg enough]

theorem build_fits (codec : Codec) (bitsPerKey : Nat) {recordIds : List Bytes}
    (few : recordIds.dedup.length < 2 ^ 64) :
    Fits (build codec bitsPerKey recordIds) := by
  refine ⟨build_bits codec bitsPerKey recordIds, ?_, ?_⟩
  · unfold build
    dsimp only
    split
    · decide
    · have := (codec.hashFunctions
        ((max (recordIds.dedup.length * bitsPerKey) 64 + 7) / 8 * 8 / recordIds.dedup.length)).toNat_lt
      simp only [sup_lt_iff]
      exact ⟨this, by decide⟩
  · unfold build
    dsimp only
    split
    · decide
    · exact few

theorem and_or_right (a b m : UInt8) : (a ||| b) &&& m = (a &&& m) ||| (b &&& m) := by
  apply UInt8.eq_of_toBitVec_eq
  exact BitVec.and_or_distrib_right

/-- Setting a bit sets no other. -/
theorem bitSet_setBit {bits : List UInt8} {j : Nat} (inside : j / 8 < bits.length) (i : Nat) :
    bitSet (setBit bits j) i = true ↔ bitSet bits i = true ∨ i = j := by
  have masks : ∀ a < 8, ∀ b < 8, ((1 : UInt8) <<< UInt8.ofNat a) &&& (1 <<< UInt8.ofNat b) = 0 ↔
      a ≠ b := by decide
  have mask := masks (j % 8) (Nat.mod_lt _ (by decide)) (i % 8) (Nat.mod_lt _ (by decide))
  simp only [bitSet, setBit, List.getD_eq_getElem?_getD, List.getElem?_modify, decide_eq_true_eq]
  by_cases same : j / 8 = i / 8
  · have whole : i = j ↔ ¬ j % 8 ≠ i % 8 := by omega
    simp only [same, if_true]
    rw [← same, List.getElem?_eq_getElem inside, Option.map_eq_map, Option.map_some,
      Option.getD_some, Option.getD_some,
      and_or_right, ne_eq, UInt8.or_eq_zero_iff, mask, whole, not_and_or]
  · have apart : i ≠ j := fun equal => same (by rw [equal])
    simp [same, apart]

theorem bitSet_foldl {places : List Nat} {bits : List UInt8}
    (inside : ∀ j ∈ places, j / 8 < bits.length) (i : Nat) :
    bitSet (places.foldl setBit bits) i = true ↔ bitSet bits i = true ∨ i ∈ places := by
  induction places generalizing bits with
  | nil => simp
  | cons j rest ih =>
    have later : ∀ j' ∈ rest, j' / 8 < (setBit bits j).length := by
      intro j' member
      rw [length_setBit]
      exact inside j' (List.mem_cons_of_mem _ member)
    rw [List.foldl_cons, ih later, bitSet_setBit (inside j List.mem_cons_self), List.mem_cons, or_assoc]

theorem bitSet_zeros (bytes i : Nat) : bitSet (List.replicate bytes 0) i = false := by
  simp only [bitSet, List.getD_eq_getElem?_getD, List.getElem?_replicate]
  split
  all_goals simp

/-- The places of the bits of an id. -/
def places (f : BloomFilter) (recordId : Bytes) : List Nat :=
  (List.range f.numHashFunctions).map (bitIndex f.numBits recordId)

/-- Each bit of the id is a bit of one of these ids. -/
def Covers (codec : Codec) (bitsPerKey : Nat) (recordIds : List Bytes) (recordId : Bytes) : Prop :=
  recordIds ≠ [] ∧
    ∀ i ∈ (build codec bitsPerKey recordIds).places recordId, ∃ key ∈ recordIds,
      i ∈ (build codec bitsPerKey recordIds).places key

theorem covers_self {codec : Codec} {bitsPerKey : Nat} {recordIds : List Bytes} {recordId : Bytes}
    (member : recordId ∈ recordIds) :
    Covers codec bitsPerKey recordIds recordId :=
      ⟨List.ne_nil_of_mem member, fun _ placed => ⟨recordId, member, placed⟩⟩

/-- The filter says yes to the ids whose bits are all bits of ids that it was built from. -/
theorem maybeContains_build_iff (codec : Codec) (bitsPerKey : Nat) (recordIds : List Bytes)
    (recordId : Bytes) :
    (build codec bitsPerKey recordIds).maybeContains recordId = true ↔
      Covers codec bitsPerKey recordIds recordId := by
  by_cases empty : recordIds = []
  · subst empty
    exact iff_of_false Bool.false_ne_true fun both => both.1 rfl
  have some : recordIds.dedup.length ≠ 0 := by
    obtain ⟨first, rest, rfl⟩ := List.exists_cons_of_ne_nil empty
    exact (List.length_pos_of_mem (List.mem_dedup.mpr List.mem_cons_self)).ne'
  unfold maybeContains Covers build places
  dsimp only
  rw [if_neg some]
  dsimp only
  have positive : (max (recordIds.dedup.length * bitsPerKey) 64 + 7) / 8 * 8 ≠ 0 := by omega
  generalize wide : (max (recordIds.dedup.length * bitsPerKey) 64 + 7) / 8 * 8 = numBits at positive
  generalize max (codec.hashFunctions (numBits / recordIds.dedup.length)).toNat 1 = hashes
  have folded : recordIds.dedup.foldl (fun bits recordId =>
      (List.range hashes).foldl (fun bits k => setBit bits (bitIndex numBits recordId k)) bits)
        (List.replicate (numBits / 8) 0) =
        (recordIds.dedup.flatMap fun key => (List.range hashes).map (bitIndex numBits key)).foldl setBit
          (List.replicate (numBits / 8) 0) := by
    simp only [List.foldl_flatMap, List.foldl_map]
  have inside : ∀ i ∈ recordIds.dedup.flatMap fun key => (List.range hashes).map (bitIndex numBits key),
      i / 8 < (List.replicate (numBits / 8) (0 : UInt8)).length := by
    intro i member
    obtain ⟨key, -, placed⟩ := List.mem_flatMap.mp member
    obtain ⟨k, -, rfl⟩ := List.mem_map.mp placed
    have below : bitIndex numBits key k < numBits := Nat.mod_lt _ (Nat.pos_of_ne_zero positive)
    rw [List.length_replicate]
    omega
  rw [if_neg some, folded, List.all_eq_true]
  simp only [bitSet_foldl inside, bitSet_zeros, Bool.false_eq_true, false_or, List.mem_flatMap,
    List.mem_dedup, List.forall_mem_map]
  exact (and_iff_right empty).symm

/-- The filter knows every record id that it was built from. -/
theorem maybeContains_build (codec : Codec) (bitsPerKey : Nat) {recordIds : List Bytes}
    {recordId : Bytes} (member : recordId ∈ recordIds) :
    (build codec bitsPerKey recordIds).maybeContains recordId = true :=
  (maybeContains_build_iff codec bitsPerKey recordIds recordId).mpr (covers_self member)

/-- Neither the order of the ids nor their number of times matters. -/
theorem covers_congr {codec : Codec} {bitsPerKey : Nat} {some others : List Bytes}
    (same : ∀ id, id ∈ some ↔ id ∈ others) (recordId : Bytes) :
    Covers codec bitsPerKey some recordId ↔ Covers codec bitsPerKey others recordId := by
  have count : some.dedup.length = others.dedup.length := by
    refine List.Perm.length_eq
      ((List.perm_ext_iff_of_nodup (List.nodup_dedup _) (List.nodup_dedup _)).mpr fun id => ?_)
    rw [List.mem_dedup, List.mem_dedup, same id]
  have bits : (build codec bitsPerKey some).numBits = (build codec bitsPerKey others).numBits := by
    unfold build
    dsimp only
    rw [count]
    split
    all_goals rfl
  have hashes : (build codec bitsPerKey some).numHashFunctions =
      (build codec bitsPerKey others).numHashFunctions := by
    unfold build
    dsimp only
    rw [count]
    split
    all_goals rfl
  have empty : some = [] ↔ others = [] := by
    rw [List.eq_nil_iff_forall_not_mem, List.eq_nil_iff_forall_not_mem]
    exact forall_congr' fun id => not_congr (same id)
  unfold Covers places
  rw [bits, hashes, ne_eq, ne_eq, empty]
  simp only [same]

end BloomFilter

namespace IndexBlock

/-- The fields fit the widths they are written in. -/
structure Fits (e : IndexEntry) : Prop where
  key : e.firstKey.bytes.len < 2 ^ 64
  offset : e.blockOffset < 2 ^ 64
  size : e.blockSize < 2 ^ 32
  uncompressed : e.uncompressedSize < 2 ^ 32

theorem readEntry_entryBytes {e : IndexEntry} (fits : Fits e) (rest : List UInt8) :
    readEntry (entryBytes e ++ rest) = .ok (e, rest) := by
  have offset := @fromLeBytes_leBytes 8 e.blockOffset fits.offset
  have size := @fromLeBytes_leBytes 4 e.blockSize fits.size
  have uncompressed := @fromLeBytes_leBytes 4 e.uncompressedSize fits.uncompressed
  have nonempty : (entryBytes e ++ rest).isEmpty = false := by
    rw [List.isEmpty_eq_false_iff_exists_mem]
    exact ⟨_, List.mem_append_left _ (List.mem_append_right _ (List.mem_cons_self))⟩
  have key : CompositeKey.fromBytes e.firstKey.bytes = .ok e.firstKey := by
    simp only [CompositeKey.fromBytes, dif_pos e.firstKey.separated]
  have keyFits : e.firstKey.bytes.data.length < 2 ^ 64 := fits.key
  have enough : ¬ e.firstKey.bytes.data.length + 16 >
      (e.firstKey.bytes.data ++ (leBytes 8 e.blockOffset ++
      (leBytes 4 e.blockSize ++ (leBytes 4 e.uncompressedSize ++ rest)))).length := by
    simp only [List.length_append, length_leBytes]
    omega
  simp only [readEntry, nonempty, Bool.false_eq_true, if_false]
  simp only [entryBytes, framed, List.append_assoc, varint_encodeVarint keyFits, bind, Except.bind,
    if_neg enough,
    List.take_left, List.drop_left, key]
  simp only [List.take_append, List.drop_append, length_leBytes]
  simp [offset, size, uncompressed, drop_leBytes, pure, Except.pure]

theorem readEntries_flatMap {entries : List IndexEntry} (fits : ∀ e ∈ entries, Fits e)
    (rest : List UInt8) :
    readEntries entries.length (entries.flatMap entryBytes ++ rest) = .ok entries := by
  induction entries with
  | nil => rfl
  | cons e others ih =>
    have here := readEntry_entryBytes (fits e List.mem_cons_self) (others.flatMap entryBytes ++ rest)
    have later := ih fun other member => fits other (List.mem_cons_of_mem _ member)
    simp only [List.length_cons, readEntries, List.flatMap_cons, List.append_assoc, here, later,
      bind, Except.bind]
    rfl

theorem length_entries (entries : List IndexEntry) :
    entries.length ≤ (entries.flatMap entryBytes).length := by
  induction entries with
  | nil => exact Nat.zero_le _
  | cons e rest ih =>
    simp only [List.flatMap_cons, List.length_append, List.length_cons, entryBytes, length_leBytes]
    omega

theorem deserialize_serialize {entries : List IndexEntry} (fits : ∀ e ∈ entries, Fits e)
    (small : (serialize entries).length < 2 ^ 32) :
    deserialize (serialize entries) = .ok entries := by
  have many := length_entries entries
  have count : entries.length < 256 ^ 4 := by
    simp only [serialize, List.length_append, length_leBytes] at small
    omega
  have long : ¬ (serialize entries).length < 4 := by
    simp only [serialize, List.length_append, length_leBytes]
    omega
  have head : (serialize entries).take 4 = leBytes 4 entries.length :=
    List.take_left' (length_leBytes _ _)
  have tail : (serialize entries).drop 4 = entries.flatMap entryBytes :=
    List.drop_left' (length_leBytes _ _)
  have read := readEntries_flatMap fits []
  rw [List.append_nil] at read
  simp only [deserialize, if_neg long, head, tail, fromLeBytes_leBytes count, read]

end IndexBlock

namespace SstFooter

structure Fits (f : SstFooter) : Prop where
  bloomOffset : f.bloomFilterOffset < 2 ^ 64
  bloomSize : f.bloomFilterSize < 2 ^ 32
  indexOffset : f.indexBlockOffset < 2 ^ 64
  indexSize : f.indexBlockSize < 2 ^ 32
  entryCount : f.entryCount < 2 ^ 64
  minKey : f.minKey.length = 16
  maxKey : f.maxKey.length = 16
  version : f.formatVersion < 2 ^ 16
  dedupSize : f.dedupBlockSize < 2 ^ 32

theorem length_body {f : SstFooter} (fits : Fits f) : f.body.length = 68 := by
  simp only [body, List.length_append, length_leBytes, fits.minKey, fits.maxKey, List.length_cons,
    List.length_nil]

theorem length_encode {f : SstFooter} (fits : Fits f) (codec : Codec) :
    (f.encode codec).length = footerSize := by
  simp only [encode, List.length_append, length_leBytes, length_body fits, footerSize]

theorem fromU8_compression (kind : CompressionType) :
    CompressionType.fromU8 kind.asU8 = .ok kind := by
  cases kind <;> rfl

theorem decode_encode {f : SstFooter} (fits : Fits f) (codec : Codec) :
    decode codec (f.encode codec) = .ok f := by
  have length := length_encode fits codec
  have bodyLength := length_body fits
  have inBody : ∀ offset width, offset + width ≤ 68 →
      part offset width (f.encode codec) = part offset width f.body := by
    intro offset width inside
    simp only [part, encode, List.append_assoc]
    rw [List.drop_append_of_le_length
      (by omega), List.take_append_of_le_length (by rw [List.length_drop]; omega)]
  have crc : part 68 4 (f.encode codec) = leBytes 4 (codec.crc32 f.body).toNat := by
    simp [part, encode, bodyLength]
  have magic : part 72 4 (f.encode codec) = leBytes 4 sstableMagic := by
    simp [part, encode, List.drop_append, List.take_append, bodyLength]
  have dedup : part 76 4 (f.encode codec) = leBytes 4 f.dedupBlockSize := by
    simp [part, encode, List.drop_append, List.take_append, bodyLength]
  have covered : (f.encode codec).take 68 = f.body := by
    simp only [encode, List.append_assoc]
    exact List.take_left' bodyLength
  have kind : (f.encode codec).getD 64 0 = f.compressionType.asU8 := by
    simp [encode, body, List.getD_eq_getElem?_getD, fits.minKey, fits.maxKey]
  have fields : ∀ offset width value, part offset width f.body = leBytes width value →
      offset + width ≤ 68 →
      value < 256 ^ width → fromLeBytes (part offset width (f.encode codec)) = value := by
    intro offset width value found inside small
    rw [inBody offset width inside, found, fromLeBytes_leBytes small]
  have bloomOffset := fields 0 8 f.bloomFilterOffset
    (by simp [part, body]) (by decide) fits.bloomOffset
  have bloomSize := fields 8 4 f.bloomFilterSize
    (by simp [part, body]) (by decide) fits.bloomSize
  have indexOffset := fields 12 8 f.indexBlockOffset
    (by simp [part, body, List.drop_append]) (by decide) fits.indexOffset
  have indexSize := fields 20 4 f.indexBlockSize
    (by simp [part, body, List.drop_append]) (by decide) fits.indexSize
  have entryCount := fields 24 8 f.entryCount
    (by simp [part, body, List.drop_append]) (by decide) fits.entryCount
  have minSpent : f.minKey.drop 34 = [] := List.drop_eq_nil_of_le (by rw [fits.minKey]; decide)
  have maxSpent : f.maxKey.drop 18 = [] := List.drop_eq_nil_of_le (by rw [fits.maxKey]; decide)
  have version := fields 66 2 f.formatVersion
    (by simp [part, body, List.drop_append, fits.minKey, fits.maxKey, minSpent, maxSpent]) (by decide) fits.version
  have minKey : part 32 16 (f.encode codec) = f.minKey := by
    rw [inBody 32 16 (by decide)]
    simp [part, body, List.drop_append, fits.minKey]
  have maxKey : part 48 16 (f.encode codec) = f.maxKey := by
    rw [inBody 48 16 (by decide)]
    simp [part, body, List.drop_append, fits.minKey, fits.maxKey]
  have crcSmall := @fromLeBytes_leBytes 4 (codec.crc32 f.body).toNat (codec.crc32 f.body).toNat_lt
  have magicSmall := @fromLeBytes_leBytes 4 sstableMagic (by decide)
  have dedupSmall := @fromLeBytes_leBytes 4 f.dedupBlockSize fits.dedupSize
  simp only [decode, length, crc, magic, dedup, covered, kind, bloomOffset, bloomSize, indexOffset,
    indexSize, entryCount,
    version, minKey, maxKey, crcSmall, magicSmall, dedupSmall, fromU8_compression, ne_eq, not_true,
      if_false, bind,
    Except.bind]
  rfl

end SstFooter

namespace SSTableWriter

section
variable {codec : Codec} {config : SstConfig}

/-- The index entry finds a block in the output that decodes to the entries. -/
structure Stored (codec : Codec) (compression : CompressionType) (output : List UInt8)
    (ie : IndexEntry) (es : List MemtableEntry) : Prop where
  data : ∃ data, ie.blockSize = data.length % 2 ^ 32 ∧
    ie.blockOffset + data.length ≤ output.length ∧
    (output.drop ie.blockOffset).take data.length = data ∧
    decodeBlock codec data compression = .ok (es.map BlockEntry.ofMemtable)
  behindHeader : headerSize ≤ ie.blockOffset
  firstKey : es.head?.map MemtableEntry.compositeKey = some ie.firstKey
  uncompressed : ie.uncompressedSize < 2 ^ 32

theorem Stored.append {compression : CompressionType} {output : List UInt8} {ie : IndexEntry}
    {es : List MemtableEntry} (h : Stored codec compression output ie es) (more : List UInt8) :
    Stored codec compression (output ++ more) ie es := by
  obtain ⟨data, size, inside, found, decodes⟩ := h.data
  refine ⟨⟨data, size, ?_, ?_, decodes⟩, h.behindHeader, h.firstKey, h.uncompressed⟩
  · rw [List.length_append]
    omega
  · rw [List.drop_append_of_le_length (by omega),
      List.take_append_of_le_length (by rw [List.length_drop]; omega)]
    exact found

/-- The closed blocks stand in the output, each to be decoded. -/
structure Held (codec : Codec) (config : SstConfig) (state : WriteState)
    (groups : List (List MemtableEntry)) (pending : List MemtableEntry) :
    Prop extends Cuts state groups pending where
  blocks : (∀ e ∈ groups.flatten, Encodable e) →
    List.Forall₂ (Stored codec config.compression state.output) state.index groups
  header : headerSize ≤ state.output.length

theorem held_empty : Held codec config {} [] [] := ⟨cuts_empty, fun _ => .nil, by decide⟩

theorem flushBlock_held (lossless : codec.Lossless) {state next : WriteState}
    {groups : List (List MemtableEntry)} {pending : List MemtableEntry}
    (h : Held codec config state groups pending)
    (flushed : flushBlock codec config state = .ok next) :
    Held codec config next (groups ++ [pending]) [] := by
  have cuts := flushBlock_cuts h.toCuts flushed
  obtain ⟨block, finished, made⟩ := bind_ok flushed
  obtain rfl := Except.ok.inj made
  obtain ⟨-, -, firstKey, small, -, -⟩ := BlockBuilder.finish_ok finished
  refine ⟨cuts, fun ok => ?_, ?_⟩
  · rw [List.flatten_append, List.flatten_singleton] at ok
    have decodes := h.builder.decodes lossless finished fun e member =>
      ok e (List.mem_append_right _ member)
    have before := h.blocks fun e member => ok e (List.mem_append_left _ member)
    refine List.rel_append (before.imp fun _ _ stored => stored.append block.data) (.cons ?_ .nil)
    refine ⟨⟨block.data, rfl, ?_, ?_, decodes⟩, h.header, ?_, small⟩
    · rw [List.length_append]
    · rw [List.drop_left, List.take_length]
    · rw [← h.builder.firstKey]
      exact firstKey
  · rw [List.length_append]
    exact h.header.trans (Nat.le_add_right _ _)

/-- What the writer has put together: the blocks, and the sections behind them. -/
structure Built (codec : Codec) (config : SstConfig) (entries : List MemtableEntry)
    (groups : List (List MemtableEntry)) (s : Sections) (index : List IndexEntry) : Prop where
  part : groups.flatten <+: entries
  blocks : List.Forall₂ (Stored codec config.compression s.output) index groups
  indexBytes : s.index = IndexBlock.serialize index
  header : headerSize ≤ s.output.length
  count : s.entryCount = entries.length
  minKey : entries.head?.map MemtableEntry.compositeKey = some s.minKey
  maxKey : entries.getLast?.map MemtableEntry.compositeKey = some s.maxKey
  dedup : ∃ tokens, s.dedup = (DedupBlock.build tokens).serialize
  filter : ∃ recordIds, (∀ id, id ∈ recordIds ↔ id ∈ groups.flatten.map MemtableEntry.recordId) ∧
    s.filter = (FilterBlock.mk (BloomFilter.build codec config.bloomBitsPerKey recordIds)).serialize

/-- Where the writer does not fail, the written blocks stand in the file. -/
theorem sections_built (lossless : codec.Lossless) {entries : List MemtableEntry}
    (encodable : ∀ e ∈ entries, Encodable e) {state : WriteState} {s : Sections}
    (added : addEntries codec config {} entries = .ok state)
    (made : sections codec config state = .ok s) :
    ∃ closed, closeBlock codec config state = .ok closed ∧
      Built codec config entries (writtenBlocks config.blockSizeTarget entries) s closed.index := by
  obtain ⟨closed, least, greatest, closes, minimum, maximum, rfl⟩ := sections_ok made
  have start : CutsLike (Held codec config) config.blockSizeTarget {} [] :=
    ⟨[], [], held_empty, fun _ => rfl⟩
  have cuts : ∀ {state groups pending}, Held codec config state groups pending →
      Cuts state groups pending := Held.toCuts
  have flush : ∀ {state next groups pending}, Held codec config state groups pending →
      flushBlock codec config state = .ok next → Held codec config next (groups ++ [pending]) [] :=
        flushBlock_held lossless
  have take : ∀ {state groups pending} e, Held codec config state groups pending →
      Held codec config (taken state e) groups (pending ++ [e]) :=
        fun e h => ⟨taken_cuts h.toCuts e, h.blocks, h.header⟩
  have seen : CutsLike (Held codec config) config.blockSizeTarget state entries :=
    addEntries_like cuts flush take start added
  obtain ⟨pending, held, all⟩ := closeBlock_like cuts flush seen closes
  have count := held.count
  have minKey := held.minKey
  have maxKey := held.maxKey
  rw [all] at count minKey maxKey
  have part : (writtenBlocks config.blockSizeTarget entries).flatten <+: entries := ⟨pending, all⟩
  refine ⟨closed, closes, part, held.blocks fun e member => encodable e (part.subset member), rfl,
    held.header, count,
    minKey.symm.trans minimum, maxKey.symm.trans maximum, ⟨_, rfl⟩, closed.recordIds,
      held.recordIds, rfl⟩

end

end SSTableWriter

/-- A range that lies inside the file is read whole. -/
theorem getRange_append {backend : Backend} {path : String} {front middle back : List UInt8}
    (found : backend.get path = some (front ++ (middle ++ back))) :
    backend.getRange path front.length middle.length = .ok middle := by
  unfold Backend.getRange
  rw [found]
  dsimp only
  split
  · rename_i empty
    rw [List.length_eq_zero_iff.mp empty]
  · rename_i some
    rw [if_neg (by simp only [List.length_append]; omega), List.drop_left, List.take_left]

/-- "File sections below 2^32 bytes." -/
structure Sections.Fits (s : Sections) : Prop where
  output : s.output.length < 2 ^ 32
  dedup : s.dedup.length < 2 ^ 32
  filter : s.filter.length < 2 ^ 32
  index : s.index.length < 2 ^ 32

section
variable {codec : Codec} {config : SstConfig} {s : Sections}

theorem truncateKey_length (key : CompositeKey) : (SstFooter.truncateKey key).length = 16 := by
  simp only [SstFooter.truncateKey, List.length_append, List.length_replicate, List.length_take,
    minMaxKeyTruncationLen]
  omega

theorem footer_fits (fits : s.Fits) (count : s.entryCount < 2 ^ 64) :
    SstFooter.Fits (SSTableWriter.footer config s) := by
  have output := fits.output
  have dedup := fits.dedup
  have filter := fits.filter
  refine ⟨?_, Nat.mod_lt _ (by decide), ?_, Nat.mod_lt _ (by decide), count, truncateKey_length _,
    truncateKey_length _, show formatVersion < 2 ^ 16 by decide, Nat.mod_lt _ (by decide)⟩
  · simp only [SSTableWriter.footer]
    omega
  · simp only [SSTableWriter.footer]
    omega

theorem header_length (h : SstHeader) : h.encode.length = headerSize := by
  simp only [SstHeader.encode, List.length_append, length_leBytes, List.length_cons,
    List.length_nil, headerSize]

/-- The file, with the output in the place where the writer counted it. -/
theorem assemble_output (header : headerSize ≤ s.output.length) :
    ∃ front, front.length = s.output.length ∧ SSTableWriter.assemble codec config s =
      front ++ (s.dedup ++ (s.filter ++ (s.index ++ (SSTableWriter.footer config s).encode codec))) := by
  refine ⟨SstHeader.encode { compression := config.compression, entryCount := s.entryCount } ++
    s.output.drop headerSize, ?_, ?_⟩
  · rw [List.length_append, header_length, List.length_drop]
    omega
  · simp only [SSTableWriter.assemble, List.append_assoc]

/-- A block of the output is read from the file. -/
theorem getRange_stored {backend : Backend} {path : String} {ie : IndexEntry}
    {es : List MemtableEntry}
    (found : backend.get path = some (SSTableWriter.assemble codec config s)) (fits : s.Fits)
    (stored : SSTableWriter.Stored codec config.compression s.output ie es) :
    ∃ data, backend.getRange path ie.blockOffset ie.blockSize = .ok data ∧
      decodeBlock codec data config.compression = .ok (es.map BlockEntry.ofMemtable) := by
  obtain ⟨data, size, inside, placed, decodes⟩ := stored.data
  have outputFits := fits.output
  have exact_size : ie.blockSize = data.length := by
    rw [size, Nat.mod_eq_of_lt (by omega)]
  refine ⟨data, ?_, decodes⟩
  have split : s.output.drop headerSize =
      (s.output.take ie.blockOffset).drop headerSize ++
        (data ++ s.output.drop (ie.blockOffset + data.length)) := by
    have behind := stored.behindHeader
    have rest : s.output.drop ie.blockOffset = data ++ s.output.drop
        (ie.blockOffset + data.length) := by
      rw [← List.drop_drop]
      nth_rewrite 1 [← List.take_append_drop data.length (s.output.drop ie.blockOffset)]
      rw [placed]
    rw [← rest]
    nth_rewrite 1 [← List.take_append_drop ie.blockOffset s.output]
    rw [List.drop_append_of_le_length (by rw [List.length_take]; omega)]
  have front : (SstHeader.encode { compression := config.compression,
                                   entryCount := s.entryCount } ++
      (s.output.take ie.blockOffset).drop headerSize).length = ie.blockOffset := by
    have behind := stored.behindHeader
    rw [List.length_append, header_length, List.length_drop, List.length_take]
    omega
  rw [exact_size, ← front]
  apply getRange_append
  rw [found]
  simp only [SSTableWriter.assemble, split, List.append_assoc]
  rfl

end

theorem forall₂_left {α β : Type} {R : α → β → Prop} {xs : List α} {ys : List β}
    (h : List.Forall₂ R xs ys) {x : α} (member : x ∈ xs) : ∃ y ∈ ys, R x y := by
  induction h with
  | nil => cases member
  | cons related rest ih =>
    rcases List.mem_cons.mp member with rfl | later
    · exact ⟨_, List.mem_cons_self, related⟩
    · obtain ⟨y, listed, found⟩ := ih later
      exact ⟨y, List.mem_cons_of_mem _ listed, found⟩

theorem forall₂_get {α β : Type} {R : α → β → Prop} {xs : List α} {ys : List β}
    (h : List.Forall₂ R xs ys) {i : Nat} {y : β} (found : ys[i]? = some y) :
    ∃ x, xs[i]? = some x ∧ R x y := by
  induction h generalizing i with
  | nil => cases found
  | cons related rest ih =>
    cases i with
    | zero =>
      obtain rfl := Option.some.inj found
      exact ⟨_, rfl, related⟩
    | succ i => exact ih found

/-- Every section stands where the footer says. -/
structure Located (codec : Codec) (config : SstConfig) (s : Sections) (backend : Backend)
    (path : String) : Prop where
  dedup : backend.getRange path (SSTableWriter.footer config s).dedupBlockOffset
    (SSTableWriter.footer config s).dedupBlockSize = .ok s.dedup
  filter : backend.getRange path (SSTableWriter.footer config s).bloomFilterOffset
    (SSTableWriter.footer config s).bloomFilterSize = .ok s.filter
  index : backend.getRange path (SSTableWriter.footer config s).indexBlockOffset
    (SSTableWriter.footer config s).indexBlockSize = .ok s.index
  footer : backend.getRange path ((SSTableWriter.assemble codec config s).length - footerSize)
    footerSize =
    .ok ((SSTableWriter.footer config s).encode codec)

section
variable {codec : Codec} {config : SstConfig} {s : Sections} {backend : Backend} {path : String}

theorem located (found : backend.get path = some (SSTableWriter.assemble codec config s))
    (fits : s.Fits) (header : headerSize ≤ s.output.length) (count : s.entryCount < 2 ^ 64) :
    Located codec config s backend path := by
  have dedupSize : (SSTableWriter.footer config s).dedupBlockSize = s.dedup.length :=
    Nat.mod_eq_of_lt fits.dedup
  have filterSize : (SSTableWriter.footer config s).bloomFilterSize = s.filter.length :=
    Nat.mod_eq_of_lt fits.filter
  have indexSize : (SSTableWriter.footer config s).indexBlockSize = s.index.length :=
    Nat.mod_eq_of_lt fits.index
  have footerLength := SstFooter.length_encode (footer_fits fits count :
    (SSTableWriter.footer config s).Fits) codec
  obtain ⟨front, frontLength, file⟩ := @assemble_output codec config s header
  constructor
  · have offset : (SSTableWriter.footer config s).dedupBlockOffset = front.length := by
      rw [SstFooter.dedupBlockOffset, dedupSize]
      simp only [SSTableWriter.footer]
      omega
    rw [offset, dedupSize]
    exact getRange_append (by rw [found, file])
  · have offset : (SSTableWriter.footer config s).bloomFilterOffset = (front ++ s.dedup).length := by
      rw [List.length_append, frontLength]
      rfl
    rw [offset, filterSize]
    exact getRange_append (by rw [found, file, List.append_assoc])
  · have offset : (SSTableWriter.footer config s).indexBlockOffset =
        (front ++ s.dedup ++ s.filter).length := by
      rw [List.length_append, List.length_append, frontLength]
      rfl
    rw [offset, indexSize]
    exact getRange_append (by rw [found, file, List.append_assoc, List.append_assoc])
  · have offset : (SSTableWriter.assemble codec config s).length - footerSize =
        (front ++ s.dedup ++ s.filter ++ s.index).length := by
      rw [file, ← footerLength]
      simp only [List.length_append]
      omega
    rw [offset, ← footerLength]
    apply @getRange_append _ _ _ _ []
    rw [found, file]
    simp only [List.append_assoc, List.append_nil]

/-- Opening the file and loading its metadata gives the footer, the filter and the index that were
written. -/
theorem load_spec {entries : List MemtableEntry} {groups : List (List MemtableEntry)}
    {index : List IndexEntry}
    (found : backend.get path = some (SSTableWriter.assemble codec config s))
    (built : SSTableWriter.Built codec config entries groups s index)
    (ok : ∀ e ∈ entries, Encodable e) (fits : s.Fits) (count : entries.length < 2 ^ 64) :
    ∃ recordIds tokens, (∀ id, id ∈ recordIds ↔ id ∈ groups.flatten.map MemtableEntry.recordId) ∧
      SSTableReader.openFile codec backend path (SSTableWriter.assemble codec config s).length =
        .ok { codec, backend, path, fileSize := (SSTableWriter.assemble codec config s).length
              footer := SSTableWriter.footer config s } ∧
      FilterBlock.deserialize s.filter = .ok ⟨BloomFilter.build codec config.bloomBitsPerKey recordIds⟩ ∧
      IndexBlock.deserialize s.index = .ok index ∧
        DedupBlock.deserialize s.dedup = .ok (DedupBlock.build tokens) := by
  have counted : s.entryCount < 2 ^ 64 := by rw [built.count]; exact count
  have places := located found fits built.header counted
  have footer := SstFooter.decode_encode (footer_fits fits counted :
    (SSTableWriter.footer config s).Fits) codec
  obtain ⟨tokens, deduped⟩ := built.dedup
  obtain ⟨recordIds, known, filtered⟩ := built.filter
  have indexFits : ∀ ie ∈ index, IndexBlock.Fits ie := by
    intro ie member
    obtain ⟨es, listed, place⟩ := forall₂_left built.blocks member
    obtain ⟨e, first, firstKey⟩ := Option.map_eq_some_iff.mp place.firstKey
    obtain ⟨data, size, bounded, -⟩ := place.data
    have output := fits.output
    refine ⟨?_, by omega, by rw [size]; exact Nat.mod_lt _ (by decide), place.uncompressed⟩
    rw [← firstKey]
    exact (ok e (built.part.subset (List.mem_flatten.mpr ⟨es, listed, List.mem_of_head? first⟩))).key
  have few : recordIds.dedup.length < 2 ^ 64 := by
    have inside : recordIds.dedup ⊆ groups.flatten.map MemtableEntry.recordId := fun id member =>
      (known id).mp (List.mem_dedup.mp member)
    have length := (List.subperm_of_subset (List.nodup_dedup _) inside).length_le
    have part := built.part.length_le
    rw [List.length_map] at length
    omega
  refine ⟨recordIds, tokens, known, ?_, ?_, ?_, ?_⟩
  · simp only [SSTableReader.openFile, places.footer, footer, bind, Except.bind]
    rfl
  · have small := fits.filter
    rw [filtered] at small ⊢
    have bits := BloomFilter.build_bits codec config.bloomBitsPerKey recordIds
    simp only [FilterBlock.serialize, List.length_cons, BloomFilter.length_serialize] at small
    have read := BloomFilter.deserialize_serialize
      (BloomFilter.build_fits codec config.bloomBitsPerKey few) (by omega)
    simp [FilterBlock.serialize, FilterBlock.deserialize, read, Except.map]
  · have small := fits.index
    rw [built.indexBytes] at small ⊢
    exact IndexBlock.deserialize_serialize indexFits small
  · have small := fits.dedup
    rw [deduped] at small ⊢
    exact DedupBlock.deserialize_serialize (fun h member => DedupBlock.build_sized member) small

theorem load_sections {filter : FilterBlock} {index : List IndexEntry} {dedup : DedupBlock}
    (fileSize : Nat) (places : Located codec config s backend path)
    (filterRead : FilterBlock.deserialize s.filter = .ok filter)
    (indexRead : IndexBlock.deserialize s.index = .ok index)
    (dedupRead : DedupBlock.deserialize s.dedup = .ok dedup) :
    SSTableReader.loadMetadata { codec, backend, path, fileSize,
                                 footer := SSTableWriter.footer config s } =
      .ok { codec, backend, path, fileSize, footer := SSTableWriter.footer config s
            filter := some filter, index := some index, dedup := some dedup } := by
  simp only [SSTableReader.loadMetadata, places.filter, places.index, places.dedup, filterRead,
    indexRead, dedupRead,
    bind, Except.bind]
  rfl

end

namespace SstableIterator
variable {r : SSTableReader} {blocks : List (List BlockEntry)}

/-- What the iterator has yet to give. -/
def remaining (blocks : List (List BlockEntry)) (it : SstableIterator) : List BlockEntry :=
  it.currentEntries.drop it.currentEntryIdx ++ (blocks.drop it.currentBlockIdx).flatten

theorem next_here {fuel : Nat} {it : SstableIterator} {entry : BlockEntry}
    (found : it.currentEntries[it.currentEntryIdx]? = some entry) :
    ∃ it', next r fuel it = .ok ((it.remaining blocks).head?, it') ∧
      it'.remaining blocks = (it.remaining blocks).tail := by
  obtain ⟨inside, here⟩ := List.getElem?_eq_some_iff.mp found
  have split := List.drop_eq_getElem_cons inside
  rw [here] at split
  refine ⟨{ it with currentEntryIdx := it.currentEntryIdx + 1 }, ?_, ?_⟩
  · unfold next
    simp only [found, remaining, split, List.cons_append, List.head?_cons]
  · simp only [remaining, split, List.cons_append, List.tail_cons]

theorem next_end (count : r.blockCount = .ok blocks.length) {fuel : Nat} {it : SstableIterator}
    (found : it.currentEntries[it.currentEntryIdx]? = none)
    (last : it.currentBlockIdx ≥ blocks.length) :
    ∃ it', next r fuel it = .ok ((it.remaining blocks).head?, it') ∧
      it'.remaining blocks = (it.remaining blocks).tail := by
  have nothing : it.remaining blocks = [] := by
    rw [remaining, List.drop_eq_nil_of_le (List.getElem?_eq_none_iff.mp found),
      List.drop_eq_nil_of_le last]
    rfl
  refine ⟨it, ?_, by rw [nothing]; rfl⟩
  unfold next
  simp only [found, count, bind, Except.bind, if_pos last, nothing, List.head?_nil]
  rfl

theorem next_spec (count : r.blockCount = .ok blocks.length)
    (blocksAt : ∀ i block, blocks[i]? = some block → r.getBlock i = .ok block) {fuel : Nat}
    {it : SstableIterator} (enough : blocks.length ≤ it.currentBlockIdx + fuel) :
    ∃ it', next r fuel it = .ok ((it.remaining blocks).head?, it') ∧
      it'.remaining blocks = (it.remaining blocks).tail := by
  induction fuel generalizing it with
  | zero =>
    cases found : it.currentEntries[it.currentEntryIdx]? with
    | some entry => exact next_here found
    | none => exact next_end count found (by omega)
  | succ fuel ih =>
    cases found : it.currentEntries[it.currentEntryIdx]? with
    | some entry => exact next_here found
    | none =>
      have spent : it.currentEntries.drop it.currentEntryIdx = [] :=
        List.drop_eq_nil_of_le (List.getElem?_eq_none_iff.mp found)
      by_cases last : it.currentBlockIdx ≥ blocks.length
      · exact next_end count found last
      · have inside : it.currentBlockIdx < blocks.length := by omega
        have loaded := blocksAt it.currentBlockIdx _ (List.getElem?_eq_getElem inside)
        have moved : remaining blocks
            { currentBlockIdx := it.currentBlockIdx + 1,
              currentEntries := blocks[it.currentBlockIdx], currentEntryIdx := 0 } =
              it.remaining blocks := by
          simp only [remaining, List.drop_zero, spent, List.nil_append]
          rw [List.drop_eq_getElem_cons inside, List.flatten_cons]
        obtain ⟨it', later, rest⟩ := @ih
          { currentBlockIdx := it.currentBlockIdx + 1, currentEntries := blocks[it.currentBlockIdx],
            currentEntryIdx := 0 }
          (by simp only; omega)
        rw [moved] at later rest
        refine ⟨it', ?_, rest⟩
        unfold next
        simp only [found, count, bind, Except.bind, if_neg last, loaded]
        exact later

/-- Calling `next` until it gives nothing gives all that was left. -/
theorem collect_spec (count : r.blockCount = .ok blocks.length)
    (blocksAt : ∀ i block, blocks[i]? = some block → r.getBlock i = .ok block) {calls : Nat}
    {it : SstableIterator} (enough : (it.remaining blocks).length < calls) :
    collect r calls it = .ok (it.remaining blocks) := by
  induction calls generalizing it with
  | zero => omega
  | succ calls ih =>
    obtain ⟨it', found, rest⟩ := @next_spec r blocks count blocksAt blocks.length it (by omega)
    simp only [collect, count, bind, Except.bind, found]
    cases left : it.remaining blocks with
    | nil => rfl
    | cons entry later =>
      rw [left, List.tail_cons] at rest
      rw [left, List.length_cons] at enough
      have others := @ih it' (by rw [rest]; omega)
      simp only [List.head?_cons, others, rest]
      rfl

end SstableIterator

/-- A key that `new` or `range_tombstone_key` has built. -/
def BuiltKey (key : CompositeKey) : Prop :=
  (∃ recordId itemKey, CompositeKey.new recordId itemKey = .ok key) ∨
    ∃ recordId startKey, CompositeKey.rangeTombstoneKey recordId startKey = .ok key

/-- Lengths and numbers are 64 bits wide. -/
structure Sized (e : MemtableEntry) : Prop where
  value : e.value.len < 2 ^ 64
  metadata : e.metadata.len < 2 ^ 64
  sequenceNumber : e.sequenceNumber < 2 ^ 64

theorem builtKey_encode {key : CompositeKey} (built : BuiltKey key) :
    ∃ recordId item, key = CompositeKey.encode recordId item ∧ recordId.data ≠ [] ∧
      separator ∉ recordId.data ∧
      recordId.len ≤ maxRecordIdLen ∧ item.length ≤ maxItemKeyLen := by
  rcases built with ⟨recordId, itemKey, built⟩ | ⟨recordId, startKey, built⟩
  · obtain ⟨clean, same⟩ := CompositeKey.new_ok built
    obtain ⟨nonempty, short, shortItem⟩ := CompositeKey.new_bounds built
    exact ⟨recordId, _, same, nonempty, clean, short, shortItem⟩
  · obtain ⟨clean, same⟩ := CompositeKey.rangeTombstoneKey_ok built
    obtain ⟨nonempty, short, shortItem⟩ := CompositeKey.rangeTombstoneKey_bounds built
    exact ⟨recordId, _, same, nonempty, clean, short, shortItem⟩

theorem encodable_of_built {e : MemtableEntry} (built : BuiltKey e.compositeKey) (sized : Sized e) :
    Encodable e := by
  obtain ⟨recordId, item, same, nonempty, clean, short, shortItem⟩ := builtKey_encode built
  have record : e.recordId = recordId := by
    rw [MemtableEntry.recordId, same]
    exact CompositeKey.encode_recordId clean
  refine ⟨by rw [record]; exact nonempty, ?_, sized.value, sized.metadata, sized.sequenceNumber⟩
  have length : e.compositeKey.bytes.len = recordId.len + (item.length + 1) := by
    rw [same]
    simp [CompositeKey.encode, Bytes.len]
  simp only [maxRecordIdLen, maxItemKeyLen] at short shortItem
  omega

theorem mapM_range' {α : Type} {f : Nat → FlushResult α} {results : List α} {start : Nat}
    (found : ∀ i a, results[i]? = some a → f (start + i) = .ok a) :
    (List.range' start results.length).mapM f = .ok results := by
  induction results generalizing start with
  | nil => rfl
  | cons first rest ih =>
    have here := found 0 first rfl
    have later := @ih (start + 1) fun i a at_i => by
      rw [Nat.add_right_comm]
      exact found (i + 1) a at_i
    rw [Nat.add_zero] at here
    simp only [List.length_cons, List.range'_succ, List.mapM_cons, here, later, bind, Except.bind]
    rfl

/-- Where no count wraps, the writer takes every list of entries but the empty one. -/
theorem write_built {codec : Codec} (lossless : codec.Lossless) (config : SstConfig)
    {entries : List MemtableEntry} (nonempty : entries ≠ [])
    (encodable : ∀ e ∈ entries, Encodable e)
    (counted : SSTableWriter.Counted config.blockSizeTarget entries) :
    ∃ state closed s, SSTableWriter.addEntries codec config {} entries = .ok state ∧
      SSTableWriter.closeBlock codec config state = .ok closed ∧
        SSTableWriter.sections codec config state = .ok s ∧
      SSTableWriter.Built codec config entries (SSTableWriter.cutBlocks config.blockSizeTarget
        [] entries) s closed.index := by
  obtain ⟨state, s, added, made⟩ := SSTableWriter.sections_total lossless counted nonempty
  obtain ⟨closed, closes, built⟩ := SSTableWriter.sections_built lossless encodable added made
  rw [counted.writtenBlocks] at built
  exact ⟨state, closed, s, added, closes, made, built⟩

/-- The reader has these blocks. -/
structure SSTableReader.Reads (r : SSTableReader) (blocks : List (List BlockEntry)) : Prop where
  count : r.blockCount = .ok blocks.length
  block : ∀ i block, blocks[i]? = some block → r.getBlock i = .ok block

theorem SSTableReader.Reads.all {r : SSTableReader} {blocks : List (List BlockEntry)}
    (h : r.Reads blocks) :
    (List.range blocks.length).mapM r.getBlock = .ok blocks := by
  rw [List.range_eq_range']
  refine mapM_range' fun i block found => ?_
  rw [Nat.zero_add]
  exact h.block i block found

/-- A file that the writer stores opens, and gives its written blocks back. -/
theorem write_reads {codec : Codec} (lossless : codec.Lossless) {config : SstConfig}
    {entries : List MemtableEntry} (encodable : ∀ e ∈ entries, Encodable e)
    (count : entries.length < 2 ^ 64) {state : WriteState} {s : Sections}
    (added : SSTableWriter.addEntries codec config {} entries = .ok state)
    (made : SSTableWriter.sections codec config state = .ok s) (small : s.Fits) (backend : Backend)
    (path : String) :
    ∃ info stored opened reader, SSTableWriter.write codec config backend path entries =
      .ok (info, stored) ∧
      SSTableReader.openFile codec stored path info.fileSize = .ok opened ∧
        opened.loadMetadata = .ok reader ∧
      reader.Reads ((SSTableWriter.writtenBlocks config.blockSizeTarget entries).map
        (List.map BlockEntry.ofMemtable)) ∧
      stored.getRange path reader.footer.dedupBlockOffset reader.footer.dedupBlockSize = .ok s.dedup ∧
      stored.getRange path reader.footer.bloomFilterOffset reader.footer.bloomFilterSize =
        .ok s.filter ∧
      stored.getRange path reader.footer.indexBlockOffset reader.footer.indexBlockSize =
        .ok s.index := by
  obtain ⟨closed, -, built⟩ := SSTableWriter.sections_built lossless encodable added made
  have counted : s.entryCount < 2 ^ 64 := built.count.trans_lt count
  have found : (backend.put path (SSTableWriter.assemble codec config s)).get path =
      some (SSTableWriter.assemble codec config s) := ObjectStore.get_put_self _ _ _
  have places := located found small built.header counted
  obtain ⟨recordIds, tokens, -, opens, filterRead, indexRead, dedupRead⟩ :=
    load_spec found built encodable small count
  have loads := load_sections (SSTableWriter.assemble codec config s).length places filterRead
    indexRead dedupRead
  refine ⟨SSTableWriter.info codec config path s,
    backend.put path (SSTableWriter.assemble codec config s), _, _, ?_, opens,
    loads, ⟨?_, ?_⟩, places.dedup, places.filter, places.index⟩
  · simp only [SSTableWriter.write, added, made, bind, Except.bind, pure, Except.pure]
  · simp only [SSTableReader.blockCount, List.length_map, built.blocks.length_eq]
  · intro i block found_i
    rw [List.getElem?_map] at found_i
    obtain ⟨es, group, rfl⟩ := Option.map_eq_some_iff.mp found_i
    obtain ⟨ie, at_i, place⟩ := forall₂_get built.blocks group
    obtain ⟨data, range, decodes⟩ := getRange_stored found small place
    simp only [SSTableReader.getBlock, at_i, range, bind, Except.bind]
    exact decodes

/-- What `write` stores, `open` and `load_metadata` accept; the footer locates the sections, and
the blocks give the entries back, one after another or through the iterator. -/
def RoundTrips (codec : Codec) (config : SstConfig) (backend : Backend) (path : String)
    (entries : List MemtableEntry) : Prop :=
  ∃ info stored opened reader state s, SSTableWriter.write codec config backend path entries =
    .ok (info, stored) ∧
    SSTableReader.openFile codec stored path info.fileSize = .ok opened ∧
      opened.loadMetadata = .ok reader ∧
    (∃ n blocks, reader.blockCount = .ok n ∧ (List.range n).mapM reader.getBlock = .ok blocks ∧
      blocks.flatten = entries.map BlockEntry.ofMemtable) ∧
    (∀ calls > entries.length, SstableIterator.collect reader calls {} =
      .ok (entries.map BlockEntry.ofMemtable)) ∧
    SSTableWriter.addEntries codec config {} entries = .ok state ∧
      SSTableWriter.sections codec config state = .ok s ∧
    stored.getRange path reader.footer.dedupBlockOffset reader.footer.dedupBlockSize = .ok s.dedup ∧
    stored.getRange path reader.footer.bloomFilterOffset reader.footer.bloomFilterSize = .ok s.filter ∧
    stored.getRange path reader.footer.indexBlockOffset reader.footer.indexBlockSize = .ok s.index

/-- The file gives its entries back exactly when the count of no block wraps. -/
theorem write_round_trip_iff {codec : Codec} (lossless : codec.Lossless) (config : SstConfig)
    {entries : List MemtableEntry} (nonempty : entries ≠ [])
    (keys : ∀ e ∈ entries, BuiltKey e.compositeKey) (sized : ∀ e ∈ entries, Sized e)
    (count : entries.length < 2 ^ 64)
    (fits : ∀ state s, SSTableWriter.addEntries codec config {} entries = .ok state →
      SSTableWriter.sections codec config state = .ok s → s.Fits)
    (backend : Backend) (path : String) :
    RoundTrips codec config backend path entries ↔
      SSTableWriter.Counted config.blockSizeTarget entries := by
  have encodable : ∀ e ∈ entries, Encodable e :=
    fun e member => encodable_of_built (keys e member) (sized e member)
  constructor
  · rintro ⟨info, stored, opened, reader, state, s, written, opens, loads,
      ⟨n, blocks, counts, read, flat⟩, -, added, made, -⟩
    obtain ⟨info', stored', opened', reader', written', opens', loads', reads, -⟩ :=
      write_reads lossless encodable count added made (fits state s added made) backend path
    -- the reader of the run is the one that has the written blocks
    cases written.symm.trans written'
    cases opens.symm.trans opens'
    cases loads.symm.trans loads'
    cases counts.symm.trans reads.count
    cases read.symm.trans reads.all
    apply SSTableWriter.counted_of_flatten
    have length := congrArg List.length flat
    rwa [← List.map_flatten, List.length_map, List.length_map] at length
  · intro counted
    obtain ⟨state, s, added, made⟩ := SSTableWriter.sections_total lossless counted nonempty
    obtain ⟨info, stored, opened, reader, written, opens, loads, reads, sections⟩ :=
      write_reads lossless encodable count added made (fits state s added made) backend path
    have flat := SSTableWriter.flatten_cutBlocks config.blockSizeTarget [] entries
    rw [List.nil_append, ← counted.writtenBlocks] at flat
    have whole : ((SSTableWriter.writtenBlocks config.blockSizeTarget entries).map
        (List.map BlockEntry.ofMemtable)).flatten =
        entries.map BlockEntry.ofMemtable := by rw [← List.map_flatten, flat]
    refine ⟨info, stored, opened, reader, state, s, written, opens, loads,
      ⟨_, _, reads.count, reads.all, whole⟩, ?_, added,
      made, sections⟩
    intro calls enough
    have all : SstableIterator.remaining ((SSTableWriter.writtenBlocks config.blockSizeTarget entries).map
        (List.map BlockEntry.ofMemtable)) {} = entries.map BlockEntry.ofMemtable := by
      simp only [SstableIterator.remaining, List.drop_zero, List.nil_append, whole]
    rw [← all]
    apply SstableIterator.collect_spec reads.count reads.block
    rw [all, List.length_map]
    exact enough

section Example

/-- One byte of the checksum with the reflected polynomial. -/
def crc32Byte (crc : UInt32) (b : UInt8) : UInt32 :=
  (List.range 8).foldl (fun c _ => if c &&& 1 = 1 then (c >>> 1) ^^^ 0xEDB88320 else c >>> 1)
    (crc ^^^ b.toUInt32)

/-- Files without compression. -/
def plainCodec : Codec where
  compress _ data := .ok data
  decompress _ data := .ok data
  crc32 data := data.foldl crc32Byte 0xFFFFFFFF ^^^ 0xFFFFFFFF
  hashFunctions bitsPerKey := UInt32.ofNat (bitsPerKey * 693147 / 1000000)

def plainConfig : SstConfig where
  blockSizeTarget := 16
  compression := .none

def sampleEntry (item value : UInt8) (sequenceNumber : Nat) : MemtableEntry where
  compositeKey := CompositeKey.encode ⟨[114]⟩ [item]
  value := ⟨[value]⟩
  metadata := ⟨[]⟩
  idempotencyKey := .none
  sequenceNumber := sequenceNumber
  entryType := .put
  origin := 0

/-- Two versions of one key in the first block, another key in the second. -/
def sampleEntries : List MemtableEntry :=
  [sampleEntry 1 7 300, sampleEntry 1 8 2, sampleEntry 2 9 301]

theorem plainCodec_lossless : plainCodec.Lossless := fun _ data => ⟨data, rfl, rfl⟩

theorem sampleEntries_built : ∀ e ∈ sampleEntries, BuiltKey e.compositeKey := by
  intro e member
  simp only [sampleEntries, List.mem_cons, List.not_mem_nil, or_false] at member
  rcases member with rfl | rfl | rfl
  · exact Or.inl ⟨⟨[114]⟩, ⟨[1]⟩, rfl⟩
  · exact Or.inl ⟨⟨[114]⟩, ⟨[1]⟩, rfl⟩
  · exact Or.inl ⟨⟨[114]⟩, ⟨[2]⟩, rfl⟩

theorem sampleEntries_sized : ∀ e ∈ sampleEntries, Sized e := by
  intro e member
  simp only [sampleEntries, List.mem_cons, List.not_mem_nil, or_false] at member
  rcases member with rfl | rfl | rfl
  all_goals exact ⟨by decide, by decide, by decide⟩

theorem fits_of_lengths {codec : Codec} {config : SstConfig} {entries : List MemtableEntry}
    {output dedup filter index : Nat}
    (lengths : (SSTableWriter.addEntries codec config
      {} entries >>= SSTableWriter.sections codec config).map
        (fun s => (s.output.length, s.dedup.length, s.filter.length, s.index.length)) =
          .ok (output, dedup, filter, index))
    (small : output < 2 ^ 32 ∧ dedup < 2 ^ 32 ∧ filter < 2 ^ 32 ∧ index < 2 ^ 32) :
    ∀ state s, SSTableWriter.addEntries codec config {} entries = .ok state →
      SSTableWriter.sections codec config state = .ok s → s.Fits := by
  intro state s added built
  simp only [added, built, bind, Except.bind, Except.map, Except.ok.injEq, Prod.mk.injEq] at lengths
  obtain ⟨rfl, rfl, rfl, rfl⟩ := lengths
  exact ⟨small.1, small.2.1, small.2.2.1, small.2.2.2⟩

theorem sampleEntries_fit :
    ∀ state s, SSTableWriter.addEntries plainCodec plainConfig {} sampleEntries = .ok state →
    SSTableWriter.sections plainCodec plainConfig state = .ok s → s.Fits :=
  @fits_of_lengths plainCodec plainConfig sampleEntries 55 4 29 44 (by decide +kernel) (by decide)

theorem write_round_trip_sample : RoundTrips plainCodec plainConfig ObjectStore.empty "t.sst"
    sampleEntries :=
  (write_round_trip_iff plainCodec_lossless plainConfig
    (by decide) sampleEntries_built sampleEntries_sized (by decide)
    sampleEntries_fit ObjectStore.empty "t.sst").mpr (SSTableWriter.counted_of_target (by decide) _)

/-- So many versions of one key, the newest first. -/
def versions (n : Nat) : List MemtableEntry := (List.range n).map fun i => sampleEntry 1 7 (n - i)

/-- Blocks of a tebibyte. -/
def hugeConfig : SstConfig := { plainConfig with blockSizeTarget := 2 ^ 40 }

variable {n : Nat}

theorem length_versions (n : Nat) : (versions n).length = n := by
  rw [versions, List.length_map, List.length_range]

theorem length_sampleEntry (sequenceNumber : Nat) (repeats : Bool) :
    (BlockBuilder.entryBytes repeats (sampleEntry 1 7 sequenceNumber)).length ≤ 64 := by
  have record : (sampleEntry 1 7 sequenceNumber).recordId = ⟨[114]⟩ := rfl
  have item : (sampleEntry 1 7 sequenceNumber).itemKey = ⟨[1]⟩ := rfl
  have number := length_encodeVarint_le sequenceNumber
  have zero := length_encodeVarint_le 0
  have one := length_encodeVarint_le (0 + 1)
  rw [BlockBuilder.entryBytes, record, item]
  cases repeats with
  | false =>
    simp only [sampleEntry, framed, List.length_append, List.length_cons, List.length_nil,
      Bool.false_eq_true, if_false]
    omega
  | true =>
    simp only [sampleEntry, framed, List.length_append, List.length_cons, List.length_nil, if_true]
    omega

theorem length_encodeEntries_versions (n : Nat) :
    (encodeEntries 0 none (versions n)).length ≤ 64 * n := by
  have length := @length_encodeEntries_le 64 (versions n) (by
    intro e member repeats
    obtain ⟨i, -, rfl⟩ := List.mem_map.mp member
    exact length_sampleEntry _ _) 0 none
  rwa [length_versions] at length

theorem versions_ne_nil (some : 0 < n) : versions n ≠ [] := by
  rw [← List.length_pos_iff, length_versions]
  exact some

theorem versions_built (n : Nat) : ∀ e ∈ versions n, BuiltKey e.compositeKey := by
  intro e member
  obtain ⟨i, -, rfl⟩ := List.mem_map.mp member
  exact Or.inl ⟨⟨[114]⟩, ⟨[1]⟩, rfl⟩

theorem versions_sized (small : n < 2 ^ 64) : ∀ e ∈ versions n, Sized e := by
  intro e member
  obtain ⟨i, -, rfl⟩ := List.mem_map.mp member
  exact ⟨show (1 : Nat) < 2 ^ 64 by decide, show (0 : Nat) < 2 ^ 64 by decide, (Nat.sub_le n i).trans_lt small⟩

theorem versions_sorted (n : Nat) :
    (versions n).Pairwise fun a b => a.compositeKey = b.compositeKey ∧
      b.sequenceNumber < a.sequenceNumber := by
  rw [versions, List.pairwise_map]
  refine (List.pairwise_lt_range).imp_of_mem fun {i j} left right before => ⟨rfl, ?_⟩
  have inside := List.mem_range.mp right
  exact Nat.sub_lt_sub_left (before.trans inside) before

theorem versions_below :
    (encodeEntries 0 none (versions (2 ^ 32))).length < hugeConfig.blockSizeTarget :=
  (length_encodeEntries_versions (2 ^ 32)).trans_lt (show (64 * 2 ^ 32 : Nat) < 2 ^ 40 by decide)

theorem versions_wrap : (versions (2 ^ 32)).length % 2 ^ 32 = 0 := by
  rw [length_versions, Nat.mod_self]

/-- The versions are written without an error, in sections that fit, and the file has no block for
them. -/
theorem wrapped_block_lost :
    ((versions (2 ^ 32)).Pairwise fun a b => a.compositeKey = b.compositeKey ∧
      b.sequenceNumber < a.sequenceNumber) ∧
      (∀ e ∈ versions (2 ^ 32), BuiltKey e.compositeKey) ∧
      (∃ state s, SSTableWriter.addEntries plainCodec hugeConfig {} (versions (2 ^ 32)) = .ok state ∧
        SSTableWriter.sections plainCodec hugeConfig state = .ok s ∧ s.Fits) ∧
      (∃ info stored opened reader,
        SSTableWriter.write plainCodec hugeConfig ObjectStore.empty "t.sst" (versions (2 ^ 32)) =
          .ok (info, stored) ∧
        SSTableReader.openFile plainCodec stored "t.sst" info.fileSize = .ok opened ∧
          opened.loadMetadata = .ok reader ∧
        reader.blockCount = .ok 0) ∧
      ¬ RoundTrips plainCodec hugeConfig ObjectStore.empty "t.sst" (versions (2 ^ 32)) := by
  have nonempty := versions_ne_nil (show 0 < 2 ^ 32 by decide)
  have sized := versions_sized (show (2 ^ 32 : Nat) < 2 ^ 64 by decide)
  have count : (versions (2 ^ 32)).length < 2 ^ 64 := by
    rw [length_versions]
    decide
  obtain ⟨state, s, added, made, output, dedup, filter, index⟩ :=
    SSTableWriter.sections_wrapped plainCodec nonempty versions_below versions_wrap
  have small : s.Fits := by
    refine ⟨?_, ?_, ?_, ?_⟩
    · rw [output]
      decide
    · simp [dedup, DedupBlock.serialize, DedupBlock.build]
    · rw [filter]
      decide
    · rw [index]
      decide
  obtain ⟨info, stored, opened, reader, written, opens, loads, reads, -⟩ :=
    write_reads plainCodec_lossless (fun e member =>
      encodable_of_built (versions_built _ e member) (sized e member)) count
      added made small ObjectStore.empty "t.sst"
  have none := SSTableWriter.writtenBlocks_wrapped versions_below versions_wrap
  have blocks := reads.count
  rw [none] at blocks
  refine ⟨versions_sorted _, versions_built _, ⟨state, s, added, made, small⟩,
    ⟨info, stored, opened, reader, written, opens, loads, blocks⟩, ?_⟩
  rintro ⟨info', stored', opened', reader', -, -, written', opens', loads',
    ⟨n, blocks', counts, read, flat⟩, -⟩
  cases written.symm.trans written'
  cases opens.symm.trans opens'
  cases loads.symm.trans loads'
  cases counts.symm.trans blocks
  cases read
  have length := congrArg List.length flat
  rw [List.length_map, length_versions] at length
  cases length

end Example

end FlushDB.Sst
