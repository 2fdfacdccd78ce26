import FlushDB.Wal.SegmentBytes

/-!
Segments that are cut off anywhere behind their header. The fields of an entry may fit their lengths
while the whole of it does not fit the length in front: from `2 ^ 32` bytes on that length has
wrapped, and no reader finds the entry.
-/

namespace FlushDB
open Lib

namespace WalEntry

/-- Every field fits the width of its own length. -/
structure FieldsFit (e : WalEntry) : Prop where
  ns : e.ns.len < 2 ^ 16
  recordId : e.recordId.len < 2 ^ 16
  itemKey : e.itemKey.len < 2 ^ 16
  itemValue : e.itemValue.len < 2 ^ 32
  itemMetadata : e.itemMetadata.len < 2 ^ 16
  numbered : e.sequenceNumber < 2 ^ 64

instance (e : WalEntry) : Decidable e.FieldsFit :=
  decidable_of_iff (e.ns.len < 2 ^ 16 ∧ e.recordId.len < 2 ^ 16 ∧ e.itemKey.len < 2 ^ 16 ∧
    e.itemValue.len < 2 ^ 32 ∧
    e.itemMetadata.len < 2 ^ 16 ∧ e.sequenceNumber < 2 ^ 64)
    ⟨fun ⟨a, b, c, d, f, g⟩ => ⟨a, b, c, d, f, g⟩, fun h => ⟨h.1, h.2, h.3, h.4, h.5, h.6⟩⟩

/-- What the length in front of the entry says. -/
def entryLength (e : WalEntry) : Nat := e.bodySize % 2 ^ 32

variable {e : WalEntry}

theorem FieldsFit.storable (fits : e.FieldsFit) (sized : e.bodySize < 2 ^ 32) : e.Storable :=
  ⟨⟨fits.ns, fits.recordId, fits.itemKey, fits.itemMetadata, fits.itemValue, sized⟩, fits.numbered⟩

/-- A length that has wrapped falls short by as much as the longest value can have. -/
theorem FieldsFit.entryLength_eq (fits : e.FieldsFit) (long : ¬ e.bodySize < 2 ^ 32) :
    e.entryLength + 2 ^ 32 = e.bodySize := by
  obtain ⟨ns, recordId, itemKey, itemValue, itemMetadata, -⟩ := fits
  have total : e.bodySize < 2 ^ 33 := by
    simp only [bodySize, fixedBodyOverhead]
    omega
  rw [entryLength]
  omega

theorem fromLeBytes_bodySize (e : WalEntry) :
    fromLeBytes (leBytes 4 e.bodySize) = e.entryLength := by
  rw [← leBytes_mod]
  exact fromLeBytes_leBytes (Nat.mod_lt _ (by decide))

/-- A field that is read from a part of the bytes lies wholly in it. -/
theorem readVar_take {width n : Nat} {field f : Bytes} {rest left : List UInt8}
    (fits : field.len < 256 ^ width)
    (read : readVar width ((putVar width field ++ rest).take n) = .ok (f, left)) :
    width + field.len ≤ n ∧ left = rest.take (n - (width + field.len)) := by
  unfold readVar at read
  split at read
  · cases read
  rename_i long
  have inside : width ≤ n := by
    rw [List.length_take] at long
    omega
  have lengths : ((putVar width field ++ rest).take n).take width = leBytes width field.len := by
    rw [List.take_take, min_eq_left inside, take_putVar]
  have behind : ((putVar width field ++ rest).take n).drop width =
      (field.data ++ rest).take (n - width) := by
    rw [List.drop_take, drop_putVar]
  dsimp only at read
  rw [lengths, behind, fromLeBytes_leBytes fits] at read
  split at read
  · cases read
  rename_i whole
  have held : field.len ≤ n - width := by
    rw [List.length_take] at whole
    omega
  obtain ⟨-, rfl⟩ := Prod.mk.inj (Except.ok.inj read)
  refine ⟨by omega, ?_⟩
  rw [List.drop_take, Bytes.len, List.drop_left, ← Bytes.len, Nat.sub_sub]

/-- The part of a body that a wrapped length covers ends within the value. -/
theorem decodeBody_take (fits : e.FieldsFit) (long : ¬ e.bodySize < 2 ^ 32) :
    ∃ err, decodeBody (e.body.take e.entryLength) = .error err := by
  have size := fits.entryLength_eq long
  obtain ⟨ns, recordId, itemKey, itemValue, itemMetadata, -⟩ := fits
  cases decoded : decodeBody (e.body.take e.entryLength) with
  | error err => exact ⟨err, rfl⟩
  | ok x =>
    exfalso
    have fields : (e.body.take e.entryLength).drop 9 =
        (putVar 2 e.ns ++ (putVar 2 e.recordId ++ (putVar 2 e.itemKey ++
        (putVar 4 e.itemValue ++ (putVar 2 e.itemMetadata ++
          e.idempotencyToken.data.toList))))).take (e.entryLength - 9) := by
      rw [List.drop_take]
      simp [body, List.drop_append]
    unfold decodeBody at decoded
    split at decoded
    · cases decoded
    obtain ⟨entryType, -, decoded⟩ := bind_ok decoded
    obtain ⟨⟨ns', rest⟩, first, decoded⟩ := bind_ok decoded
    obtain ⟨⟨recordId', rest'⟩, second, decoded⟩ := bind_ok decoded
    obtain ⟨⟨itemKey', rest''⟩, third, decoded⟩ := bind_ok decoded
    obtain ⟨⟨itemValue', left⟩, fourth, -⟩ := bind_ok decoded
    rw [fields] at first
    obtain ⟨held, rfl⟩ := readVar_take ns first
    obtain ⟨held', rfl⟩ := readVar_take recordId second
    obtain ⟨held'', rfl⟩ := readVar_take itemKey third
    obtain ⟨enough, -⟩ := readVar_take itemValue fourth
    simp only [bodySize, fixedBodyOverhead] at size
    omega

end WalEntry

namespace SegmentReader
variable {crc32 : List UInt8 → UInt32} {h : SegmentHeader} {e : WalEntry}

/-- The reader takes what is left of the entry, of which `kept` bytes are, for the end of the
segment. -/
def StopsClean (crc32 : List UInt8 → UInt32) (e : WalEntry) (kept : Nat) : Prop :=
  kept < 8 + e.entryLength ∨ e.entryLength = 0 ∨
    ((crc32 (e.body.take e.entryLength)).toNat ≠
      fromLeBytes (((e.encodeInto crc32).drop (4 + e.entryLength)).take 4) ∧
      isTailCorruption (((e.encodeInto crc32).take kept).drop (8 + e.entryLength)) = true)

instance (crc32 : List UInt8 → UInt32) (e : WalEntry) (kept : Nat) :
    Decidable (StopsClean crc32 e kept) :=
  inferInstanceAs (Decidable (_ ∨ _ ∨ _))

/-- An entry with a length that has not wrapped is not read unless it is there to its end. -/
theorem stopsClean_of_sized (sized : e.bodySize < 2 ^ 32) {kept : Nat}
    (short : kept < e.totalSize) : StopsClean crc32 e kept := by
  refine Or.inl ?_
  rw [WalEntry.entryLength, Nat.mod_eq_of_lt sized]
  simp only [WalEntry.totalSize] at short
  omega

/-- A length that has wrapped covers the beginning of the body, and takes the next bytes for the
checksum. -/
theorem take_encodeInto (fits : e.FieldsFit) (long : ¬ e.bodySize < 2 ^ 32) :
    (e.encodeInto crc32).take (8 + e.entryLength) = leBytes 4 e.entryLength ++
      (e.body.take e.entryLength ++ ((e.encodeInto crc32).drop (4 + e.entryLength)).take 4) := by
  have size := fits.entryLength_eq long
  have covered : e.entryLength ≤ e.body.length := by
    rw [e.length_body]
    omega
  have wrapped : leBytes 4 e.bodySize = leBytes 4 e.entryLength := (leBytes_mod 4 e.bodySize).symm
  have behind : (e.encodeInto crc32).drop (4 + e.entryLength) =
      (e.body ++ leBytes 4 (crc32 e.body).toNat).drop e.entryLength := by
    rw [← List.drop_drop, WalEntry.encodeInto, List.drop_left' (length_leBytes _ _)]
  rw [behind, WalEntry.encodeInto, wrapped, List.take_append, length_leBytes,
    List.take_of_length_le (by rw [length_leBytes]; omega),
    show 8 + e.entryLength - 4 = e.entryLength +
      4 by omega, List.take_add, List.take_append_of_le_length covered]

/-- What the reader does where the length of an entry has wrapped: the bytes that it covers are no
entry. -/
theorem nextEntry_wrapped (fits : e.FieldsFit) (long : ¬ e.bodySize < 2 ^ 32)
    (counted : e.entryLength ≠ 0) (rest : List UInt8) :
    (∀ x, nextEntry crc32 ⟨h, (e.encodeInto crc32).take (8 + e.entryLength) ++ rest⟩ ≠ .ok (some x)) ∧
      (nextEntry crc32 ⟨h, (e.encodeInto crc32).take (8 + e.entryLength) ++ rest⟩ = .ok none ↔
        (crc32 (e.body.take e.entryLength)).toNat ≠
          fromLeBytes (((e.encodeInto crc32).drop (4 + e.entryLength)).take 4) ∧
          isTailCorruption rest = true) := by
  have size := fits.entryLength_eq long
  have covered : (e.body.take e.entryLength).length = e.entryLength := by
    rw [List.length_take, e.length_body]
    omega
  have four : (((e.encodeInto crc32).drop (4 + e.entryLength)).take 4).length = 4 := by
    rw [List.length_take, List.length_drop, WalEntry.length_encodeInto, WalEntry.totalSize]
    omega
  have nonempty : e.body.take e.entryLength ≠ [] := by
    rw [← List.length_pos_iff, covered]
    omega
  have small : (e.body.take e.entryLength).length < 2 ^ 32 := by
    rw [covered]
    exact Nat.mod_lt _ (by decide)
  obtain ⟨err, refused⟩ := WalEntry.decodeBody_take fits long
  rw [take_encodeInto fits long, nextEntry_frame nonempty small covered.symm four, refused]
  by_cases same : (crc32 (e.body.take e.entryLength)).toNat =
    fromLeBytes (((e.encodeInto crc32).drop (4 + e.entryLength)).take 4)
  · rw [← same, validateCrc_same]
    simp
  · rw [validateCrc_other same]
    by_cases tail : isTailCorruption rest = true
    · simp [tail, same]
    · simp [tail]

/-- An entry whose length has wrapped is not read back, wherever it stands. -/
theorem nextEntry_long (fits : e.FieldsFit) (long : ¬ e.bodySize < 2 ^ 32) (rest : List UInt8)
    (x : WalEntry × SegmentReader) :
    nextEntry crc32 ⟨h, e.encodeInto crc32 ++ rest⟩ ≠ .ok (some x) := by
  by_cases empty : e.entryLength = 0
  · have prefixed : (e.encodeInto crc32 ++ rest).take 4 = leBytes 4 e.bodySize := by
      rw [WalEntry.encodeInto, List.append_assoc]
      exact List.take_left' (length_leBytes _ _)
    simp [nextEntry, prefixed, WalEntry.fromLeBytes_bodySize, empty]
  · have split := List.take_append_drop (8 + e.entryLength) (e.encodeInto crc32)
    rw [← split, List.append_assoc]
    exact (nextEntry_wrapped fits long empty _).1 x

/-- Where an entry is cut off, the reader stops without an error just in the cases of
`StopsClean`. -/
theorem nextEntry_cut (fits : e.FieldsFit) {kept : Nat} (short : kept < e.totalSize) :
    nextEntry crc32 ⟨h, (e.encodeInto crc32).take kept⟩ = .ok none ↔ StopsClean crc32 e kept := by
  by_cases sized : e.bodySize < 2 ^ 32
  · exact iff_of_true (nextEntry_torn sized short) (stopsClean_of_sized sized short)
  have total : ((e.encodeInto crc32).take kept).length = kept := by
    rw [List.length_take, WalEntry.length_encodeInto]
    omega
  by_cases begun : kept < 4
  · refine iff_of_true ?_ (Or.inl (by omega))
    simp only [nextEntry, total, if_pos begun]
  have prefixed : ((e.encodeInto crc32).take kept).take 4 = leBytes 4 e.bodySize := by
    rw [List.take_take, min_eq_left (by omega), WalEntry.encodeInto]
    exact List.take_left' (length_leBytes _ _)
  by_cases empty : e.entryLength = 0
  · refine iff_of_true ?_ (Or.inr (Or.inl empty))
    simp only [nextEntry, total, if_neg begun, prefixed, WalEntry.fromLeBytes_bodySize, if_pos empty]
  by_cases covered : kept < 8 + e.entryLength
  · refine iff_of_true ?_ (Or.inl covered)
    have missing : kept < 4 + e.entryLength + 4 := by omega
    simp only [nextEntry, total, if_neg begun, prefixed, WalEntry.fromLeBytes_bodySize,
      if_neg empty, if_pos missing]
  · have split := List.take_append_drop (8 + e.entryLength) ((e.encodeInto crc32).take kept)
    rw [List.take_take, min_eq_left (by omega)] at split
    rw [← split, (nextEntry_wrapped fits sized empty _).2, StopsClean]
    simp only [covered, empty, false_or]

/-- Whole entries and what follows them are read as they were written just if no length among them
has wrapped and the reader stops at what follows. -/
theorem results_whole_iff {entries : List WalEntry} {left : List UInt8}
    (fits : ∀ e ∈ entries, e.FieldsFit) :
    results crc32 ⟨h, encodeAll crc32 entries ++ left⟩ = entries.map (fun e => .ok e.stored) ↔
      (∀ e ∈ entries, e.bodySize < 2 ^ 32) ∧ nextEntry crc32 ⟨h, left⟩ = .ok none := by
  induction entries with
  | nil =>
    rw [encodeAll, List.flatMap_nil, List.nil_append, List.map_nil]
    refine ⟨fun ended => ⟨by simp, nextEntry_of_results_nil ended⟩, fun ended => results_none ended.2⟩
  | cons e rest ih =>
    have first := fits e List.mem_cons_self
    have later := ih fun e member => fits e (List.mem_cons_of_mem _ member)
    rw [encodeAll, List.flatMap_cons, ← encodeAll, List.append_assoc, List.map_cons,
      List.forall_mem_cons]
    by_cases sized : e.bodySize < 2 ^ 32
    · rw [results_some (nextEntry_encoded (first.storable sized) _), List.cons_inj_right, later]
      simp only [sized, true_and]
    · refine iff_of_false ?_ (fun all => sized all.1.1)
      intro same
      obtain ⟨next, given, -⟩ := nextEntry_of_results_cons same
      exact nextEntry_long first sized _ _ given

end SegmentReader

/-- A cut leaves the entries before it, and the beginning of the next. -/
theorem take_encodeAll_eq {crc32 : List UInt8 → UInt32} (room : Nat) (entries : List WalEntry) :
    (encodeAll crc32 entries).take room = encodeAll crc32 (wholeEntries room entries) ++
      match entries[(wholeEntries room entries).length]? with
      | none => []
      | some e =>
        (e.encodeInto crc32).take (room - (encodeAll crc32 (wholeEntries room entries)).length) := by
  induction entries generalizing room with
  | nil => simp [encodeAll, wholeEntries]
  | cons e rest ih =>
    have length := e.length_encodeInto crc32
    rw [encodeAll, List.flatMap_cons, ← encodeAll, List.take_append, length]
    unfold wholeEntries
    split
    · rename_i whole
      rw [ih (room - e.totalSize), List.take_of_length_le (length.symm ▸ whole), List.length_cons,
        List.getElem?_cons_succ]
      simp only [encodeAll, List.flatMap_cons, List.length_append, length, List.append_assoc,
        Nat.sub_sub]
    · rename_i short
      rw [show room - e.totalSize = 0 by omega]
      simp [encodeAll]

namespace SegmentReader
variable {crc32 : List UInt8 → UInt32}

/-- An iteration that ends has gone through the results. -/
theorem results_of_drained {r : SegmentReader} {count : Nat} {given : List (FlushResult WalEntry)}
    (drained : ∀ fuel > count, drain (SegmentEntryIterator.next crc32) fuel r.entries = some given) :
    r.results crc32 = given := by
  have enough := drained (max count (r.results crc32).length + 1) (Nat.lt_succ_of_le (le_max_left _ _))
  rw [drain_entries r (Nat.lt_succ_of_le (le_max_right _ _))] at enough
  exact Option.some.inj enough

/-- The iteration over the segment of the batches, cut at `cut`, gives without an error exactly the
entries that lie wholly before the cut. -/
def ReadsWhole (crc32 : List UInt8 → UInt32) (batches : List (List WalEntry)) (path : String)
    (segmentNumber startingSequence now cut : Nat) : Prop :=
  ∃ reader whole,
    openFile path ((batches.foldl (SegmentWriter.appendBatch crc32)
      (SegmentWriter.create segmentNumber startingSequence now)).file.take cut) = .ok reader ∧
    IsGreatest {n | n ≤ batches.flatten.length ∧
      segmentHeaderSize + (encodeAll crc32 (batches.flatten.take n)).length ≤ cut} whole ∧
    ∀ fuel > whole, drain (SegmentEntryIterator.next crc32) fuel reader.entries =
      some ((batches.flatten.take whole).map fun e => .ok e.stored)

/-- No entry that lies before the cut has a length that wraps, and the reader stops where the cut
is. -/
def Unwrapped (crc32 : List UInt8 → UInt32) (entries : List WalEntry) (room : Nat) : Prop :=
  (∀ e ∈ wholeEntries room entries, e.bodySize < 2 ^ 32) ∧
    ∀ e ∈ entries[(wholeEntries room entries).length]?,
      StopsClean crc32 e (room - (encodeAll crc32 (wholeEntries room entries)).length)

instance (crc32 : List UInt8 → UInt32) (entries : List WalEntry) (room : Nat) :
    Decidable (Unwrapped crc32 entries room) :=
  inferInstanceAs (Decidable (_ ∧ _))

/-- The entry behind the whole ones does not fit. -/
theorem cut_short (room : Nat) {entries : List WalEntry} {e : WalEntry}
    (next : entries[(wholeEntries room entries).length]? = some e) :
    room - (encodeAll crc32 (wholeEntries room entries)).length < e.totalSize := by
  obtain ⟨⟨-, inside⟩, greatest⟩ := @wholeEntries_greatest crc32 room entries
  obtain ⟨bound, here⟩ := List.getElem?_eq_some_iff.mp next
  have leading := List.prefix_iff_eq_take.mp (wholeEntries_leading room entries)
  by_contra room_left
  have more : (wholeEntries room entries).length + 1 ≤ (wholeEntries room entries).length := by
    refine greatest ⟨bound, ?_⟩
    rw [List.take_succ_eq_append_getElem bound, here, ← leading, encodeAll_append, List.length_append]
    rw [← leading] at inside
    simp only [encodeAll, List.flatMap_cons, List.flatMap_nil, List.append_nil,
      WalEntry.length_encodeInto] at inside room_left ⊢
    omega
  omega

theorem results_cut_iff {h : SegmentHeader} {entries : List WalEntry}
    (fits : ∀ e ∈ entries, e.FieldsFit) (room : Nat) :
    results crc32 ⟨h, (encodeAll crc32 entries).take room⟩ =
      (wholeEntries room entries).map (fun e => .ok e.stored) ↔
      Unwrapped crc32 entries room := by
  have leading := wholeEntries_leading room entries
  rw [take_encodeAll_eq, results_whole_iff fun e member => fits e (leading.subset member), Unwrapped]
  refine and_congr_right fun _ => ?_
  cases next : entries[(wholeEntries room entries).length]? with
  | none => simp [nextEntry]
  | some e =>
    simp only [Option.mem_some_iff, forall_eq']
    exact nextEntry_cut (fits e (List.mem_of_getElem? next)) (cut_short room next)

/-- The iteration over a cut segment gives the whole entries if and only if no length among them has
wrapped and the reader stops at the cut. -/
theorem torn_segment_reads_iff (batches : List (List WalEntry))
    (fits : ∀ e ∈ batches.flatten, e.FieldsFit) (path : String) (segmentNumber now : Nat)
    {startingSequence cut : Nat} (starts : startingSequence < 2 ^ 64)
    (behind : segmentHeaderSize ≤ cut) :
    ReadsWhole crc32 batches path segmentNumber startingSequence now cut ↔
      Unwrapped crc32 batches.flatten (cut - segmentHeaderSize) := by
  have header := (SegmentHeader.new segmentNumber startingSequence now).length_encode
  have bytes : (batches.foldl (SegmentWriter.appendBatch crc32)
      (SegmentWriter.create segmentNumber startingSequence now)).file.take cut =
      (SegmentHeader.new segmentNumber startingSequence now).encode ++
        (encodeAll crc32 batches.flatten).take (cut - segmentHeaderSize) := by
    rw [SegmentWriter.file_appendBatches, SegmentWriter.create, List.take_append, header,
      List.take_of_length_le (header.symm ▸ behind)]
  obtain ⟨read, opens, -⟩ := @openFile_header (SegmentHeader.new segmentNumber startingSequence now)
    starts path
    ((encodeAll crc32 batches.flatten).take (cut - segmentHeaderSize))
  obtain ⟨⟨few, inside⟩, bound⟩ := @wholeEntries_greatest crc32
    (cut - segmentHeaderSize) batches.flatten
  have greatest : IsGreatest {n | n ≤ batches.flatten.length ∧
      segmentHeaderSize + (encodeAll crc32 (batches.flatten.take n)).length ≤ cut}
        (wholeEntries (cut - segmentHeaderSize) batches.flatten).length := by
    refine ⟨⟨few, by omega⟩, ?_⟩
    rintro n ⟨fewer, within⟩
    exact bound ⟨fewer, by omega⟩
  have prefixed := List.prefix_iff_eq_take.mp (wholeEntries_leading (cut - segmentHeaderSize) batches.flatten)
  rw [ReadsWhole, bytes, ← @results_cut_iff crc32 read _ fits]
  constructor
  · rintro ⟨reader, whole, opened, also, drained⟩
    obtain rfl := Except.ok.inj (opened.symm.trans opens)
    obtain rfl := also.unique greatest
    exact prefixed ▸ results_of_drained drained
  · intro given
    refine ⟨⟨read, _⟩, _, opens, greatest, ?_⟩
    intro fuel enough
    rw [drain_entries _ (by rw [given, List.length_map]; exact enough), given, ← prefixed]

/-- The segment of one entry whose length has wrapped does not give it, when it is not cut at
all. -/
theorem not_readsWhole {e : WalEntry} (fits : e.FieldsFit) (long : ¬ e.bodySize < 2 ^ 32) :
    ¬ ReadsWhole crc32 [[e]] "segment" 1 1 0 (segmentHeaderSize + (e.encodeInto crc32).length) := by
  rintro ⟨reader, whole, opened, ⟨-, greatest⟩, drained⟩
  have bytes : ([[e]].foldl (SegmentWriter.appendBatch crc32) (SegmentWriter.create 1 1 0)).file =
      (SegmentHeader.new 1 1 0).encode ++ (e.encodeInto crc32 ++ []) := by
    rw [SegmentWriter.file_appendBatches]
    rfl
  obtain ⟨read, opens, -⟩ :=
    @openFile_header (SegmentHeader.new 1 1 0) (by decide) "segment" (e.encodeInto crc32 ++ [])
  rw [List.take_of_length_le
    (by rw [bytes, List.length_append, SegmentHeader.length_encode, List.append_nil]), bytes] at opened
  obtain rfl := Except.ok.inj (opened.symm.trans opens)
  have one : 1 ≤ whole := greatest ⟨le_refl 1, by simp [encodeAll]⟩
  rw [List.flatten_singleton, List.take_of_length_le (by exact one)] at drained
  obtain ⟨next, given, -⟩ := nextEntry_of_results_cons (results_of_drained drained)
  exact nextEntry_long fits long _ _ given

section Example

/-- Two entries in two writes, cut within the checksum of the second. -/
theorem torn_segment_reads_iff_sample :
    ReadsWhole Lib.crc32 [[tornEntry 1], [tornEntry 2]] "segment" 1 1 0 145 ∧
      (wholeEntries (145 - segmentHeaderSize) [tornEntry 1, tornEntry 2]).length = 1 :=
  ⟨(torn_segment_reads_iff [[tornEntry 1], [tornEntry 2]]
    (by decide) "segment" 1 0 (by decide) (by decide)).mpr (by decide), by decide⟩

/-- A put of `n` bytes. -/
def valueEntry (n : Nat) : WalEntry where
  sequenceNumber := 1
  entryType := .put
  ns := ⟨[]⟩
  recordId := ⟨[]⟩
  itemKey := ⟨[]⟩
  itemValue := ⟨List.replicate n 0⟩
  itemMetadata := ⟨[]⟩
  idempotencyToken := .none
  origin := 0

theorem valueEntry_bodySize (n : Nat) : (valueEntry n).bodySize = 45 + n := by
  simp only [WalEntry.bodySize, valueEntry, Bytes.len, WalEntry.fixedBodyOverhead, List.length_nil,
    List.length_replicate]
  omega

theorem valueEntry_fieldsFit {n : Nat} (short : n < 2 ^ 32) : (valueEntry n).FieldsFit := by
  refine ⟨?_, ?_, ?_, ?_, ?_, ?_⟩ <;> simp only [valueEntry, Bytes.len, List.length_nil,
    List.length_replicate] <;> omega

/-- With this value the length of the entry wraps to 0. -/
theorem wrappedEntry_lost :
    (valueEntry (2 ^ 32 - 45)).FieldsFit ∧
      ¬ ReadsWhole Lib.crc32 [[valueEntry (2 ^ 32 - 45)]] "segment" 1 1 0
        (segmentHeaderSize + ((valueEntry (2 ^ 32 - 45)).encodeInto Lib.crc32).length) :=
  ⟨valueEntry_fieldsFit
    (by omega), not_readsWhole (valueEntry_fieldsFit (by omega)) (by rw [valueEntry_bodySize]; omega)⟩

end Example

end SegmentReader

end FlushDB
