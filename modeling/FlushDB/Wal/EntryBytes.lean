import FlushDB.Lib.Codec
import FlushDB.Wal.Log

/-!
The bytes of a log entry: its length, its fields behind lengths of two or four bytes, and a
checksum. The checksum function comes from outside. What is decoded carries no ghost.
-/

namespace FlushDB
open Lib

namespace WalEntry

/-- A field behind its length, which is cut to the given number of bytes. -/
def putVar (width : Nat) (field : Bytes) : List UInt8 := leBytes width field.len ++ field.data

/-- What lies between the length and the checksum. -/
def body (e : WalEntry) : List UInt8 :=
  leBytes 8 e.sequenceNumber ++ (e.entryType.asU8 ::
    (putVar 2 e.ns ++ (putVar 2 e.recordId ++ (putVar 2 e.itemKey ++
    (putVar 4 e.itemValue ++ (putVar 2 e.itemMetadata ++ e.idempotencyToken.data.toList))))))

def encodeInto (crc32 : List UInt8 → UInt32) (e : WalEntry) : List UInt8 :=
  leBytes 4 e.bodySize ++ (e.body ++ leBytes 4 (crc32 e.body).toNat)

def validateCrc (crc32 : List UInt8 → UInt32) (body : List UInt8) (expectedCrc : Nat) :
    FlushResult Unit :=
  let actual := (crc32 body).toNat
  if actual ≠ expectedCrc then .error (.crcMismatch expectedCrc actual) else .ok ()

/-- A field and what follows it. -/
def readVar (width : Nat) (body : List UInt8) : FlushResult (Bytes × List UInt8) :=
  if body.length < width then .error (.corruptedData "WAL entry field length exceeds body")
  else
    let len := fromLeBytes (body.take width)
    let rest := body.drop width
    if rest.length < len then .error (.corruptedData "WAL entry field length exceeds body")
    else .ok (⟨rest.take len⟩, rest.drop len)

def readVarU16 : List UInt8 → FlushResult (Bytes × List UInt8) := readVar 2
def readVarU32 : List UInt8 → FlushResult (Bytes × List UInt8) := readVar 4

def readEntryType (byte : UInt8) : FlushResult EntryType :=
  match EntryType.fromU8 byte with
  | .ok entryType => .ok entryType
  | .error _ => .error (.corruptedData s!"unknown WAL entry type: {byte}")

/-- Bytes behind the token are not looked at. -/
def readToken (body : List UInt8) : FlushResult IdempotencyToken :=
  if whole : 24 ≤ body.length then .ok ⟨⟨(body.take 24).toArray, by simp [whole]⟩⟩
  else .error (.corruptedData "WAL entry field length exceeds body")

def decodeBody (body : List UInt8) : FlushResult WalEntry :=
  if body.length < fixedBodyOverhead then .error (.corruptedData "WAL entry body too short")
  else do
    let sequenceNumber := fromLeBytes (body.take 8)
    let entryType ← readEntryType (body.getD 8 0)
    let (ns, rest) ← readVarU16 (body.drop 9)
    let (recordId, rest) ← readVarU16 rest
    let (itemKey, rest) ← readVarU16 rest
    let (itemValue, rest) ← readVarU32 rest
    let (itemMetadata, rest) ← readVarU16 rest
    let idempotencyToken ← readToken rest
    return { sequenceNumber, entryType, ns, recordId, itemKey, itemValue, itemMetadata,
             idempotencyToken, origin := 0 }

/-- The entry as its bytes hold it, without the ghost. -/
def stored (e : WalEntry) : WalEntry := { e with origin := 0 }

@[simp]
theorem stored_sequenceNumber (e : WalEntry) : e.stored.sequenceNumber = e.sequenceNumber := rfl

/-- Every field fits the width it is written in. -/
structure Storable (e : WalEntry) : Prop where
  fits : e.Fits
  numbered : e.sequenceNumber < 2 ^ 64

instance (e : WalEntry) : Decidable e.Storable :=
  decidable_of_iff (e.Fits ∧ e.sequenceNumber < 2 ^ 64)
    ⟨fun h => ⟨h.1, h.2⟩, fun h => ⟨h.fits, h.numbered⟩⟩

/-- The length of the entry fits its field, and decoding does not find the body corrupted. -/
structure Decodes (e : WalEntry) : Prop where
  sized : e.bodySize < 2 ^ 32
  decoded : (decodeBody e.body).isOk

instance (e : WalEntry) : Decidable e.Decodes :=
  decidable_of_iff (e.bodySize < 2 ^ 32 ∧ (decodeBody e.body).isOk)
    ⟨fun h => ⟨h.1, h.2⟩, fun h => ⟨h.sized, h.decoded⟩⟩

/-- The entry as it is read back. Fields with lengths that do not fit come out cut. -/
def reread (e : WalEntry) : WalEntry :=
  { (decodeBody e.body).toOption.getD e.stored with sequenceNumber := e.sequenceNumber }

@[simp]
theorem reread_sequenceNumber (e : WalEntry) : e.reread.sequenceNumber = e.sequenceNumber := rfl

@[simp]
theorem length_putVar (width : Nat) (field : Bytes) :
    (putVar width field).length = width + field.len := by
  simp [putVar, Bytes.len]

@[simp]
theorem length_body (e : WalEntry) : e.body.length = e.bodySize := by
  simp only [body, bodySize, fixedBodyOverhead, List.length_append, List.length_cons,
    length_leBytes, length_putVar,
    Vector.length_toList]
  omega

@[simp]
theorem length_encodeInto (crc32 : List UInt8 → UInt32) (e : WalEntry) :
    (e.encodeInto crc32).length = e.totalSize := by
  simp only [encodeInto, totalSize, List.length_append, length_leBytes, length_body]
  omega

theorem bodySize_ge (e : WalEntry) : 45 ≤ e.bodySize := by
  simp only [bodySize, fixedBodyOverhead]
  omega

theorem body_ne_nil (e : WalEntry) : e.body ≠ [] := by
  have size := e.bodySize_ge
  rw [← List.length_pos_iff, e.length_body]
  omega

theorem totalSize_ge (e : WalEntry) : 53 ≤ e.totalSize := by
  have := e.bodySize_ge
  simp only [totalSize]
  omega

theorem take_putVar (width : Nat) (field : Bytes) (rest : List UInt8) :
    (putVar width field ++ rest).take width = leBytes width field.len := by
  rw [putVar, List.append_assoc]
  exact List.take_left' (length_leBytes _ _)

theorem drop_putVar (width : Nat) (field : Bytes) (rest : List UInt8) :
    (putVar width field ++ rest).drop width = field.data ++ rest := by
  rw [putVar, List.append_assoc]
  exact List.drop_left' (length_leBytes _ _)

theorem readVar_putVar {width : Nat} {field : Bytes} (fits : field.len < 256 ^ width)
    (rest : List UInt8) :
    readVar width (putVar width field ++ rest) = .ok (field, rest) := by
  have long : ¬ (putVar width field ++ rest).length < width := by
    rw [List.length_append, length_putVar]
    omega
  have whole : ¬ (field.data ++ rest).length < field.len := by
    rw [List.length_append, Bytes.len]
    omega
  simp only [readVar, if_neg long, take_putVar, drop_putVar, fromLeBytes_leBytes fits, if_neg whole]
  rw [Bytes.len, List.take_left, List.drop_left]

/-- A field of any length is read, if cut, and at least all that follows it is left. -/
theorem readVar_cut (width : Nat) (field : Bytes) (rest : List UInt8) :
    ∃ part left, readVar width (putVar width field ++ rest) = .ok (part, left) ∧
      rest.length ≤ left.length := by
  have cut : fromLeBytes (leBytes width field.len) ≤ field.len := by
    by_cases fits : field.len < 256 ^ width
    · exact (fromLeBytes_leBytes fits).le
    · have := fromLeBytes_lt (length_leBytes width field.len)
      omega
  have long : ¬ (putVar width field ++ rest).length < width := by
    rw [List.length_append, length_putVar]
    omega
  have total : (field.data ++ rest).length = field.len + rest.length := List.length_append
  have whole : ¬ (field.data ++ rest).length < fromLeBytes (leBytes width field.len) := by omega
  simp only [readVar, if_neg long, take_putVar, drop_putVar, if_neg whole]
  refine ⟨_, _, rfl, ?_⟩
  rw [List.length_drop, total]
  omega

/-- What is read is as long as the length before it can say. -/
theorem readVar_lt {width : Nat} {body rest : List UInt8} {field : Bytes}
    (h : readVar width body = .ok (field, rest)) :
    field.len < 256 ^ width := by
  unfold readVar at h
  split at h
  · cases h
  · rename_i long
    dsimp only at h
    split at h
    · cases h
    · obtain ⟨rfl, rfl⟩ := Prod.mk.inj (Except.ok.inj h)
      have width_bytes : (body.take width).length = width := by
        rw [List.length_take]
        omega
      have bound := fromLeBytes_lt width_bytes
      rw [Bytes.len, List.length_take]
      omega

theorem readEntryType_asU8 (t : EntryType) : readEntryType t.asU8 = .ok t := by
  rw [readEntryType, EntryType.fromU8_asU8]

theorem readToken_token (token : IdempotencyToken) : readToken token.data.toList = .ok token := by
  have whole : 24 ≤ token.data.toList.length := by rw [Vector.length_toList]
  rw [readToken, dif_pos whole]
  have same : token.data.toList.take 24 = token.data.toList :=
    List.take_of_length_le (by rw [Vector.length_toList])
  congr 2
  apply Vector.toList_inj.mp
  simp [same]

/-- Up to the metadata, the fields are read as they were written; the metadata is read by its
length cut to two bytes. -/
theorem decodeBody_body_eq {e : WalEntry} (numbered : e.sequenceNumber < 2 ^ 64)
    (ns : e.ns.len < 2 ^ 16) (recordId : e.recordId.len < 2 ^ 16) (itemKey : e.itemKey.len < 2 ^ 16)
    (itemValue : e.itemValue.len < 2 ^ 32) :
    decodeBody e.body = (readVarU16
      (putVar 2 e.itemMetadata ++ e.idempotencyToken.data.toList)).bind fun (itemMetadata, rest) =>
      (readToken rest).bind fun idempotencyToken =>
        .ok { e.stored with itemMetadata, idempotencyToken } := by
  have long : ¬ e.body.length < fixedBodyOverhead := by
    have := e.bodySize_ge
    rw [length_body, fixedBodyOverhead]
    omega
  have number : e.body.take 8 = leBytes 8 e.sequenceNumber := List.take_left' (length_leBytes _ _)
  have kind : e.body.getD 8 0 = e.entryType.asU8 := by
    simp [body, List.getD_eq_getElem?_getD]
  have fields : e.body.drop 9 = putVar 2 e.ns ++ (putVar 2 e.recordId ++ (putVar 2 e.itemKey ++
      (putVar 4 e.itemValue ++ (putVar 2 e.itemMetadata ++ e.idempotencyToken.data.toList)))) := by
    simp [body, List.drop_append]
  have read := @fromLeBytes_leBytes 8 e.sequenceNumber numbered
  have first := @readVar_putVar 2 e.ns ns
  have second := @readVar_putVar 2 e.recordId recordId
  have third := @readVar_putVar 2 e.itemKey itemKey
  have fourth := @readVar_putVar 4 e.itemValue itemValue
  simp only [decodeBody, if_neg long, number, read, kind, readEntryType_asU8, fields, readVarU16,
    readVarU32, first,
    second, third, fourth, bind, Except.bind]
  rfl

theorem decodeBody_body {e : WalEntry} (storable : e.Storable) :
    decodeBody e.body = .ok e.stored := by
  obtain ⟨⟨ns, recordId, itemKey, itemMetadata, itemValue, -⟩, numbered⟩ := storable
  have metadata := @readVar_putVar 2 e.itemMetadata itemMetadata e.idempotencyToken.data.toList
  rw [decodeBody_body_eq numbered ns recordId itemKey itemValue, readVarU16, metadata]
  simp only [Except.bind, readToken_token]
  rfl

/-- The first eight bytes give the number, and nothing else depends on them. -/
theorem decodeBody_number {number : List UInt8} (length : number.length = 8) (fields : List UInt8) :
    decodeBody (number ++ fields) =
      (decodeBody (leBytes 8 0 ++ fields)).map fun e =>
        { e with sequenceNumber := fromLeBytes number } := by
  have total : ∀ number : List UInt8, number.length = 8 →
      (number ++ fields).length = 8 + fields.length := by
    intro number length
    rw [List.length_append, length]
  have first : ∀ number : List UInt8, number.length = 8 → (number ++ fields).take 8 = number :=
    fun _ length => List.take_left' length
  have kind : ∀ number : List UInt8, number.length = 8 →
      (number ++ fields).getD 8 0 = fields.getD 0 0 := by
    intro number length
    rw [List.getD_append_right _ _ _ _ length.le, length]
  have behind : ∀ number : List UInt8, number.length = 8 →
      (number ++ fields).drop 9 = fields.drop 1 := by
    intro number length
    rw [show 9 = number.length + 1 by omega, List.drop_append, ]
    simp
  have zero := length_leBytes 8 0
  simp only [decodeBody, total _ length, total _ zero, first _ length, kind _ length, kind _ zero,
    behind _ length, behind _ zero]
  split
  · rfl
  simp only [bind, Except.bind]
  rcases readEntryType (fields.getD 0 0) with e | entryType
  · rfl
  dsimp only
  rcases readVarU16 (fields.drop 1) with e | ⟨ns, rest⟩
  · rfl
  dsimp only
  rcases readVarU16 rest with e | ⟨recordId, rest⟩
  · rfl
  dsimp only
  rcases readVarU16 rest with e | ⟨itemKey, rest⟩
  · rfl
  dsimp only
  rcases readVarU32 rest with e | ⟨itemValue, rest⟩
  · rfl
  dsimp only
  rcases readVarU16 rest with e | ⟨itemMetadata, rest⟩
  · rfl
  dsimp only
  rcases readToken rest with e | idempotencyToken <;> rfl

/-- Where decoding succeeds, it gives the number that was written. -/
theorem decodeBody_reread {e : WalEntry} (decodes : e.Decodes)
    (numbered : e.sequenceNumber < 2 ^ 64) :
    decodeBody e.body = .ok e.reread := by
  have decoded := decodes.decoded
  have read := @fromLeBytes_leBytes 8 e.sequenceNumber numbered
  have number := decodeBody_number (length_leBytes 8 e.sequenceNumber)
  rw [reread]
  rw [body, number] at decoded ⊢
  generalize decodeBody _ = given at decoded ⊢
  cases given with
  | error err => cases decoded
  | ok entry =>
    simp only [Except.map, Except.toOption, Option.getD_some, read]

theorem reread_stored {e : WalEntry} (storable : e.Storable) : e.reread = e.stored := by
  simp only [reread, decodeBody_body storable, Except.toOption, Option.getD_some]
  rfl

/-- Whether an entry can be read back does not depend on its number. -/
theorem Decodes.renumbered {e : WalEntry} (h : e.Decodes) (number : Nat) :
    Decodes { e with sequenceNumber := number } := by
  refine ⟨h.sized, ?_⟩
  have decoded := h.decoded
  rw [body, decodeBody_number (length_leBytes 8 _)] at decoded ⊢
  generalize decodeBody _ = given at decoded ⊢
  cases given with
  | error err => cases decoded
  | ok entry => rfl

/-- Metadata of any length is read back, if cut. -/
theorem decodes_of_lengths {e : WalEntry} (ns : e.ns.len < 2 ^ 16)
    (recordId : e.recordId.len < 2 ^ 16) (itemKey : e.itemKey.len < 2 ^ 16)
    (sized : e.bodySize < 2 ^ 32) : e.Decodes := by
  have value : e.itemValue.len < 2 ^ 32 := by
    simp only [bodySize] at sized
    omega
  have numberless := @decodeBody_body_eq { e with sequenceNumber := 0 }
    (show 0 < 2 ^ 64 by decide) ns recordId itemKey value
  obtain ⟨metadata, left, read, enough⟩ := readVar_cut 2 e.itemMetadata e.idempotencyToken.data.toList
  rw [Vector.length_toList] at enough
  have decodes : Decodes { e with sequenceNumber := 0 } := by
    refine ⟨sized, ?_⟩
    rw [numberless]
    simp only [readVarU16, read, Except.bind, readToken, dif_pos enough]
    rfl
  exact decodes.renumbered e.sequenceNumber

theorem Fits.decodes {e : WalEntry} (fits : e.Fits) : e.Decodes := by
  obtain ⟨ns, recordId, itemKey, -, -, sized⟩ := fits
  exact decodes_of_lengths ns recordId itemKey sized

/-- The fields of what is decoded are as long as their lengths can say. -/
theorem decodeBody_lengths {body : List UInt8} {e : WalEntry} (h : decodeBody body = .ok e) :
    e.ns.len < 2 ^ 16 ∧ e.recordId.len < 2 ^ 16 ∧ e.itemKey.len < 2 ^ 16 ∧
      e.itemMetadata.len < 2 ^ 16 ∧ e.itemValue.len < 2 ^ 32 := by
  unfold decodeBody at h
  split at h
  · cases h
  · obtain ⟨entryType, -, h⟩ := bind_ok h
    obtain ⟨⟨ns, rest⟩, first, h⟩ := bind_ok h
    obtain ⟨⟨recordId, rest⟩, second, h⟩ := bind_ok h
    obtain ⟨⟨itemKey, rest⟩, third, h⟩ := bind_ok h
    obtain ⟨⟨itemValue, rest⟩, fourth, h⟩ := bind_ok h
    obtain ⟨⟨itemMetadata, rest⟩, fifth, h⟩ := bind_ok h
    obtain ⟨token, -, h⟩ := bind_ok h
    obtain rfl := Except.ok.inj h
    exact ⟨readVar_lt first, readVar_lt second, readVar_lt third, readVar_lt fifth, readVar_lt fourth⟩

/-- What is read back as it was written fits. -/
theorem fits_of_reread {e : WalEntry} (decodes : e.Decodes) (same : e.reread = e.stored) :
    e.Fits := by
  have decoded := decodes.decoded
  cases given : decodeBody e.body with
  | error err =>
    rw [given] at decoded
    cases decoded
  | ok entry =>
    have read : { entry with sequenceNumber := e.sequenceNumber } = e.stored := by
      rw [← same, reread, given]
      rfl
    obtain ⟨ns, recordId, itemKey, metadata, value⟩ := decodeBody_lengths given
    refine ⟨?_, ?_, ?_, ?_, ?_, decodes.sized⟩
    · exact (congrArg (fun x => x.ns.len) read) ▸ ns
    · exact (congrArg (fun x => x.recordId.len) read) ▸ recordId
    · exact (congrArg (fun x => x.itemKey.len) read) ▸ itemKey
    · exact (congrArg (fun x => x.itemMetadata.len) read) ▸ metadata
    · exact (congrArg (fun x => x.itemValue.len) read) ▸ value

end WalEntry

end FlushDB
