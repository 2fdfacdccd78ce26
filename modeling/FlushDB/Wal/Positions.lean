import FlushDB.Lib.Checked
import FlushDB.Wal.Corruption

/-!
The reader of a segment as it moves through the file: a position in the bytes, every index, slice
and sum of positions checked. It never stops on them, whatever the bytes are, and gives what the
reader of the remaining bytes gives.
-/

namespace FlushDB
open Lib

/-- The reader by its position in the file. -/
structure SegmentCursor where
  data : List UInt8
  header : SegmentHeader
  position : Nat

namespace SegmentCursor
open Checked

/-- `read_var_u16` and `read_var_u32`: the field, and the position behind it. -/
def readVar (width : Nat) (body : List UInt8) (pos : Nat) : Checked FlushError (Bytes × Nat) := do
  let behind ← add pos width
  if behind > body.length then outcome (.error (.corruptedData "WAL entry field length exceeds body"))
  else
    let length ← elements body pos 0 width
    let start ← add pos width
    let stop ← add start (fromLeBytes length)
    if stop > body.length then outcome (.error (.corruptedData "WAL entry field length exceeds body"))
    else
      let field ← slice body start stop
      return (⟨field⟩, stop)

def readVarU16 : List UInt8 → Nat → Checked FlushError (Bytes × Nat) := readVar 2
def readVarU32 : List UInt8 → Nat → Checked FlushError (Bytes × Nat) := readVar 4

def readFixed (width : Nat) (data : List UInt8) (pos : Nat) : Option (List UInt8) := do
  let stop ← add pos width
  slice data pos stop

/-- `IdempotencyToken::from_bytes`, whose only error is an invalid argument. -/
def tokenFromBytes (bytes : List UInt8) : Except String IdempotencyToken :=
  if sized : bytes.length = 24 then .ok ⟨⟨bytes.toArray, by simp [sized]⟩⟩
  else .error s!"IdempotencyToken requires exactly 24 bytes, got {bytes.length}"

def readToken (body : List UInt8) (pos : Nat) : Checked FlushError IdempotencyToken := do
  let behind ← add pos 24
  if behind > body.length then outcome (.error (.corruptedData "WAL entry field length exceeds body"))
  else
    let bytes ← readFixed 24 body pos
    match tokenFromBytes bytes with
    | .ok token => return token
    | .error message =>
      outcome (.error (.corruptedData s!"invalid idempotency token: invalid argument: {message}"))

def decodeBody (body : List UInt8) : Checked FlushError WalEntry :=
  if body.length < WalEntry.fixedBodyOverhead then
    outcome (.error (.corruptedData "WAL entry body too short"))
  else do
    let number ← readFixed 8 body 0
    let pos ← add 0 8
    let kind ← (element body pos : Option UInt8)
    let entryType ← outcome (WalEntry.readEntryType kind)
    let pos ← add pos 1
    let (ns, pos) ← readVarU16 body pos
    let (recordId, pos) ← readVarU16 body pos
    let (itemKey, pos) ← readVarU16 body pos
    let (itemValue, pos) ← readVarU32 body pos
    let (itemMetadata, pos) ← readVarU16 body pos
    let idempotencyToken ← readToken body pos
    return { sequenceNumber := fromLeBytes number, entryType, ns, recordId, itemKey, itemValue,
             itemMetadata
             idempotencyToken, origin := 0 }

def readEntryLength (data : List UInt8) : Checked FlushError Nat :=
  if data.length < 4 then outcome (.error (.corruptedData "WAL entry too short for length prefix"))
  else do
    let bytes ← elements data 0 0 4
    return fromLeBytes bytes

def isTailCorruption (data : List UInt8) (start : Nat) : Option Bool :=
  if start ≥ data.length then some true
  else do
    let remaining ← sliceFrom data start
    return remaining.length < 8 || remaining.all (· = 0)

def openFile (path : String) (data : List UInt8) : FlushResult SegmentCursor :=
  if data.length < segmentHeaderSize then
    .error (.corruptedData s!"segment file too short for header: {data.length} bytes in {path}")
  else do
    let header ← SegmentHeader.decode data
    return { data, header, position := segmentHeaderSize }

def nextEntry (crc32 : List UInt8 → UInt32) (r : SegmentCursor) :
    Checked FlushError (Option (WalEntry × SegmentCursor)) := do
  let remaining ← sliceFrom r.data r.position
  if remaining.length < 4 then return none
  else
    let entryLength ← readEntryLength remaining
    if entryLength = 0 then return none
    else
      let bodyEnd ← add 4 entryLength
      let needed ← add bodyEnd 4
      if remaining.length < needed then return none
      else
        let body ← slice remaining 4 bodyEnd
        let stored ← elements remaining bodyEnd 0 4
        match WalEntry.validateCrc crc32 body (fromLeBytes stored) with
        | .ok () =>
          let entry ← decodeBody body
          let position ← add r.position needed
          return some (entry, { r with position })
        | .error crcErr =>
          let afterPos ← add r.position needed
          let tail ← isTailCorruption r.data afterPos
          if tail then return none else outcome (.error crcErr)

/-- Where the rest of a body begins. -/
def positionOf (body rest : List UInt8) : Nat := body.length - rest.length

section
variable {body rest : List UInt8}

theorem drop_positionOf (suffix : rest <:+ body) : body.drop (positionOf body rest) = rest :=
  drop_offset suffix

theorem positionOf_add (suffix : rest <:+ body) :
    positionOf body rest + rest.length = body.length :=
  offset_add suffix

theorem positionOf_drop {n : Nat} (suffix : rest <:+ body) (inside : n ≤ rest.length) :
    positionOf body (rest.drop n) = positionOf body rest + n := offset_drop suffix inside

theorem readVar_suffix {width : Nat} {field : Bytes} {left : List UInt8}
    (h : WalEntry.readVar width rest = .ok (field, left)) : left <:+ rest := by
  unfold WalEntry.readVar at h
  split at h
  · cases h
  · dsimp only at h
    split at h
    · cases h
    · cases h
      exact (List.drop_suffix _ _).trans (List.drop_suffix _ _)

/-- A field is read where it stands as it is read from the rest of the body. -/
theorem readVar_at {width : Nat} (narrow : width ≤ 4) (suffix : rest <:+ body)
    (small : body.length < 2 ^ 32) :
    readVar width body (positionOf body rest) =
      outcome ((WalEntry.readVar width rest).map fun read => (read.1, positionOf body read.2)) := by
  have length := positionOf_add suffix
  have dropped := drop_positionOf suffix
  unfold readVar WalEntry.readVar
  rw [add_inside (by omega), some_bind]
  by_cases short : rest.length < width
  · rw [if_pos (by omega), if_pos short]
    rfl
  · have bytes := @elements_inside UInt8 body (by omega) (positionOf body rest) 0 width (by omega)
    rw [Nat.add_zero, dropped] at bytes
    have few : fromLeBytes (rest.take width) < 256 ^ 4 :=
      (fromLeBytes_lt (List.length_take_of_le (by omega))).trans_le (Nat.pow_le_pow_right (by decide) narrow)
    rw [if_neg (by omega), if_neg short, bytes, some_bind, some_bind, add_inside (by omega), some_bind]
    dsimp only
    by_cases cut : (rest.drop width).length < fromLeBytes (rest.take width)
    · rw [List.length_drop] at cut
      rw [if_pos (by omega), if_pos (by rw [List.length_drop]; exact cut)]
      rfl
    · have enough := cut
      rw [List.length_drop] at enough
      have field := @slice_inside UInt8 body (positionOf body rest + width)
        (positionOf body rest + width + fromLeBytes (rest.take width)) (by omega) (by omega)
      have behind := positionOf_drop ((List.drop_suffix width rest).trans suffix) (Nat.le_of_not_lt cut)
      rw [positionOf_drop suffix (by omega)] at behind
      rw [Nat.add_sub_cancel_left, ← List.drop_drop, dropped] at field
      rw [if_neg (by omega), if_neg cut, field, some_bind]
      simp only [Except.map, behind]
      rfl

/-- What follows a field goes on behind it. -/
theorem readVar_bind {α : Type} {width : Nat} (narrow : width ≤ 4) (suffix : rest <:+ body)
    (small : body.length < 2 ^ 32) {f : Bytes × Nat → Checked FlushError α}
    {g : Bytes × List UInt8 → FlushResult α}
    (later : ∀ field left, left <:+ body → f (field, positionOf body left) = outcome (g (field, left))) :
    (readVar width body (positionOf body rest) >>= f) =
      outcome (WalEntry.readVar width rest >>= g) := by
  rw [readVar_at narrow suffix small]
  refine outcome_map_bind fun read given => ?_
  exact later read.1 read.2 ((readVar_suffix given).trans suffix)

theorem readToken_at (suffix : rest <:+ body) (small : body.length < 2 ^ 32) :
    readToken body (positionOf body rest) = outcome (WalEntry.readToken rest) := by
  have length := positionOf_add suffix
  unfold readToken WalEntry.readToken readFixed
  rw [add_inside (by omega), some_bind]
  by_cases whole : 24 ≤ rest.length
  · have bytes := @slice_inside UInt8 body (positionOf body rest)
      (positionOf body rest + 24) (by omega) (by omega)
    rw [Nat.add_sub_cancel_left, drop_positionOf suffix] at bytes
    have sized : (rest.take 24).length = 24 := List.length_take_of_le whole
    rw [if_neg (by omega), dif_pos whole]
    simp only [bind, Option.bind, bytes]
    show (match tokenFromBytes (rest.take 24) with | .ok token => _ | .error message => _) = _
    rw [tokenFromBytes, dif_pos sized]
    rfl
  · rw [if_pos (by omega), dif_neg whole]

/-- A body of at most 32 bits of length is decoded without a stop. -/
theorem decodeBody_total (small : body.length < 2 ^ 32) :
    decodeBody body = outcome (WalEntry.decodeBody body) := by
  unfold decodeBody WalEntry.decodeBody
  by_cases short : body.length < WalEntry.fixedBodyOverhead
  · rw [if_pos short, if_pos short]
  · rw [if_neg short, if_neg short]
    simp only [WalEntry.fixedBodyOverhead] at short
    have inside : 8 < body.length := by omega
    have number : readFixed 8 body 0 = some (body.take 8) := by
      rw [readFixed, add_inside (by decide)]
      exact slice_inside (by decide) inside.le
    have kind : element body 8 = some (body.getD 8 0) := by
      rw [element, List.getElem?_eq_getElem inside, List.getD_eq_getElem?_getD,
        List.getElem?_eq_getElem inside]
      rfl
    have nine : 8 + 1 = positionOf body (body.drop 9) := by
      rw [positionOf, List.length_drop]
      omega
    -- every field is read at the position where the rest of the body begins
    rw [number, some_bind, add_inside (by decide), some_bind, kind, some_bind]
    refine outcome_bind fun entryType _ => ?_
    rw [add_inside (by decide), some_bind, nine]
    refine readVar_bind (by decide) (List.drop_suffix 9 body) small fun ns rest suffix => ?_
    refine readVar_bind (by decide) suffix small fun recordId rest suffix => ?_
    refine readVar_bind (by decide) suffix small fun itemKey rest suffix => ?_
    refine readVar_bind (by decide) suffix small fun itemValue rest suffix => ?_
    refine readVar_bind (by decide) suffix small fun itemMetadata rest suffix => ?_
    dsimp only
    rw [readToken_at suffix small]
    exact outcome_bind fun token _ => rfl

end

theorem isTailCorruption_total (data : List UInt8) (start : Nat) :
    isTailCorruption data start = some (FlushDB.isTailCorruption (data.drop start)) := by
  unfold isTailCorruption
  split
  · rename_i beyond
    rw [List.drop_eq_nil_of_le beyond]
    rfl
  · rename_i inside
    rw [sliceFrom_inside (by omega)]
    have some : (data.drop start).isEmpty = false := by
      rw [List.isEmpty_eq_false_iff, ← List.length_pos_iff, List.length_drop]
      omega
    simp only [FlushDB.isTailCorruption, some, Bool.false_or]
    rfl

/-- The reader of the bytes that are left. -/
def behind (r : SegmentCursor) : SegmentReader := ⟨r.header, r.data.drop r.position⟩

def movedTo (r : SegmentCursor) (remaining : List UInt8) : SegmentCursor :=
  { r with position := positionOf r.data remaining }

section
variable {crc32 : List UInt8 → UInt32} {r : SegmentCursor}

/-- The next entry is read without a stop, and it is the next entry of the bytes that are left. -/
theorem nextEntry_total (inside : r.position ≤ r.data.length) (small : r.data.length < 2 ^ 64) :
    nextEntry crc32 r =
      outcome ((r.behind.nextEntry crc32).map (Option.map fun given =>
        (given.1, r.movedTo given.2.remaining))) := by
  have here : r.behind.remaining = r.data.drop r.position := rfl
  have length : (r.data.drop r.position).length = r.data.length - r.position := List.length_drop
  unfold nextEntry SegmentReader.nextEntry
  rw [sliceFrom_inside inside, some_bind, here]
  by_cases short : (r.data.drop r.position).length < 4
  · rw [if_pos short, if_pos short]
    rfl
  have prefixed : readEntryLength (r.data.drop r.position) =
      outcome (.ok (fromLeBytes ((r.data.drop r.position).take 4))) := by
    have bytes := @elements_inside UInt8 (r.data.drop r.position) (by omega) 0 0 4 (by omega)
    rw [readEntryLength, if_neg short, bytes]
    rfl
  have few : fromLeBytes ((r.data.drop r.position).take 4) < 256 ^ 4 :=
    fromLeBytes_lt (List.length_take_of_le (by omega))
  rw [if_neg short, if_neg short, prefixed, ok_bind]
  dsimp only
  generalize announcedLength : fromLeBytes ((r.data.drop r.position).take 4) = entryLength at few
  by_cases zero : entryLength = 0
  · rw [if_pos zero, if_pos zero]
    rfl
  rw [if_neg zero, if_neg zero, add_inside (by omega), some_bind, add_inside (by omega), some_bind]
  by_cases cut : (r.data.drop r.position).length < 4 + entryLength + 4
  · rw [if_pos cut, if_pos cut]
    rfl
  have body := @slice_inside UInt8 (r.data.drop r.position) 4 (4 + entryLength) (by omega) (by omega)
  have stored := @elements_inside UInt8 (r.data.drop r.position) (by omega) (4 + entryLength) 0 4 (by omega)
  rw [Nat.add_sub_cancel_left] at body
  rw [Nat.add_zero] at stored
  rw [if_neg cut, if_neg cut, body, some_bind, stored, some_bind]
  cases WalEntry.validateCrc crc32 (((r.data.drop r.position).drop 4).take entryLength)
      (fromLeBytes (((r.data.drop r.position).drop (4 + entryLength)).take 4)) with
  | ok u =>
    have sized : (((r.data.drop r.position).drop 4).take entryLength).length < 2 ^ 32 := by
      rw [List.length_take]
      omega
    have behindEntry : positionOf r.data ((r.data.drop r.position).drop (4 + entryLength + 4)) =
        r.position + (4 + entryLength + 4) := by
      rw [positionOf, List.length_drop, length]
      omega
    dsimp only
    rw [decodeBody_total sized]
    cases WalEntry.decodeBody (((r.data.drop r.position).drop 4).take entryLength) with
    | error e => rfl
    | ok entry =>
      rw [ok_bind, add_inside (by omega), some_bind]
      simp only [Except.map, Option.map, movedTo, behindEntry]
      rfl
  | error crcErr =>
    dsimp only
    rw [add_inside (by omega), some_bind, isTailCorruption_total, some_bind, ← List.drop_drop]
    cases FlushDB.isTailCorruption ((r.data.drop r.position).drop (4 + entryLength + 4)) with
    | true => rfl
    | false => rfl

/-- The reader that has read an entry stands inside its file, behind the entry. -/
theorem behind_movedTo {entry : WalEntry} {next : SegmentReader}
    (inside : r.position ≤ r.data.length)
    (given : r.behind.nextEntry crc32 = .ok (some (entry, next))) :
    (r.movedTo next.remaining).behind = next ∧ (r.movedTo next.remaining).position ≤ r.data.length ∧
      r.position ≤ (r.movedTo next.remaining).position := by
  have left := SegmentReader.nextEntry_shorter given
  obtain ⟨header, suffix⟩ : next.header = r.header ∧ next.remaining <:+ r.behind.remaining := by
    rcases @SegmentReader.nextEntry_cases crc32 r.behind with ⟨-, ended⟩ | ⟨-, -, read⟩ | ⟨-, -, e,
      failed⟩
    · rw [ended] at given
      cases given
    · rcases read with ⟨entry', -, found⟩ | ⟨e, -, failed⟩
      · rw [found] at given
        cases given
        exact ⟨rfl, List.drop_suffix _ _⟩
      · rw [failed] at given
        cases given
    · rw [failed] at given
      cases given
  have length : r.behind.remaining.length = r.data.length - r.position := List.length_drop
  have whole : next.remaining <:+ r.data := suffix.trans (List.drop_suffix _ _)
  refine ⟨?_, Nat.sub_le _ _, ?_⟩
  · simp only [behind, movedTo, drop_positionOf whole, ← header]
  · simp only [movedTo, positionOf]
    omega

end

end SegmentCursor

/-- `SegmentEntryIterator` over the cursor. -/
structure SegmentCursorIterator where
  reader : SegmentCursor
  done : Bool := false

def SegmentCursor.entries (r : SegmentCursor) : SegmentCursorIterator := { reader := r }

namespace SegmentCursorIterator

/-- What a call gives, and the iterator after it; nothing where the call would stop. -/
def next (crc32 : List UInt8 → UInt32) (it : SegmentCursorIterator) :
    Option (Option (FlushResult WalEntry) × SegmentCursorIterator) :=
  if it.done then some (none, it)
  else
    match it.reader.nextEntry crc32 with
    | none => none
    | some (.ok (some (entry, reader))) => some (some (.ok entry), { it with reader })
    | some (.ok none) => some (none, { it with done := true })
    | some (.error e) => some (some (.error e), { it with done := true })

/-- What so many calls give, one after another. -/
def calls (crc32 : List UInt8 → UInt32) :
    Nat → SegmentCursorIterator → Option (List (Option (FlushResult WalEntry)))
  | 0, _ => some []
  | n + 1, it => do
    let (given, it) ← next crc32 it
    let rest ← calls crc32 n it
    return given :: rest

variable {crc32 : List UInt8 → UInt32}

theorem calls_done (n : Nat) (r : SegmentCursor) :
    calls crc32 n ⟨r, true⟩ = some (List.replicate n none) := by
  induction n with
  | zero => rfl
  | succ n ih =>
    have step : next crc32 ⟨r, true⟩ = some (none, ⟨r, true⟩) := rfl
    simp only [calls, step, ih, bind, Option.bind, List.replicate_succ]
    rfl

theorem map_range_cons {α : Type} (a : α) (rest : List α) (n : Nat) :
    (List.range (n + 1)).map (fun i => (a :: rest)[i]?) =
      some a :: (List.range n).map (fun i => rest[i]?) := by
  rw [List.range_succ_eq_map, List.map_cons, List.map_map]
  rfl

theorem map_range_nil {α : Type} (n : Nat) :
    (List.range n).map (fun i => ([] : List α)[i]?) = List.replicate n none := by
  simp

/-- However often it is called, the iterator gives the results in their order, and nothing after
them. -/
theorem calls_entries {r : SegmentCursor} (inside : r.position ≤ r.data.length)
    (small : r.data.length < 2 ^ 64) (n : Nat) :
    calls crc32 n r.entries = some ((List.range n).map fun i => (r.behind.results crc32)[i]?) := by
  induction n generalizing r with
  | zero => rfl
  | succ n ih =>
    have total := @SegmentCursor.nextEntry_total crc32 r inside small
    cases given : r.behind.nextEntry crc32 with
    | error e =>
      rw [given] at total
      have step : next crc32 r.entries = some (some (.error e), ⟨r, true⟩) := by
        simp only [next, SegmentCursor.entries, Bool.false_eq_true, if_false, total]
        rfl
      rw [SegmentReader.results_error given, map_range_cons, map_range_nil]
      simp only [calls, step, bind, Option.bind, calls_done]
      rfl
    | ok found =>
      cases found with
      | none =>
        rw [given] at total
        have step : next crc32 r.entries = some (none, ⟨r, true⟩) := by
          simp only [next, SegmentCursor.entries, Bool.false_eq_true, if_false, total]
          rfl
        rw [SegmentReader.results_none given, map_range_nil, List.replicate_succ]
        simp only [calls, step, bind, Option.bind, calls_done]
        rfl
      | some pair =>
        obtain ⟨entry, left⟩ := pair
        rw [given] at total
        have step : next crc32 r.entries = some (some (.ok entry),
            (r.movedTo left.remaining).entries) := by
          simp only [next, SegmentCursor.entries, Bool.false_eq_true, if_false, total]
          rfl
        obtain ⟨same, moved, -⟩ := SegmentCursor.behind_movedTo inside given
        have later := @ih (r.movedTo left.remaining) moved small
        rw [same] at later
        rw [SegmentReader.results_some given, map_range_cons]
        simp only [calls, step, bind, Option.bind, later]
        rfl

end SegmentCursorIterator

namespace SegmentCursor
open Checked
variable {crc32 : List UInt8 → UInt32}

/-- At some position behind the header stands a length, so many bytes that decode to the entry, and
their checksum. -/
def Framed (crc32 : List UInt8 → UInt32) (data : List UInt8) (entry : WalEntry) : Prop :=
  ∃ position length body, segmentHeaderSize ≤ position ∧ position + 4 + length + 4 ≤ data.length ∧
    length = fromLeBytes ((data.drop position).take 4) ∧
      body = (data.drop (position + 4)).take length ∧
    (crc32 body).toNat = fromLeBytes ((data.drop (position + 4 + length)).take 4) ∧
      decodeBody body = outcome (.ok entry)

theorem framed_of_given {r : SegmentCursor} {entry : WalEntry} {next : SegmentReader}
    (behindHeader : segmentHeaderSize ≤ r.position) (inside : r.position ≤ r.data.length)
    (given : r.behind.nextEntry crc32 = .ok (some (entry, next))) :
    Framed crc32 r.data entry := by
  have length : r.behind.remaining.length = r.data.length - r.position := List.length_drop
  have here : r.behind.remaining = r.data.drop r.position := rfl
  rcases @SegmentReader.nextEntry_cases crc32 r.behind with ⟨-, ended⟩ | ⟨going, holds, read⟩ | ⟨-,
    -, e, failed⟩
  · rw [ended] at given
    cases given
  · rcases read with ⟨entry', decoded, found⟩ | ⟨e, -, failed⟩
    · rw [found] at given
      cases given
      simp only [SegmentReader.TakenForEnd, not_or] at going
      obtain ⟨long, -, enough, -⟩ := going
      rw [SegmentReader.ChecksumHolds, here, List.drop_drop, List.drop_drop] at holds
      rw [here, List.drop_drop] at decoded
      rw [here] at enough long
      rw [← here, length, here] at enough
      have few : SegmentReader.announced (r.data.drop r.position) < 256 ^ 4 :=
        fromLeBytes_lt (List.length_take_of_le (by omega))
      have sized : ((r.data.drop (r.position + 4)).take
          (SegmentReader.announced (r.data.drop r.position))).length < 2 ^ 32 := by
        rw [List.length_take]
        omega
      refine ⟨r.position, _, _, behindHeader, ?_, rfl, rfl, ?_, ?_⟩
      · simp only [SegmentReader.announced] at enough ⊢
        omega
      · rw [Nat.add_assoc]
        exact holds
      · rw [← SegmentReader.announced, decodeBody_total sized, decoded]
    · rw [failed] at given
      cases given
  · rw [failed] at given
    cases given

theorem framed_of_result {r : SegmentCursor} (behindHeader : segmentHeaderSize ≤ r.position)
    (inside : r.position ≤ r.data.length) {entry : WalEntry}
    (listed : .ok entry ∈ r.behind.results crc32) : Framed crc32 r.data entry := by
  generalize size : r.behind.remaining.length = n
  induction n using Nat.strong_induction_on generalizing r with
  | _ n ih =>
    cases given : r.behind.nextEntry crc32 with
    | error e =>
      rw [SegmentReader.results_error given, List.mem_singleton] at listed
      cases listed
    | ok found =>
      cases found with
      | none =>
        rw [SegmentReader.results_none given] at listed
        cases listed
      | some pair =>
        obtain ⟨first, left⟩ := pair
        rw [SegmentReader.results_some given, List.mem_cons] at listed
        rcases listed with same | later
        · cases same
          exact framed_of_given behindHeader inside given
        · obtain ⟨same, moved, further⟩ := behind_movedTo inside given
          have shorter := SegmentReader.nextEntry_shorter given
          rw [← same] at later
          exact @ih left.remaining.length
            (by omega) (r.movedTo left.remaining) (behindHeader.trans further) moved later
            (by rw [same])

theorem results_length (r : SegmentReader) : (r.results crc32).length ≤ r.remaining.length + 1 := by
  generalize size : r.remaining.length = n
  induction n using Nat.strong_induction_on generalizing r with
  | _ n ih =>
    cases given : r.nextEntry crc32 with
    | error e =>
      rw [SegmentReader.results_error given, List.length_singleton]
      omega
    | ok found =>
      cases found with
      | none =>
        rw [SegmentReader.results_none given]
        exact Nat.zero_le _
      | some pair =>
        have shorter := SegmentReader.nextEntry_shorter given
        have rest := ih pair.2.remaining.length (by omega) pair.2 rfl
        rw [SegmentReader.results_some given, List.length_cons]
        omega

/-- A file with a header that can be decoded is read to an end: the calls give finitely many results
and then nothing, none of them stops, and an entry among the results is the decoding of a body
whose checksum stands behind it. -/
theorem iteration_total_and_sound (crc32 : List UInt8 → UInt32) (path : String) {data : List UInt8}
    {header : SegmentHeader} (long : segmentHeaderSize ≤ data.length) (small : data.length < 2 ^ 64)
    (decodes : SegmentHeader.decode data = .ok header) :
    ∃ (reader : SegmentCursor) (results : List (FlushResult WalEntry)),
      openFile path data = .ok reader ∧ results.length ≤ data.length ∧
      (∀ n, SegmentCursorIterator.calls crc32 n reader.entries =
        some ((List.range n).map fun i => results[i]?)) ∧
      ∀ entry, .ok entry ∈ results → Framed crc32 data entry := by
  let reader : SegmentCursor := { data, header, position := segmentHeaderSize }
  have opens : openFile path data = .ok reader := by
    rw [openFile, if_neg (by omega), decodes]
    rfl
  refine ⟨reader, reader.behind.results crc32, opens, ?_, ?_, ?_⟩
  · have bound := @results_length crc32 reader.behind
    have left : reader.behind.remaining.length = data.length - segmentHeaderSize := List.length_drop
    simp only [segmentHeaderSize] at long left
    omega
  · exact fun n => SegmentCursorIterator.calls_entries long small n
  · exact fun entry listed => framed_of_result (le_refl _) long listed

/-- An entry, and behind it a length that reaches beyond the end. -/
def cutSegment : List UInt8 :=
  (SegmentHeader.new 1 1 0).encode ++ ((SegmentReader.tornEntry 1).encodeInto
    Lib.crc32 ++ [0xFF, 0xFF, 0xFF, 0xFF, 0])

theorem iteration_total_and_sound_cut :
    ∃ (reader : SegmentCursor) (results : List (FlushResult WalEntry)),
      openFile "segment" cutSegment = .ok reader ∧
      SegmentCursorIterator.calls Lib.crc32 3 reader.entries =
        some ((List.range 3).map fun i => results[i]?) ∧
      ∀ entry, .ok entry ∈ results → Framed Lib.crc32 cutSegment entry := by
  obtain ⟨reader, results, opens, -, calls, framed⟩ :=
    @iteration_total_and_sound Lib.crc32 "segment" cutSegment
    (SegmentHeader.new 1 1 0) (by decide) (by decide) (by decide)
  exact ⟨reader, results, opens, calls 3, framed⟩

end SegmentCursor

end FlushDB
