import Mathlib.Order.Bounds.Basic
import FlushDB.Lib.Checksum
import FlushDB.Lib.Run
import FlushDB.Wal.EntryBytes

/-!
The bytes of a segment: a header and one entry after another. A reader that meets a segment
cut off anywhere behind its header gives the entries that are whole and stops there.
-/

namespace FlushDB
open Lib

/-- `FWAL`. -/
def walMagic : List UInt8 := [0x46, 0x57, 0x41, 0x4C]

def walVersion : UInt8 := 1

def segmentFilename (segmentNumber : Nat) : String :=
  let digits := toString segmentNumber
  "segment-".pushn '0' (12 - digits.length) ++ digits ++ ".wal"

def segmentPath (dir : String) (segmentNumber : Nat) : String :=
  dir ++ "/" ++ segmentFilename segmentNumber

structure SegmentHeader where
  segmentNumber : Nat
  startingSequenceNumber : Nat
  createdAtMs : Nat
  deriving DecidableEq

namespace SegmentHeader

/-- `now` is the clock in milliseconds. -/
def new (segmentNumber startingSequenceNumber now : Nat) : SegmentHeader :=
  { segmentNumber, startingSequenceNumber, createdAtMs := now % 2 ^ 64 }

/-- Behind the version stand the flags and two reserved bytes. -/
def encode (h : SegmentHeader) : List UInt8 :=
  walMagic ++ ([walVersion, 0, 0, 0] ++
    (leBytes 8 h.segmentNumber ++ (leBytes 8 h.startingSequenceNumber ++ leBytes 8 h.createdAtMs)))

def decode (data : List UInt8) : FlushResult SegmentHeader :=
  if data.length < segmentHeaderSize then .error (.corruptedData "segment header too short")
  else if data.take 4 ≠ walMagic then .error (.corruptedData "invalid WAL segment magic")
  else if data.getD 4 0 ≠ walVersion then
    .error (.corruptedData s!"unsupported WAL segment version: {data.getD 4 0}")
  else .ok
    { segmentNumber := fromLeBytes ((data.drop 8).take 8)
      startingSequenceNumber := fromLeBytes ((data.drop 16).take 8)
      createdAtMs := fromLeBytes ((data.drop 24).take 8) }

@[simp]
theorem length_encode (h : SegmentHeader) : h.encode.length = segmentHeaderSize := by
  simp [encode, walMagic, segmentHeaderSize]

theorem decode_encode {h : SegmentHeader} (starts : h.startingSequenceNumber < 2 ^ 64)
    (rest : List UInt8) :
    ∃ read, decode (h.encode ++ rest) = .ok read ∧
      read.startingSequenceNumber = h.startingSequenceNumber := by
  have long : ¬ (h.encode ++ rest).length < segmentHeaderSize := by
    rw [List.length_append, length_encode]
    omega
  have magic : (h.encode ++ rest).take 4 = walMagic := by simp [encode, walMagic]
  have version : (h.encode ++ rest).getD 4 0 = walVersion := by simp [encode, walMagic]
  have starting : ((h.encode ++ rest).drop 16).take 8 = leBytes 8 h.startingSequenceNumber := by
    simp [encode, walMagic]
  have number := @fromLeBytes_leBytes 8 h.startingSequenceNumber starts
  refine ⟨{ segmentNumber := fromLeBytes (((h.encode ++ rest).drop 8).take 8)
            startingSequenceNumber := h.startingSequenceNumber
            createdAtMs := fromLeBytes (((h.encode ++ rest).drop 24).take 8) }, ?_, rfl⟩
  simp only [decode, if_neg long, magic, version, starting, number, ne_eq, not_true, if_false]

end SegmentHeader

def encodeAll (crc32 : List UInt8 → UInt32) (entries : List WalEntry) : List UInt8 :=
  entries.flatMap (WalEntry.encodeInto crc32)

/-- `file` is what has been written. -/
structure SegmentWriter where
  file : List UInt8
  segmentNumber : Nat
  currentSize : Nat
  entryCount : Nat

namespace SegmentWriter

def create (segmentNumber startingSequence now : Nat) : SegmentWriter where
  file := (SegmentHeader.new segmentNumber startingSequence now).encode
  segmentNumber := segmentNumber
  currentSize := segmentHeaderSize
  entryCount := 0

/-- The offset of the entry, and the writer behind it. -/
def append (crc32 : List UInt8 → UInt32) (w : SegmentWriter) (entry : WalEntry) :
    Nat × SegmentWriter :=
  let encoded := entry.encodeInto crc32
  (w.currentSize, { w with
    file := w.file ++ encoded
    currentSize := w.currentSize + encoded.length
    entryCount := w.entryCount + 1 })

def appendBatch (crc32 : List UInt8 → UInt32) (w : SegmentWriter) (entries : List WalEntry) :
    SegmentWriter :=
  let buf := encodeAll crc32 entries
  { w with
    file := w.file ++ buf
    currentSize := w.currentSize + buf.length
    entryCount := w.entryCount + entries.length }

end SegmentWriter

/-- The position is kept as the bytes from it on. -/
structure SegmentReader where
  header : SegmentHeader
  remaining : List UInt8

structure SegmentEntryIterator where
  reader : SegmentReader
  done : Bool := false

/-- Whether nothing that could be an entry follows. -/
def isTailCorruption (rest : List UInt8) : Bool :=
  rest.isEmpty || (rest.length < 8 || rest.all (· = 0))

namespace SegmentReader

def openFile (path : String) (data : List UInt8) : FlushResult SegmentReader :=
  if data.length < segmentHeaderSize then
    .error (.corruptedData s!"segment file too short for header: {data.length} bytes in {path}")
  else do
    let header ← SegmentHeader.decode data
    return { header, remaining := data.drop segmentHeaderSize }

def nextEntry (crc32 : List UInt8 → UInt32) (r : SegmentReader) :
    FlushResult (Option (WalEntry × SegmentReader)) :=
  if r.remaining.length < 4 then .ok none
  else
    let entryLength := fromLeBytes (r.remaining.take 4)
    -- padding, or space that was never written
    if entryLength = 0 then .ok none
    else
      let needed := 4 + entryLength + 4
      if r.remaining.length < needed then .ok none
      else
        let body := (r.remaining.drop 4).take entryLength
        let expectedCrc := fromLeBytes ((r.remaining.drop (4 + entryLength)).take 4)
        match WalEntry.validateCrc crc32 body expectedCrc with
        | .ok () =>
          match WalEntry.decodeBody body with
          | .ok entry => .ok (some (entry, { r with remaining := r.remaining.drop needed }))
          | .error e => .error e
        | .error crcErr =>
          if isTailCorruption (r.remaining.drop needed) then .ok none else .error crcErr

def entries (r : SegmentReader) : SegmentEntryIterator := { reader := r }

end SegmentReader

def SegmentEntryIterator.next (crc32 : List UInt8 → UInt32) (it : SegmentEntryIterator) :
    Option (FlushResult WalEntry × SegmentEntryIterator) :=
  if it.done then none
  else
    match it.reader.nextEntry crc32 with
    | .ok (some (entry, reader)) => some (.ok entry, { it with reader })
    | .ok none => none
    | .error e => some (.error e, { it with done := true })

namespace SegmentReader
variable {crc32 : List UInt8 → UInt32}

theorem nextEntry_shorter {r next : SegmentReader} {entry : WalEntry}
    (h : r.nextEntry crc32 = .ok (some (entry, next))) :
    next.remaining.length < r.remaining.length := by
  unfold nextEntry at h
  split at h
  · cases h
  · dsimp only at h
    split at h
    · cases h
    · split at h
      · cases h
      · rename_i enough
        split at h
        · split at h
          · obtain ⟨-, rfl⟩ := Prod.mk.inj (Option.some.inj (Except.ok.inj h))
            simp only [List.length_drop]
            omega
          · cases h
        · split at h
          · cases h
          · cases h

/-- What iterating gives: entries up to the end or up to the first error. -/
def results (crc32 : List UInt8 → UInt32) (r : SegmentReader) : List (FlushResult WalEntry) :=
  match given : r.nextEntry crc32 with
  | .ok (some (entry, next)) =>
    have : next.remaining.length < r.remaining.length := nextEntry_shorter given
    .ok entry :: next.results crc32
  | .ok none => []
  | .error e => [.error e]
termination_by r.remaining.length

theorem results_some {r next : SegmentReader} {entry : WalEntry}
    (h : r.nextEntry crc32 = .ok (some (entry, next))) :
    r.results crc32 = .ok entry :: next.results crc32 := by
  rw [results]
  split
  · rename_i given
    rw [h] at given
    obtain ⟨rfl, rfl⟩ := Prod.mk.inj (Option.some.inj (Except.ok.inj given))
    rfl
  · rename_i given
    rw [h] at given
    cases given
  · rename_i given
    rw [h] at given
    cases given

theorem results_none {r : SegmentReader} (h : r.nextEntry crc32 = .ok none) :
    r.results crc32 = [] := by
  rw [results]
  split
  · rename_i given
    rw [h] at given
    cases given
  · rfl
  · rename_i given
    rw [h] at given
    cases given

theorem results_error {r : SegmentReader} {e : FlushError} (h : r.nextEntry crc32 = .error e) :
    r.results crc32 = [.error e] := by
  rw [results]
  split
  · rename_i given
    rw [h] at given
    cases given
  · rename_i given
    rw [h] at given
    cases given
  · rename_i given
    rw [h] at given
    obtain rfl := Except.error.inj given
    rfl

theorem nextEntry_of_results_nil {r : SegmentReader} (h : r.results crc32 = []) :
    r.nextEntry crc32 = .ok none := by
  cases given : r.nextEntry crc32 with
  | error e =>
    rw [results_error given] at h
    cases h
  | ok found =>
    cases found with
    | none => rfl
    | some pair =>
      rw [results_some given] at h
      cases h

theorem nextEntry_of_results_cons {r : SegmentReader} {entry : WalEntry}
    {rest : List (FlushResult WalEntry)} (h : r.results crc32 = .ok entry :: rest) :
    ∃ next, r.nextEntry crc32 = .ok (some (entry, next)) ∧ next.results crc32 = rest := by
  cases given : r.nextEntry crc32 with
  | error e =>
    rw [results_error given] at h
    cases (List.cons.inj h).1
  | ok found =>
    cases found with
    | none =>
      rw [results_none given] at h
      cases h
    | some pair =>
      rw [results_some given] at h
      obtain ⟨first, rfl⟩ := List.cons.inj h
      obtain rfl := Except.ok.inj first
      exact ⟨pair.2, rfl, rfl⟩

/-- The iterator gives the results, in as many calls and one more. -/
theorem drain_entries (r : SegmentReader) {fuel : Nat} (enough : (r.results crc32).length < fuel) :
    drain (SegmentEntryIterator.next crc32) fuel r.entries = some (r.results crc32) := by
  obtain ⟨fuel, rfl⟩ : ∃ n, fuel = n + 1 := ⟨fuel - 1, by omega⟩
  induction fuel generalizing r with
  | zero =>
    have ended : r.results crc32 = [] := List.length_eq_zero_iff.mp (by omega)
    cases given : r.nextEntry crc32 with
    | error e =>
      rw [results_error given] at ended
      cases ended
    | ok found =>
      cases found with
      | none => simp [drain, SegmentEntryIterator.next, entries, given, ended]
      | some pair =>
        rw [results_some given] at ended
        cases ended
  | succ fuel ih =>
    cases given : r.nextEntry crc32 with
    | error e =>
      rw [results_error given]
      simp [drain, SegmentEntryIterator.next, entries, given]
    | ok found =>
      cases found with
      | none =>
        rw [results_none given]
        simp [drain, SegmentEntryIterator.next, entries, given]
      | some pair =>
        obtain ⟨entry, next⟩ := pair
        have stepped : SegmentEntryIterator.next crc32 r.entries = some (.ok entry, next.entries) := by
          simp [SegmentEntryIterator.next, entries, given]
        rw [results_some given] at enough ⊢
        rw [List.length_cons] at enough
        rw [drain_cons stepped, ih next (by omega)]
        rfl

section Encoded
variable {h : SegmentHeader} {e : WalEntry}

theorem validateCrc_same (body : List UInt8) :
    WalEntry.validateCrc crc32 body (crc32 body).toNat = .ok () := by
  simp [WalEntry.validateCrc]

theorem validateCrc_other {body : List UInt8} {expectedCrc : Nat}
    (other : (crc32 body).toNat ≠ expectedCrc) :
    WalEntry.validateCrc crc32 body expectedCrc =
      .error (.crcMismatch expectedCrc (crc32 body).toNat) := by
  simp [WalEntry.validateCrc, other]

/-- What the reader does with the bytes of one frame, whatever they hold. -/
theorem nextEntry_frame {len : Nat} {crc body rest : List UInt8} (nonempty : body ≠ [])
    (fits : body.length < 2 ^ 32) (length : len = body.length) (four : crc.length = 4) :
    nextEntry crc32 ⟨h, leBytes 4 len ++ (body ++ crc) ++ rest⟩ =
      match WalEntry.validateCrc crc32 body (fromLeBytes crc) with
      | .ok () =>
        match WalEntry.decodeBody body with
        | .ok entry => .ok (some (entry, ⟨h, rest⟩))
        | .error e => .error e
      | .error crcErr => if isTailCorruption rest then .ok none else .error crcErr := by
  subst length
  have positive := List.length_pos_iff.mpr nonempty
  have prefixed : (leBytes 4 body.length ++ (body ++ crc) ++ rest).take 4 =
      leBytes 4 body.length := by simp
  have read := @fromLeBytes_leBytes 4 body.length fits
  have held : ((leBytes 4 body.length ++ (body ++ crc) ++ rest).drop 4).take body.length =
      body := by simp
  have checked : ((leBytes 4 body.length ++ (body ++ crc) ++ rest).drop (4 + body.length)).take 4 =
      crc := by
    rw [← List.drop_drop]
    simp [four]
  have left : (leBytes 4 body.length ++ (body ++ crc) ++ rest).drop (4 + body.length + 4) = rest := by
    apply List.drop_left'
    simp only [List.length_append, length_leBytes, four]
    omega
  have total : (leBytes 4 body.length ++ (body ++ crc) ++ rest).length =
      4 + body.length + 4 + rest.length := by
    simp only [List.length_append, length_leBytes, four]
    omega
  have long : ¬ 4 + body.length + 4 + rest.length < 4 := by omega
  have some : ¬ body.length = 0 := by omega
  have enough : ¬ 4 + body.length + 4 + rest.length < 4 + body.length + 4 := by omega
  simp only [nextEntry, prefixed, read, held, checked, left, total, if_neg long, if_neg some,
    if_neg enough]

/-- The body of an entry that was written whole is decoded, and the reader then stands behind it. -/
theorem nextEntry_whole (sized : e.bodySize < 2 ^ 32) (rest : List UInt8) :
    nextEntry crc32 ⟨h, e.encodeInto crc32 ++ rest⟩ =
      match WalEntry.decodeBody e.body with
      | .ok entry => .ok (some (entry, ⟨h, rest⟩))
      | .error err => .error err := by
  have fits : e.body.length < 2 ^ 32 := by
    rw [e.length_body]
    exact sized
  rw [WalEntry.encodeInto, nextEntry_frame e.body_ne_nil fits e.length_body.symm
    (length_leBytes _ _), fromLeBytes_uint32,
    validateCrc_same]

theorem nextEntry_reread (decodes : e.Decodes) (numbered : e.sequenceNumber < 2 ^ 64)
    (rest : List UInt8) :
    nextEntry crc32 ⟨h, e.encodeInto crc32 ++ rest⟩ = .ok (some (e.reread, ⟨h, rest⟩)) := by
  rw [nextEntry_whole decodes.sized, WalEntry.decodeBody_reread decodes numbered]

theorem nextEntry_encoded (storable : e.Storable) (rest : List UInt8) :
    nextEntry crc32 ⟨h, e.encodeInto crc32 ++ rest⟩ = .ok (some (e.stored, ⟨h, rest⟩)) := by
  rw [nextEntry_reread storable.fits.decodes storable.numbered, WalEntry.reread_stored storable]

/-- An entry that is cut off is taken for the end. -/
theorem nextEntry_torn (fits : e.bodySize < 2 ^ 32) {kept : Nat} (torn : kept < e.totalSize) :
    nextEntry crc32 ⟨h, (e.encodeInto crc32).take kept⟩ = .ok none := by
  have total : ((e.encodeInto crc32).take kept).length = kept := by
    rw [List.length_take, WalEntry.length_encodeInto]
    omega
  by_cases short : kept < 4
  · simp only [nextEntry, total, if_pos short]
  · have prefixed : ((e.encodeInto crc32).take kept).take 4 = leBytes 4 e.bodySize := by
      rw [List.take_take, min_eq_left (by omega), WalEntry.encodeInto]
      exact List.take_left' (length_leBytes _ _)
    have read := @fromLeBytes_leBytes 4 e.bodySize fits
    have some : ¬ e.bodySize = 0 := by
      have := e.bodySize_ge
      omega
    have missing : kept < 4 + e.bodySize + 4 := torn
    simp only [nextEntry, total, if_neg short, prefixed, read, if_neg some, if_pos missing]

end Encoded

/-- The beginning of an entry that was not written to its end. -/
def Torn (crc32 : List UInt8 → UInt32) (bytes : List UInt8) : Prop :=
  ∃ e : WalEntry, e.bodySize < 2 ^ 32 ∧ ∃ kept < e.totalSize, bytes = (e.encodeInto crc32).take kept

theorem torn_nil (crc32 : List UInt8 → UInt32) : Torn crc32 [] :=
  ⟨⟨0, .put, .new, .new, .new, .new, .new, .none, 0⟩, by decide, 0, by decide, rfl⟩

/-- The entries that are read from whole entries and a torn one. -/
theorem results_reread {h : SegmentHeader} {entries : List WalEntry} {torn : List UInt8}
    (readable : ∀ e ∈ entries, e.Decodes ∧ e.sequenceNumber < 2 ^ 64) (cut : Torn crc32 torn) :
    results crc32 ⟨h, encodeAll crc32 entries ++ torn⟩ = entries.map fun e => .ok e.reread := by
  induction entries with
  | nil =>
    obtain ⟨e, fits, kept, short, rfl⟩ := cut
    exact results_none (nextEntry_torn fits short)
  | cons e rest ih =>
    obtain ⟨decodes, numbered⟩ := readable e List.mem_cons_self
    have given := @nextEntry_reread crc32 h e decodes numbered (encodeAll crc32 rest ++ torn)
    rw [← List.append_assoc] at given
    rw [encodeAll, List.flatMap_cons, ← encodeAll, results_some given,
      ih fun e member => readable e (List.mem_cons_of_mem _ member),
      List.map_cons]

end SegmentReader

/-- The longest list of leading entries whose bytes lie within the first `room`. -/
def wholeEntries : Nat → List WalEntry → List WalEntry
  | _, [] => []
  | room, e :: rest =>
    if e.totalSize ≤ room then e :: wholeEntries (room - e.totalSize) rest else []

section Whole
variable {crc32 : List UInt8 → UInt32} {entries : List WalEntry}

theorem encodeAll_append (a b : List WalEntry) :
    encodeAll crc32 (a ++ b) = encodeAll crc32 a ++ encodeAll crc32 b :=
  List.flatMap_append

theorem wholeEntries_leading (room : Nat) (entries : List WalEntry) :
    wholeEntries room entries <+: entries := by
  induction entries generalizing room with
  | nil => exact List.prefix_rfl
  | cons e rest ih =>
    unfold wholeEntries
    split
    · exact List.cons_prefix_cons.mpr ⟨rfl, ih _⟩
    · exact List.nil_prefix

/-- A cut leaves the entries before it, and the beginning of the next. -/
theorem take_encodeAll (fits : ∀ e ∈ entries, e.bodySize < 2 ^ 32) {torn : List UInt8}
    (cut : SegmentReader.Torn crc32 torn) (room : Nat) :
    ∃ left, SegmentReader.Torn crc32 left ∧
      (encodeAll crc32 entries ++ torn).take room =
        encodeAll crc32 (wholeEntries room entries) ++ left := by
  induction entries generalizing room with
  | nil =>
    obtain ⟨e, small, kept, short, rfl⟩ := cut
    refine ⟨(e.encodeInto crc32).take (min room kept), ⟨e, small, min room kept, by omega, rfl⟩, ?_⟩
    simp [encodeAll, wholeEntries, List.take_take]
  | cons e rest ih =>
    have length := e.length_encodeInto crc32
    rw [encodeAll, List.flatMap_cons, ← encodeAll, List.append_assoc, List.take_append, length]
    unfold wholeEntries
    split
    · rename_i whole
      obtain ⟨left, isTorn, same⟩ := ih (fun e member => fits e (List.mem_cons_of_mem _ member))
        (room - e.totalSize)
      refine ⟨left, isTorn, ?_⟩
      rw [same, List.take_of_length_le (length.symm ▸ whole), encodeAll, encodeAll,
        List.flatMap_cons, List.append_assoc]
    · rename_i short
      refine ⟨(e.encodeInto crc32).take room, ⟨e, fits e List.mem_cons_self, room, by omega, rfl⟩, ?_⟩
      rw [show room - e.totalSize = 0 by omega]
      simp [encodeAll]

/-- The whole entries are as many as have their bytes within the cut. -/
theorem wholeEntries_greatest (room : Nat) (entries : List WalEntry) :
    IsGreatest {n | n ≤ entries.length ∧ (encodeAll crc32 (entries.take n)).length ≤ room}
      (wholeEntries room entries).length := by
  induction entries generalizing room with
  | nil =>
    refine ⟨⟨le_refl 0, by simp [encodeAll]⟩, ?_⟩
    rintro n ⟨few, -⟩
    exact few
  | cons e rest ih =>
    have length := e.length_encodeInto crc32
    unfold wholeEntries
    split
    · rename_i whole
      obtain ⟨⟨few, within⟩, greatest⟩ := ih (room - e.totalSize)
      refine ⟨⟨Nat.succ_le_succ few, ?_⟩, ?_⟩
      · rw [List.length_cons, List.take_succ_cons, encodeAll, List.flatMap_cons, ← encodeAll,
          List.length_append, length]
        omega
      · rintro n ⟨few, within⟩
        cases n with
        | zero => exact Nat.zero_le _
        | succ n =>
          rw [List.take_succ_cons, encodeAll, List.flatMap_cons, ← encodeAll, List.length_append,
            length] at within
          have := greatest ⟨Nat.le_of_succ_le_succ few, show _ ≤ room - e.totalSize by omega⟩
          rw [List.length_cons]
          omega
    · rename_i short
      refine ⟨⟨Nat.zero_le _, by simp [encodeAll]⟩, ?_⟩
      rintro n ⟨-, within⟩
      cases n with
      | zero => exact le_refl _
      | succ n =>
        rw [List.take_succ_cons, encodeAll, List.flatMap_cons, List.length_append, length] at within
        omega

end Whole

namespace SegmentWriter
variable {crc32 : List UInt8 → UInt32}

theorem file_appendBatches (w : SegmentWriter) (batches : List (List WalEntry)) :
    (batches.foldl (appendBatch crc32) w).file = w.file ++ encodeAll crc32 batches.flatten := by
  induction batches generalizing w with
  | nil => simp [encodeAll]
  | cons batch rest ih =>
    rw [List.foldl_cons, ih, appendBatch, List.flatten_cons, encodeAll_append, List.append_assoc]

end SegmentWriter

namespace SegmentReader
variable {crc32 : List UInt8 → UInt32}

theorem openFile_header {header : SegmentHeader} (starts : header.startingSequenceNumber < 2 ^ 64)
    (path : String) (rest : List UInt8) :
    ∃ read, openFile path (header.encode ++ rest) = .ok ⟨read, rest⟩ ∧
      read.startingSequenceNumber = header.startingSequenceNumber := by
  obtain ⟨read, decoded, starting⟩ := SegmentHeader.decode_encode starts rest
  have long : ¬ (header.encode ++ rest).length < segmentHeaderSize := by
    rw [List.length_append, SegmentHeader.length_encode]
    omega
  have behind : (header.encode ++ rest).drop segmentHeaderSize = rest :=
    List.drop_left' header.length_encode
  refine ⟨read, ?_, starting⟩
  simp only [openFile, if_neg long, decoded, behind]
  rfl

section Example

def tornEntry (sequenceNumber : Nat) : WalEntry where
  sequenceNumber := sequenceNumber
  entryType := .put
  ns := ⟨[110]⟩
  recordId := ⟨[114]⟩
  itemKey := ⟨[107]⟩
  itemValue := ⟨[118]⟩
  itemMetadata := ⟨[]⟩
  idempotencyToken := .none
  origin := 0

end Example

end SegmentReader

end FlushDB
