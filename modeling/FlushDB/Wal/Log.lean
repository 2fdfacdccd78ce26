import FlushDB.Lib.ObjectStore
import FlushDB.Types.Entry

/-!
The write-ahead log: a directory of numbered segments, the writer that appends to the newest
one and the reader that replays them. A segment is kept as the list of the entries written
to it; an entry whose fields fit their length prefixes is read back as it was written.
-/

namespace FlushDB
open Lib

/-- `origin` is ghost, as in `MemtableEntry`. -/
structure WalEntry where
  sequenceNumber : Nat
  entryType : EntryType
  ns : Bytes
  recordId : Bytes
  itemKey : Bytes
  itemValue : Bytes
  itemMetadata : Bytes
  idempotencyToken : IdempotencyToken
  origin : Nat
  deriving DecidableEq

namespace WalEntry

def fixedBodyOverhead : Nat := 8 + 1 + 2 + 2 + 2 + 4 + 2 + 24

def bodySize (e : WalEntry) : Nat :=
  fixedBodyOverhead + e.ns.len + e.recordId.len + e.itemKey.len + e.itemValue.len + e.itemMetadata.len

def totalSize (e : WalEntry) : Nat := 4 + e.bodySize + 4

/-- Every length fits the prefix it is written under: two bytes for the namespace, the record
id, the item key and the metadata, four for the value and for the whole body. -/
def Fits (e : WalEntry) : Prop :=
  e.ns.len < 2 ^ 16 ∧ e.recordId.len < 2 ^ 16 ∧ e.itemKey.len < 2 ^ 16 ∧
    e.itemMetadata.len < 2 ^ 16 ∧
    e.itemValue.len < 2 ^ 32 ∧ e.bodySize < 2 ^ 32

instance (e : WalEntry) : Decidable e.Fits := inferInstanceAs (Decidable (_ ∧ _ ∧ _ ∧ _ ∧ _ ∧ _))

def fromMemtableEntry (e : MemtableEntry) (ns : Bytes) : WalEntry where
  sequenceNumber := e.sequenceNumber
  entryType := e.entryType
  ns := ns
  recordId := e.recordId
  itemKey := e.itemKey
  itemValue := e.value
  itemMetadata := e.metadata
  idempotencyToken := e.idempotencyKey
  origin := e.origin

def toMemtableEntry (e : WalEntry) : FlushResult MemtableEntry :=
  match CompositeKey.new e.recordId e.itemKey with
  | .error err => .error err
  | .ok key => .ok
    { compositeKey := key
      value := e.itemValue
      metadata := e.itemMetadata
      idempotencyKey := e.idempotencyToken
      sequenceNumber := e.sequenceNumber
      entryType := e.entryType
      origin := e.origin }

end WalEntry

def segmentHeaderSize : Nat := 32

structure Segment where
  startingSequence : Nat
  entries : List WalEntry

abbrev WalDir := ObjectStore Nat Segment

structure WalConfig where
  segmentSizeTarget : Nat := 33554432

structure WalWriter where
  config : WalConfig
  currentSegment : Nat
  currentSize : Nat
  nextSequenceNumber : Nat
  segmentNumbers : List Nat

namespace WalWriter

/-- `SegmentWriter::create`: the file must not exist. -/
def createSegment (dir : WalDir) (number startingSequence : Nat) : FlushResult WalDir :=
  match dir.conditionalPut number { startingSequence, entries := [] } with
  | some dir => .ok dir
  | none => .error (.io "file exists")

/-- The highest sequence number of the first segment of the list that holds an entry. -/
def highestSequence (dir : WalDir) : List Nat → Option Nat
  | [] => none
  | number :: rest =>
    match (dir.get number).bind fun segment => (segment.entries.map WalEntry.sequenceNumber).max? with
    | some highest => some highest
    | none => highestSequence dir rest

def openDir (dir : WalDir) (config : WalConfig) : FlushResult (WalWriter × WalDir) :=
  match dir.keys.getLast? with
  | none =>
    match createSegment dir 1 1 with
    | .error e => .error e
    | .ok dir => .ok (⟨config, 1, segmentHeaderSize, 1, [1]⟩, dir)
  | some last =>
    let nextSequence := ((highestSequence dir dir.keys.reverse).map (· + 1)).getD 1
    match createSegment dir (last + 1) nextSequence with
    | .error e => .error e
    | .ok created =>
      .ok (⟨config, last + 1, segmentHeaderSize, nextSequence, dir.keys ++ [last + 1]⟩, created)

def rotate (w : WalWriter) (dir : WalDir) : FlushResult (WalWriter × WalDir) :=
  match createSegment dir (w.currentSegment + 1) w.nextSequenceNumber with
  | .error e => .error e
  | .ok dir =>
    .ok ({ w with
      currentSegment := w.currentSegment + 1
      currentSize := segmentHeaderSize
      segmentNumbers := w.segmentNumbers ++ [w.currentSegment + 1] }, dir)

/-- Consecutive sequence numbers from `first` on. -/
def assign (first : Nat) : List WalEntry → List WalEntry
  | [] => []
  | e :: rest => { e with sequenceNumber := first } :: assign (first + 1) rest

/-- The bytes go to the open file; one that has been unlinked keeps none of them. -/
def writeEntries (dir : WalDir) (number : Nat) (entries : List WalEntry) : WalDir :=
  match dir.get number with
  | some segment => dir.put number { segment with entries := segment.entries ++ entries }
  | none => dir

def appendBatch (w : WalWriter) (dir : WalDir) (entries : List WalEntry) :
    FlushResult (WalWriter × WalDir) :=
  let assigned := assign w.nextSequenceNumber entries
  let written := writeEntries dir w.currentSegment assigned
  let next : WalWriter :=
    { w with
      nextSequenceNumber := w.nextSequenceNumber + entries.length
      currentSize := w.currentSize + (assigned.map WalEntry.totalSize).sum }
  if next.currentSize ≥ next.config.segmentSizeTarget then next.rotate written
    else .ok (next, written)

def append (w : WalWriter) (dir : WalDir) (entry : WalEntry) : FlushResult (WalWriter × WalDir) :=
  w.appendBatch dir [entry]

def removeSegment (w : WalWriter) (dir : WalDir) (number : Nat) :
    FlushResult (WalWriter × WalDir) :=
  if number = w.currentSegment then .error (.invalidArgument "cannot remove the active segment")
  else
    match dir.get number with
    | none => .error (.io "no such file")
    | some _ =>
      .ok ({ w with segmentNumbers := w.segmentNumbers.filter (· ≠ number) }, dir.delete number)

end WalWriter

namespace WalReader

def segmentEntries (dir : WalDir) (number : Nat) : List WalEntry :=
  ((dir.get number).map Segment.entries).getD []

def replayAll (dir : WalDir) : List WalEntry := dir.keys.flatMap (segmentEntries dir)

/-- Whether a segment is skipped, from the segments that follow it. -/
def skips (dir : WalDir) (minSequence : Nat) : List Nat → Bool
  | [] => false
  | next :: _ => (dir.get next).any fun segment => segment.startingSequence ≤ minSequence

def replaySegments (dir : WalDir) (minSequence : Nat) : List Nat → List WalEntry
  | [] => []
  | number :: rest =>
    if skips dir minSequence rest then replaySegments dir minSequence rest
    else
      (segmentEntries dir number).filter (fun e => e.sequenceNumber ≥ minSequence) ++
        replaySegments dir minSequence rest

def replayFrom (dir : WalDir) (minSequence : Nat) : List WalEntry :=
  replaySegments dir minSequence dir.keys

end WalReader

end FlushDB
