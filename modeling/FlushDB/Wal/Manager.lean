import FlushDB.Wal.Log

/-!
The WAL manager: appends through the group commit, which memtable generations have entries in a
segment, and the removal of the segments that no generation needs.
-/

namespace FlushDB
open Lib

/-- The generations with unflushed entries, by segment. -/
structure DirtySegmentTracker where
  dirtyMaps : ObjectStore Nat (List Nat) := ObjectStore.empty

namespace DirtySegmentTracker

def recordWrite (t : DirtySegmentTracker) (segment generation : Nat) : DirtySegmentTracker where
  dirtyMaps := t.dirtyMaps.put segment (((t.dirtyMaps.get segment).getD []).insert generation)

/-- The segments that become clean, and the tracker without the generation. -/
def markGenerationFlushed (t : DirtySegmentTracker) (generation : Nat) :
    List Nat × DirtySegmentTracker :=
  (t.dirtyMaps.keys.filter fun segment => (t.dirtyMaps.get segment).any fun generations =>
      generations.contains generation && (generations.filter (· ≠ generation)).isEmpty,
    { dirtyMaps := t.dirtyMaps.mapValues fun generations => generations.filter (· ≠ generation) })

def isSegmentClean (t : DirtySegmentTracker) (segment : Nat) : Bool :=
  (t.dirtyMaps.get segment).all List.isEmpty

def removeSegment (t : DirtySegmentTracker) (segment : Nat) : DirtySegmentTracker where
  dirtyMaps := t.dirtyMaps.delete segment

end DirtySegmentTracker

/-- Between two calls the published segment number is the writer's. -/
structure WalManager where
  writer : WalWriter
  dirtyTracker : DirtySegmentTracker := {}

namespace WalManager

/-- One commit, of one entry or of a batch. The segment that the write is recorded for is read
while the commit loop runs: `late` says that the loop has rotated by then. -/
def append (m : WalManager) (dir : WalDir) (entries : List WalEntry) (generation : Nat)
    (late : Bool) :
    FlushResult (WalManager × WalDir) :=
  match m.writer.appendBatch dir entries with
  | .error e => .error e
  | .ok (writer, dir) =>
    let segment := if late then writer.currentSegment else m.writer.currentSegment
    .ok ({ writer, dirtyTracker := m.dirtyTracker.recordWrite segment generation }, dir)

def markGenerationFlushed (m : WalManager) (generation : Nat) : List Nat × WalManager :=
  let (clean, dirtyTracker) := m.dirtyTracker.markGenerationFlushed generation
  (clean, { m with dirtyTracker })

/-- `failing` is the segment whose file cannot be removed. -/
def cleanupSegments (failing : Option Nat) :
    List Nat → WalManager → WalDir → FlushResult Unit × WalManager × WalDir
  | [], m, dir => (.ok (), m, dir)
  | number :: rest, m, dir =>
    if number = m.writer.currentSegment ∨ ¬ m.dirtyTracker.isSegmentClean number then
      cleanupSegments failing rest m dir
    else if failing = some number then (.error (.io "remove_file"), m, dir)
    else
      cleanupSegments failing rest { m with dirtyTracker := m.dirtyTracker.removeSegment number }
        (dir.delete number)

end WalManager

end FlushDB
