import Mathlib.Data.List.Sort
import FlushDB.Lib.BinarySearch
import FlushDB.Types.Key

/-!
The manifest: which tables are live at each level, both epochs and the flush watermark.
`ManifestUpdate.apply` computes the next manifest of the chain from the current one.
-/

namespace FlushDB

inductive Level where
  | L0 | L1 | L2 | L3
  deriving DecidableEq, Repr

namespace Level

def asStr : Level → String
  | .L0 => "L0"
  | .L1 => "L1"
  | .L2 => "L2"
  | .L3 => "L3"

instance : ToString Level := ⟨asStr⟩

def asU8 : Level → Nat
  | .L0 => 0
  | .L1 => 1
  | .L2 => 2
  | .L3 => 3

def next : Level → Option Level
  | .L0 => some .L1
  | .L1 => some .L2
  | .L2 => some .L3
  | .L3 => none

def isBottom (level : Level) : Bool := level = .L3

def isOverlapping (level : Level) : Bool := level = .L0

def all : List Level := [.L0, .L1, .L2, .L3]

theorem mem_all (level : Level) : level ∈ all := by
  cases level <;> simp [all]

theorem flatMap_at {α : Type*} (target : Level) (xs : List α) :
    (all.flatMap fun level => if level = target then xs else []) = xs := by
  cases target <;> simp [all]

end Level

/-- A table's name: the ULID of a single file, or a fragment of a compaction run. -/
inductive SstId where
  | single (ulid : String)
  | fragment (runId : String) (index : Nat)
  deriving DecidableEq, Repr

namespace SstId

/-- `{:04}`. -/
def pad4 (n : Nat) : String :=
  let digits := toString n
  "".pushn '0' (4 - digits.length) ++ digits

instance : ToString SstId where
  toString
    | .single ulid => ulid
    | .fragment runId index => s!"run-{runId}/frag-" ++ pad4 index

end SstId

/-- Where a table's object lives, below `flushdb/{namespace}/sstables/`. -/
structure SstPath where
  level : Level
  file : SstId
  deriving DecidableEq, Repr

/-- What the manifest records of a table. A table that has a run id and a fragment index is
named by them. The offsets and sizes of the file's sections are left out. -/
structure SSTableMeta where
  id : SstId
  sizeBytes : Nat
  entryCount : Nat
  minKey : Bytes
  maxKey : Bytes
  createdAtMs : Nat
  sequenceRange : Nat × Nat
  recordIdCount : Nat
  runId : Option String
  fragmentIndex : Option Nat
  named : ∀ r i, runId = some r → fragmentIndex = some i → id = .fragment r i

namespace SSTableMeta

def containsKey (m : SSTableMeta) (key : CompositeKey) : Bool :=
  m.minKey ≤ key.bytes ∧ key.bytes ≤ m.maxKey

def overlapsRange (m : SSTableMeta) (start stop : Bytes) : Bool :=
  ¬(m.maxKey < start ∨ stop < m.minKey)

def overlaps (m other : SSTableMeta) : Bool := m.overlapsRange other.minKey other.maxKey

def sstPath (m : SSTableMeta) (level : Level) : SstPath :=
  match m.runId, m.fragmentIndex with
  | some runId, some index => ⟨level, .fragment runId index⟩
  | _, _ => ⟨level, m.id⟩

theorem sstPath_eq (m : SSTableMeta) (level : Level) : m.sstPath level = ⟨level, m.id⟩ := by
  unfold sstPath
  split
  · rename_i runId index run fragment
    rw [m.named runId index run fragment]
  · rfl

end SSTableMeta

structure Manifest where
  formatVersion : Nat
  manifestId : Nat
  writerEpoch : Nat
  compactorEpoch : Nat
  ns : String
  createdAtMs : Nat
  lastFlushedSequence : Nat
  levels : Level → List SSTableMeta
  previousManifestId : Nat
  isSnapshot : Bool

namespace Manifest

def newEmpty (ns : String) (nowMs : Nat) : Manifest where
  formatVersion := 1
  manifestId := 0
  writerEpoch := 0
  compactorEpoch := 0
  ns := ns
  createdAtMs := nowMs
  lastFlushedSequence := 0
  levels := fun _ => []
  previousManifestId := 0
  isSnapshot := false

def sstablesAtLevel (m : Manifest) (level : Level) : List SSTableMeta := m.levels level

def l0Count (m : Manifest) : Nat := (m.sstablesAtLevel .L0).length

def levelSizeBytes (m : Manifest) (level : Level) : Nat :=
  ((m.sstablesAtLevel level).map SSTableMeta.sizeBytes).sum

def findOverlapping (m : Manifest) (level : Level) (start stop : Bytes) : List SSTableMeta :=
  (m.sstablesAtLevel level).filter fun t => t.overlapsRange start stop

/-- Below L0 a binary search by the greatest key. -/
def findSstableForKey (m : Manifest) (level : Level) (key : CompositeKey) : Option SSTableMeta :=
  let tables := m.sstablesAtLevel level
  if tables.isEmpty then none
  else if level.isOverlapping then tables.find? fun t => t.containsKey key
  else
    match tables[Lib.partitionPoint (fun t => t.maxKey < key.bytes) tables]? with
    | some t => if t.containsKey key then some t else none
    | none => none

/-- Equality up to the clock and the snapshot mark. -/
def SameContent (a b : Manifest) : Prop :=
  { a with createdAtMs := 0, isSnapshot := false } = { b with createdAtMs := 0, isSnapshot := false }

/-- The tables of all levels, lowest level first. -/
def allSSTables (m : Manifest) : List (Level × SSTableMeta) :=
  Level.all.flatMap fun level => (m.sstablesAtLevel level).map fun t => (level, t)

theorem mem_allSSTables {m : Manifest} {level : Level} {t : SSTableMeta} :
    (level, t) ∈ m.allSSTables ↔ t ∈ m.sstablesAtLevel level := by
  cases level <;> simp [allSSTables, Level.all]

end Manifest

inductive ManifestUpdateTrigger where
  | flush | compaction | gc
  deriving DecidableEq, Repr

structure ManifestUpdate where
  trigger : ManifestUpdateTrigger
  addSSTables : List (Level × SSTableMeta)
  removeSSTables : List (Level × SstId)
  newLastFlushedSequence : Option Nat
  writerEpoch : Nat
  compactorEpoch : Nat

namespace ManifestUpdate

abbrev Levels := Level → List SSTableMeta

def removeOne (levels : Levels) (entry : Level × SstId) : FlushResult Levels :=
  match (levels entry.1).findIdx? (fun m => m.id = entry.2) with
  | some idx => .ok (Function.update levels entry.1 ((levels entry.1).eraseIdx idx))
  | none =>
    .error (.invalidArgument s!"cannot remove SSTable {entry.2} from {entry.1}: not found")

def removeAll (levels : Levels) : List (Level × SstId) → FlushResult Levels
  | [] => .ok levels
  | entry :: rest =>
    match removeOne levels entry with
    | .ok next => removeAll next rest
    | .error e => .error e

/-- Push, and keep the levels below L0 sorted by their first key. -/
def addOne (levels : Levels) (entry : Level × SSTableMeta) : Levels :=
  let pushed := levels entry.1 ++ [entry.2]
  Function.update levels entry.1
    (if entry.1.isOverlapping then pushed
      else pushed.insertionSort (fun a b => a.minKey ≤ b.minKey))

def addAll (levels : Levels) (added : List (Level × SSTableMeta)) : Levels :=
  added.foldl addOne levels

/-- The next manifest: removals, additions, watermark and epochs. -/
def apply (u : ManifestUpdate) (nowMs : Nat) (current : Manifest) : FlushResult Manifest :=
  match removeAll current.levels u.removeSSTables with
  | .error e => .error e
  | .ok removed =>
    let next : Manifest :=
      { current with
        previousManifestId := current.manifestId
        manifestId := current.manifestId + 1
        createdAtMs := nowMs
        levels := addAll removed u.addSSTables
        writerEpoch := u.writerEpoch
        compactorEpoch := u.compactorEpoch }
    match u.newLastFlushedSequence with
    | none => .ok next
    | some seq =>
      if seq < current.lastFlushedSequence then
        .error (.invalidArgument
          s!"cannot decrease last_flushed_sequence from {current.lastFlushedSequence} to {seq}")
      else .ok { next with lastFlushedSequence := seq }

/-- Everything a successful `apply` does. -/
theorem apply_ok {u : ManifestUpdate} {nowMs : Nat} {current next : Manifest}
    (h : u.apply nowMs current = .ok next) :
    ∃ removed, removeAll current.levels u.removeSSTables = .ok removed ∧
      (∀ seq, u.newLastFlushedSequence = some seq → current.lastFlushedSequence ≤ seq) ∧
      next =
        { current with
          previousManifestId := current.manifestId
          manifestId := current.manifestId + 1
          createdAtMs := nowMs
          levels := addAll removed u.addSSTables
          writerEpoch := u.writerEpoch
          compactorEpoch := u.compactorEpoch
          lastFlushedSequence := u.newLastFlushedSequence.getD current.lastFlushedSequence } := by
  unfold apply at h
  cases removal : removeAll current.levels u.removeSSTables with
  | error e => simp [removal] at h
  | ok removed =>
    simp only [removal] at h
    cases watermark : u.newLastFlushedSequence with
    | none =>
      simp only [watermark, Except.ok.injEq] at h
      exact ⟨removed, rfl, by simp, h.symm⟩
    | some seq =>
      simp only [watermark] at h
      split at h
      · cases h
      · rename_i kept
        refine ⟨removed, rfl, ?_, (Except.ok.inj h).symm⟩
        intro other same
        cases same
        omega

theorem apply_manifestId {u : ManifestUpdate} {nowMs : Nat} {current next : Manifest}
    (h : u.apply nowMs current = .ok next) : next.manifestId = current.manifestId + 1 := by
  obtain ⟨_, _, _, rfl⟩ := apply_ok h
  rfl

theorem apply_writerEpoch {u : ManifestUpdate} {nowMs : Nat} {current next : Manifest}
    (h : u.apply nowMs current = .ok next) : next.writerEpoch = u.writerEpoch := by
  obtain ⟨_, _, _, rfl⟩ := apply_ok h
  rfl

theorem apply_compactorEpoch {u : ManifestUpdate} {nowMs : Nat} {current next : Manifest}
    (h : u.apply nowMs current = .ok next) : next.compactorEpoch = u.compactorEpoch := by
  obtain ⟨_, _, _, rfl⟩ := apply_ok h
  rfl

theorem apply_lastFlushedSequence_le {u : ManifestUpdate} {nowMs : Nat} {current next : Manifest}
    (h : u.apply nowMs current = .ok next) :
    current.lastFlushedSequence ≤ next.lastFlushedSequence := by
  obtain ⟨_, _, watermark, rfl⟩ := apply_ok h
  cases set : u.newLastFlushedSequence with
  | none => simp
  | some seq => simpa using watermark seq set

end ManifestUpdate

end FlushDB
