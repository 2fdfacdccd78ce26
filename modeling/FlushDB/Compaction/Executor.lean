import FlushDB.Compaction.Scheduler
import FlushDB.Engine.MergeIterator
import FlushDB.Manifest.Sequential

/-!
The compaction executor: a trivial move copies the table to the path of its new level; a merge
writes the newest version of every key of its inputs into fragments of the target level and
drops tombstones at the bottom. Tables are kept as the entries that their blocks hold.
-/

namespace FlushDB
open Lib

/-- The table objects of a namespace. -/
abbrev Tables := ObjectStore SstPath (List MergeEntry)

/-- The entries of a stored table; none when there is no object. -/
def Tables.entries (tables : Tables) (path : SstPath) : List MergeEntry := (tables.get path).getD []

def u64Max : Nat := 2 ^ 64 - 1

namespace SSTableMeta

def sequenceRangeOf (entries : List MergeEntry) : Nat × Nat :=
  ((entries.map MergeEntry.sequenceNumber).foldl min u64Max,
    (entries.map MergeEntry.sequenceNumber).foldl max 0)

/-- `from_sst_info` of the file that holds `first` to `last`. -/
def ofEntries (fileSize : List MergeEntry → Nat) (file : SstId) (nowMs : Nat) (first : MergeEntry)
    (entries : List MergeEntry) : SSTableMeta where
  id := file
  sizeBytes := fileSize (first :: entries)
  entryCount := entries.length + 1
  minKey := first.compositeKey.bytes
  maxKey := ((first :: entries).getLastD first).compositeKey.bytes
  createdAtMs := nowMs
  sequenceRange := sequenceRangeOf (first :: entries)
  recordIdCount := ((first :: entries).map fun e => e.compositeKey.recordId).dedup.length
  runId := none
  fragmentIndex := none
  named := by
    intro r i run
    cases run

def asFragment (t : SSTableMeta) (runId : String) (index : Nat) : SSTableMeta :=
  { t with
    id := .fragment runId index
    runId := some runId
    fragmentIndex := some index
    named := by
      rintro r i ⟨⟩ ⟨⟩
      rfl }

end SSTableMeta

structure CompactionResult where
  outputSSTables : List SSTableMeta
  removedSSTableIds : List SstId
  trivialMoves : Nat

structure CompactionState where
  manifest : ManifestState
  tables : Tables

/-- The I/O operation of a compaction that fails: a read of an input, a write of an output or a
removal of a moved file, after so many of its kind, the manifest update, or the opening of a table
of the level afterwards. -/
inductive CompactionFault where
  | input (count : Nat)
  | output (count : Nat)
  | updateManifest
  | delete (count : Nat)
  | openTable (level : Level)
  deriving DecidableEq

/-- What an execution draws from outside: the clock, two fresh ULIDs, and a failure. -/
structure Drawn where
  nowMs : Nat
  runId : String
  ulid : String
  fault : Option CompactionFault := none

namespace Drawn

def inputStop (d : Drawn) : Option Nat :=
  match d.fault with
  | some (.input count) => some count
  | _ => none

def outputStop (d : Drawn) : Option Nat :=
  match d.fault with
  | some (.output count) => some count
  | _ => none

def deleteStop (d : Drawn) : Option Nat :=
  match d.fault with
  | some (.delete count) => some count
  | _ => none

end Drawn

/-- The elements that are done when the one after `stop` fails. -/
def doneBefore {α : Type} (stop : Option Nat) (xs : List α) : List α :=
  match stop with
  | some count => xs.take count
  | none => xs

theorem doneBefore_sublist {α : Type} (stop : Option Nat) (xs : List α) :
    (doneBefore stop xs).Sublist xs := by
  unfold doneBefore
  split
  · exact List.take_sublist _ _
  · exact List.Sublist.refl _

theorem doneBefore_all {α : Type} {stop : Option Nat} {xs : List α}
    (all : ¬ (doneBefore stop xs).length < xs.length) :
    doneBefore stop xs = xs := (doneBefore_sublist stop xs).eq_of_length_le (by omega)

namespace CompactionExecutor

def entrySize (e : MergeEntry) : Nat :=
  e.compositeKey.bytes.len + e.value.len + e.metadata.len + 20

/-- Cuts the merged entries: a fragment is complete when it reaches the target size. -/
def splitFragments (target : Nat) :
    List MergeEntry → Nat → List MergeEntry → List (List MergeEntry) × List MergeEntry
  | current, _, [] => ([], current)
  | current, size, e :: rest =>
    if size + entrySize e ≥ target then
      let (fragments, last) := splitFragments target [] 0 rest
      ((current ++ [e]) :: fragments, last)
    else splitFragments target (current ++ [e]) (size + entrySize e) rest

/-- Names the fragments of a run from `index` on. -/
def nameFragments (fileSize : List MergeEntry → Nat) (drawn : Drawn) :
    Nat → List (List MergeEntry) → List (SSTableMeta × List MergeEntry)
  | _, [] => []
  | index, [] :: rest => nameFragments fileSize drawn (index + 1) rest
  | index, (first :: entries) :: rest =>
    ((SSTableMeta.ofEntries fileSize (.fragment drawn.runId index) drawn.nowMs first
      entries).asFragment drawn.runId index,
      first :: entries) :: nameFragments fileSize drawn (index + 1) rest

/-- The output tables. A run of a single table gets a name of its own. -/
def outputs (fileSize : List MergeEntry → Nat) (drawn : Drawn) (target : Nat)
    (merged : List MergeEntry) :
    List (SSTableMeta × List MergeEntry) :=
  match splitFragments target [] 0 merged with
  | ([], []) => []
  | ([], first :: entries) =>
    [(SSTableMeta.ofEntries fileSize (.single drawn.ulid) drawn.nowMs first entries, first :: entries)]
  | (fragments, []) => nameFragments fileSize drawn 0 fragments
  | (fragments, last) => nameFragments fileSize drawn 0 (fragments ++ [last])

def writeTables (level : Level) (outs : List (SSTableMeta × List MergeEntry)) (tables : Tables) :
    Tables :=
  outs.foldl (fun tables out => tables.put (out.1.sstPath level) out.2) tables

/-- Opens and reads the tables in turn. -/
def readTables (tables : Tables) (task : CompactionTask) :
    List SSTableMeta → FlushResult (List (List MergeEntry))
  | [] => .ok []
  | t :: rest =>
    let level := if task.inputSSTables.any (fun m => m.id = t.id) then task.sourceLevel
      else task.targetLevel
    match tables.get (t.sstPath level) with
    | none => .error (.notFound (toString t.id))
    | some entries =>
      match readTables tables task rest with
      | .error e => .error e
      | .ok others => .ok (entries :: others)

/-- Inputs of the source level come first: they have the lower source ids. -/
def mergeSources (contents : List (List MergeEntry)) : List VecSource :=
  contents.zipIdx.map fun (entries, id) => { entries, sourceId := id }

def merge (bottom : Bool) (contents : List (List MergeEntry)) : List MergeEntry :=
  (MergeIterator.collectDeduped (mergeSources contents)).filter fun e => !(bottom && e.isTombstone)

def copyTables (source target : Level) : List SSTableMeta → Tables → FlushResult Unit × Tables
  | [], tables => (.ok (), tables)
  | t :: rest, tables =>
    match tables.get (t.sstPath source) with
    | none => (.error (.notFound (toString t.id)), tables)
    | some data => copyTables source target rest (tables.put (t.sstPath target) data)

def compactionUpdate (m : ManifestManager) (added : List (Level × SSTableMeta))
    (removed : List (Level × SstId)) :
    ManifestUpdate where
  trigger := .compaction
  addSSTables := added
  removeSSTables := removed
  newLastFlushedSequence := none
  writerEpoch := m.writerEpoch
  compactorEpoch := m.compactorEpoch

/-- Every file is copied to its path at the target level before the update, and removed from the
source level after it. -/
def moveTrivially (serializedLen : Manifest → Nat) (drawn : Drawn) (task : CompactionTask)
    (s : CompactionState) :
    FlushResult CompactionResult × CompactionState :=
  let copied := doneBefore drawn.outputStop (doneBefore drawn.inputStop task.inputSSTables)
  match copyTables task.sourceLevel task.targetLevel copied s.tables with
  | (.error e, tables) => (.error e, { s with tables })
  | (.ok (), tables) =>
    if copied.length < task.inputSSTables.length then (.error (.io "copy"), { s with tables })
    else if drawn.fault = some .updateManifest then
      (.error (.io "conditional_put"), { s with tables })
    else
      let moved := task.inputSSTables.map fun t => { t with createdAtMs := drawn.nowMs }
      let update := compactionUpdate s.manifest.manager (moved.map fun t => (task.targetLevel, t))
        (task.inputSSTables.map fun t => (task.sourceLevel, t.id))
      match s.manifest.update serializedLen update drawn.nowMs with
      | (.error e, manifest) => (.error e, { manifest, tables })
      | (.ok (), manifest) =>
        let deleted := doneBefore drawn.deleteStop task.inputSSTables
        let tables := deleted.foldl (fun tables t => tables.delete (t.sstPath task.sourceLevel)) tables
        if deleted.length < task.inputSSTables.length then
          (.error (.io "delete"), { manifest, tables })
        else
          (.ok { outputSSTables := moved
                 removedSSTableIds := task.inputSSTables.map SSTableMeta.id
                 trivialMoves := task.inputSSTables.length },
            { manifest, tables })

def mergeInputs (config : CompactionConfig) (fileSize : List MergeEntry → Nat)
    (serializedLen : Manifest → Nat) (drawn : Drawn) (task : CompactionTask) (s : CompactionState) :
    FlushResult CompactionResult × CompactionState :=
  let inputs := task.inputSSTables ++ task.targetSSTables
  if (doneBefore drawn.inputStop inputs).length < inputs.length then (.error (.io "get_range"), s)
  else
    match readTables s.tables task inputs with
    | .error e => (.error e, s)
    | .ok contents =>
      let outs := outputs fileSize drawn config.targetFragmentSize
        (merge task.targetLevel.isBottom contents)
      let written := doneBefore drawn.outputStop outs
      let tables := writeTables task.targetLevel written s.tables
      if written.length < outs.length then (.error (.io "put"), { s with tables })
      else if drawn.fault = some .updateManifest then
        (.error (.io "conditional_put"), { s with tables })
      else
        let update := compactionUpdate s.manifest.manager
          (outs.map fun out => (task.targetLevel, out.1))
          ((task.inputSSTables.map fun t => (task.sourceLevel, t.id)) ++
            task.targetSSTables.map fun t => (task.targetLevel, t.id))
        match s.manifest.update serializedLen update drawn.nowMs with
        | (.error e, manifest) => (.error e, { manifest, tables })
        | (.ok (), manifest) =>
          (.ok { outputSSTables := outs.map Prod.fst
                 removedSSTableIds := (task.inputSSTables ++ task.targetSSTables).map SSTableMeta.id
                 trivialMoves := 0 },
            { manifest, tables })

def execute (config : CompactionConfig) (fileSize : List MergeEntry → Nat)
    (serializedLen : Manifest → Nat) (drawn : Drawn) (task : CompactionTask) (s : CompactionState) :
    FlushResult CompactionResult × CompactionState :=
  if task.taskType = .levelToLevel ∧ task.targetSSTables.isEmpty ∧ ¬ task.inputSSTables.isEmpty then
    moveTrivially serializedLen drawn task s
  else mergeInputs config fileSize serializedLen drawn task s

section Outcome
variable (config : CompactionConfig) (fileSize : List MergeEntry → Nat)
  (serializedLen : Manifest → Nat) (d : Drawn)
  (task : CompactionTask) (s : CompactionState)

/-- The manifest before the commit, or what a refused update leaves. -/
def Uncommitted (m : ManifestState) : Prop :=
  m = s.manifest ∨ ∃ update e, s.manifest.update serializedLen update d.nowMs = (.error e, m)

/-- A move commits when all its inputs are copied, and deletes them then. -/
inductive MoveOutcome : FlushResult CompactionResult → CompactionState → Prop where
  | uncommitted {copied : List SSTableMeta} {result : FlushResult Unit} {e : FlushError}
      {m : ManifestState} {tables : Tables}
      (part : copied ⊆ task.inputSSTables) (copies :
        copyTables task.sourceLevel task.targetLevel copied s.tables = (result, tables))
      (kept : Uncommitted serializedLen d s m) : MoveOutcome (.error e) ⟨m, tables⟩
  | committed {r : FlushResult CompactionResult} {m : ManifestState} {tables : Tables}
      (copies : copyTables task.sourceLevel task.targetLevel task.inputSSTables s.tables = (.ok (), tables))
      (stored : s.manifest.update serializedLen (compactionUpdate s.manifest.manager
        ((task.inputSSTables.map fun t => { t with createdAtMs := d.nowMs }).map fun t => (task.targetLevel, t))
        (task.inputSSTables.map fun t => (task.sourceLevel, t.id))) d.nowMs = (.ok (), m))
      (finished : ∀ result, r = .ok result → doneBefore d.deleteStop task.inputSSTables = task.inputSSTables ∧
        result.removedSSTableIds = task.inputSSTables.map SSTableMeta.id)
      (failed : ∀ e, r = .error e → (doneBefore d.deleteStop task.inputSSTables).length <
        task.inputSSTables.length) :
      MoveOutcome r ⟨m, (doneBefore d.deleteStop task.inputSSTables).foldl
        (fun tables t => tables.delete (t.sstPath task.sourceLevel)) tables⟩

/-- A merge commits when it has read all its inputs and has written what it makes of them. -/
inductive MergeOutcome : FlushResult CompactionResult → CompactionState → Prop where
  | unread {e : FlushError} : MergeOutcome (.error e) s
  | uncommitted {contents : List (List MergeEntry)} {e : FlushError} {m : ManifestState}
      (read : readTables s.tables task (task.inputSSTables ++ task.targetSSTables) = .ok contents)
      (kept : Uncommitted serializedLen d s m) :
      MergeOutcome (.error e) ⟨m, writeTables task.targetLevel (doneBefore d.outputStop
        (outputs fileSize d config.targetFragmentSize (merge task.targetLevel.isBottom contents)))
          s.tables⟩
  | committed {contents : List (List MergeEntry)} {outs : List (SSTableMeta × List MergeEntry)}
      {result : CompactionResult}
      {m : ManifestState} (read : readTables s.tables task
        (task.inputSSTables ++ task.targetSSTables) = .ok contents)
      (cut : outputs fileSize d config.targetFragmentSize (merge task.targetLevel.isBottom contents) = outs)
      (reads : doneBefore d.inputStop (task.inputSSTables ++ task.targetSSTables) =
        task.inputSSTables ++ task.targetSSTables)
      (writes : doneBefore d.outputStop outs = outs) (reached : d.fault ≠ some .updateManifest)
      (stored : s.manifest.update serializedLen (compactionUpdate s.manifest.manager
        (outs.map fun out => (task.targetLevel, out.1))
          ((task.inputSSTables.map fun t => (task.sourceLevel, t.id)) ++
          task.targetSSTables.map fun t => (task.targetLevel, t.id))) d.nowMs = (.ok (), m))
      (finished : result.removedSSTableIds = (task.inputSSTables ++ task.targetSSTables).map SSTableMeta.id) :
      MergeOutcome (.ok result) ⟨m, writeTables task.targetLevel outs s.tables⟩

variable {config fileSize serializedLen d task s}
variable {r : FlushResult CompactionResult} {s' : CompactionState}

theorem moveTrivially_outcome (h : moveTrivially serializedLen d task s = (r, s')) :
    MoveOutcome serializedLen d task s r s' := by
  unfold moveTrivially at h
  dsimp only at h
  have part := (doneBefore_sublist d.outputStop (doneBefore d.inputStop task.inputSSTables)).trans
    (doneBefore_sublist d.inputStop task.inputSSTables)
  split at h
  · rename_i e tables copies
    cases h
    exact .uncommitted part.subset copies (Or.inl rfl)
  rename_i tables copies
  split at h
  · cases h
    exact .uncommitted part.subset copies (Or.inl rfl)
  rename_i whole
  split at h
  · cases h
    exact .uncommitted part.subset copies (Or.inl rfl)
  rw [part.eq_of_length_le (le_of_not_gt whole)] at copies
  split at h
  · rename_i e m refused
    cases h
    exact .uncommitted (List.Subset.refl _) copies (Or.inr ⟨_, e, refused⟩)
  rename_i m stored
  split at h
  · rename_i short
    cases h
    exact .committed copies stored (fun _ error => nomatch error) fun _ _ => short
  · rename_i all
    cases h
    refine .committed copies stored ?_ fun _ ok => nomatch ok
    intro result ok
    obtain rfl := Except.ok.inj ok
    exact ⟨doneBefore_all all, rfl⟩

theorem mergeInputs_outcome (h : mergeInputs config fileSize serializedLen d task s = (r, s')) :
    MergeOutcome config fileSize serializedLen d task s r s' := by
  unfold mergeInputs at h
  dsimp only at h
  split at h
  · cases h
    exact .unread
  rename_i reads
  split at h
  · cases h
    exact .unread
  rename_i contents read
  split at h
  · cases h
    exact .uncommitted read (Or.inl rfl)
  rename_i writes
  split at h
  · cases h
    exact .uncommitted read (Or.inl rfl)
  rename_i reached
  split at h
  · rename_i e m refused
    cases h
    exact .uncommitted read (Or.inr ⟨_, e, refused⟩)
  · rename_i m stored
    rw [doneBefore_all writes] at h
    cases h
    exact .committed read rfl (doneBefore_all reads) (doneBefore_all writes) reached stored rfl

end Outcome

end CompactionExecutor

end FlushDB
