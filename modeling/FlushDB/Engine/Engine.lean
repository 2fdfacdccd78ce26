import FlushDB.Compaction.Executor
import FlushDB.Engine.Memtable
import FlushDB.Wal.Manager

/-!
The engine: writes go to the log and to the active memtable, full memtables are frozen and
flushed to L0, and every flush runs the compactions that are due. A call returns its result and
the state it leaves, also when it fails. The clock, the decisions that depend on time and
memory, and the failures of single I/O operations are arguments of the calls.
-/

namespace FlushDB
open Lib

def Bytes.ofString (s : String) : Bytes := ⟨s.toUTF8.toList⟩

structure EngineConfig where
  memtableConfig : MemtableConfig := {}
  walConfig : WalConfig := {}
  compactionConfig : CompactionConfig := {}
  manifestConfig : ManifestConfig := {}
  ns : String

/-- The configuration, the ULIDs in the order they are drawn, and the sizes of encoded files. -/
structure Env where
  config : EngineConfig
  ulid : Nat → String
  fileSize : List MergeEntry → Nat
  serializedLen : Manifest → Nat

structure SSTableHandle where
  table : SSTableMeta
  path : SstPath

structure LevelState where
  level : Level
  handles : List SSTableHandle := []

/-- What a crash leaves: the objects, the manifests and the log. The number of ULIDs drawn and
of compactions run are ghost. -/
structure Stored where
  tables : Tables := ObjectStore.empty
  manifests : ObjectStore Nat Manifest := ObjectStore.empty
  wal : WalDir := ObjectStore.empty
  drawn : Nat := 0
  compactions : Nat := 0

/-- An open engine on its storage. `dropped` is ghost: a flush of this session has failed. -/
structure Engine extends Stored where
  memtableList : MemtableList
  walManager : WalManager
  manifestManager : ManifestManager
  levels : List LevelState
  nextSequence : Nat
  generationCounter : Nat := 0
  pendingDeletions : List SstId := []
  dropped : Bool := false

inductive FlushFault where
  | putTable
  | updateManifest
  | removeSegment (number : Nat)
  | openTable
  deriving DecidableEq

/-- What one compaction finds outside: its clock and a failure. -/
structure CompactionDraw where
  nowMs : Nat := 0
  fault : Option CompactionFault := none

/-- What one flush finds outside: its clock, what its compactions find, and a failure. -/
structure FlushDraw where
  nowMs : Nat := 0
  compaction : Nat → CompactionDraw := fun _ => {}
  fault : Option FlushFault := none

/-- The flush fails before its commit. -/
def FlushDraw.fails (draw : FlushDraw) : Bool :=
  draw.fault = some .putTable ∨ draw.fault = some .updateManifest

/-- The segment whose file cannot be removed. -/
def FlushDraw.failing (draw : FlushDraw) : Option Nat :=
  match draw.fault with
  | some (.removeSegment number) => some number
  | _ => none

/-- What one write finds outside: the memory limit reached, the segment number read late, and
whether the memtable is full or old after it. -/
structure WriteDraw where
  pressured : Bool := false
  late : Bool := false
  freeze : Bool := false
  flush : FlushDraw := {}

inductive OpenFault where
  | acquireEpoch
  | openWal
  deriving DecidableEq

structure PutBatchItem where
  itemKey : Bytes
  value : Bytes
  metadata : Bytes
  idempotencyToken : IdempotencyToken

namespace Engine

variable (env : Env)

def manifest (s : Engine) : ManifestState := ⟨s.manifestManager, s.manifests⟩

def setManifest (s : Engine) (m : ManifestState) : Engine :=
  { s with manifestManager := m.manager, manifests := m.bucket }

def openTable (tables : Tables) (level : Level) (table : SSTableMeta) : FlushResult SSTableHandle :=
  match tables.get (table.sstPath level) with
  | none => .error (.notFound (toString table.id))
  | some _ => .ok { table, path := table.sstPath level }

def openTables (tables : Tables) (level : Level) :
    List SSTableMeta → FlushResult (List SSTableHandle)
  | [] => .ok []
  | table :: rest =>
    match openTable tables level table with
    | .error e => .error e
    | .ok handle =>
      match openTables tables level rest with
      | .error e => .error e
      | .ok handles => .ok (handle :: handles)

/-- The levels below L0 are sorted by their first keys. -/
def openLevel (tables : Tables) (level : Level) (listed : List SSTableMeta) :
    FlushResult LevelState :=
  match openTables tables level listed with
  | .error e => .error e
  | .ok handles =>
    .ok { level, handles := if level.isOverlapping then handles
                            else handles.mergeSort (fun a b => a.table.minKey ≤ b.table.minKey) }

/-- The levels opened before one fails are kept. -/
def openLevels (tables : Tables) (m : Manifest) : List Level → FlushResult Unit × List LevelState
  | [] => (.ok (), [])
  | level :: rest =>
    match openLevel tables level (m.sstablesAtLevel level) with
    | .error e => (.error e, [])
    | .ok state =>
      let (result, states) := openLevels tables m rest
      (result, state :: states)

/-- `fault` may be a table of a level that cannot be opened. -/
def rebuildLevels (fault : Option CompactionFault) (s : Engine) : FlushResult Unit × Engine :=
  match Level.all.find? fun level =>
      fault = some (.openTable level) ∧ ¬ (s.manifestManager.current.sstablesAtLevel level).isEmpty with
  | none =>
    let (result, levels) := openLevels s.tables s.manifestManager.current Level.all
    (result, { s with levels })
  | some level =>
    let (result, levels) := openLevels s.tables s.manifestManager.current
      (Level.all.takeWhile (· ≠ level))
    (result.bind fun _ => .error (.io "get_range"), { s with levels })

def compact (draw : CompactionDraw) (task : CompactionTask) (s : Engine) :
    FlushResult Unit × Engine :=
  let drawn : Drawn := ⟨draw.nowMs, env.ulid s.drawn, env.ulid (s.drawn + 1), draw.fault⟩
  let (result, left) := CompactionExecutor.execute env.config.compactionConfig env.fileSize
    env.serializedLen drawn task
    ⟨s.manifest, s.tables⟩
  let s :=
    { s.setManifest left.manifest with
      tables := left.tables
      drawn := s.drawn + 2
      compactions := s.compactions + 1 }
  match result with
  | .error e => (.error e, s)
  | .ok result =>
    rebuildLevels draw.fault { s with pendingDeletions := s.pendingDeletions ++ result.removedSSTableIds }

/-- `draw i` is for the task after which `i` are left. -/
def compactAll (draw : Nat → CompactionDraw) :
    List CompactionTask → Engine → FlushResult Unit × Engine
  | [], s => (.ok (), s)
  | task :: rest, s =>
    match compact env (draw rest.length) task s with
    | (.error e, s) => (.error e, s)
    | (.ok (), s) => compactAll draw rest s

def maybeCompact (draw : Nat → CompactionDraw) (s : Engine) : FlushResult Unit × Engine :=
  compactAll env draw (CompactionScheduler.checkTriggers env.config.compactionConfig
    s.manifestManager.current) s

/-- `FlushPipeline::flush`. The watermark is the highest sequence number of the memtable. -/
def flush (frozen : Memtable) (draw : FlushDraw) (s : Engine) : FlushResult SSTableMeta × Engine :=
  match frozen.skiplist.nodes.map MergeEntry.fromMemtableEntry with
  | [] => (.error (.invalidArgument "cannot flush empty memtable"), s)
  | first :: rest =>
    let table := SSTableMeta.ofEntries env.fileSize (.single (env.ulid s.drawn)) draw.nowMs first rest
    if draw.fault = some .putTable then (.error (.io "put"), { s with drawn := s.drawn + 1 })
    else
      let s := { s with drawn := s.drawn + 1,
                        tables := s.tables.put (table.sstPath .L0) (first :: rest) }
      let update : ManifestUpdate :=
        { trigger := .flush
          addSSTables := [(.L0, table)]
          removeSSTables := []
          newLastFlushedSequence := some table.sequenceRange.2
          writerEpoch := s.manifestManager.writerEpoch
          compactorEpoch := s.manifestManager.compactorEpoch }
      if draw.fault = some .updateManifest then (.error (.io "conditional_put"), s)
      else
        match s.manifest.update env.serializedLen update draw.nowMs with
        | (.error e, m) => (.error e, s.setManifest m)
        | (.ok (), m) => (.ok table, s.setManifest m)

def cleanupSegments (failing : Option Nat) (segments : List Nat) (s : Engine) :
    FlushResult Unit × Engine :=
  let (result, walManager, wal) := WalManager.cleanupSegments failing segments s.walManager s.wal
  (result, { s with walManager, wal })

def pushHandle (handle : SSTableHandle) (levels : List LevelState) : List LevelState :=
  match if levels.isEmpty then Level.all.map fun level => { level } else levels with
  | [] => []
  | first :: rest => { first with handles := first.handles ++ [handle] } :: rest

/-- What follows the commit of a flush: segments of the generation go, the table is opened, and
due compactions run. -/
def finishFlush (generation : Nat) (table : SSTableMeta) (draw : FlushDraw) (s : Engine) :
    FlushResult Unit × Engine :=
  let (deletable, walManager) := s.walManager.markGenerationFlushed generation
  match cleanupSegments draw.failing deletable { s with walManager } with
  | (.error e, s) => (.error e, s)
  | (.ok (), s) =>
    if draw.fault = some .openTable then (.error (.io "get_range"), s)
    else
      match openTable s.tables .L0 table with
      | .error e => (.error e, s)
      | .ok handle =>
        maybeCompact env draw.compaction { s with levels := pushHandle handle s.levels }

/-- The frozen memtable is popped first: when its flush fails it is gone. -/
def flushFrozen (draw : FlushDraw) (s : Engine) : FlushResult Unit × Engine :=
  match s.memtableList.popOldestFrozenWithGeneration with
  | none => (.error (.invalidArgument "no frozen memtables to flush"), s)
  | some ((generation, frozen), memtableList) =>
    match flush env frozen draw { s with memtableList } with
    | (.error e, s) => (.error e, { s with dropped := true })
    | (.ok table, s) => finishFlush env generation table draw s

def freezeActive (s : Engine) : FlushResult Unit × Engine :=
  match s.memtableList.freezeActiveWithGeneration s.generationCounter with
  | .error e => (.error e, s)
  | .ok memtableList =>
    (.ok (), { s with memtableList, generationCounter := s.generationCounter + 1 })

/-- `draw i` is for the flush that leaves `i` memtables frozen. -/
def flushAllFrozen (draw : Nat → FlushDraw) : Nat → Engine → FlushResult Unit × Engine
  | 0, s => (.ok (), s)
  | fuel + 1, s =>
    if s.memtableList.hasFrozen then
      match flushFrozen env (draw fuel) s with
      | (.error e, s) => (.error e, s)
      | (.ok (), s) => flushAllFrozen draw fuel s
    else (.ok (), s)

def maybeFreezeAndFlush (freeze : Bool) (draw : FlushDraw) (s : Engine) :
    FlushResult Unit × Engine :=
  if freeze then
    match freezeActive s with
    | (.error e, s) => (.error e, s)
    | (.ok (), s) => flushFrozen env draw s
  else (.ok (), s)

def checkWriteStall (pressured : Bool) (s : Engine) : FlushResult Unit :=
  match CompactionScheduler.writeStallStatus env.config.compactionConfig s.manifestManager.current with
  | .stopped l0Count =>
    .error (.resourceExhausted "L0 SSTables"
      s!"write stalled: L0 count {l0Count} >= stop trigger, compact before writing")
  | _ =>
    if pressured then .error (.resourceExhausted "memtable_memory" "memtable memory exceeds limit")
      else .ok ()

/-- One commit to the log. -/
def appendWal (entries : List MemtableEntry) (late : Bool) (s : Engine) : FlushResult Engine :=
  let logged := entries.map fun e => WalEntry.fromMemtableEntry e (Bytes.ofString env.config.ns)
  match s.walManager.append s.wal logged s.generationCounter late with
  | .error e => .error e
  | .ok (walManager, wal) => .ok { s with walManager, wal }

/-- What `put`, `delete` and `delete_range` do with the entry they have made. -/
def writeEntry (entry : MemtableEntry) (draw : WriteDraw) (s : Engine) : FlushResult Nat × Engine :=
  match appendWal env [entry] draw.late s with
  | .error e => (.error e, s)
  | .ok s =>
    let s := { s with nextSequence := s.nextSequence + 1 }
    match s.memtableList.insert entry with
    | .error e => (.error e, s)
    | .ok (_, memtableList) =>
      match maybeFreezeAndFlush env draw.freeze draw.flush { s with memtableList } with
      | (.error e, s) => (.error e, s)
      | (.ok (), s) => (.ok entry.sequenceNumber, s)

/-- The entry of a `put`, after the checks made before anything is written. `origin` is ghost: it
names the write. -/
def preparePut (origin : Nat) (recordId itemKey value metadata : Bytes)
    (idempotencyToken : Option IdempotencyToken) (pressured : Bool) (s : Engine) :
    FlushResult MemtableEntry := do
  checkWriteStall env pressured s
  let compositeKey ← CompositeKey.new recordId itemKey
  let idempotencyKey := idempotencyToken.getD .none
  s.memtableList.checkDedup idempotencyKey
  return { compositeKey, value, metadata, idempotencyKey, sequenceNumber := s.nextSequence,
           entryType := .put, origin }

def prepareDelete (origin : Nat) (recordId itemKey : Bytes) (pressured : Bool) (s : Engine) :
    FlushResult MemtableEntry := do
  checkWriteStall env pressured s
  let compositeKey ← CompositeKey.new recordId itemKey
  return { compositeKey, value := .new, metadata := .new, idempotencyKey := .none,
           sequenceNumber := s.nextSequence,
           entryType := .delete, origin }

def prepareDeleteRange (origin : Nat) (recordId startKey endKey : Bytes) (pressured : Bool)
    (s : Engine) :
    FlushResult MemtableEntry := do
  checkWriteStall env pressured s
  let compositeKey ← CompositeKey.rangeTombstoneKey recordId startKey
  return { compositeKey, value := endKey, metadata := .new, idempotencyKey := .none,
           sequenceNumber := s.nextSequence,
           entryType := .rangeDelete, origin }

def writePrepared (prepared : FlushResult MemtableEntry) (draw : WriteDraw) (s : Engine) :
    FlushResult Nat × Engine :=
  match prepared with
  | .error e => (.error e, s)
  | .ok entry => writeEntry env entry draw s

def put (origin : Nat) (recordId itemKey value metadata : Bytes)
    (idempotencyToken : Option IdempotencyToken) (draw : WriteDraw) (s : Engine) :
    FlushResult Nat × Engine :=
  writePrepared env (preparePut env origin recordId itemKey value metadata idempotencyToken
    draw.pressured s) draw s

def delete (origin : Nat) (recordId itemKey : Bytes) (draw : WriteDraw) (s : Engine) :
    FlushResult Nat × Engine :=
  writePrepared env (prepareDelete env origin recordId itemKey draw.pressured s) draw s

def deleteRange (origin : Nat) (recordId startKey endKey : Bytes) (draw : WriteDraw) (s : Engine) :
    FlushResult Nat × Engine :=
  writePrepared env (prepareDeleteRange env origin recordId startKey endKey draw.pressured s) draw s

/-- The entries of a batch, numbered from `next` on. An item is skipped when its token is used
earlier in the batch or known to a memtable. -/
def batchEntries (l : MemtableList) (recordId : Bytes) :
    List IdempotencyToken → Nat → Nat → List PutBatchItem → FlushResult (List MemtableEntry)
  | _, _, _, [] => .ok []
  | seen, origin, next, item :: rest =>
    if !item.idempotencyToken.isNone && (seen.contains item.idempotencyToken ||
      l.knows item.idempotencyToken) then
      batchEntries l recordId (seen.insert item.idempotencyToken) origin next rest
    else
      match CompositeKey.new recordId item.itemKey with
      | .error e => .error e
      | .ok compositeKey =>
        let seen := if item.idempotencyToken.isNone then seen else seen.insert item.idempotencyToken
        match batchEntries l recordId seen (origin + 1) (next + 1) rest with
        | .error e => .error e
        | .ok entries =>
          .ok ({ compositeKey, value := item.value, metadata := item.metadata,
                 idempotencyKey := item.idempotencyToken, sequenceNumber := next, entryType :=
                   .put, origin } :: entries)

/-- `pressured i` is asked before the flush that leaves `i` memtables frozen. -/
def flushWhile (pressured : Nat → Bool) (draw : Nat → FlushDraw) :
    Nat → Bool → Engine → FlushResult Unit × Engine
  | 0, _, s => (.ok (), s)
  | fuel + 1, shouldFlush, s =>
    if s.memtableList.hasFrozen && (shouldFlush || pressured fuel) then
      match flushFrozen env (draw fuel) s with
      | (.error e, s) => (.error e, s)
      | (.ok (), s) => flushWhile pressured draw fuel false s
    else (.ok (), s)

/-- What follows the insertion of one batch entry. -/
structure ItemDraw where
  freeze : Bool := false
  pressured : Nat → Bool := fun _ => false
  flush : Nat → FlushDraw := fun _ => {}

def enforceBatchMemtableLimits (draw : ItemDraw) (s : Engine) : FlushResult Unit × Engine :=
  if s.memtableList.activeEntryCount > 0 && draw.freeze then
    match freezeActive s with
    | (.error e, s) => (.error e, s)
    | (.ok (), s) => flushWhile env draw.pressured draw.flush s.memtableList.frozen.length true s
  else flushWhile env draw.pressured draw.flush s.memtableList.frozen.length false s

/-- `draws i` is for the entry after which `i` are left. -/
def insertBatch (draws : Nat → ItemDraw) : List MemtableEntry → Engine → FlushResult Unit × Engine
  | [], s => (.ok (), s)
  | entry :: rest, s =>
    match s.memtableList.insertPrechecked entry with
    | .error e => (.error e, s)
    | .ok (_, memtableList) =>
      match enforceBatchMemtableLimits env (draws rest.length) { s with memtableList } with
      | (.error e, s) => (.error e, s)
      | (.ok (), s) => insertBatch draws rest s

def prepareBatch (origin : Nat) (recordId : Bytes) (items : List PutBatchItem) (pressured : Bool)
    (s : Engine) :
    FlushResult (List MemtableEntry) :=
  if items.isEmpty then .ok []
  else do
    checkWriteStall env pressured s
    batchEntries s.memtableList recordId [] origin s.nextSequence items

def putBatch (origin : Nat) (recordId : Bytes) (items : List PutBatchItem) (pressured late : Bool)
    (draws : Nat → ItemDraw) (s : Engine) : FlushResult Nat × Engine :=
  match prepareBatch env origin recordId items pressured s with
  | .error e => (.error e, s)
  | .ok [] => (.ok 0, s)
  | .ok (first :: rest) =>
    match appendWal env (first :: rest) late s with
    | .error e => (.error e, s)
    | .ok s =>
      match insertBatch env draws (first :: rest)
        { s with nextSequence := s.nextSequence + (first :: rest).length } with
      | (.error e, s) => (.error e, s)
      | (.ok (), s) => (.ok (first :: rest).length, s)

def maybeFlush (draw : FlushDraw) (s : Engine) : FlushResult Unit × Engine :=
  if s.memtableList.hasFrozen then flushFrozen env draw s else (.ok (), s)

/-- `aged` says that the active memtable has reached its age. -/
def runMaintenance (aged : Bool) (draw : Nat → FlushDraw) (s : Engine) :
    FlushResult Unit × Engine :=
  if s.memtableList.activeEntryCount > 0 && aged then
    match freezeActive s with
    | (.error e, s) => (.error e, s)
    | (.ok (), s) => flushAllFrozen env draw s.memtableList.frozen.length s
  else flushAllFrozen env draw s.memtableList.frozen.length s

def close (draw : Nat → FlushDraw) (s : Engine) : FlushResult Unit × Engine :=
  if s.memtableList.activeEntryCount > 0 then
    match freezeActive s with
    | (.error e, s) => (.error e, s)
    | (.ok (), s) =>
      match flushFrozen env (draw (s.memtableList.frozen.length - 1)) s with
      | (.error e, s) => (.error e, s)
      | (.ok (), s) => flushAllFrozen env draw s.memtableList.frozen.length s
  else flushAllFrozen env draw s.memtableList.frozen.length s

/-- The engine after a flush has put its object, named by the ULID that it drew. -/
def withObject (s : Engine) (contents : List MergeEntry) : Engine :=
  { s with drawn := s.drawn + 1, tables := s.tables.put ⟨.L0, .single (env.ulid s.drawn)⟩ contents }

/-- What a flush asks of the manifest. -/
def flushUpdate (s : Engine) (table : SSTableMeta) : ManifestUpdate where
  trigger := .flush
  addSSTables := [(.L0, table)]
  removeSSTables := []
  newLastFlushedSequence := some table.sequenceRange.2
  writerEpoch := s.manifestManager.writerEpoch
  compactorEpoch := s.manifestManager.compactorEpoch

/-- How a flush ends: its memtable is empty, its object or its update meets a failure, the update is
refused, or the table is listed. -/
inductive FlushEnds (frozen : Memtable) (draw : FlushDraw) (s : Engine) :
    FlushResult SSTableMeta → Engine → Prop where
  | empty {e : FlushError} (empty : frozen.skiplist.nodes = []) :
      FlushEnds frozen draw s (.error e) s
  | unwritten {e : FlushError} (fails : draw.fails = true) :
      FlushEnds frozen draw s (.error e) { s with drawn := s.drawn + 1 }
  | written {e : FlushError} {first : MergeEntry} {rest : List MergeEntry}
      (nodes : frozen.skiplist.nodes.map MergeEntry.fromMemtableEntry = first :: rest)
        (fails : draw.fails = true) :
      FlushEnds frozen draw s (.error e) (s.withObject env (first :: rest))
  | refused {e : FlushError} {first : MergeEntry} {rest : List MergeEntry} {table : SSTableMeta}
      {m : ManifestState}
      (nodes : frozen.skiplist.nodes.map MergeEntry.fromMemtableEntry = first :: rest)
      (made : SSTableMeta.ofEntries env.fileSize (.single (env.ulid s.drawn)) draw.nowMs first rest = table)
      (failed : s.manifest.update env.serializedLen (s.flushUpdate table) draw.nowMs = (.error e, m)) :
      FlushEnds frozen draw s (.error e) ((s.withObject env (first :: rest)).setManifest m)
  | committed {first : MergeEntry} {rest : List MergeEntry} {table : SSTableMeta} {m : ManifestState}
      (nodes : frozen.skiplist.nodes.map MergeEntry.fromMemtableEntry = first :: rest)
        (succeeds : draw.fails = false)
      (made : SSTableMeta.ofEntries env.fileSize (.single (env.ulid s.drawn)) draw.nowMs first rest = table)
      (stored : s.manifest.update env.serializedLen (s.flushUpdate table) draw.nowMs = (.ok (), m)) :
      FlushEnds frozen draw s (.ok table) ((s.withObject env (first :: rest)).setManifest m)

section Rules
variable {env}

theorem flush_ends {frozen : Memtable} {draw : FlushDraw} {s s' : Engine}
    {r : FlushResult SSTableMeta} (h : flush env frozen draw s = (r, s')) :
    FlushEnds env frozen draw s r s' := by
  unfold flush at h
  split at h
  · rename_i none_listed
    cases h
    exact .empty (List.map_eq_nil_iff.mp none_listed)
  rename_i first rest nodes
  dsimp only at h
  rw [SSTableMeta.sstPath_eq] at h
  split at h
  · rename_i fault
    cases h
    exact .unwritten (by simp [FlushDraw.fails, fault])
  rename_i put
  split at h
  · rename_i fault
    cases h
    exact .written nodes (by simp [FlushDraw.fails, fault])
  rename_i update
  split at h
  · rename_i e m failed
    cases h
    exact .refused nodes rfl failed
  · rename_i m stored
    cases h
    exact .committed nodes (by simp [FlushDraw.fails, put, update]) rfl stored

/-- What every task keeps, whether its compaction fails or not, all of them keep. -/
theorem compactAll_keeps {Inv : Engine → Prop} {draw : Nat → CompactionDraw}
    {tasks : List CompactionTask}
    (keeps : ∀ task ∈ tasks, ∀ i s r t, Inv s → compact env (draw i) task s = (r, t) → Inv t)
    {s t : Engine} {r : FlushResult Unit} (start : Inv s)
    (h : compactAll env draw tasks s = (r, t)) : Inv t := by
  induction tasks generalizing s with
  | nil =>
    cases h
    exact start
  | cons task rest ih =>
    unfold compactAll at h
    generalize first : compact env (draw rest.length) task s = left at h
    obtain ⟨result, u⟩ := left
    have kept := keeps task List.mem_cons_self _ _ _ _ start first
    cases result with
    | error e =>
      cases h
      exact kept
    | ok done => exact ih (fun other member => keeps other (List.mem_cons_of_mem _ member)) kept h

/-- A flush that has been committed removes segments, and compacts once it has opened its table. -/
theorem finishFlush_cases {generation : Nat} {table : SSTableMeta} {draw : FlushDraw}
    {s s' : Engine} {r : FlushResult Unit} (h : finishFlush env generation table draw s = (r, s')) :
    ∃ removed t, cleanupSegments draw.failing (s.walManager.markGenerationFlushed generation).1
        { s with walManager := (s.walManager.markGenerationFlushed generation).2 } = (removed, t) ∧
      (s' = t ∨ ∃ handle, maybeCompact env draw.compaction
        { t with levels := pushHandle handle t.levels } = (r, s')) := by
  unfold finishFlush at h
  dsimp only at h
  generalize cleans : cleanupSegments draw.failing (s.walManager.markGenerationFlushed generation).1
    { s with walManager := (s.walManager.markGenerationFlushed generation).2 } = left at h
  obtain ⟨removed, t⟩ := left
  refine ⟨removed, t, rfl, ?_⟩
  cases removed with
  | error e =>
    cases h
    exact Or.inl rfl
  | ok done =>
    dsimp only at h
    split at h
    · cases h
      exact Or.inl rfl
    · split at h
      · cases h
        exact Or.inl rfl
      · rename_i handle _
        exact Or.inr ⟨handle, h⟩

end Rules

end Engine

end FlushDB
