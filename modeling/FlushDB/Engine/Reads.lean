import FlushDB.Engine.Engine
import FlushDB.Sstable.Blocks

/-!
The reads of an engine: point reads, with and without a budget of object fetches, and range
reads. Blocks are read as they are stored; which of them are cached and which fetches fail is
decided outside, and so is the answer of a table's filter.
-/

namespace FlushDB
open Lib

structure ReadEnv where
  blockSizeTarget : Nat
  getBudgetPerRead : Nat
  /-- The filter built from the record ids of a table. -/
  maybeContains : List Bytes → Bytes → Bool

/-- What one read finds: the cached blocks, and those that cannot be fetched. -/
structure ReadDraw where
  cached : SstPath → Nat → Bool := fun _ _ => false
  fails : SstPath → Nat → Bool := fun _ _ => false

structure ReadBudget where
  remaining : Nat
  exhausted : Bool := false

def ReadBudget.trySpend (budget : ReadBudget) : Bool × ReadBudget :=
  if budget.remaining > 0 then (true, { budget with remaining := budget.remaining - 1 })
  else (false, { budget with exhausted := true })

/-- The version with the higher number; the first of equals. -/
def keepNewer (best : Option MergeEntry) (e : MergeEntry) : Option MergeEntry :=
  match best with
  | some b => if b.sequenceNumber ≥ e.sequenceNumber then some b else some e
  | none => some e

section Tables
variable (renv : ReadEnv) (draw : ReadDraw) (tables : Tables)

namespace SSTableHandle

/-- The filter of a table, built from its entries. -/
def mayContainRecord (h : SSTableHandle) (recordId : Bytes) : Bool :=
  renv.maybeContains ((tables.entries h.path).map fun e => e.compositeKey.recordId) recordId

/-- The index of a table; its blocks cannot be read when the object is gone. -/
def index (h : SSTableHandle) : FlushResult (List IndexEntry) :=
  match tables.get h.path with
  | none => .error (.notFound (toString h.table.id))
  | some entries => .ok (SSTableWriter.write renv.blockSizeTarget entries)

/-- A block that is not cached comes from the table's object. -/
def fetchBlock (h : SSTableHandle) (i : Nat) (block : List MergeEntry) :
    FlushResult (List MergeEntry) :=
  if draw.cached h.path i then .ok block
  else if draw.fails h.path i then .error (.io "get_range")
  else .ok block

def fetchBlockBudgeted (h : SSTableHandle) (i : Nat) (block : List MergeEntry)
    (budget : ReadBudget) :
    FlushResult (List MergeEntry) × ReadBudget :=
  if draw.cached h.path i then (.ok block, budget)
  else
    match budget.trySpend with
    | (false, budget) =>
      (.error (.resourceExhausted "GET budget"
        s!"read budget exhausted after {renv.getBudgetPerRead - budget.remaining} GETs"), budget)
    | (true, budget) =>
      (if draw.fails h.path i then .error (.io "get_range") else .ok block, budget)

/-- The newest version of the key in a block. -/
def newestInBlock (key : CompositeKey) (block : List MergeEntry) : Option MergeEntry :=
  block.foldl (fun best e => if e.compositeKey = key then keepNewer best e else best) none

def findBlock (index : List IndexEntry) (key : CompositeKey) : Option (Nat × IndexEntry) := do
  let i ← IndexBlock.findBlockIndex index key
  let entry ← index[i]?
  return (i, entry)

def get (h : SSTableHandle) (key : CompositeKey) : FlushResult (Option MergeEntry) :=
  if !h.mayContainRecord renv tables key.recordId then .ok none
  else
    match h.index renv tables with
    | .error e => .error e
    | .ok index =>
      match findBlock index key with
      | none => .ok none
      | some (i, entry) => (h.fetchBlock draw i entry.block).map (newestInBlock key)

def getBudgeted (h : SSTableHandle) (key : CompositeKey) (budget : ReadBudget) :
    FlushResult (Option MergeEntry) × ReadBudget :=
  if !h.mayContainRecord renv tables key.recordId then (.ok none, budget)
  else
    match h.index renv tables with
    | .error e => (.error e, budget)
    | .ok index =>
      match findBlock index key with
      | none => (.ok none, budget)
      | some (i, entry) =>
        let (fetched, budget) := h.fetchBlockBudgeted renv draw i entry.block budget
        (fetched.map (newestInBlock key), budget)

/-- The entries of one block from `start` on, and whether one at or after `stop` ends the scan. -/
def scanBlock (start : CompositeKey) (stop : Option CompositeKey) :
    List MergeEntry → List MergeEntry × Bool
  | [] => ([], false)
  | e :: rest =>
    if e.compositeKey < start then scanBlock start stop rest
    else if stop.any fun s => s ≤ e.compositeKey then ([], true)
    else
      let (kept, ended) := scanBlock start stop rest
      (e :: kept, ended)

/-- The blocks from the `i`-th on; `first` is where the scan began. -/
def scanFrom (h : SSTableHandle) (start : CompositeKey) (stop : Option CompositeKey) (first : Nat) :
    Nat → List IndexEntry → FlushResult (List MergeEntry)
  | _, [] => .ok []
  | i, entry :: rest =>
    if i > first ∧ stop.any fun s => s ≤ entry.firstKey then .ok []
    else
      match h.fetchBlock draw i entry.block with
      | .error e => .error e
      | .ok block =>
        match scanBlock start stop block with
        | (kept, true) => .ok kept
        | (kept, false) => (scanFrom h start stop first (i + 1) rest).map fun later => kept ++ later

def scan (h : SSTableHandle) (start : CompositeKey) (stop : Option CompositeKey) :
    FlushResult (List MergeEntry) :=
  match h.index renv tables with
  | .error e => .error e
  | .ok index =>
    let first := (IndexBlock.findBlockIndex index start).getD 0
    scanFrom draw h start stop first first (index.drop first)

end SSTableHandle

namespace LevelState

/-- Below L0 at most one table can hold the key. -/
def findCandidatesForKey (l : LevelState) (key : CompositeKey) : List SSTableHandle :=
  if l.level.isOverlapping then l.handles.filter fun h => h.mayContainRecord renv tables key.recordId
  else
    match l.handles[partitionPoint (fun h => h.table.maxKey < key.bytes) l.handles]? with
    | some h => if h.table.containsKey key then [h] else []
    | none => []

def findCandidatesForRange (l : LevelState) (start stop : CompositeKey) : List SSTableHandle :=
  l.handles.filter fun h => h.table.overlapsRange start.bytes stop.bytes

end LevelState

end Tables

namespace MemtableList

def dedupByKey : Option CompositeKey → List MemtableEntry → List MemtableEntry
  | _, [] => []
  | last, e :: rest =>
    if last = some e.compositeKey then dedupByKey last rest else
      e :: dedupByKey (some e.compositeKey) rest

def scanAllWithTombstones (l : MemtableList) (start stop : CompositeKey) : List MemtableEntry :=
  let all := l.memtables.flatMap fun m => m.scanWithTombstones start stop
  dedupByKey none (all.mergeSort fun a b => compareEntries a b ≠ .gt)

/-- The newest version of every key, without the tombstones. -/
def mergeAndFilter (entries : List MemtableEntry) : List MemtableEntry :=
  (dedupByKey none (entries.mergeSort fun a b => compareEntries a b ≠ .gt)).filter fun e =>
    !e.isTombstone

def scan (l : MemtableList) (start stop : CompositeKey) : List MemtableEntry :=
  mergeAndFilter (l.memtables.flatMap fun m => m.scanWithTombstones start stop)

def scanRecord (l : MemtableList) (recordId : Bytes) : List MemtableEntry :=
  mergeAndFilter (l.memtables.flatMap fun m => m.scanRecordWithTombstones recordId)

end MemtableList

structure GetResult where
  key : CompositeKey
  value : Bytes
  metadata : Bytes
  sequenceNumber : Nat

def GetResult.fromMergeEntry (e : MergeEntry) : GetResult where
  key := e.compositeKey
  value := e.value
  metadata := e.metadata
  sequenceNumber := e.sequenceNumber

structure PageToken where
  lastCompositeKey : CompositeKey
  lastSequenceNumber : Nat
  avgItemSizeBytes : Option Nat

structure RangeReadOptions where
  pageSizeBytes : Nat := 2 * 1024 * 1024
  itemLimit : Option Nat := none
  resumeFrom : Option PageToken := none

structure RangeReadResult where
  entries : List MergeEntry
  nextPageToken : Option PageToken
  totalBytes : Nat
  isPartial : Bool

/-- The state of the loop of `range_read`. -/
structure Page where
  sources : List VecSource
  collector : RangeTombstoneIndex
  entries : List MergeEntry := []
  totalBytes : Nat := 0

namespace ReadPath

/-- The found version, unless it or a tombstone of a memtable says that the key is deleted. -/
def answer (l : MemtableList) (key : CompositeKey) (e : MergeEntry) : Option MergeEntry :=
  if e.isTombstone then none
  else if l.rangeTombstoneCovers key.recordId key.itemKey e.sequenceNumber then none
  else some e

def extractRangeTombstoneFields (e : MergeEntry) : Option (Bytes × Bytes) :=
  match e.compositeKey.itemKey.data with
  | [] => some (.new, e.value)
  | b :: start => if b = rangeTombstonePrefix then some (⟨start⟩, e.value) else none

/-- Notes an entry that is a range tombstone. -/
def track (recordId : Bytes) (e : MergeEntry) (collector : RangeTombstoneIndex) :
    RangeTombstoneIndex :=
  if e.entryType = .rangeDelete then
    match extractRangeTombstoneFields e with
    | some (startKey, endKey) =>
      collector.add { recordId, startKey, endKey, sequenceNumber := e.sequenceNumber }
    | none => collector
  else collector

def entryBytes (e : MergeEntry) : Nat := e.compositeKey.bytes.len + e.value.len + e.metadata.len

def pageFull (options : RangeReadOptions) (p : Page) : Bool :=
  p.totalBytes ≥ options.pageSizeBytes || options.itemLimit.any fun limit => p.entries.length ≥ limit

/-- One entry of the merge. -/
def visit (recordId : Bytes) (options : RangeReadOptions) (e : MergeEntry) (p : Page) : Page :=
  if options.resumeFrom.any fun token => e.compositeKey ≤ token.lastCompositeKey then
    { p with collector := track recordId e p.collector }
  else if e.compositeKey.recordId ≠ recordId then p
  else if e.entryType = .rangeDelete then { p with collector := track recordId e p.collector }
  else if e.isTombstone then p
  else if p.collector.covers e.compositeKey.recordId e.compositeKey.itemKey e.sequenceNumber then p
  else { p with entries := p.entries ++ [e], totalBytes := p.totalBytes + entryBytes e }

/-- `fuel` bounds the number of entries left. The limits are checked after an entry is taken. -/
def collect (recordId : Bytes) (options : RangeReadOptions) : Nat → Page → Page
  | 0, p => p
  | fuel + 1, p =>
    match MergeIterator.nextDeduped p.sources with
    | none => p
    | some (e, sources) =>
      let next := visit recordId options e { p with sources }
      if next.entries.length > p.entries.length && pageFull options next then next
      else collect recordId options fuel next

def pageToken (p : Page) : Option PageToken :=
  if (MergeIterator.heap p.sources).isEmpty then none
  else
    p.entries.getLast?.map fun last =>
      { lastCompositeKey := last.compositeKey
        lastSequenceNumber := last.sequenceNumber
        avgItemSizeBytes := if p.totalBytes > 0 then some (p.totalBytes / p.entries.length % 2 ^ 32)
          else none }

def startBound (recordId : Bytes) (startKey : Option Bytes) (options : RangeReadOptions) :
    FlushResult CompositeKey :=
  match options.resumeFrom, startKey with
  | some token, _ => .ok token.lastCompositeKey
  | none, some startKey => CompositeKey.new recordId startKey
  | none, none => CompositeKey.minKeyForRecord recordId

def endBound (recordId : Bytes) (endKey : Option Bytes) : FlushResult CompositeKey :=
  match endKey with
  | some endKey => CompositeKey.new recordId endKey
  | none => CompositeKey.maxKeyForRecord recordId

section
variable (renv : ReadEnv) (draw : ReadDraw)

def searchHandles (tables : Tables) (key : CompositeKey) :
    List SSTableHandle → Option MergeEntry → FlushResult (Option MergeEntry)
  | [], best => .ok best
  | h :: rest, best =>
    match h.get renv draw tables key with
    | .error e => .error e
    | .ok none => searchHandles tables key rest best
    | .ok (some e) => searchHandles tables key rest (keepNewer best e)

def pointRead (key : CompositeKey) (l : MemtableList) (tables : Tables) (levels : List LevelState) :
    FlushResult (Option MergeEntry) :=
  match l.get key with
  | some entry => .ok (answer l key (MergeEntry.fromMemtableEntry entry))
  | none =>
    (searchHandles renv draw tables key (levels.flatMap fun level =>
      level.findCandidatesForKey renv tables key) none).map
      fun best => best.bind (answer l key)

def multiGet (recordId : Bytes) (l : MemtableList) (tables : Tables) (levels : List LevelState) :
    List Bytes → FlushResult (List (Option MergeEntry))
  | [] => .ok []
  | itemKey :: rest => do
    let key ← CompositeKey.new recordId itemKey
    let entry ← pointRead renv draw key l tables levels
    let others ← multiGet recordId l tables levels rest
    return entry :: others

def scanHandles (tables : Tables) (start stop : CompositeKey) :
    List SSTableHandle → FlushResult (List (List MergeEntry))
  | [] => .ok []
  | h :: rest =>
    match h.scan renv draw tables start (some stop) with
    | .error e => .error e
    | .ok entries => (scanHandles tables start stop rest).map fun others => entries :: others

/-- Sources without entries are left out. -/
def readSources (l : MemtableList) (tables : Tables) (levels : List LevelState)
    (start stop : CompositeKey) :
    FlushResult (List VecSource) :=
  let held := (l.scanAllWithTombstones start stop).map MergeEntry.fromMemtableEntry
  (scanHandles renv draw tables start stop (levels.flatMap fun level =>
    level.findCandidatesForRange start stop)).map
    fun stored => CompactionExecutor.mergeSources ((held :: stored).filter fun entries => !entries.isEmpty)

def rangeRead (recordId : Bytes) (startKey endKey : Option Bytes) (options : RangeReadOptions)
    (l : MemtableList) (tables : Tables) (levels : List LevelState) : FlushResult RangeReadResult := do
  let start ← startBound recordId startKey options
  let stop ← endBound recordId endKey
  let sources ← readSources renv draw l tables levels start stop
  let page := collect recordId options (MergeIterator.remaining sources)
    { sources, collector := l.allRangeTombstones.foldl RangeTombstoneIndex.add {} }
  return { entries := page.entries
           nextPageToken := pageToken page
           totalBytes := page.totalBytes
           isPartial := (pageToken page).isSome }

end

end ReadPath

namespace Engine

section
variable (renv : ReadEnv) (draw : ReadDraw)

/-- A spent budget ends the search of a level. -/
def searchBudgeted (tables : Tables) (key : CompositeKey) :
    List SSTableHandle → Option MergeEntry → ReadBudget →
      FlushResult (Option MergeEntry × ReadBudget)
  | [], best, budget => .ok (best, budget)
  | h :: rest, best, budget =>
    match h.getBudgeted renv draw tables key budget with
    | (.ok (some e), budget) => searchBudgeted tables key rest (keepNewer best e) budget
    | (.ok none, budget) => searchBudgeted tables key rest best budget
    | (.error (.resourceExhausted _ _), budget) => .ok (best, budget)
    | (.error e, _) => .error e

def searchLevels (tables : Tables) (key : CompositeKey) :
    List LevelState → Option MergeEntry → ReadBudget → FlushResult (Option MergeEntry)
  | [], best, _ => .ok best
  | level :: rest, best, budget =>
    match searchBudgeted renv draw tables key (level.findCandidatesForKey renv tables key) best
      budget with
    | .error e => .error e
    | .ok (best, budget) =>
      if budget.exhausted then .ok best else searchLevels tables key rest best budget

/-- No range is ever marked complete, so the continuity tracker knows no key to be absent. -/
def get (recordId itemKey : Bytes) (s : Engine) : FlushResult (Option GetResult) := do
  let key ← CompositeKey.new recordId itemKey
  match s.memtableList.get key with
  | some entry =>
    return (ReadPath.answer s.memtableList key (MergeEntry.fromMemtableEntry entry)).map
      GetResult.fromMergeEntry
  | none =>
    let best ← searchLevels renv draw s.tables key s.levels none { remaining := renv.getBudgetPerRead }
    return (best.bind (ReadPath.answer s.memtableList key)).map GetResult.fromMergeEntry

def scan (recordId : Bytes) (startKey endKey : Option Bytes) (options : RangeReadOptions)
    (s : Engine) :
    FlushResult RangeReadResult :=
  ReadPath.rangeRead renv draw recordId startKey endKey options s.memtableList s.tables s.levels

def multiGet (recordId : Bytes) (keys : List Bytes) (s : Engine) :
    FlushResult (List (Option GetResult)) :=
  (ReadPath.multiGet renv draw recordId s.memtableList s.tables s.levels keys).map fun results =>
    results.map fun entry => entry.map GetResult.fromMergeEntry

end

end Engine

end FlushDB
