import FlushDB.Engine.CachedReads
import FlushDB.Engine.PageToken
import FlushDB.Engine.Paging

/-!
The range reads with the block cache between them and the object store. Pages that go through a
coherent cache are pages of the stored tables, so they are complete; where two tables have one name
in the cache, the pages of a scan and the single read can be of different blocks.
-/

namespace FlushDB
open Lib

namespace Cached

section
variable (env : CachedEnv) (draw : CacheDraw) (tables : Tables)

/-- The blocks from the `i`-th on; `first` is where the scan began. -/
def scanFrom (h : SSTableHandle) (index : List IndexEntry) (start : CompositeKey)
    (stop : Option CompositeKey) (first : Nat) :
    Nat → List IndexEntry → CacheState → FlushResult (List MergeEntry) × CacheState
  | _, [], st => (.ok [], st)
  | i, entry :: rest, st =>
    if i > first ∧ stop.any fun s => s ≤ entry.firstKey then (.ok [], st)
    else
      andThen (fetchBlock draw (blockKey env h.path.file index i) entry.block st) fun block st =>
        match SSTableHandle.scanBlock start stop block with
        | (kept, true) => (.ok kept, st)
        | (kept, false) =>
          andThen (scanFrom h index start stop first (i + 1) rest st) fun later st =>
            (.ok (kept ++ later), st)

/-- `SSTableHandle::scan`. -/
def handleScan (h : SSTableHandle) (start : CompositeKey) (stop : Option CompositeKey)
    (st : CacheState) :
    FlushResult (List MergeEntry) × CacheState :=
  match h.index env.toReadEnv tables with
  | .error e => (.error e, st)
  | .ok index =>
    let first := (IndexBlock.findBlockIndex index start).getD 0
    scanFrom env draw h index start stop first first (index.drop first) st

def scanHandles (start stop : CompositeKey) :
    List SSTableHandle → CacheState → FlushResult (List (List MergeEntry)) × CacheState
  | [], st => (.ok [], st)
  | h :: rest, st =>
    andThen (handleScan env draw tables h start (some stop) st) fun entries st =>
      andThen (scanHandles start stop rest st) fun others st => (.ok (entries :: others), st)

/-- The tables whose key ranges meet the range of a read. -/
def consulted (start stop : CompositeKey) (levels : List LevelState) : List SSTableHandle :=
  levels.flatMap fun level => level.findCandidatesForRange start stop

/-- The sources of `ReadPath::range_read`. -/
def readSources (l : MemtableList) (levels : List LevelState) (start stop : CompositeKey)
    (st : CacheState) :
    FlushResult (List VecSource) × CacheState :=
  let held := (l.scanAllWithTombstones start stop).map MergeEntry.fromMemtableEntry
  andThen (scanHandles env draw tables start stop (consulted start stop levels) st) fun stored st =>
    (.ok (CompactionExecutor.mergeSources ((held :: stored).filter fun entries => !entries.isEmpty)), st)

/-- `ReadPath::range_read`. -/
def rangeRead (recordId : Bytes) (startKey endKey : Option Bytes) (options : RangeReadOptions)
    (l : MemtableList) (levels : List LevelState) (st : CacheState) :
    FlushResult RangeReadResult × CacheState :=
  match ReadPath.startBound recordId startKey options with
  | .error e => (.error e, st)
  | .ok start =>
    match ReadPath.endBound recordId endKey with
    | .error e => (.error e, st)
    | .ok stop =>
      andThen (readSources env draw tables l levels start stop st) fun sources st =>
        let page := ReadPath.collect recordId options (MergeIterator.remaining sources)
          { sources, collector := l.allRangeTombstones.foldl RangeTombstoneIndex.add {} }
        (.ok { entries := page.entries
               nextPageToken := ReadPath.pageToken page
               totalBytes := page.totalBytes
               isPartial := (ReadPath.pageToken page).isSome }, st)

end

/-- `Engine::scan`. -/
def scan (env : CachedEnv) (draw : CacheDraw) (recordId : Bytes) (startKey endKey : Option Bytes)
    (options : RangeReadOptions) (s : Engine) (st : CacheState) :
    FlushResult RangeReadResult × CacheState :=
  rangeRead env draw s.tables recordId startKey endKey options s.memtableList s.levels st

/-- The limits that a caller sets for a page, and what the page meets in the cache and behind it. -/
structure CachedPage where
  pageSizeBytes : Nat
  itemLimit : Option Nat := none
  draw : CacheDraw := {}

/-- The page of the stored tables. -/
def CachedPage.stored (page : CachedPage) : PageChoice where
  pageSizeBytes := page.pageSizeBytes
  itemLimit := page.itemLimit

/-- `scan_range`. What a page leaves in the cache is what the next one finds. -/
def scanRange (env : CachedEnv) (choices : Nat → CachedPage) (recordId : Bytes)
    (startKey endKey : Option Bytes) (s : Engine) :
    Nat → Nat → Option PageToken → CacheState → List (List MergeEntry) × Option (FlushResult Unit)
  | 0, _, _, _ => ([], none)
  | fuel + 1, page, resumeFrom, st =>
    match scan env (choices page).draw recordId startKey endKey
        { pageSizeBytes := (choices page).pageSizeBytes, itemLimit := (choices page).itemLimit,
          resumeFrom } s st with
    | (.error e, _) => ([], some (.error e))
    | (.ok result, st) =>
      let sent := if result.entries.isEmpty then [] else [result.entries]
      match result.nextPageToken with
      | none => (sent, some (.ok ()))
      | some token =>
        let (more, outcome) := scanRange env choices recordId startKey endKey s fuel (page + 1)
          (some token) st
        (sent ++ more, outcome)

section
variable {env : CachedEnv} {draw : CacheDraw} {tables : Tables} {paths : List SstPath}
  {inv : BlockStore → Prop} {st : CacheState}

theorem scanFrom_shows (keeps : Keeps env tables paths draw inv) {h : SSTableHandle}
    (member : h.path ∈ paths) {index : List IndexEntry}
    (indexed : h.index env.toReadEnv tables = .ok index) (start : CompositeKey)
    (stop : Option CompositeKey) (first : Nat) {i : Nat} {left : List IndexEntry}
    (rest : index.drop i = left) (before : inv st.cache) :
    Shows draw inv (SSTableHandle.scanFrom {} h start stop first i left)
      (scanFrom env draw h index start stop first i left st) := by
  obtain ⟨stored, held, rfl⟩ := index_stored indexed
  induction left generalizing i st with
  | nil => exact shows_same _ before
  | cons entry others ih =>
    obtain ⟨listed, later⟩ := listed_of_drop rest
    unfold scanFrom SSTableHandle.scanFrom
    split
    · exact shows_same _ before
    · have block := fetchBlock_shows keeps member held listed before
      refine block.andThen (fun block => match SSTableHandle.scanBlock start stop block with
        | (kept, true) => .ok kept
        | (kept, false) =>
          (SSTableHandle.scanFrom {} h start stop first (i + 1) others).map fun later =>
            kept ++ later) ?_
      intro fetched next met
      cases SSTableHandle.scanBlock start stop fetched with
      | mk kept ended =>
        cases ended with
        | true => exact shows_same _ met
        | false => exact (ih met later).answer fun later => kept ++ later

theorem handleScan_shows (keeps : Keeps env tables paths draw inv) {h : SSTableHandle}
    (member : h.path ∈ paths) (start : CompositeKey) (stop : Option CompositeKey)
    (before : inv st.cache) :
    Shows draw inv (h.scan env.toReadEnv {} tables start stop)
      (handleScan env draw tables h start stop st) := by
  unfold handleScan SSTableHandle.scan
  cases indexed : h.index env.toReadEnv tables with
  | error e => exact shows_same _ before
  | ok index => exact scanFrom_shows keeps member indexed start stop _ rfl before

theorem scanHandles_shows (keeps : Keeps env tables paths draw inv) (start stop : CompositeKey)
    {among : List SSTableHandle} (inside : ∀ h ∈ among, h.path ∈ paths) (before : inv st.cache) :
    Shows draw inv (ReadPath.scanHandles env.toReadEnv {} tables start stop among)
      (scanHandles env draw tables start stop among st) := by
  induction among generalizing st with
  | nil => exact shows_same _ before
  | cons h rest ih =>
    have others : ∀ h ∈ rest, h.path ∈ paths := fun other member =>
      inside other (List.mem_cons_of_mem _ member)
    have one := handleScan_shows keeps (inside h List.mem_cons_self) start (some stop) before
    have all := one.andThen (fun entries =>
      (ReadPath.scanHandles env.toReadEnv {} tables start stop rest).map fun others =>
        entries :: others)
      fun entries next met => (ih others met).answer fun others => entries :: others
    unfold scanHandles ReadPath.scanHandles
    cases stored : h.scan env.toReadEnv {} tables start (some stop) with
    | error e =>
      rw [stored] at all
      exact all
    | ok entries =>
      rw [stored] at all
      exact all

theorem rangeRead_shows (keeps : Keeps env tables paths draw inv) (recordId : Bytes)
    (startKey endKey : Option Bytes) (options : RangeReadOptions) (l : MemtableList)
    (levels : List LevelState)
    (inside : ∀ start stop, ReadPath.startBound recordId startKey options = .ok start →
      ReadPath.endBound recordId endKey = .ok stop →
        ∀ h ∈ consulted start stop levels, h.path ∈ paths)
    (before : inv st.cache) :
    Shows draw inv (ReadPath.rangeRead env.toReadEnv {} recordId startKey endKey options l tables levels)
      (rangeRead env draw tables recordId startKey endKey options l levels st) := by
  unfold rangeRead ReadPath.rangeRead
  cases first : ReadPath.startBound recordId startKey options with
  | error e => exact shows_same _ before
  | ok start =>
    cases last : ReadPath.endBound recordId endKey with
    | error e => exact shows_same _ before
    | ok stop =>
      have stored := scanHandles_shows keeps start stop (inside start stop first last) before
      have sources := stored.answer fun stored => CompactionExecutor.mergeSources
        ((((l.scanAllWithTombstones start stop).map MergeEntry.fromMemtableEntry) :: stored).filter
          fun entries => !entries.isEmpty)
      exact sources.andThen _ fun sources next met => shows_same _ met

theorem consulted_mono {start start' stop : CompositeKey} (later : start ≤ start')
    (levels : List LevelState) :
    consulted start' stop levels ⊆ consulted start stop levels := by
  intro h member
  obtain ⟨level, listed, candidate⟩ := List.mem_flatMap.mp member
  obtain ⟨held, overlaps⟩ := List.mem_filter.mp candidate
  refine List.mem_flatMap.mpr ⟨level, listed, List.mem_filter.mpr ⟨held, ?_⟩⟩
  simp only [SSTableMeta.overlapsRange, decide_eq_true_eq, not_or] at overlaps ⊢
  exact ⟨fun below => overlaps.1 (below.trans_le later), overlaps.2⟩

end

section
variable {env : CachedEnv} {choices : Nat → CachedPage} {recordId : Bytes}
  {startKey endKey : Option Bytes} {s : Engine}
  {start stop : CompositeKey} {paths : List SstPath} {inv : BlockStore → Prop}

/-- A scan whose pages all go through a coherent cache is a scan of the stored tables. -/
theorem scanRange_shows (keeps : ∀ page, Keeps env s.tables paths (choices page).draw inv)
    (fine : ∀ page n, (choices page).draw.fails n = false)
    (first : ReadPath.startBound recordId startKey {} = .ok start)
    (last : ReadPath.endBound recordId endKey = .ok stop)
    (inside : ∀ h ∈ consulted start stop s.levels, h.path ∈ paths) {fuel page : Nat}
    {resumeFrom : Option PageToken} {st : CacheState}
    (resumes : ∀ token ∈ resumeFrom, start ≤ token.lastCompositeKey) (before : inv st.cache) :
    scanRange env choices recordId startKey endKey s fuel page resumeFrom st =
      Engine.scanRange env.toReadEnv (fun page => (choices page).stored) recordId startKey endKey s
        fuel page resumeFrom := by
  induction fuel generalizing page resumeFrom st with
  | zero => rfl
  | succ fuel ih =>
    generalize chosen : (⟨(choices page).pageSizeBytes, (choices page).itemLimit, resumeFrom⟩ :
      RangeReadOptions) = options
    obtain rfl : resumeFrom = options.resumeFrom := by rw [← chosen]
    have bound : ∀ low, ReadPath.startBound recordId startKey options = .ok low → start ≤ low := by
      intro low found
      cases resumed : options.resumeFrom with
      | none =>
        have same : ReadPath.startBound recordId startKey options =
            ReadPath.startBound recordId startKey {} := by
          unfold ReadPath.startBound
          rw [resumed]
        rw [same, first] at found
        exact (Except.ok.inj found).le
      | some token =>
        simp only [ReadPath.startBound, resumed] at found
        rw [← Except.ok.inj found]
        exact resumes token resumed
    have among : ∀ low high, ReadPath.startBound recordId startKey options = .ok low →
        ReadPath.endBound recordId endKey = .ok high →
        ∀ h ∈ consulted low high s.levels, h.path ∈ paths := by
      intro low high found ended h member
      obtain rfl := Except.ok.inj (last.symm.trans ended)
      exact inside h (consulted_mono (bound low found) s.levels member)
    have shown := rangeRead_shows (keeps page) recordId startKey endKey options s.memtableList
      s.levels among before
    have whole := shown.whole (fine page)
    unfold scanRange Engine.scanRange
    rw [chosen, show (⟨((choices page).stored).pageSizeBytes, ((choices page).stored).itemLimit,
      options.resumeFrom⟩ : RangeReadOptions) =
      options from chosen]
    unfold scan Engine.scan
    rw [show ((choices page).stored).draw = ({} : ReadDraw) from rfl]
    generalize rangeRead env (choices page).draw s.tables recordId startKey endKey options
      s.memtableList s.levels st = run at shown whole ⊢
    obtain ⟨result, next⟩ := run
    rw [← whole]
    cases result with
    | error e => rfl
    | ok r =>
      dsimp only
      cases goesOn : r.nextPageToken with
      | none => rfl
      | some token =>
        obtain ⟨low, high, found, -, taken, follows⟩ := ReadPath.rangeRead_taken whole.symm
        obtain ⟨e, member, key⟩ := follows token goesOn
        have resumed : ∀ t ∈ some token, start ≤ t.lastCompositeKey := by
          rintro t ⟨⟩
          rw [key]
          exact (bound low found).trans (taken e member).1
        dsimp only
        rw [ih resumed shown.kept]

/-- The tables that a read of the range meets. -/
def consultedPaths (start stop : CompositeKey) (levels : List LevelState) : List SstPath :=
  (consulted start stop levels).map SSTableHandle.path

end

end Cached

namespace World

section Example

/-- Two entries fill a fragment of L1, and one fragment overflows it. -/
def collidingEnv : Env :=
  { sampleEnv 1000 with
    config := { ns := "ns", compactionConfig := { l0CompactionTrigger := 0, l1MaxBytes := 50,
                                                  targetFragmentSize := 40 } } }

/-- Every entry is a block. -/
def collidingCached : CachedEnv := { sampleCached with blockSizeTarget := 1 }

/-- The runs of two merges, each of one fragment; the first has moved on to L2. -/
def collidingRun : List Label :=
  [.openEngine 0 none, samplePut 1 1 false, samplePut 2 1 true, .maybeCompact fun _ => {},
    samplePut 5 1 false, samplePut 6 1 true]

/-- The items 1 and 3 are in a table, the item 2 is in the memtable. -/
def pagedRun : List Label :=
  [.openEngine 0 none, samplePut 1 1 false, samplePut 3 1 true, samplePut 2 1 false]

end Example

end World

end FlushDB
