import FlushDB.Engine.BlockCache
import FlushDB.Engine.DeadObjects
import FlushDB.Engine.RangeDeletes
import FlushDB.Engine.SharedRuns
import FlushDB.Server.NamespaceConfig

/-!
The point reads with the block cache between them and the object store. A block is kept under the
name of its table's file and its offset, and what is found there is taken for the block. As long as
no two tables have one name, a cache shows what is stored.
-/

namespace FlushDB
open Lib BlockCache

/-- What `sst_id_from_path` makes of a table's key: the run of a fragment is left out. -/
def SstId.cacheId : SstId → String
  | .single ulid => ulid
  | .fragment _ index => "frag-" ++ SstId.pad4 index

theorem BlockCache.sstIdFromPath_key {path : SstPath}
    (plain : ∀ ulid, path.file = .single ulid → '/' ∉ ulid.toList) (ns : String) :
    sstIdFromPath (path.key ns) = path.file.cacheId := by
  have clean : '/' ∉ path.file.cacheId.toList := by
    cases named : path.file with
    | single ulid => exact plain ulid named
    | fragment runId index =>
      rw [SstId.cacheId, String.toList_append, List.mem_append, not_or]
      exact ⟨by decide, slash_not_mem_padded 4 index⟩
  obtain ⟨front, chars⟩ : ∃ front, (path.key ns).toList =
      front ++ '/' :: (path.file.cacheId.toList ++ ".sst".toList) := by
    obtain ⟨level, file⟩ := path
    cases file with
    | single ulid =>
      exact ⟨("flushdb/" ++ ns ++ "/sstables/" ++ toString level).toList,
        by simp [SstPath.key, SstId.cacheId, toString, String.toList_append]⟩
    | fragment runId index =>
      exact ⟨("flushdb/" ++ ns ++ "/sstables/" ++ toString level ++ "/run-" ++ runId).toList,
        by simp [SstPath.key, SstId.cacheId, toString, String.toList_append]⟩
  have name : fileName (path.key ns) = path.file.cacheId.toList ++ ".sst".toList := by
    have plain : ∀ c ∈ (path.file.cacheId.toList ++ ".sst".toList).reverse,
        decide (c ≠ '/') = true := by
      intro c member
      rw [decide_eq_true_iff]
      rintro rfl
      rcases List.mem_append.mp (List.mem_reverse.mp member) with inside | inside
      · exact clean inside
      · exact absurd inside (by decide)
    rw [fileName, chars, List.reverse_append, List.reverse_cons, List.append_assoc,
      List.takeWhile_append_of_pos plain]
    simp
  rw [sstIdFromPath, name, if_pos (List.suffix_append _ _), List.length_append,
    show ".sst".toList.length = 4 from rfl,
    Nat.add_sub_cancel, List.take_left' rfl, String.ofList_toList]

/-- The tables that a lookup consults. -/
def candidates (renv : ReadEnv) (tables : Tables) (key : CompositeKey) (levels : List LevelState) :
    List SSTableHandle :=
  levels.flatMap fun level => level.findCandidatesForKey renv tables key

structure CachedEnv extends ReadEnv where
  /-- The bytes that a block takes in its file. -/
  blockSize : List MergeEntry → Nat
  positive : ∀ block, 0 < blockSize block

abbrev BlockStore := ObjectStore BlockCacheKey (List MergeEntry)

/-- What others have made of the cache before the `n`-th look into it, and whether the store answers
then. -/
structure CacheDraw where
  meets : Nat → BlockStore → BlockStore := fun _ cache => cache
  fails : Nat → Bool := fun _ => false

/-- The cache, and how often a read has looked into it and into the object store. -/
structure CacheState where
  cache : BlockStore := ObjectStore.empty
  lookups : Nat := 0
  fetches : Nat := 0

namespace Cached

/-- Goes on with a result, if there is one. -/
def andThen {α β : Type} (run : FlushResult α × CacheState)
    (next : α → CacheState → FlushResult β × CacheState) :
    FlushResult β × CacheState :=
  match run with
  | (.error e, st) => (.error e, st)
  | (.ok a, st) => next a st

section
variable (env : CachedEnv) (draw : CacheDraw) (tables : Tables)

/-- The `i`-th block of a table, at its place in the file. -/
def blockKey (id : SstId) (index : List IndexEntry) (i : Nat) : BlockCacheKey where
  sstId := id.cacheId
  blockOffset := Sst.headerSize + ((index.take i).map fun ie => env.blockSize ie.block).sum

/-- The read of the object store, whose block is kept. -/
def fetchInner (key : BlockCacheKey) (block : List MergeEntry) (st : CacheState) :
    FlushResult (List MergeEntry) × CacheState :=
  if draw.fails st.lookups then
    (.error (.io "get_range"), { st with lookups := st.lookups + 1, fetches := st.fetches + 1 })
  else (.ok block, { cache := st.cache.put key block, lookups := st.lookups + 1,
                     fetches := st.fetches + 1 })

def fetchBlock (key : BlockCacheKey) (block : List MergeEntry) (st : CacheState) :
    FlushResult (List MergeEntry) × CacheState :=
  let st := { st with cache := draw.meets st.lookups st.cache }
  match st.cache.get key with
  | some entries => (.ok entries, { st with lookups := st.lookups + 1 })
  | none => fetchInner draw key block st

def fetchBlockBudgeted (key : BlockCacheKey) (block : List MergeEntry) (budget : ReadBudget)
    (st : CacheState) :
    FlushResult (List MergeEntry) × ReadBudget × CacheState :=
  let st := { st with cache := draw.meets st.lookups st.cache }
  match st.cache.get key with
  | some entries => (.ok entries, budget, { st with lookups := st.lookups + 1 })
  | none =>
    match budget.trySpend with
    | (false, budget) =>
      (.error (.resourceExhausted "GET budget"
        s!"read budget exhausted after {env.getBudgetPerRead - budget.remaining} GETs"),
        budget, { st with lookups := st.lookups + 1 })
    | (true, budget) =>
      let (fetched, st) := fetchInner draw key block st
      (fetched, budget, st)

/-- `SSTableHandle::get`. -/
def handleGet (h : SSTableHandle) (key : CompositeKey) (st : CacheState) :
    FlushResult (Option MergeEntry) × CacheState :=
  if !h.mayContainRecord env.toReadEnv tables key.recordId then (.ok none, st)
  else
    match h.index env.toReadEnv tables with
    | .error e => (.error e, st)
    | .ok index =>
      match SSTableHandle.findBlock index key with
      | none => (.ok none, st)
      | some (i, entry) =>
        let (fetched, st) := fetchBlock draw (blockKey env h.path.file index i) entry.block st
        (fetched.map (SSTableHandle.newestInBlock key), st)

def handleGetBudgeted (h : SSTableHandle) (key : CompositeKey) (budget : ReadBudget)
    (st : CacheState) :
    FlushResult (Option MergeEntry) × ReadBudget × CacheState :=
  if !h.mayContainRecord env.toReadEnv tables key.recordId then (.ok none, budget, st)
  else
    match h.index env.toReadEnv tables with
    | .error e => (.error e, budget, st)
    | .ok index =>
      match SSTableHandle.findBlock index key with
      | none => (.ok none, budget, st)
      | some (i, entry) =>
        let (fetched, budget, st) := fetchBlockBudgeted env draw
          (blockKey env h.path.file index i) entry.block budget st
        (fetched.map (SSTableHandle.newestInBlock key), budget, st)

/-- The loop of `point_read`. -/
def searchHandles (key : CompositeKey) :
    List SSTableHandle → Option MergeEntry → CacheState →
      FlushResult (Option MergeEntry) × CacheState
  | [], best, st => (.ok best, st)
  | h :: rest, best, st =>
    andThen (handleGet env draw tables h key st) fun found st =>
      searchHandles key rest (match found with | some e => keepNewer best e | none => best) st

def pointRead (key : CompositeKey) (l : MemtableList) (levels : List LevelState) (st : CacheState) :
    FlushResult (Option MergeEntry) × CacheState :=
  match l.get key with
  | some entry => (.ok (ReadPath.answer l key (MergeEntry.fromMemtableEntry entry)), st)
  | none =>
    andThen (searchHandles env draw tables key (candidates env.toReadEnv tables key levels) none st)
      fun best st =>
      (.ok (best.bind (ReadPath.answer l key)), st)

/-- `ReadPath::multi_get`. -/
def pointReads (recordId : Bytes) (l : MemtableList) (levels : List LevelState) :
    List Bytes → CacheState → FlushResult (List (Option MergeEntry)) × CacheState
  | [], st => (.ok [], st)
  | itemKey :: rest, st =>
    match CompositeKey.new recordId itemKey with
    | .error e => (.error e, st)
    | .ok key =>
      andThen (pointRead env draw tables key l levels st) fun entry st =>
        andThen (pointReads recordId l levels rest st) fun others st => (.ok (entry :: others), st)

/-- The tables of one level in `Engine::get`. A spent budget ends the search of the level. -/
def searchBudgeted (key : CompositeKey) :
    List SSTableHandle → Option MergeEntry → ReadBudget → CacheState →
      FlushResult (Option MergeEntry × ReadBudget) × CacheState
  | [], best, budget, st => (.ok (best, budget), st)
  | h :: rest, best, budget, st =>
    match handleGetBudgeted env draw tables h key budget st with
    | (.ok (some e), budget, st) => searchBudgeted key rest (keepNewer best e) budget st
    | (.ok none, budget, st) => searchBudgeted key rest best budget st
    | (.error (.resourceExhausted _ _), budget, st) => (.ok (best, budget), st)
    | (.error e, _, st) => (.error e, st)

def searchLevels (key : CompositeKey) :
    List LevelState → Option MergeEntry → ReadBudget → CacheState →
      FlushResult (Option MergeEntry) × CacheState
  | [], best, _, st => (.ok best, st)
  | level :: rest, best, budget, st =>
    andThen (searchBudgeted env draw tables key
      (level.findCandidatesForKey env.toReadEnv tables key) best budget st) fun found st =>
      if found.2.exhausted then (.ok found.1, st) else searchLevels key rest found.1 found.2 st

end

section
variable (env : CachedEnv) (draw : CacheDraw)

/-- `Engine::get`. -/
def get (recordId itemKey : Bytes) (s : Engine) (st : CacheState) :
    FlushResult (Option GetResult) × CacheState :=
  match CompositeKey.new recordId itemKey with
  | .error e => (.error e, st)
  | .ok key =>
    match s.memtableList.get key with
    | some entry =>
      (.ok ((ReadPath.answer s.memtableList key (MergeEntry.fromMemtableEntry entry)).map
        GetResult.fromMergeEntry), st)
    | none =>
      andThen (searchLevels env draw s.tables key s.levels none
        { remaining := env.getBudgetPerRead } st) fun best st =>
        (.ok ((best.bind (ReadPath.answer s.memtableList key)).map GetResult.fromMergeEntry), st)

/-- `Engine::multi_get`. -/
def multiGet (recordId : Bytes) (keys : List Bytes) (s : Engine) (st : CacheState) :
    FlushResult (List (Option GetResult)) × CacheState :=
  andThen (pointReads env draw s.tables recordId s.memtableList s.levels keys st) fun results st =>
    (.ok (results.map fun entry => entry.map GetResult.fromMergeEntry), st)

/-- How often the lookup of a key reads the object store when nothing stops it. -/
def lookupFetches (key : CompositeKey) (s : Engine) (st : CacheState) : Nat :=
  match s.memtableList.get key with
  | some _ => 0
  | none =>
    (searchHandles env draw s.tables key (candidates env.toReadEnv s.tables key s.levels) none
      st).2.fetches - st.fetches

end

/-! What a cache shows of tables whose names are apart. -/

/-- Tables that have one name in the cache have one content. -/
def NamesApart (tables : Tables) (paths : List SstPath) : Prop :=
  ∀ p ∈ paths, ∀ q ∈ paths, p.file.cacheId = q.file.cacheId →
    ∀ xs ∈ tables.get p, ∀ ys ∈ tables.get q, xs = ys

/-- Where the tables lie that are stored. -/
def storedPaths (tables : Tables) : List SstPath := tables.objects.map Prod.fst

theorem mem_storedPaths {tables : Tables} {p : SstPath} {stored : List MergeEntry}
    (found : tables.get p = some stored) :
    p ∈ storedPaths tables := by
  obtain ⟨object, listed, -⟩ := Option.map_eq_some_iff.mp found
  exact List.mem_map.mpr ⟨object, List.mem_of_find?_eq_some listed, by simpa using List.find?_some listed⟩

instance (tables : Tables) (paths : List SstPath) : Decidable (NamesApart tables paths) :=
  inferInstanceAs (Decidable (∀ p ∈ paths, ∀ q ∈ paths, _ →
    ∀ xs ∈ tables.get p, ∀ ys ∈ tables.get q, xs = ys))

/-- What is kept at the place of a block of one of the tables is that block. -/
def Coherent (env : CachedEnv) (tables : Tables) (paths : List SstPath) (cache : BlockStore) :
    Prop :=
  ∀ p ∈ paths, ∀ stored, tables.get p = some stored →
    ∀ i ie, (SSTableWriter.write env.blockSizeTarget stored)[i]? = some ie →
    ∀ entries, cache.get (blockKey env p.file (SSTableWriter.write env.blockSizeTarget stored) i) =
      some entries → entries = ie.block

theorem NamesApart.among {tables : Tables} (apart : NamesApart tables (storedPaths tables))
    (paths : List SstPath) :
    NamesApart tables paths := fun p _ q _ same xs found ys found' =>
  apart p (mem_storedPaths found) q (mem_storedPaths found') same xs found ys found'

theorem coherent_empty {env : CachedEnv} {tables : Tables} {paths : List SstPath} :
    Coherent env tables paths ObjectStore.empty := by
  intro p _ stored _ i ie _ entries kept
  rw [ObjectStore.get_empty] at kept
  cases kept

/-- The names are apart, and what others put into the cache leaves it coherent. -/
structure Guarded (env : CachedEnv) (tables : Tables) (paths : List SstPath) (draw : CacheDraw) :
    Prop where
  apart : NamesApart tables paths
  meets : ∀ n cache, Coherent env tables paths cache →
    Coherent env tables paths (draw.meets n cache)

/-- What holds of the cache throughout a read: it is right about the tables, keeping one of their
blocks does no harm, and neither does what others make of the cache. -/
structure Keeps (env : CachedEnv) (tables : Tables) (paths : List SstPath) (draw : CacheDraw)
    (inv : BlockStore → Prop) : Prop where
  right : ∀ cache, inv cache → Coherent env tables paths cache
  put : ∀ cache, inv cache → ∀ p ∈ paths, ∀ stored, tables.get p = some stored → ∀ i ie,
    (SSTableWriter.write env.blockSizeTarget stored)[i]? = some ie →
      inv (cache.put (blockKey env p.file (SSTableWriter.write env.blockSizeTarget stored) i) ie.block)
  meets : ∀ n cache, inv cache → inv (draw.meets n cache)

/-- A read through the cache answers as the read of the stored blocks, unless the object store does
not answer. -/
structure Shows {α : Type} (draw : CacheDraw) (inv : BlockStore → Prop) (stored : FlushResult α)
    (run : FlushResult α × CacheState) : Prop where
  given : ∀ a, run.1 = .ok a → stored = .ok a
  whole : (∀ n, draw.fails n = false) → run.1 = stored
  kept : inv run.2.cache

section
variable {env : CachedEnv} {draw : CacheDraw} {tables : Tables} {paths : List SstPath}
  {inv : BlockStore → Prop} {st : CacheState} {α β : Type}

theorem shows_same (stored : FlushResult α) (before : inv st.cache) :
    Shows draw inv stored (stored, st) := ⟨fun _ same => same, fun _ => rfl, before⟩

theorem Shows.map {stored : FlushResult α} {run : FlushResult α × CacheState}
    (h : Shows draw inv stored run) (f : α → β) :
    Shows draw inv (stored.map f) (run.1.map f, run.2) := by
  refine ⟨?_, fun sure => by rw [h.whole sure], h.kept⟩
  intro b mapped
  cases got : run.1 with
  | error e =>
    rw [got] at mapped
    cases mapped
  | ok a =>
    rw [got] at mapped
    rw [h.given a got, ← mapped]

theorem Shows.andThen {stored : FlushResult α} {run : FlushResult α × CacheState}
    (h : Shows draw inv stored run) (storedNext : α → FlushResult β)
    {next : α → CacheState → FlushResult β × CacheState}
    (rest : ∀ a st, inv st.cache → Shows draw inv (storedNext a) (next a st)) :
    Shows draw inv (stored >>= storedNext) (andThen run next) := by
  obtain ⟨result, st⟩ := run
  cases result with
  | error e =>
    refine ⟨?_, fun sure => ?_, h.kept⟩
    · intro b same
      cases same
    · rw [← h.whole sure]
      rfl
  | ok a =>
    rw [h.given a rfl]
    exact rest a st h.kept

theorem Shows.answer {stored : FlushResult α} {run : FlushResult α × CacheState}
    (h : Shows draw inv stored run) (f : α → β) :
    Shows draw inv (stored.map f) (Cached.andThen run fun a st => (.ok (f a), st)) := by
  have all := h.andThen (fun a => .ok (f a)) fun a st later => shows_same _ later
  cases stored with
  | error e => exact all
  | ok a => exact all

theorem take_sum_lt {f : IndexEntry → Nat} {index : List IndexEntry} {i j : Nat} {ie : IndexEntry}
    (positive : ∀ e, 0 < f e) (found : index[i]? = some ie) (before : i < j) :
    ((index.take i).map f).sum < ((index.take j).map f).sum := by
  obtain ⟨inside, -⟩ := List.getElem?_eq_some_iff.mp found
  obtain ⟨k, rfl⟩ : ∃ k, j = i + (k + 1) := ⟨j - i - 1, by omega⟩
  have one := positive index[i]
  rw [List.take_add, List.drop_eq_getElem_cons inside, List.take_succ_cons, List.map_append,
    List.sum_append, List.map_cons,
    List.sum_cons]
  omega

/-- The blocks of one table have places of their own. -/
theorem blockKey_inj {id id' : SstId} {index : List IndexEntry} {i j : Nat} {a b : IndexEntry}
    (first : index[i]? = some a) (second : index[j]? = some b)
    (same : blockKey env id index i = blockKey env id' index j) : i = j := by
  have sums := Nat.add_left_cancel (congrArg BlockCacheKey.blockOffset same)
  have positive : ∀ e : IndexEntry, 0 < env.blockSize e.block := fun e => env.positive e.block
  rcases Nat.lt_trichotomy i j with less | equal | more
  · exact absurd sums (take_sum_lt positive first less).ne
  · exact equal
  · exact absurd sums (take_sum_lt positive second more).ne'

theorem Coherent.put {cache : BlockStore} (coherent : Coherent env tables paths cache)
    (apart : NamesApart tables paths) {p : SstPath} (member : p ∈ paths) {stored : List MergeEntry}
    (found : tables.get p = some stored) {i : Nat} {ie : IndexEntry}
    (listed : (SSTableWriter.write env.blockSizeTarget stored)[i]? = some ie) :
    Coherent env tables paths
      (cache.put (blockKey env p.file (SSTableWriter.write env.blockSizeTarget stored) i) ie.block) := by
  intro q member' stored' found' j ie' listed' entries kept
  rw [ObjectStore.get_put] at kept
  split at kept
  · rename_i same
    obtain rfl := apart q member' p member (congrArg BlockCacheKey.sstId same) stored' found' stored
      found
    obtain rfl := blockKey_inj listed' listed same
    obtain rfl := Option.some.inj (listed.symm.trans listed')
    exact (Option.some.inj kept).symm
  · exact coherent q member' stored' found' j ie' listed' entries kept

theorem Guarded.keeps (guarded : Guarded env tables paths draw) :
    Keeps env tables paths draw (Coherent env tables paths) :=
  ⟨fun _ same => same, fun _ coherent _ member _ found _ _ listed =>
    coherent.put guarded.apart member found listed, guarded.meets⟩

theorem fetchBlock_shows (keeps : Keeps env tables paths draw inv) {p : SstPath}
    (member : p ∈ paths) {stored : List MergeEntry} (found : tables.get p = some stored) {i : Nat}
    {ie : IndexEntry} (listed : (SSTableWriter.write env.blockSizeTarget stored)[i]? = some ie)
    (before : inv st.cache) :
    Shows draw inv (.ok ie.block)
      (fetchBlock draw (blockKey env p.file (SSTableWriter.write env.blockSizeTarget stored) i)
        ie.block st) := by
  have met := keeps.meets st.lookups st.cache before
  unfold fetchBlock
  dsimp only
  split
  · rename_i entries hit
    rw [keeps.right _ met p member stored found i ie listed entries hit]
    exact shows_same _ met
  · unfold fetchInner
    split
    · rename_i failed
      refine ⟨?_, fun sure => ?_, met⟩
      · intro b same
        cases same
      · rw [sure] at failed
        cases failed
    · exact ⟨fun b same => same, fun _ => rfl, keeps.put _ met p member stored found i ie listed⟩

/-- The entry that the rest of an index begins with, and what follows it. -/
theorem listed_of_drop {index others : List IndexEntry} {i : Nat} {entry : IndexEntry}
    (rest : index.drop i = entry :: others) :
    index[i]? = some entry ∧ index.drop (i + 1) = others := by
  constructor
  · rw [← List.head?_drop, rest, List.head?_cons]
  · rw [← List.drop_drop, rest, List.drop_succ_cons, List.drop_zero]

/-- An index is that of a stored table. -/
theorem index_stored {renv : ReadEnv} {h : SSTableHandle} {index : List IndexEntry}
    (indexed : h.index renv tables = .ok index) :
    ∃ stored, tables.get h.path = some stored ∧ index =
      SSTableWriter.write renv.blockSizeTarget stored := by
  unfold SSTableHandle.index at indexed
  split at indexed
  · cases indexed
  · rename_i stored found
    exact ⟨stored, found, (Except.ok.inj indexed).symm⟩

/-- What `findBlock` gives stands in the index. -/
theorem findBlock_listed {index : List IndexEntry} {key : CompositeKey} {i : Nat} {ie : IndexEntry}
    (found : SSTableHandle.findBlock index key = some (i, ie)) : index[i]? = some ie := by
  simp only [SSTableHandle.findBlock, bind, Option.bind_eq_some_iff] at found
  obtain ⟨j, -, entry, listed, same⟩ := found
  obtain ⟨rfl, rfl⟩ := Prod.mk.inj (Option.some.inj same)
  exact listed

theorem handleGet_shows (keeps : Keeps env tables paths draw inv) {h : SSTableHandle}
    (member : h.path ∈ paths) (key : CompositeKey) (before : inv st.cache) :
    Shows draw inv (h.get env.toReadEnv {} tables key) (handleGet env draw tables h key st) := by
  unfold handleGet SSTableHandle.get
  cases h.mayContainRecord env.toReadEnv tables key.recordId with
  | false => exact shows_same _ before
  | true =>
    cases indexed : h.index env.toReadEnv tables with
    | error e => exact shows_same _ before
    | ok index =>
      cases found : SSTableHandle.findBlock index key with
      | none =>
        simp only [found]
        exact shows_same _ before
      | some place =>
        obtain ⟨stored, held, rfl⟩ := index_stored indexed
        have block := fetchBlock_shows keeps member held (findBlock_listed found) before
        simp only [found]
        exact block.map (SSTableHandle.newestInBlock key)

theorem searchHandles_shows (keeps : Keeps env tables paths draw inv) (key : CompositeKey)
    {among : List SSTableHandle} (inside : ∀ h ∈ among, h.path ∈ paths) (best : Option MergeEntry)
    (before : inv st.cache) :
    Shows draw inv (ReadPath.searchHandles env.toReadEnv {} tables key among best)
      (searchHandles env draw tables key among best st) := by
  induction among generalizing best st with
  | nil => exact shows_same _ before
  | cons h rest ih =>
    have others : ∀ h ∈ rest, h.path ∈ paths := fun other member =>
      inside other (List.mem_cons_of_mem _ member)
    have one := handleGet_shows keeps (inside h List.mem_cons_self) key before
    have all := one.andThen (fun found => ReadPath.searchHandles env.toReadEnv {} tables key rest
      (match found with | some e => keepNewer best e | none => best)) fun found st later =>
        ih others _ later
    have stored : ReadPath.searchHandles env.toReadEnv {} tables key (h :: rest) best =
        (h.get env.toReadEnv {} tables key >>= fun found =>
          ReadPath.searchHandles env.toReadEnv {} tables key rest
          (match found with | some e => keepNewer best e | none => best)) := by
      rw [ReadPath.searchHandles]
      cases h.get env.toReadEnv {} tables key with
      | error e => rfl
      | ok found => cases found <;> rfl
    rw [stored]
    exact all

end

/-! A lookup that the budget covers. -/

section
variable {env : CachedEnv} {draw : CacheDraw} {tables : Tables} {key : CompositeKey}

theorem andThen_fetches {α β : Type} {run : FlushResult α × CacheState}
    {next : α → CacheState → FlushResult β × CacheState}
    (later : ∀ a st, st.fetches ≤ (next a st).2.fetches) :
    run.2.fetches ≤ (andThen run next).2.fetches := by
  obtain ⟨result, st⟩ := run
  cases result with
  | error e => exact Nat.le_refl _
  | ok a => exact later a st

theorem fetchBlock_fetches (place : BlockCacheKey) (block : List MergeEntry) (st : CacheState) :
    st.fetches ≤ (fetchBlock draw place block st).2.fetches := by
  unfold fetchBlock fetchInner
  dsimp only
  split
  · exact Nat.le_refl _
  split
  · exact Nat.le_succ _
  · exact Nat.le_succ _

theorem handleGet_fetches (h : SSTableHandle) (st : CacheState) :
    st.fetches ≤ (handleGet env draw tables h key st).2.fetches := by
  unfold handleGet
  split
  · exact Nat.le_refl _
  split
  · exact Nat.le_refl _
  split
  · exact Nat.le_refl _
  · exact fetchBlock_fetches _ _ _

theorem searchHandles_cons (h : SSTableHandle) (rest : List SSTableHandle)
    (best : Option MergeEntry) (st : CacheState) :
    searchHandles env draw tables key (h :: rest) best st =
      andThen (handleGet env draw tables h key st) fun found st =>
        searchHandles env draw tables key rest
          (match found with | some e => keepNewer best e | none => best) st := rfl

theorem searchHandles_fetches (handles : List SSTableHandle) (best : Option MergeEntry)
    (st : CacheState) :
    st.fetches ≤ (searchHandles env draw tables key handles best st).2.fetches := by
  induction handles generalizing best st with
  | nil => exact Nat.le_refl _
  | cons h rest ih =>
    rw [searchHandles_cons]
    exact (handleGet_fetches h st).trans (andThen_fetches fun _ next => ih _ next)

theorem searchHandles_append (xs ys : List SSTableHandle) (best : Option MergeEntry)
    (st : CacheState) :
    searchHandles env draw tables key (xs ++ ys) best st =
      andThen (searchHandles env draw tables key xs best st) fun best st =>
        searchHandles env draw tables key ys best st := by
  induction xs generalizing best st with
  | nil => rfl
  | cons h rest ih =>
    rw [List.cons_append, searchHandles_cons, searchHandles_cons]
    cases got : handleGet env draw tables h key st with
    | mk result next =>
      cases result with
      | error e => rfl
      | ok found => exact ih _ next

theorem fetchBlockBudgeted_paid {place : BlockCacheKey} {block : List MergeEntry}
    {budget : ReadBudget} {st : CacheState}
    (enough : (fetchBlock draw place block st).2.fetches ≤ st.fetches + budget.remaining) :
    fetchBlockBudgeted env draw place block budget st = ((fetchBlock draw place block st).1,
      { budget with remaining := budget.remaining - ((fetchBlock draw place block st).2.fetches - st.fetches) },
      (fetchBlock draw place block st).2) := by
  unfold fetchBlockBudgeted
  unfold fetchBlock at enough ⊢
  dsimp only at enough ⊢
  split
  · rename_i entries hit
    simp
  · rename_i missed
    rw [missed] at enough
    have asks : (fetchInner draw place block
        { st with cache := draw.meets st.lookups st.cache }).2.fetches = st.fetches + 1 := by
      unfold fetchInner
      split
      all_goals rfl
    rw [asks] at enough
    have some : budget.remaining > 0 := by omega
    simp only [ReadBudget.trySpend, if_pos some, asks, Nat.add_sub_cancel_left]

theorem handleGetBudgeted_paid {h : SSTableHandle} {budget : ReadBudget} {st : CacheState}
    (enough : (handleGet env draw tables h key st).2.fetches ≤ st.fetches + budget.remaining) :
    handleGetBudgeted env draw tables h key budget st = ((handleGet env draw tables h key st).1,
      { budget with remaining := budget.remaining - ((handleGet env draw tables h key st).2.fetches - st.fetches) },
      (handleGet env draw tables h key st).2) := by
  unfold handleGetBudgeted
  unfold handleGet at enough ⊢
  split
  · simp
  rename_i admitted
  rw [if_neg admitted] at enough
  split
  · simp
  rename_i index indexed
  rw [indexed] at enough
  dsimp only at enough
  split
  · simp
  · rename_i i entry found
    rw [found] at enough
    rw [fetchBlockBudgeted_paid enough]

theorem handleGet_not_exhausted {h : SSTableHandle} {st : CacheState} (resource message : String) :
    (handleGet env draw tables h key st).1 ≠ .error (.resourceExhausted resource message) := by
  unfold handleGet
  split
  · exact fun same => nomatch same
  split
  · rename_i e failed
    unfold SSTableHandle.index at failed
    split at failed
    · obtain rfl := Except.error.inj failed
      exact fun same => nomatch same
    · cases failed
  split
  · exact fun same => nomatch same
  · unfold fetchBlock fetchInner
    dsimp only
    split
    · exact fun same => nomatch same
    split
    · exact fun same => nomatch same
    · exact fun same => nomatch same

theorem searchBudgeted_paid {handles : List SSTableHandle} {best : Option MergeEntry}
    {budget : ReadBudget} {st : CacheState}
    (enough : (searchHandles env draw tables key handles best st).2.fetches ≤ st.fetches + budget.remaining) :
    searchBudgeted env draw tables key handles best budget st =
      andThen (searchHandles env draw tables key handles best st) fun found next =>
        (.ok (found, { budget with remaining := budget.remaining - (next.fetches - st.fetches) }),
          next) := by
  induction handles generalizing best budget st with
  | nil => simp [searchBudgeted, searchHandles, andThen]
  | cons h rest ih =>
    have one := @handleGet_fetches env draw tables key h st
    have no_budget := @handleGet_not_exhausted env draw tables key h st
    rw [searchHandles_cons] at enough ⊢
    have here : (handleGet env draw tables h key st).2.fetches ≤ st.fetches + budget.remaining :=
      (andThen_fetches fun _ next => searchHandles_fetches rest _ next).trans enough
    rw [searchBudgeted, handleGetBudgeted_paid here]
    generalize handleGet env draw tables h key st = run at one no_budget enough here
    obtain ⟨result, next⟩ := run
    cases result with
    | error e =>
      cases e with
      | resourceExhausted resource message => exact absurd rfl (no_budget resource message)
      | _ => rfl
    | ok found =>
      have spent : ∀ (best : Option MergeEntry)
          (enough : (searchHandles env draw tables key rest best next).2.fetches ≤
            st.fetches + budget.remaining),
          searchBudgeted env draw tables key rest best
            { budget with remaining := budget.remaining - (next.fetches - st.fetches) } next =
            andThen (searchHandles env draw tables key rest best next) fun found last =>
              (.ok (found, { budget with
                remaining := budget.remaining - (last.fetches - st.fetches) }), last) := by
        intro best enough
        have later := @searchHandles_fetches env draw tables key rest best next
        dsimp only at one here
        rw [ih (by dsimp only; omega)]
        cases found' : searchHandles env draw tables key rest best next with
        | mk result last =>
          rw [found'] at later enough
          cases result with
          | error e => rfl
          | ok found =>
            dsimp only at later
            simp only [andThen, Prod.mk.injEq, Except.ok.injEq, ReadBudget.mk.injEq, and_true, true_and]
            omega
      cases found with
      | none => exact spent best enough
      | some e => exact spent (keepNewer best e) enough

theorem searchLevels_paid {levels : List LevelState} {best : Option MergeEntry}
    {budget : ReadBudget} {st : CacheState} (fresh : budget.exhausted = false)
    (enough : (searchHandles env draw tables key
      (candidates env.toReadEnv tables key levels) best st).2.fetches ≤
        st.fetches + budget.remaining) :
    searchLevels env draw tables key levels best budget st =
      searchHandles env draw tables key (candidates env.toReadEnv tables key levels) best st := by
  induction levels generalizing best budget st with
  | nil => rfl
  | cons level rest ih =>
    rw [candidates, List.flatMap_cons, searchHandles_append] at enough ⊢
    have one := @searchHandles_fetches env draw tables key
      (level.findCandidatesForKey env.toReadEnv tables key) best st
    have here : (searchHandles env draw tables key
        (level.findCandidatesForKey env.toReadEnv tables key) best st).2.fetches ≤
        st.fetches + budget.remaining :=
      (andThen_fetches fun _ next => searchHandles_fetches _ _ next).trans enough
    rw [searchLevels, searchBudgeted_paid here]
    generalize searchHandles env draw tables key
      (level.findCandidatesForKey env.toReadEnv tables key) best st = run at one enough here
    obtain ⟨result, next⟩ := run
    cases result with
    | error e => rfl
    | ok found =>
      dsimp only at one here enough
      simp only [andThen, fresh, Bool.false_eq_true, if_false]
      refine ih rfl ?_
      simp only [andThen, candidates] at enough ⊢
      omega

end

section
variable {env : CachedEnv} {draw : CacheDraw} {recordId itemKey : Bytes} {s : Engine}
  {st : CacheState} {inv : BlockStore → Prop}

/-- The open tables of an engine. -/
def opened (levels : List LevelState) : List SstPath :=
  levels.flatMap fun level => level.handles.map SSTableHandle.path

theorem candidates_opened {renv : ReadEnv} {tables : Tables} {key : CompositeKey}
    {levels : List LevelState} :
    ∀ h ∈ candidates renv tables key levels, h.path ∈ opened levels := by
  intro h member
  obtain ⟨level, listed, candidate⟩ := List.mem_flatMap.mp member
  exact List.mem_flatMap.mpr ⟨level, listed, List.mem_map_of_mem
    (LevelState.findCandidatesForKey_subset renv candidate)⟩

theorem pointRead_shows {tables : Tables} {levels : List LevelState}
    (keeps : Keeps env tables (opened levels) draw inv) (key : CompositeKey) (l : MemtableList)
    (before : inv st.cache) :
    Shows draw inv (ReadPath.pointRead env.toReadEnv {} key l tables levels)
      (pointRead env draw tables key l levels st) := by
  unfold pointRead ReadPath.pointRead
  cases l.get key with
  | some entry => exact shows_same _ before
  | none =>
    exact (searchHandles_shows keeps key candidates_opened none before).answer fun best =>
      best.bind (ReadPath.answer l key)

theorem pointReads_shows {tables : Tables} {levels : List LevelState}
    (keeps : Keeps env tables (opened levels) draw inv) (l : MemtableList) (keys : List Bytes)
    (before : inv st.cache) :
    Shows draw inv (ReadPath.multiGet env.toReadEnv {} recordId l tables levels keys)
      (pointReads env draw tables recordId l levels keys st) := by
  induction keys generalizing st with
  | nil => exact shows_same _ before
  | cons itemKey rest ih =>
    unfold pointReads ReadPath.multiGet
    cases CompositeKey.new recordId itemKey with
    | error e => exact shows_same _ before
    | ok key =>
      refine (pointRead_shows keeps key l before).andThen _ fun entry st later => ?_
      exact (ih later).andThen _ fun others st last => shows_same _ last

/-- A `multi_get` through a coherent cache is one of the stored blocks. -/
theorem multiGet_shows (keeps : Keeps env s.tables (opened s.levels) draw inv) (keys : List Bytes)
    (before : inv st.cache) :
    Shows draw inv (s.multiGet env.toReadEnv {} recordId keys)
      (multiGet env draw recordId keys s st) := by
  have reads := @pointReads_shows env draw recordId st inv s.tables s.levels keeps s.memtableList
    keys before
  exact reads.answer fun results => results.map fun entry => entry.map GetResult.fromMergeEntry

/-- A `get` that its budget covers is a point read. -/
theorem get_paid {key : CompositeKey} (made : CompositeKey.new recordId itemKey = .ok key)
    (covered : lookupFetches env draw key s st ≤ env.getBudgetPerRead) :
    get env draw recordId itemKey s st =
      andThen (pointRead env draw s.tables key s.memtableList s.levels st) fun found st =>
        (.ok (found.map GetResult.fromMergeEntry), st) := by
  unfold lookupFetches at covered
  unfold get pointRead
  rw [made]
  dsimp only
  cases held : s.memtableList.get key with
  | some entry => rfl
  | none =>
    rw [held] at covered
    dsimp only at covered ⊢
    rw [searchLevels_paid rfl (by dsimp only; omega)]
    cases searchHandles env draw s.tables key (candidates env.toReadEnv s.tables key s.levels) none
      st with
    | mk result next => cases result <;> rfl

/-- Whatever the cache holds: when `get` answers within its budget, `multi_get` of the key from the
same cache gives the same answer. Where the names of the open tables are apart and the cache is
coherent, so does every other `multi_get` that answers, from any other coherent cache. -/
theorem get_agrees_multiGet {r : Option GetResult}
    (read : (get env draw recordId itemKey s st).1 = .ok r)
    (covered : ∀ key, CompositeKey.new recordId itemKey = .ok key →
      lookupFetches env draw key s st ≤ env.getBudgetPerRead) :
    (multiGet env draw recordId [itemKey] s st).1 = .ok [r] ∧
      (Guarded env s.tables (opened s.levels) draw → Coherent env s.tables (opened s.levels) st.cache →
        ∀ draw' st', Guarded env s.tables (opened s.levels) draw' →
          Coherent env s.tables (opened s.levels) st'.cache →
          ∀ rs, (multiGet env draw' recordId [itemKey] s st').1 = .ok rs → rs = [r]) := by
  have same : (multiGet env draw recordId [itemKey] s st).1 = .ok [r] := by
    cases made : CompositeKey.new recordId itemKey with
    | error e =>
      rw [get, made] at read
      cases read
    | ok key =>
      rw [get_paid made (covered key made)] at read
      rw [multiGet, pointReads, made]
      dsimp only
      cases found : pointRead env draw s.tables key s.memtableList s.levels st with
      | mk result next =>
        rw [found] at read
        cases result with
        | error e => cases read
        | ok entry =>
          rw [← Except.ok.inj read]
          rfl
  refine ⟨same, ?_⟩
  intro guarded coherent draw' st' guarded' coherent' rs answers
  have stored := (multiGet_shows guarded.keeps [itemKey] coherent).given _ same
  have stored' := (multiGet_shows guarded'.keeps [itemKey] coherent').given _ answers
  exact Except.ok.inj (stored'.symm.trans stored)

end

end Cached

namespace World

/-- A run in which no two tables of different content were ever stored under one name in the cache.
Merges then read what is stored, whatever has been kept. -/
structure Undisturbed (env : Env) (labels : List Label) (w : World) : Prop where
  run : exec (step env) {} labels = some w
  apart : Cached.NamesApart w.disk.tables (Cached.storedPaths w.disk.tables)

section Example

/-- Merges write single tables, which have names of their own. -/
def mergingEnv : Env :=
  { sampleEnv 100 with config := { ns := "ns",
                                   compactionConfig := { l0CompactionTrigger := 1,
                                                         l1MaxBytes := 150 } } }

/-- A flush whose table is not opened, so that no compaction follows its commit. -/
def unopened (item : UInt8) : Label :=
  .put ⟨[114]⟩ ⟨[item]⟩ ⟨[2]⟩ ⟨[]⟩ none { freeze := true, flush := { fault := some .openTable } }

/-- Two tables in L1, which are too many, and two in L0 that overlap the older of them. -/
def staleRun : List Label :=
  [.openEngine 0 none, samplePut 1 1 true, samplePut 2 1 true, samplePut 5 1 true,
    samplePut 6 1 true, unopened 1, unopened 2]

def sampleCached : CachedEnv where
  toReadEnv := sampleReads
  blockSize block := block.length + 1
  positive _ := Nat.succ_pos _

/-- One key is written twice; both versions are flushed. -/
def twoVersions : List Label :=
  [.openEngine 0 none, .put ⟨[114]⟩ ⟨[1]⟩ ⟨[1]⟩ ⟨[]⟩ none { freeze := true },
    .put ⟨[114]⟩ ⟨[1]⟩ ⟨[2]⟩ ⟨[]⟩ none { freeze := true }]

/-- A budget of one fetch covers the older table only, and `get` gives the older value. -/
theorem twoVersions_stale :
    ∃ w s, exec (step (sampleEnv 1000)) {} twoVersions = some w ∧ w.engine = some s ∧
      ((Cached.get { sampleCached with getBudgetPerRead := 1 } {} ⟨[114]⟩ ⟨[1]⟩ s {}).1.toOption.map
        fun r => r.map GetResult.value) =
        some (some ⟨[1]⟩) ∧
      ((Cached.multiGet { sampleCached with getBudgetPerRead := 1 } {} ⟨[114]⟩ [⟨[1]⟩] s {}).1.toOption.map
        fun rs => rs.map fun r => r.map GetResult.value) = some [some ⟨[2]⟩] := by
  have ends : (exec (step (sampleEnv 1000)) {} twoVersions).map (fun w => w.engine.map fun s =>
      ((Cached.get { sampleCached with getBudgetPerRead := 1 } {} ⟨[114]⟩ ⟨[1]⟩ s {}).1.toOption.map
        (fun r => r.map GetResult.value),
        (Cached.multiGet { sampleCached with getBudgetPerRead := 1 } {} ⟨[114]⟩ [⟨[1]⟩] s {}).1.toOption.map
          fun rs => rs.map fun r => r.map GetResult.value)) =
        some (some (some (some ⟨[1]⟩), some [some ⟨[2]⟩])) := by decide +kernel
  obtain ⟨w, run, held⟩ := Option.map_eq_some_iff.mp ends
  obtain ⟨s, active, reads⟩ := Option.map_eq_some_iff.mp held
  obtain ⟨first, second⟩ := Prod.mk.inj reads
  exact ⟨w, s, run, active, first, second⟩

/-- The other `multi_get` finds nothing in the cache, whatever it has kept itself. -/
theorem get_agrees_multiGet_covered :
    ∃ w s r, exec (step (sampleEnv 1000)) {} twoVersions = some w ∧ w.engine = some s ∧
      (Cached.get sampleCached {} ⟨[114]⟩ ⟨[1]⟩ s {}).1 = .ok (some r) ∧
      (Cached.multiGet sampleCached {} ⟨[114]⟩ [⟨[1]⟩] s {}).1 = .ok [some r] ∧
      ∀ rs, (Cached.multiGet sampleCached { meets := fun _ _ => ObjectStore.empty } ⟨[114]⟩
        [⟨[1]⟩] s {}).1 = .ok rs → rs = [some r] := by
  have ends : (exec (step (sampleEnv 1000)) {} twoVersions).map (fun w => w.engine.map fun s =>
      ((Cached.get sampleCached {} ⟨[114]⟩ ⟨[1]⟩ s {}).1.toOption.map fun r => r.isSome,
        Cached.lookupFetches sampleCached {} (CompositeKey.encode ⟨[114]⟩ [1]) s {},
        decide (Cached.NamesApart s.tables (Cached.opened s.levels)))) =
          some (some (some true, 2, true)) := by decide +kernel
  obtain ⟨w, run, held⟩ := Option.map_eq_some_iff.mp ends
  obtain ⟨s, active, reads⟩ := Option.map_eq_some_iff.mp held
  obtain ⟨found, rest⟩ := Prod.mk.inj reads
  obtain ⟨fetches, apart⟩ := Prod.mk.inj rest
  obtain ⟨r, read, present⟩ := Option.map_eq_some_iff.mp found
  obtain ⟨answer, rfl⟩ := Option.isSome_iff_exists.mp present
  have get : (Cached.get sampleCached {} ⟨[114]⟩ ⟨[1]⟩ s {}).1 = .ok (some answer) :=
    FlushResult.ok_of_toOption read
  have covered : ∀ key, CompositeKey.new ⟨[114]⟩ ⟨[1]⟩ = .ok key →
      Cached.lookupFetches sampleCached {} key s {} ≤ sampleCached.getBudgetPerRead := by
    intro key made
    obtain rfl := (CompositeKey.new_ok made).2
    rw [fetches]
    decide
  have nothing : Cached.Coherent sampleCached s.tables (Cached.opened s.levels) ObjectStore.empty :=
    Cached.coherent_empty
  have guarded : Cached.Guarded sampleCached s.tables (Cached.opened s.levels) {} :=
    ⟨of_decide_eq_true apart, fun _ _ same => same⟩
  have guarded' : Cached.Guarded sampleCached s.tables (Cached.opened s.levels)
      { meets := fun _ _ => ObjectStore.empty } :=
    ⟨of_decide_eq_true apart, fun _ _ _ => nothing⟩
  obtain ⟨same, others⟩ := Cached.get_agrees_multiGet get covered
  exact ⟨w, s, answer, run, active, get, same, fun rs => others guarded nothing _ _ guarded' nothing rs⟩

end Example

end World

end FlushDB
