import FlushDB.Engine.CachedReads
import FlushDB.Engine.RangeScan
import FlushDB.Engine.WrittenOnce

/-!
The block cache over whole runs. A merge reads its inputs through the cache, in which blocks of
every table can lie that was ever read. As long as no two tables of different content have one name
in the cache, what is kept stays right, and a merge gets what is stored.
-/

namespace FlushDB
open Lib

namespace Cached

section
variable (env : CachedEnv) (draw : CacheDraw)

/-- `collect_all_entries`, from the `i`-th block on. -/
def collectAllEntries (id : SstId) (index : List IndexEntry) :
    Nat → List IndexEntry → CacheState → FlushResult (List MergeEntry) × CacheState
  | _, [], st => (.ok [], st)
  | i, entry :: rest, st =>
    andThen (fetchBlock draw (blockKey env id index i) entry.block st) fun block st =>
      andThen (collectAllEntries id index (i + 1) rest st) fun later st => (.ok (block ++ later), st)

/-- Opens and reads the tables in turn. -/
def readTables (tables : Tables) (task : CompactionTask) :
    List SSTableMeta → CacheState → FlushResult (List (List MergeEntry)) × CacheState
  | [], st => (.ok [], st)
  | t :: rest, st =>
    let level := if task.inputSSTables.any (fun m => m.id = t.id) then task.sourceLevel
      else task.targetLevel
    match tables.get (t.sstPath level) with
    | none => (.error (.notFound (toString t.id)), st)
    | some stored =>
      let index := SSTableWriter.write env.blockSizeTarget stored
      andThen (collectAllEntries env draw (t.sstPath level).file index 0 index st) fun entries st =>
        andThen (readTables tables task rest st) fun others st => (.ok (entries :: others), st)

end

/-- Every block that is kept is one of a stored table, under that table's name. -/
def Filled (env : CachedEnv) (tables : Tables) (cache : BlockStore) : Prop :=
  ∀ key kept, cache.get key = some kept → ∃ p stored i ie, tables.get p = some stored ∧
    (SSTableWriter.write env.blockSizeTarget stored)[i]? = some ie ∧
    key = blockKey env p.file (SSTableWriter.write env.blockSizeTarget stored) i ∧ kept = ie.block

/-- What a fetch of a stored block or an eviction makes of the cache. -/
inductive Touched (env : CachedEnv) (tables : Tables) : BlockStore → BlockStore → Prop where
  | kept {cache : BlockStore} {p : SstPath} {stored : List MergeEntry}
      (found : tables.get p = some stored) {i : Nat} {ie : IndexEntry}
      (listed : (SSTableWriter.write env.blockSizeTarget stored)[i]? = some ie) :
      Touched env tables cache
        (cache.put (blockKey env p.file (SSTableWriter.write env.blockSizeTarget stored) i) ie.block)
  | evicted {cache : BlockStore} (key : BlockCache.BlockCacheKey) :
      Touched env tables cache (cache.delete key)

/-- Between two looks of a read others touch the cache as often as they like. -/
def Touches (env : CachedEnv) (tables : Tables) (draw : CacheDraw) : Prop :=
  ∀ n cache, Relation.ReflTransGen (Touched env tables) cache (draw.meets n cache)

section
variable {env : CachedEnv} {draw : CacheDraw} {tables tables' : Tables} {paths : List SstPath}
  {inv : BlockStore → Prop}
  {cache : BlockStore} {st : CacheState} {p : SstPath} {stored : List MergeEntry}

theorem collectAllEntries_shows (keeps : Keeps env tables paths draw inv) (member : p ∈ paths)
    (found : tables.get p = some stored) {i : Nat} {left : List IndexEntry}
    (rest : (SSTableWriter.write env.blockSizeTarget stored).drop i = left)
    (before : inv st.cache) :
    Shows draw inv (.ok (left.map IndexEntry.block).flatten)
      (collectAllEntries env draw p.file (SSTableWriter.write env.blockSizeTarget stored) i left st) := by
  induction left generalizing i st with
  | nil => exact shows_same _ before
  | cons entry others ih =>
    obtain ⟨listed, later⟩ := listed_of_drop rest
    have block := fetchBlock_shows keeps member found listed before
    exact block.andThen (fun block => .ok (block ++ (others.map IndexEntry.block).flatten))
      fun fetched next met =>
      (ih later met).answer fun later => fetched ++ later

theorem readTables_shows (keeps : Keeps env tables (storedPaths tables) draw inv)
    (task : CompactionTask) {ts : List SSTableMeta} (before : inv st.cache) :
    Shows draw inv (CompactionExecutor.readTables tables task ts)
      (readTables env draw tables task ts st) := by
  induction ts generalizing st with
  | nil => exact shows_same _ before
  | cons t rest ih =>
    unfold readTables CompactionExecutor.readTables
    dsimp only
    cases found : tables.get
      (t.sstPath (if task.inputSSTables.any fun m =>
        m.id = t.id then task.sourceLevel else task.targetLevel)) with
    | none => exact shows_same _ before
    | some stored =>
      have one := collectAllEntries_shows keeps (mem_storedPaths found) found List.drop_zero before
      rw [SSTableWriter.write_flatten] at one
      have all := one.andThen (fun entries =>
        (CompactionExecutor.readTables tables task rest).map fun others => entries :: others)
        fun entries next met => (ih met).answer fun others => entries :: others
      cases others : CompactionExecutor.readTables tables task rest with
      | error e =>
        rw [others] at all
        exact all
      | ok contents =>
        rw [others] at all
        exact all

theorem filled_empty (env : CachedEnv) (tables : Tables) : Filled env tables ObjectStore.empty := by
  intro key kept found
  rw [ObjectStore.get_empty] at found
  cases found

theorem Filled.put (filled : Filled env tables cache) (found : tables.get p = some stored) {i : Nat}
    {ie : IndexEntry} (listed : (SSTableWriter.write env.blockSizeTarget stored)[i]? = some ie) :
    Filled env tables (cache.put (blockKey env p.file
      (SSTableWriter.write env.blockSizeTarget stored) i) ie.block) := by
  intro key kept held
  rw [ObjectStore.get_put] at held
  split at held
  · rename_i same
    exact ⟨p, stored, i, ie, found, listed, same, (Option.some.inj held).symm⟩
  · exact filled key kept held

theorem Filled.delete (filled : Filled env tables cache) (key : BlockCache.BlockCacheKey) :
    Filled env tables (cache.delete key) := by
  intro other kept held
  rw [ObjectStore.get_delete] at held
  split at held
  · cases held
  · exact filled other kept held

/-- As long as names tell the contents, blocks that were read from tables are right about all
tables. -/
theorem Filled.coherent (filled : Filled env tables cache)
    (apart : NamesApart tables (storedPaths tables)) (paths : List SstPath) :
    Coherent env tables paths cache := by
  intro p _ stored found i ie listed entries kept
  obtain ⟨q, stored', j, ie', found', listed', same, rfl⟩ := filled _ entries kept
  obtain rfl := apart p (mem_storedPaths found) q (mem_storedPaths found')
    (congrArg BlockCache.BlockCacheKey.sstId same) stored found
    stored' found'
  obtain rfl := blockKey_inj listed listed' same
  exact congrArg IndexEntry.block (Option.some.inj (listed'.symm.trans listed))

/-- A block that was read stays one of a stored table: the table may move, but keeps its name and
its content. -/
theorem Filled.later {drawn drawn' : SstId → Prop} (hands : tables.Inherits drawn drawn' tables')
    (filled : Filled env tables cache) :
    Filled env tables' cache := by
  intro key kept held
  obtain ⟨p, stored, i, ie, found, listed, place, same⟩ := filled key kept held
  obtain ⟨q, name, found'⟩ := hands.kept p stored found
  refine ⟨q, stored, i, ie, found', listed, ?_, same⟩
  rw [place, name]

theorem NamesApart.earlier {drawn drawn' : SstId → Prop}
    (hands : tables.Inherits drawn drawn' tables')
    (apart : NamesApart tables' (storedPaths tables')) :
    NamesApart tables (storedPaths tables) := by
  intro p _ q _ same xs found ys found'
  obtain ⟨p', name, kept⟩ := hands.kept p xs found
  obtain ⟨q', name', kept'⟩ := hands.kept q ys found'
  rw [← name, ← name'] at same
  exact apart p' (mem_storedPaths kept) q' (mem_storedPaths kept') same xs kept ys kept'

theorem Filled.touched {cache' : BlockStore} (filled : Filled env tables cache)
    (touches : Relation.ReflTransGen (Touched env tables) cache cache') :
    Filled env tables cache' := by
  induction touches with
  | refl => exact filled
  | tail _ last ih =>
    cases last with
    | kept found listed => exact ih.put found listed
    | evicted key => exact ih.delete key

theorem Filled.keeps (apart : NamesApart tables (storedPaths tables)) (paths : List SstPath)
    (touches : Touches env tables draw) :
    Keeps env tables paths draw (Filled env tables) :=
  ⟨fun _ filled => filled.coherent apart paths,
    fun _ filled _ _ _ found _ _ listed => filled.put found listed,
    fun n cache filled => filled.touched (touches n cache)⟩

end

end Cached

namespace World
variable {cenv : CachedEnv} {env : Env} {labels later : List Label} {w w' : World} {cache : BlockStore}

/-- The caches that there can be at a point of a run. A process begins with an empty one; what a
step of the engine reads itself is kept before the step, or after it when the step has written the
table. -/
inductive Lived (cenv : CachedEnv) (env : Env) : World → BlockStore → Prop where
  | empty {labels : List Label} {w : World} (run : exec (step env) {} labels = some w) :
      Lived cenv env w ObjectStore.empty
  | touched {w : World} {cache cache' : BlockStore} (before : Lived cenv env w cache)
      (touch : Cached.Touched cenv w.disk.tables cache cache') : Lived cenv env w cache'
  | goesOn {w w' : World} {cache : BlockStore} (before : Lived cenv env w cache) {a : Label}
      (taken : step env w a = some w') :
      Lived cenv env w' cache

/-- Through all steps the cache holds blocks of stored tables only, each under its table's name. -/
theorem Lived.filled (unique : Function.Injective env.ulid) (lived : Lived cenv env w cache) :
    Ready env w ∧ Cached.Filled cenv w.disk.tables cache := by
  induction lived with
  | empty run => exact ⟨exec_ready unique run, Cached.filled_empty _ _⟩
  | touched _ touch ih => exact ⟨ih.1, ih.2.touched (.single touch)⟩
  | goesOn _ taken ih =>
    exact ⟨step_ready unique ih.1 taken, ih.2.later (step_hands unique ih.1 taken)⟩

theorem Undisturbed.earlier (unique : Function.Injective env.ulid)
    (run : exec (step env) {} labels = some w) (goesOn : exec (step env) w later = some w')
    (undisturbed : Undisturbed env (labels ++ later) w') : Undisturbed env labels w :=
  ⟨run, undisturbed.apart.earlier (exec_hands unique (exec_ready unique run) goesOn)⟩

/-- At every point of an undisturbed run a merge that reads its inputs through the cache reads what
is stored, whatever blocks have been kept and evicted until then and while it reads. -/
theorem merges_read_stored (unique : Function.Injective env.ulid)
    (run : exec (step env) {} labels = some w) (goesOn : exec (step env) w later = some w')
    (undisturbed : Undisturbed env (labels ++ later) w') {draw : CacheDraw}
    (touches : Cached.Touches cenv w.disk.tables draw) {st : CacheState}
    (lived : Lived cenv env w st.cache) (task : CompactionTask) (ts : List SSTableMeta) :
    Cached.Shows draw (Cached.Filled cenv w'.disk.tables)
      (CompactionExecutor.readTables w.disk.tables task ts)
      (Cached.readTables cenv draw w.disk.tables task ts st) := by
  have apart := (undisturbed.earlier unique run goesOn).apart
  have shown := @Cached.readTables_shows cenv draw w.disk.tables _ st
    (Cached.Filled.keeps apart _ touches) task ts
    (lived.filled unique).2
  exact ⟨shown.given, shown.whole, shown.kept.later (exec_hands unique (exec_ready unique run) goesOn)⟩

end World

end FlushDB
