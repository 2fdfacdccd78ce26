import FlushDB.Engine.CachedMerges
import FlushDB.Engine.Contents
import FlushDB.Engine.PointSearch

/-!
What clients read. In a run in which nothing fails once a flush has committed, the handles of an
open engine are those of the listed tables in the order of their keys; a point read then gives the
last write of its key.
-/

namespace FlushDB
open Lib ManifestBucket

namespace Engine
variable {env : Env} {s t : Engine}

/-- Below L0 the handles of a level are in the order of their first keys. -/
def Sorted (s : Engine) : Prop :=
  ∀ l ∈ s.levels, l.level ≠ .L0 → l.handles.Pairwise fun a b => a.table.minKey ≤ b.table.minKey

section Levels

theorem openLevels_sorted (tables : Tables) (m : Manifest) (levels : List Level) :
    ∀ l ∈ (openLevels tables m levels).2, l.level ≠ .L0 →
      l.handles.Pairwise fun a b => a.table.minKey ≤ b.table.minKey := by
  induction levels with
  | nil =>
    intro l member
    cases member
  | cons level rest ih =>
    unfold openLevels
    split
    · intro l member
      cases member
    rename_i state opened
    intro l member below
    rcases List.mem_cons.mp member with rfl | later
    · unfold openLevel at opened
      split at opened
      · cases opened
      rename_i handles _
      obtain rfl := Except.ok.inj opened
      have lower : level.isOverlapping = false := by simpa [Level.isOverlapping] using below
      rw [lower, if_neg Bool.false_ne_true]
      refine (List.pairwise_mergeSort ?_ ?_ handles).imp fun le => of_decide_eq_true le
      · intro a b c first second
        exact decide_eq_true ((of_decide_eq_true first).trans (of_decide_eq_true second))
      · intro a b
        rcases le_total a.table.minKey b.table.minKey with le | ge
        · simp [le]
        · simp [ge]
    · exact ih l later below

theorem rebuildLevels_sorted {fault : Option CompactionFault} {r : FlushResult Unit}
    (h : rebuildLevels fault s = (r, t)) : Sorted t := by
  unfold rebuildLevels at h
  split at h
  · obtain ⟨-, rfl⟩ := Prod.mk.inj h
    exact openLevels_sorted s.tables s.manifestManager.current Level.all
  · rename_i level _
    obtain ⟨-, rfl⟩ := Prod.mk.inj h
    exact openLevels_sorted s.tables s.manifestManager.current (Level.all.takeWhile (· ≠ level))

theorem pushHandle_sorted {levels : List LevelState} (all : levels.map LevelState.level = Level.all)
    (handle : SSTableHandle)
    (sorted : ∀ l ∈ levels, l.level ≠ .L0 → l.handles.Pairwise fun a b => a.table.minKey ≤ b.table.minKey) :
    ∀ l ∈ pushHandle handle levels, l.level ≠ .L0 →
      l.handles.Pairwise fun a b => a.table.minKey ≤ b.table.minKey := by
  cases levels with
  | nil => cases all
  | cons first rest =>
    obtain ⟨top, -⟩ := List.cons.inj all
    intro l member below
    rcases List.mem_cons.mp member with rfl | later
    · exact absurd top below
    · exact sorted l (List.mem_cons_of_mem _ later) below

theorem settle_levels {generation : Nat} {table : SSTableMeta} {draw : FlushDraw}
    {r : FlushResult Unit} (h : settle generation table draw s = (r, t)) :
    t.levels = s.levels ∨ ∃ handle, t.levels = pushHandle handle s.levels := by
  unfold settle at h
  dsimp only at h
  generalize cleans : cleanupSegments draw.failing (s.walManager.markGenerationFlushed generation).1
    { s with walManager := (s.walManager.markGenerationFlushed generation).2 } = left at h
  obtain ⟨result, u⟩ := left
  have levels : u.levels = s.levels := by
    unfold cleanupSegments at cleans
    rw [← (Prod.mk.inj cleans).2]
  cases result with
  | error e =>
    cases h
    exact Or.inl levels
  | ok done =>
    dsimp only at h
    split at h
    · cases h
      exact Or.inl levels
    · split at h
      · cases h
        exact Or.inl levels
      · cases h
        exact Or.inr ⟨_, by rw [← levels]⟩

/-- Every change keeps the order of the handles. -/
theorem Move.sorted (unique : Function.Injective env.ulid) {d : Draws} (move : Move env d s t)
    (standing : Standing env s) (all : s.levels.map LevelState.level = Level.all)
    (sorted : Sorted s) : Sorted t := by
  have same : ∀ {u : Engine}, u.levels = s.levels → Sorted u := by
    intro u levels l member
    rw [levels] at member
    exact sorted l member
  cases move with
  | @logged entries late t appended =>
    refine same ?_
    unfold appendWal at appended
    dsimp only at appended
    split at appended
    · cases appended
    · obtain rfl := Except.ok.inj appended
      rfl
  | numbered count => exact same rfl
  | inserted taken => exact same rfl
  | assigned taken => exact same rfl
  | froze frozen =>
    rw [freezeActive_ok frozen]
    exact same rfl
  | @dropped generation frozen l draw e mid popped failed =>
    have standing_l : Standing env { s with memtableList := l } :=
      ⟨standing.toSound, standing.latest, standing.opened⟩
    exact same (flush_refused unique standing_l failed).2.2
  | @settled generation frozen l draw table mid u r allowed popped flushed settled =>
    have standing_l : Standing env { s with memtableList := l } :=
      ⟨standing.toSound, standing.latest, standing.opened⟩
    have levels : mid.levels = s.levels := (flush_listed unique standing_l flushed).2.1
    rcases settle_levels settled with kept | ⟨handle, pushed⟩
    · exact same (kept.trans levels)
    · intro l' member
      rw [pushed, levels] at member
      exact pushHandle_sorted all handle sorted l' member
  | @compacted draw task r t allowed asked done =>
    obtain ⟨result, state, -, ⟨e, -, -, rfl⟩ | ⟨finished, levels, -, rebuilt, -⟩⟩ :=
      compact_cases done
    · exact same rfl
    · exact rebuildLevels_sorted rebuilt

end Levels

section Search
variable {l : LevelState}

/-- Handles of disjoint tables, in the order of their first keys, follow one another. -/
theorem handles_apart {handles : List SSTableHandle} {listed : List SSTableMeta}
    (once : (handles.map SSTableHandle.table).Perm listed)
    (valid : ∀ t ∈ listed, t.minKey ≤ t.maxKey)
    (disjoint : listed.Pairwise fun a b => a.maxKey < b.minKey)
    (sorted : handles.Pairwise fun a b => a.table.minKey ≤ b.table.minKey) :
    RangesApart SSTableHandle.table handles := by
  have ascends : listed.Pairwise fun a b => a.minKey < b.minKey :=
    disjoint.imp_of_mem fun member _ less => (valid _ member).trans_lt less
  have same : handles.map SSTableHandle.table = listed := by
    refine List.Perm.eq_of_pairwise ?_ (List.pairwise_map.mpr sorted)
      (ascends.imp fun less => less.le) once
    intro a b first second le ge
    by_contra different
    have symmetric : Std.Symm fun a b : SSTableMeta => a.minKey ≠ b.minKey :=
      ⟨fun _ _ other => other.symm⟩
    exact (ascends.imp fun less => less.ne).forall (once.mem_iff.mp first) second different
      (le_antisymm le ge)
  refine ⟨?_, ?_⟩
  · intro h member
    exact valid _ (same ▸ List.mem_map_of_mem member)
  · rw [← same] at disjoint
    exact List.pairwise_map.mp disjoint

theorem searchable (follows : Follows s) (sorted : Sorted s)
    (arranged : Levels.Arranged s.manifestManager.current s.tables) :
    ∀ level ∈ s.levels, level.Searchable s.tables := by
  intro level member
  obtain ⟨once, paths⟩ := follows.each level member
  have bounds : ∀ t ∈ s.manifestManager.current.sstablesAtLevel level.level, t.minKey ≤ t.maxKey ∧
      ∀ e ∈ s.tables.entries (t.sstPath level.level), t.containsKey e.compositeKey = true := by
    intro t listed
    obtain ⟨entries, found, good⟩ := arranged.stored level.level t listed
    obtain ⟨⟨e, inside, -⟩, -⟩ := good.attained
    obtain ⟨low, high⟩ := good.bounds inside
    refine ⟨low.trans high, ?_⟩
    intro e' inside'
    rw [Tables.entries, found] at inside'
    exact decide_eq_true (good.bounds inside')
  have listed : ∀ h ∈ level.handles, h.table ∈ s.manifestManager.current.sstablesAtLevel
      level.level := fun h held =>
    once.mem_iff.mp (List.mem_map_of_mem held)
  refine ⟨?_, ?_⟩
  · intro h held e inside
    rw [paths h held] at inside
    exact (bounds h.table (listed h held)).2 e inside
  · intro below
    exact handles_apart once (fun t member => (bounds t member).1)
      (arranged.disjoint level.level below) (sorted level member below)

/-- The handles have the versions of the listed tables. -/
theorem mem_handles (follows : Follows s) (ready : Ready env s) {e : MergeEntry} :
    (∃ level ∈ s.levels, ∃ h ∈ level.handles, e ∈ s.tables.entries h.path) ↔ s.Copy e := by
  have lists : tablesAt s.manifests = s.manifestManager.current.sstablesAtLevel :=
    funext ready.latest.tablesAt_eq
  constructor
  · rintro ⟨level, member, h, held, inside⟩
    obtain ⟨once, paths⟩ := follows.each level member
    refine ⟨level.level, h.table, ?_, paths h held ▸ inside⟩
    rw [lists]
    exact once.mem_iff.mp (List.mem_map_of_mem held)
  · rintro ⟨at_level, t, listed, inside⟩
    obtain ⟨level, member, rfl⟩ := List.mem_map.mp (follows.all ▸ at_level.mem_all)
    obtain ⟨once, paths⟩ := follows.each level member
    rw [lists] at listed
    obtain ⟨h, held, rfl⟩ := List.mem_map.mp (once.mem_iff.mpr listed)
    exact ⟨level, member, h, held, (paths h held).symm ▸ inside⟩

theorem mem_allVersions (follows : Follows s) (ready : Ready env s) {e : MergeEntry} :
    e ∈ allVersions s.memtableList s.tables s.levels ↔ e ∈ s.versions := by
  rw [mem_versions, ← mem_handles follows ready, allVersions, List.mem_append]
  refine or_congr ?_ ?_
  · rw [MemtableList.memtables, ready.noneFrozen, List.map_nil, List.flatMap_singleton]
    exact List.mem_map
  · simp only [List.mem_flatMap]

end Search

end Engine

/-- What a search of all versions answers is what they show. -/
theorem linearSearch_shown (versions : List MergeEntry) : ShownBy (· ∈ versions) (fun _ => none)
    fun key => (linearSearch key versions).map fun e => (e.value, e.metadata) := by
  intro key
  have newest := @newestInBlock_findsNewest key versions
  dsimp only
  rw [linearSearch]
  cases found : SSTableHandle.newestInBlock key versions with
  | none =>
    rw [found] at newest
    exact Or.inr ⟨newest, rfl⟩
  | some e =>
    rw [found] at newest
    refine Or.inl ⟨e, newest.member, newest.same, ?_, newest.highest⟩
    rw [Option.filter_some, MergeEntry.shown]
    cases e.isTombstone <;> rfl

namespace Engine
variable {env : Env} {s : Engine}

theorem contents_search (layered : s.Layered) (ready : s.Ready env) (follows : s.Follows)
    (key : CompositeKey) :
    s.contents key = (linearSearch key (allVersions s.memtableList s.tables s.levels)).map fun e =>
      (e.value, e.metadata) := by
  have same := Shows.unique layered.told (readNewest_shown s.versions)
    (Shows.congr (fun e => (mem_allVersions follows ready).symm)
      (linearSearch_shown (allVersions s.memtableList s.tables s.levels)))
  exact congrFun same key

theorem memtables_active (ready : s.Ready env) :
    s.memtableList.memtables = [s.memtableList.active] := by
  rw [MemtableList.memtables, ready.noneFrozen]
  rfl

/-- Where every table answers a lookup with its newest version, a point read gives what the engine
shows. -/
theorem pointRead_contents {renv : ReadEnv} (complete : renv.NoFalseNegatives) {draw : ReadDraw}
    (layered : s.Layered) (ready : s.Ready env) (follows : s.Follows) (sorted : s.Sorted)
    (arranged : Levels.Arranged s.manifestManager.current s.tables) {key : CompositeKey}
    (lookups : ∀ level ∈ s.levels, ∀ h ∈ level.handles,
      h.get renv draw s.tables key = .ok (SSTableHandle.newestInBlock key (s.tables.entries h.path))) :
    (ReadPath.pointRead renv draw key s.memtableList s.tables s.levels).map
      (Option.map fun e => (e.value, e.metadata)) = .ok (s.contents key) := by
  have memtables := memtables_active ready
  have stacked : s.memtableList.Stacked := by
    rw [MemtableList.Stacked, memtables]
    exact List.pairwise_singleton _ _
  have above : s.memtableList.Above s.tables s.levels := by
    intro m member x inside level listed h held e stored same
    rw [memtables, List.mem_singleton] at member
    subst member
    exact (layered.flushed e ((mem_handles follows ready).mp
      ⟨level, listed, h, held, stored⟩)).trans_lt (layered.above x inside)
  have bare : s.memtableList.NoRangeDeletes := by
    intro m member
    rw [memtables, List.mem_singleton] at member
    rw [member]
    exact layered.bare
  have read := pointRead_eq_linearSearch complete
    (searchable follows sorted arranged) stacked above bare lookups
  rw [read, contents_search layered ready follows]
  rfl

end Engine

namespace World
variable {env : Env}

theorem exec_follows (unique : Function.Injective env.ulid) {labels : List Label} {w : World}
    {s : Engine} (within : ∀ a ∈ labels, a.Within Engine.settles)
    (run : exec (step env) {} labels = some w) (active : w.engine = some s) :
    s.Follows ∧ s.Sorted := by
  have kept : Ready env w ∧ ∀ s, w.engine = some s → (s.Standing env ∧ s.Follows) ∧ s.Sorted := by
    refine @exec_within _ _ (step env)
      (fun w => Ready env w ∧ ∀ s, w.engine = some s → (Engine.Standing env s ∧ Engine.Follows s) ∧
        Engine.Sorted s)
      (fun a => a.Within Engine.settles) ?_ _ _ _ ⟨ready_empty env, by rintro s ⟨⟩⟩ within run
    intro w a w' before allowed taken
    obtain ⟨ready, kept⟩ := before
    refine ⟨step_ready unique ready taken, step_engine ?_ ?_ allowed taken kept⟩
    · intro nowMs fault s st closed opened
      rcases Engine.openStored_launched (ready.stored closed)
        opened with ⟨e, failed, -⟩ | ⟨t, same, -, launched⟩
      · cases failed
      · obtain rfl := Except.ok.inj same
        obtain ⟨m, -, levels⟩ := launched.levels
        refine ⟨⟨launched.ready.standing, launched.follows⟩, ?_⟩
        have sorted := Engine.openLevels_sorted w.stored.tables m Level.all
        rw [levels] at sorted
        exact sorted
    · intro s t move before
      exact ⟨move.follows unique before.1, move.sorted unique before.1.1 before.1.2.all before.2⟩
  exact ⟨(kept.2 s active).1.2, (kept.2 s active).2⟩

section Example

/-- Two flushes, a compaction, a crash and overwrites, which leave versions of one key in L1, in L0
and in the memtable. -/
def layersRun : List Label :=
  [.openEngine 0 none, samplePut 1 1 true, samplePut 2 1 true, .maybeCompact fun _ => {},
    samplePut 1 2 false, .crash [],
    .openEngine 0 none, .delete ⟨[114]⟩ ⟨[2]⟩ { freeze := true }, samplePut 1 3 false]

theorem layersRun_within : ∀ a ∈ layersRun, a.Within Engine.settles := by
  intro a member
  simp only [layersRun, samplePut, List.mem_cons, List.not_mem_nil, or_false] at member
  rcases member with rfl | rfl | rfl | rfl | rfl | rfl | rfl | rfl | rfl
  all_goals simp [Label.Within, Engine.settles, FlushDraw.failing]

def bloomCached : CachedEnv :=
  { sampleCached with toReadEnv := bloomReads Sst.plainCodec 10 4096 8 }

end Example

end World

end FlushDB
