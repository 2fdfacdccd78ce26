import FlushDB.Engine.Reach

/-!
The levels in memory and the manifest. A flush and a compaction commit first and open tables
afterwards, so the two agree after every call unless an operation between the commit and the last
opened table fails. Failures before the commit leave both as they were.
-/

namespace FlushDB
open Lib ManifestBucket

/-- One handle, at its path, for each table that the manifest lists at the level. -/
structure LevelState.Follows (m : Manifest) (l : LevelState) : Prop where
  once : (l.handles.map SSTableHandle.table).Perm (m.sstablesAtLevel l.level)
  paths : ∀ h ∈ l.handles, h.path = h.table.sstPath l.level

/-- The levels hold exactly one handle for each listed table, at the path where its object is. -/
structure Engine.Mirrors (s : Engine) : Prop where
  all : s.levels.map LevelState.level = Level.all
  each : ∀ l ∈ s.levels, l.Follows s.manifestManager.current
  stored : ∀ l ∈ s.levels, ∀ h ∈ l.handles, (s.tables.get h.path).isSome

namespace Engine
variable {env : Env}

/-- What is true of an open engine also in the middle of a call. -/
structure Standing (env : Env) (s : Engine) : Prop extends Stored.Sound env s.toStored where
  latest : s.manifest.Latest
  opened : s.walManager.writer.Open s.wal

/-- The levels follow the manifest, level by level. -/
structure Follows (s : Engine) : Prop where
  all : s.levels.map LevelState.level = Level.all
  each : ∀ l ∈ s.levels, l.Follows s.manifestManager.current

theorem Ready.standing {s : Engine} (h : Ready env s) : Standing env s :=
  ⟨h.toSound, h.latest, h.opened⟩

theorem Standing.present {s : Engine} (h : Standing env s) {level : Level} {t : SSTableMeta}
    (listed : t ∈ s.manifestManager.current.sstablesAtLevel level) :
    (s.tables.get (t.sstPath level)).isSome := by
  rw [SSTableMeta.sstPath_eq]
  refine h.shelf.present level t ?_
  rw [show tablesAt s.manifests level = _ from h.latest.tablesAt_eq level]
  exact listed

theorem Follows.mirrors {s : Engine} (h : Follows s) (standing : Standing env s) : Mirrors s := by
  refine ⟨h.all, h.each, ?_⟩
  intro l member handle held
  rw [(h.each l member).paths handle held]
  exact standing.present ((h.each l member).once.mem_iff.mp (List.mem_map_of_mem held))

section Opening
variable {tables : Tables} {level : Level}

theorem openTables_ok {listed : List SSTableMeta} {handles : List SSTableHandle}
    (h : openTables tables level listed = .ok handles) :
    handles = listed.map fun table => { table, path := table.sstPath level } := by
  induction listed generalizing handles with
  | nil => exact (Except.ok.inj h).symm
  | cons table rest ih =>
    unfold openTables at h
    split at h
    · cases h
    rename_i handle first
    split at h
    · cases h
    rename_i handles later
    obtain rfl := Except.ok.inj h
    rw [ih later, List.map_cons]
    congr 1
    unfold openTable at first
    split at first
    · cases first
    · exact (Except.ok.inj first).symm

theorem openTables_present {listed : List SSTableMeta}
    (present : ∀ t ∈ listed, (tables.get (t.sstPath level)).isSome) :
    ∃ handles, openTables tables level listed = .ok handles := by
  induction listed with
  | nil => exact ⟨_, rfl⟩
  | cons table rest ih =>
    obtain ⟨data, found⟩ := Option.isSome_iff_exists.mp (present table List.mem_cons_self)
    obtain ⟨handles, later⟩ := ih fun t member => present t (List.mem_cons_of_mem _ member)
    refine ⟨{ table, path := table.sstPath level } :: handles, ?_⟩
    simp only [openTables, openTable, found, later]

theorem openLevel_ok {m : Manifest} {state : LevelState}
    (h : openLevel tables level (m.sstablesAtLevel level) = .ok state) :
    state.level = level ∧ state.Follows m := by
  unfold openLevel at h
  split at h
  · cases h
  rename_i handles opened
  have made := openTables_ok opened
  obtain rfl := Except.ok.inj h
  have order : (if level.isOverlapping then handles else
      handles.mergeSort fun a b => a.table.minKey ≤ b.table.minKey).Perm
      handles := by
    split
    · exact List.Perm.refl _
    · exact List.mergeSort_perm _ _
  refine ⟨rfl, ?_, ?_⟩
  · refine (order.map _).trans (List.Perm.of_eq ?_)
    rw [made, List.map_map]
    exact List.map_id _
  · intro handle member
    have listed := order.mem_iff.mp member
    rw [made] at listed
    obtain ⟨t, -, rfl⟩ := List.mem_map.mp listed
    rfl

theorem openLevels_ok {m : Manifest} {levels : List Level} {states : List LevelState}
    (h : openLevels tables m levels = (.ok (), states)) :
    states.map LevelState.level = levels ∧ ∀ l ∈ states, l.Follows m := by
  induction levels generalizing states with
  | nil =>
    obtain ⟨-, rfl⟩ := Prod.mk.inj h
    exact ⟨rfl, by rintro l ⟨⟩⟩
  | cons level rest ih =>
    unfold openLevels at h
    split at h
    · cases h
    rename_i state opened
    obtain ⟨same, follows⟩ := openLevel_ok opened
    dsimp only at h
    obtain ⟨done, rfl⟩ := Prod.mk.inj h
    obtain ⟨later, others⟩ := ih (Prod.ext done rfl)
    refine ⟨?_, ?_⟩
    · rw [List.map_cons, same, later]
    · intro l member
      rcases List.mem_cons.mp member with rfl | after
      · exact follows
      · exact others l after

theorem openLevels_present {m : Manifest}
    (present : ∀ level, ∀ t ∈ m.sstablesAtLevel level, (tables.get (t.sstPath level)).isSome)
    (levels : List Level) :
    ∃ states, openLevels tables m levels = (.ok (), states) := by
  induction levels with
  | nil => exact ⟨_, rfl⟩
  | cons level rest ih =>
    obtain ⟨handles, opened⟩ := openTables_present (present level)
    obtain ⟨states, later⟩ := ih
    simp only [openLevels, openLevel, opened, later]
    exact ⟨_, rfl⟩

end Opening

section Flush

/-- A flush that fails before its commit leaves the manifest and the levels. -/
theorem flush_refused (unique : Function.Injective env.ulid) {frozen : Memtable} {draw : FlushDraw}
    {s t : Engine} {e : FlushError} (standing : Standing env s)
    (h : flush env frozen draw s = (.error e, t)) :
    Standing env t ∧ t.manifestManager = s.manifestManager ∧ t.levels = s.levels := by
  by_cases empty : frozen.skiplist.nodes = []
  · unfold flush at h
    simp only [empty, List.map_nil] at h
    obtain ⟨-, rfl⟩ := Prod.mk.inj h
    exact ⟨standing, rfl, rfl⟩
  · obtain ⟨frame, keyed, latest, shelf, refused, -, -⟩ :=
      flush_outcome unique standing.toSound standing.latest empty h
    have manager : t.manifest.manager = s.manifest.manager :=
      congrArg ManifestState.manager (refused e rfl)
    refine ⟨⟨⟨keyed, ?_, shelf⟩, latest, ?_⟩, manager, ?_⟩
    · rw [frame]
      exact standing.ordered
    · rw [frame]
      exact standing.opened
    · rw [frame]

/-- A flush that commits adds its table to L0. -/
theorem flush_listed (unique : Function.Injective env.ulid) {frozen : Memtable} {draw : FlushDraw}
    {s t : Engine} {table : SSTableMeta} (standing : Standing env s)
    (h : flush env frozen draw s = (.ok table, t)) :
    Standing env t ∧ t.levels = s.levels ∧
      ∀ level, (t.manifestManager.current.sstablesAtLevel level).Perm
        (s.manifestManager.current.sstablesAtLevel level ++ if level = .L0 then [table] else []) := by
  have nonempty : frozen.skiplist.nodes ≠ [] := by
    intro empty
    cases flush_ends h with
    | committed nodes =>
      rw [empty] at nodes
      cases nodes
  obtain ⟨frame, keyed, latest, shelf, -, listed, -⟩ :=
    flush_outcome unique standing.toSound standing.latest nonempty h
  refine ⟨⟨⟨keyed, ?_, shelf⟩, latest, ?_⟩, ?_, ?_⟩
  · rw [frame]
    exact standing.ordered
  · rw [frame]
    exact standing.opened
  · rw [frame]
  · intro level
    have perm := listed table rfl level
    rw [show tablesAt t.manifests level = _ from latest.tablesAt_eq level,
      show tablesAt s.manifests level = _ from standing.latest.tablesAt_eq level] at perm
    exact perm

theorem cleanupSegments_ok (numbers : List Nat) (m : WalManager) (dir : WalDir) :
    (WalManager.cleanupSegments none numbers m dir).1 = .ok () := by
  induction numbers generalizing m dir with
  | nil => rfl
  | cons number rest ih =>
    unfold WalManager.cleanupSegments
    split
    · exact ih m dir
    · rw [if_neg (by simp)]
      exact ih _ _

/-- Nothing can fail once a flush has committed: every file can be removed, every table opened. -/
def settles : Draws where
  flush draw := (draw.failing = none ∧ draw.fault ≠ some .openTable) ∧
    ∀ i, (∀ count, (draw.compaction i).fault ≠ some (.delete count)) ∧
      ∀ level, (draw.compaction i).fault ≠ some (.openTable level)
  compaction draw := (∀ count, draw.fault ≠ some (.delete count)) ∧
    ∀ level, draw.fault ≠ some (.openTable level)
  compactions _ h := h.2

theorem pushHandle_follows {levels : List LevelState} {m m' : Manifest} {table : SSTableMeta}
    (all : levels.map LevelState.level = Level.all) (each : ∀ l ∈ levels, l.Follows m)
    (added : ∀ level, (m'.sstablesAtLevel level).Perm
      (m.sstablesAtLevel level ++ if level = .L0 then [table] else [])) :
    (pushHandle { table, path := table.sstPath .L0 } levels).map LevelState.level = Level.all ∧
      ∀ l ∈ pushHandle { table, path := table.sstPath .L0 } levels, l.Follows m' := by
  cases levels with
  | nil => cases all
  | cons first rest =>
    obtain ⟨top, below⟩ := List.cons.inj all
    have pushed : pushHandle { table, path := table.sstPath .L0 } (first :: rest) =
        { first with handles := first.handles ++ [{ table, path := table.sstPath .L0 }] } :: rest :=
          rfl
    rw [pushed]
    refine ⟨all, ?_⟩
    intro l member
    rcases List.mem_cons.mp member with rfl | later
    · obtain ⟨once, paths⟩ := each first List.mem_cons_self
      rw [top] at once paths
      refine ⟨?_, ?_⟩
      · rw [List.map_append]
        show (first.handles.map SSTableHandle.table ++ [table]).Perm (m'.sstablesAtLevel first.level)
        rw [top]
        exact (once.append_right [table]).trans (added .L0).symm
      · intro handle held
        rcases List.mem_append.mp held with old | new
        · show handle.path = handle.table.sstPath first.level
          rw [top]
          exact paths handle old
        · obtain rfl := List.mem_singleton.mp new
          show table.sstPath .L0 = table.sstPath first.level
          rw [top]
    · have other : l.level ≠ .L0 := by
        have listed : l.level ∈ [Level.L1, .L2, .L3] := below ▸ List.mem_map_of_mem later
        rintro same
        rw [same] at listed
        simp at listed
      obtain ⟨once, paths⟩ := each l (List.mem_cons_of_mem _ later)
      refine ⟨?_, paths⟩
      have perm := added l.level
      rw [if_neg other, List.append_nil] at perm
      exact once.trans perm.symm

/-- After its commit a flush opens its table, when nothing fails. -/
theorem settle_follows {generation : Nat} {table : SSTableMeta} {draw : FlushDraw} {s t : Engine}
    {r : FlushResult Unit} {m : Manifest} (standing : Standing env s) (allowed : settles.flush draw)
    (all : s.levels.map LevelState.level = Level.all) (each : ∀ l ∈ s.levels, l.Follows m)
    (added : ∀ level, (s.manifestManager.current.sstablesAtLevel level).Perm
      (m.sstablesAtLevel level ++ if level = .L0 then [table] else []))
    (h : settle generation table draw s = (r, t)) :
    Standing env t ∧ Follows t := by
  obtain ⟨⟨removable, openable⟩, -⟩ := allowed
  unfold settle at h
  dsimp only at h
  generalize cleans : cleanupSegments draw.failing (s.walManager.markGenerationFlushed generation).1
    { s with walManager := (s.walManager.markGenerationFlushed generation).2 } = left at h
  obtain ⟨result, u⟩ := left
  have cleaned := cleanupSegments_cleaned standing.ordered standing.opened cleans
  have ok : result = .ok () := by
    rw [removable] at cleans
    have succeeds := cleanupSegments_ok (s.walManager.markGenerationFlushed generation).1
      (s.walManager.markGenerationFlushed generation).2 s.wal
    exact (congrArg Prod.fst cleans).symm.trans succeeds
  subst ok
  dsimp only at h
  rw [if_neg openable] at h
  have manager : u.manifestManager = s.manifestManager := by rw [cleaned.frame]
  have tables : u.tables = s.tables := by rw [cleaned.frame]
  have levels : u.levels = s.levels := by
    unfold cleanupSegments at cleans
    rw [← (Prod.mk.inj cleans).2]
  have standing_u : Standing env u := by
    refine ⟨cleaned.sound standing.toSound, cleaned.latest standing.latest, ?_⟩
    rw [cleaned.writer]
    exact cleaned.opened
  have listed : table ∈ u.manifestManager.current.sstablesAtLevel .L0 := by
    rw [manager]
    exact (added .L0).mem_iff.mpr (List.mem_append_right _ (by simp))
  obtain ⟨data, found⟩ := Option.isSome_iff_exists.mp (standing_u.present listed)
  simp only [openTable, found] at h
  obtain ⟨-, rfl⟩ := Prod.mk.inj h
  refine ⟨⟨standing_u.toSound, standing_u.latest, standing_u.opened⟩, ?_⟩
  rw [← levels] at all each
  rw [← manager] at added
  obtain ⟨pushed, follows⟩ := pushHandle_follows all each added
  exact ⟨pushed, follows⟩

end Flush

section Compaction

/-- A compaction that fails while its files can be removed fails before its commit. -/
theorem execute_refused {config : CompactionConfig} {fileSize : List MergeEntry → Nat}
    {serializedLen : Manifest → Nat} {d : Drawn} {task : CompactionTask} {s s' : CompactionState}
    {e : FlushError} (latest : s.manifest.Latest)
    (removable : ∀ count, d.fault ≠ some (.delete count))
    (h : CompactionExecutor.execute config fileSize serializedLen d task s = (.error e, s')) :
    s'.manifest = s.manifest := by
  have all : d.deleteStop = none := by
    unfold Drawn.deleteStop
    split
    · rename_i count fails
      exact absurd fails (removable count)
    · rfl
  unfold CompactionExecutor.execute at h
  split at h
  · cases CompactionExecutor.moveTrivially_outcome h with
    | uncommitted part copies kept => exact kept.same latest
    | committed copies stored finished failed =>
      have short := failed e rfl
      rw [all] at short
      exact absurd short (lt_irrefl _)
  · cases CompactionExecutor.mergeInputs_outcome h with
    | unread => rfl
    | uncommitted read kept => exact kept.same latest

theorem rebuildLevels_follows {fault : Option CompactionFault} {s t : Engine} {r : FlushResult Unit}
    (standing : Standing env s) (openable : ∀ level, fault ≠ some (.openTable level))
    (h : rebuildLevels fault s = (r, t)) : Follows t := by
  have whole : (Level.all.find? fun level =>
      fault = some (.openTable level) ∧
        ¬ (s.manifestManager.current.sstablesAtLevel level).isEmpty) = none := by
    rw [List.find?_eq_none]
    intro level _
    simp [openable level]
  obtain ⟨states, opened⟩ := openLevels_present
    (fun level t listed => standing.present listed) Level.all
  unfold rebuildLevels at h
  rw [whole] at h
  dsimp only at h
  rw [opened] at h
  obtain ⟨-, rfl⟩ := Prod.mk.inj h
  obtain ⟨all, each⟩ := openLevels_ok opened
  exact ⟨all, each⟩

theorem compact_standing (unique : Function.Injective env.ulid) {draw : CompactionDraw}
    {task : CompactionTask} (moves : task.sourceLevel ≠ task.targetLevel) {s t : Engine}
    {r : FlushResult Unit} (standing : Standing env s) (h : compact env draw task s = (r, t)) :
    Standing env t := by
  obtain ⟨compacted, -⟩ := compact_compacted unique moves standing.toSound standing.latest h
  refine ⟨⟨compacted.keyed, ?_, compacted.shelf⟩, compacted.latest, ?_⟩
  · rw [compacted.frame]
    exact standing.ordered
  · rw [compacted.frame]
    exact standing.opened

theorem compact_follows (unique : Function.Injective env.ulid) {draw : CompactionDraw}
    {task : CompactionTask} {m : Manifest}
    (asked : task ∈ CompactionScheduler.checkTriggers env.config.compactionConfig m) {s t : Engine}
    {r : FlushResult Unit} (standing : Standing env s) (follows : Follows s)
    (allowed : settles.compaction draw) (h : compact env draw task s = (r, t)) :
    Standing env t ∧ Follows t := by
  obtain ⟨low, high, plan⟩ := CompactionExecutor.checkTriggers_planned asked
  have standing_t := compact_standing unique (CompactionExecutor.levels_differ plan) standing h
  refine ⟨standing_t, ?_⟩
  obtain ⟨result, state, executed, ⟨e, rfl, -, rfl⟩ | ⟨done, levels, -, rebuilt, frame⟩⟩ :=
    compact_cases h
  · have same := execute_refused standing.latest allowed.1 executed
    have manager : state.manifest.manager = s.manifestManager := congrArg ManifestState.manager same
    refine ⟨follows.all, ?_⟩
    show ∀ l ∈ s.levels, l.Follows state.manifest.manager.current
    rw [manager]
    exact follows.each
  · refine @rebuildLevels_follows env _ _ _ _ ?_ allowed.2 rebuilt
    rw [frame] at standing_t
    exact ⟨standing_t.toSound, standing_t.latest, standing_t.opened⟩

end Compaction

/-- Every change keeps the levels in step with the manifest. -/
theorem Move.follows (unique : Function.Injective env.ulid) {s t : Engine}
    (move : Move env settles s t) (h : Standing env s ∧ Follows s) :
    Standing env t ∧ Follows t := by
  obtain ⟨standing, follows⟩ := h
  cases move with
  | @logged entries late t appended =>
    unfold appendWal at appended
    dsimp only at appended
    split at appended
    · cases appended
    rename_i manager dir done
    obtain rfl := Except.ok.inj appended
    unfold WalManager.append at done
    split at done
    · cases done
    rename_i writer dir' written
    obtain ⟨rfl, rfl⟩ := Prod.mk.inj (Except.ok.inj done)
    obtain ⟨w, d, same, ordered, opened, -⟩ := WalWriter.appendBatch_spec standing.ordered
      standing.opened
      (entries.map fun e => WalEntry.fromMemtableEntry e (Bytes.ofString env.config.ns))
    obtain ⟨rfl, rfl⟩ := Prod.mk.inj (Except.ok.inj (same.symm.trans written))
    exact ⟨⟨⟨standing.keyed, ordered, standing.shelf⟩, standing.latest, opened⟩, follows.all,
      follows.each⟩
  | numbered count =>
    exact ⟨⟨standing.toSound, standing.latest, standing.opened⟩, follows.all, follows.each⟩
  | inserted taken =>
    exact ⟨⟨standing.toSound, standing.latest, standing.opened⟩, follows.all, follows.each⟩
  | assigned taken =>
    exact ⟨⟨standing.toSound, standing.latest, standing.opened⟩, follows.all, follows.each⟩
  | froze frozen =>
    rw [freezeActive_ok frozen]
    exact ⟨⟨standing.toSound, standing.latest, standing.opened⟩, follows.all, follows.each⟩
  | @dropped generation frozen l draw e mid popped failed =>
    have standing_l : Standing env { s with memtableList := l } :=
      ⟨standing.toSound, standing.latest, standing.opened⟩
    obtain ⟨standing_mid, manager, levels⟩ := flush_refused unique standing_l failed
    refine ⟨⟨standing_mid.toSound, standing_mid.latest, standing_mid.opened⟩, ?_, ?_⟩
    · show mid.levels.map LevelState.level = Level.all
      rw [levels]
      exact follows.all
    · show ∀ l ∈ mid.levels, l.Follows mid.manifestManager.current
      rw [levels, manager]
      exact follows.each
  | @settled generation frozen l draw table mid u r allowed popped flushed settled =>
    have standing_l : Standing env { s with memtableList := l } :=
      ⟨standing.toSound, standing.latest, standing.opened⟩
    obtain ⟨standing_mid, levels, added⟩ := flush_listed unique standing_l flushed
    refine settle_follows standing_mid allowed ?_ ?_ added settled
    · rw [levels]
      exact follows.all
    · rw [levels]
      exact follows.each
  | @compacted draw task r t allowed asked done =>
    obtain ⟨m, asked⟩ := asked
    exact compact_follows unique asked standing follows allowed done

theorem Launched.follows {st : Stored} {s : Engine} (h : Launched env st s) : Follows s := by
  obtain ⟨m, listed, opened⟩ := h.levels
  obtain ⟨all, each⟩ := openLevels_ok opened
  refine ⟨all, ?_⟩
  intro l member
  obtain ⟨once, paths⟩ := each l member
  refine ⟨?_, paths⟩
  have same : s.manifestManager.current.sstablesAtLevel l.level = m.sstablesAtLevel l.level := by
    rw [listed, ← h.listed.1, show tablesAt s.manifests l.level = _ from h.ready.latest.tablesAt_eq l.level]
    rfl
  rw [same]
  exact once

end Engine

namespace World
variable {env : Env}

/-- In every run in which, after a commit, every segment file can be removed, every moved file can
be removed and every listed table can be opened, the levels mirror the manifest after every call,
whatever else fails. -/
theorem levels_mirror_manifest {env : Env} (unique : Function.Injective env.ulid)
    {labels : List Label} {w : World} {s : Engine} (within : ∀ a ∈ labels, a.Within Engine.settles)
    (run : exec (step env) {} labels = some w) (active : w.engine = some s) :
    s.Mirrors := by
  have kept : Ready env w ∧ ∀ s, w.engine = some s → s.Standing env ∧ s.Follows := by
    refine @exec_within _ _ (step env) (fun w => Ready env w ∧ ∀ s, w.engine = some s →
      Engine.Standing env s ∧ Engine.Follows s)
      (fun a => a.Within Engine.settles) ?_ _ _ _ ?_ within run
    · rintro w a w' ⟨ready, kept⟩ allowed taken
      refine ⟨step_ready unique ready taken, step_engine ?_
        (fun _ _ move => move.follows unique) allowed taken kept⟩
      intro nowMs fault s st closed opened
      rcases Engine.openStored_launched (ready.stored closed)
        opened with ⟨e, failed, -⟩ | ⟨t, same, -, launched⟩
      · cases failed
      · obtain rfl := Except.ok.inj same
        exact ⟨launched.ready.standing, launched.follows⟩
    · exact ⟨ready_empty env, by rintro s ⟨⟩⟩
  obtain ⟨standing, follows⟩ := kept.2 s active
  exact follows.mirrors standing

section Example

/-- Five flushes, of which the first finds no room for its table and the last triggers a compaction
that finds none for its output. -/
def troubledRun : List Label :=
  [.openEngine 0 none, .put ⟨[114]⟩ ⟨[9]⟩ ⟨[1]⟩ ⟨[]⟩ none
    { freeze := true, flush := { fault := some .putTable } },
    samplePut 1 1 true, samplePut 2 1 true, samplePut 3 1 true,
    .put ⟨[114]⟩ ⟨[4]⟩ ⟨[1]⟩ ⟨[]⟩ none { freeze := true,
                                         flush := { compaction := fun _ => { fault := some (.output 0) } } }]

theorem levels_mirror_manifest_troubled :
    ∃ w s, exec (step (sampleEnv 100)) {} troubledRun = some w ∧ w.engine = some s ∧ s.Mirrors ∧
      s.levels.map (fun l => l.handles.length) = [4, 0, 0, 0] := by
  have ends : ((exec (step (sampleEnv 100)) {} troubledRun).bind World.engine).map
      (fun s => s.levels.map fun l => l.handles.length) = some [4, 0, 0, 0] := by decide +kernel
  obtain ⟨s, found, held⟩ := Option.map_eq_some_iff.mp ends
  obtain ⟨w, run, active⟩ := Option.bind_eq_some_iff.mp found
  have within : ∀ a ∈ troubledRun, a.Within Engine.settles := by
    intro a member
    simp only [troubledRun, samplePut, List.mem_cons, List.not_mem_nil, or_false] at member
    rcases member with rfl | rfl | rfl | rfl | rfl | rfl
    all_goals simp [Label.Within, Engine.settles, FlushDraw.failing]
  exact ⟨w, s, run, active, levels_mirror_manifest (sampleEnv_unique 100) within run active, held⟩

/-- A flush that commits and then fails to open its table leaves a listed table without a handle. -/
theorem committedTable_unopened :
    ∃ w s, exec (step (sampleEnv 100)) {}
        [.openEngine 0 none, .put ⟨[114]⟩ ⟨[1]⟩ ⟨[1]⟩ ⟨[]⟩ none
          { freeze := true, flush := { fault := some .openTable } }] = some w ∧
      w.engine = some s ∧ ¬ s.Mirrors := by
  have ends : ((exec (step (sampleEnv 100)) {}
      [.openEngine 0 none, .put ⟨[114]⟩ ⟨[1]⟩ ⟨[1]⟩ ⟨[]⟩ none
        { freeze := true, flush := { fault := some .openTable } }]).bind
      World.engine).map (fun s => s.levels.map fun l =>
        (l.handles.length, (s.manifestManager.current.sstablesAtLevel l.level).length)) =
      some [(0, 1), (0, 0), (0, 0), (0, 0)] := by decide +kernel
  obtain ⟨s, found, held⟩ := Option.map_eq_some_iff.mp ends
  obtain ⟨w, run, active⟩ := Option.bind_eq_some_iff.mp found
  refine ⟨w, s, run, active, ?_⟩
  intro mirrors
  have short : (0, 1) ∈ s.levels.map fun l =>
      (l.handles.length, (s.manifestManager.current.sstablesAtLevel l.level).length) := by
    rw [held]
    exact List.mem_cons_self
  obtain ⟨l, member, counts⟩ := List.mem_map.mp short
  obtain ⟨none_held, one_listed⟩ := Prod.mk.inj counts
  have same := (mirrors.each l member).once.length_eq
  rw [List.length_map] at same
  omega

end Example

end World

end FlushDB
