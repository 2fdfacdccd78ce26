import FlushDB.Compaction.Arrangement
import FlushDB.Engine.CachedReads
import FlushDB.Engine.Changes
import FlushDB.Engine.Counters
import FlushDB.Engine.TaskConflicts

/-!
The arrangement of the levels in every run: whatever flushes and compactions meet, crashes and
openings included, the newest manifest lists sorted tables that exist, and below L0 their ranges
follow one another. Nothing is assumed of the run; plans that have become stale are included.
-/

namespace FlushDB
open Lib ManifestBucket

namespace CompactionScheduler

/-- Every task moves a table. -/
theorem checkTriggers_nonempty {config : CompactionConfig} {m : Manifest} {task : CompactionTask}
    (planned : task ∈ checkTriggers config m) : task.inputSSTables ≠ [] := by
  intro none
  rcases List.mem_append.mp planned with upper | last
  · rcases List.mem_append.mp upper with first | second
    · obtain ⟨low, high, -, range, rfl⟩ := checkL0Trigger_some (Option.mem_toList.mp first)
      simp only at none
      rw [none] at range
      cases range
    · obtain ⟨-, oldest, -, rfl⟩ := (@checkLevelTrigger_iff config m task .L1 .L2 _ rfl rfl).mp
        (Option.mem_toList.mp second)
      cases none
  · obtain ⟨-, oldest, -, rfl⟩ := (@checkLevelTrigger_iff config m task .L2 .L3 _ rfl rfl).mp
      (Option.mem_toList.mp last)
    cases none

end CompactionScheduler

namespace Engine
open CompactionExecutor Levels

section Compaction
variable {env : Env} {s t : Engine}

/-- What a compaction works on. -/
def compactionState (s : Engine) : CompactionState := ⟨s.manifest, s.tables⟩

abbrev drawnFor (env : Env) (draw : CompactionDraw) (s : Engine) : Drawn :=
  ⟨draw.nowMs, env.ulid s.drawn, env.ulid (s.drawn + 1), draw.fault⟩

theorem compact_ends (unique : Function.Injective env.ulid) (standing : Standing env s)
    {draw : CompactionDraw} {task : CompactionTask} {low high : Bytes}
    (foreseen : Foreseen (s.Drawn env) s.manifestManager.current task low high)
    (arranged : Levels.Arranged s.manifestManager.current s.tables) {r : FlushResult Unit}
    (h : compact env draw task s = (r, t)) :
    Ends (drawnFor env draw s) task s.compactionState t.compactionState := by
  obtain ⟨result, left, levels, pending, executed, rfl⟩ := compact_frame h
  exact @execute_ends (s.Drawn env) _ _ _ _ _ _ _ _ _ _ standing.latest standing.keyed standing.shelf
    (compact_fresh unique draw s) arranged foreseen executed

/-- The tasks that are left of a check, when some have been executed. -/
def Ahead (env : Env) (s : Engine) (tasks : List CompactionTask) : Prop :=
  (∀ task ∈ tasks, ∃ low high, Foreseen (s.Drawn env) s.manifestManager.current task low high) ∧
    tasks.Pairwise fun a b => a.sourceLevel.asU8 < b.sourceLevel.asU8 ∧
      ∀ t ∈ a.inputSSTables, ∀ u ∈ b.inputSSTables, t.id ≠ u.id

theorem checkTriggers_ahead (standing : Standing env s)
    (arranged : Levels.Arranged s.manifestManager.current s.tables) :
    Ahead env s (CompactionScheduler.checkTriggers env.config.compactionConfig s.manifestManager.current) := by
  have plans := fun task member =>
    @checkTriggers_planned env.config.compactionConfig s.manifestManager.current task member
  constructor
  · intro task member
    obtain ⟨low, high, plan⟩ := plans task member
    refine ⟨low, high, plan.foreseen (CompactionScheduler.checkTriggers_nonempty member) arranged ?_⟩
    intro level t listed
    refine standing.shelf.named ⟨level, t.id⟩ (standing.shelf.present level t ?_)
    rw [show tablesAt s.manifests level = _ from standing.latest.tablesAt_eq level]
    exact listed
  · refine (CompactionScheduler.checkTriggers_descend _ _).2.imp_of_mem ?_
    intro a b first second order
    obtain ⟨low, high, plan⟩ := plans a first
    obtain ⟨low', high', plan'⟩ := plans b second
    have below : a.sourceLevel.asU8 < b.sourceLevel.asU8 := by
      have := Level.asU8_next plan.adjacent
      have := Level.asU8_next plan'.adjacent
      omega
    refine ⟨below, ?_⟩
    intro t input u input' same
    have level := (place_unique arranged (plan.inputs t input) (plan'.inputs u input') same).1
    rw [level] at below
    exact lt_irrefl _ below

/-- When the first of the tasks has succeeded, the others are ahead. -/
theorem Ahead.next (unique : Function.Injective env.ulid) {draw : CompactionDraw}
    {task : CompactionTask} {rest : List CompactionTask} (ahead : Ahead env s (task :: rest))
    (standing : Standing env s) (arranged : Levels.Arranged s.manifestManager.current s.tables)
    (one : compact env draw task s = (.ok (), t)) : Standing env t ∧ Ahead env t rest := by
  obtain ⟨foreseen, order⟩ := ahead
  obtain ⟨below, order⟩ := List.pairwise_cons.mp order
  obtain ⟨low, high, plan⟩ := foreseen task List.mem_cons_self
  have ends := compact_ends unique standing plan arranged one
  have moves : task.sourceLevel ≠ task.targetLevel := by
    intro same
    have := Level.asU8_next plan.adjacent
    rw [same] at this
    omega
  obtain ⟨-, left, levels, pending, -, frame⟩ := compact_frame one
  have drawn : s.drawn ≤ t.drawn := by
    rw [frame]
    exact Nat.le_add_right _ _
  refine ⟨compact_standing unique moves standing one, ?_, order⟩
  intro later member
  obtain ⟨low', high', plan'⟩ := foreseen later (List.mem_cons_of_mem _ member)
  obtain ⟨lower, apart⟩ := below later member
  exact ⟨low', high', ends.foreseen (compact_fresh unique _ s)
    (fun id known => known.mono drawn) lower apart plan'⟩

/-- What the end of every execution keeps, the executions of the tasks that are left keep. -/
theorem tasks_keep (unique : Function.Injective env.ulid) {P : CompactionState → Prop}
    (arranges : ∀ c, P c → Levels.Arranged c.manifest.manager.current c.tables)
    {tasks : List CompactionTask} (keeps : ∀ task ∈ tasks, ∀ d c c', Ends d task c c' → P c → P c')
    (standing : Standing env s) (start : P s.compactionState) (ahead : Ahead env s tasks)
    {draw : Nat → CompactionDraw} {r : FlushResult Unit}
    (h : compactAll env draw tasks s = (r, t)) :
    P t.compactionState := by
  induction tasks generalizing s with
  | nil =>
    cases h
    exact start
  | cons task rest ih =>
    obtain ⟨low, high, plan⟩ := ahead.1 task List.mem_cons_self
    unfold compactAll at h
    generalize one : compact env (draw rest.length) task s = left at h
    obtain ⟨result, u⟩ := left
    have kept := keeps task List.mem_cons_self _ _ _
      (compact_ends unique standing plan (arranges _ start) one) start
    cases result with
    | error e =>
      cases h
      exact kept
    | ok done =>
      obtain ⟨standing_u, ahead_u⟩ := ahead.next unique standing (arranges _ start) one
      exact ih (fun other member => keeps other (List.mem_cons_of_mem _ member)) standing_u kept
        ahead_u h

theorem maybeCompact_keeps (unique : Function.Injective env.ulid) {P : CompactionState → Prop}
    (arranges : ∀ c, P c → Levels.Arranged c.manifest.manager.current c.tables)
    (keeps : ∀ task ∈ CompactionScheduler.checkTriggers env.config.compactionConfig
        s.manifestManager.current, ∀ d c c', Ends d task c c' → P c → P c')
    (standing : Standing env s) (start : P s.compactionState) {draw : Nat → CompactionDraw}
    {r : FlushResult Unit} (h : maybeCompact env draw s = (r, t)) : P t.compactionState :=
  tasks_keep unique arranges keeps standing start (checkTriggers_ahead standing (arranges _ start)) h

end Compaction

section Flush
variable {env : Env} {s t : Engine}

/-- A flush has put one sorted table into L0. -/
structure Flushed (frozen : Memtable) (table : SSTableMeta) (s t : Engine) : Prop where
  top : (t.manifestManager.current.sstablesAtLevel .L0).Perm
    (s.manifestManager.current.sstablesAtLevel .L0 ++ [table])
  below : ∀ level, level ≠ .L0 →
    t.manifestManager.current.sstablesAtLevel level = s.manifestManager.current.sstablesAtLevel level
  object : t.tables.get (table.sstPath .L0) = some
    (frozen.skiplist.nodes.map MergeEntry.fromMemtableEntry)
  sorted : TableSorted table (frozen.skiplist.nodes.map MergeEntry.fromMemtableEntry)
  extend : ObjectStore.Extends s.tables t.tables

/-- The nodes of a memtable are in the order of a table. -/
theorem nodes_precede (list : SkipList) :
    (list.nodes.map MergeEntry.fromMemtableEntry).Pairwise MergeEntry.Precedes := by
  refine List.pairwise_map.mpr (list.sorted.imp ?_)
  rintro a b (key | ⟨same, newer⟩)
  · exact Or.inl key
  · exact Or.inr ⟨same, newer.le⟩

theorem flush_flushed (unique : Function.Injective env.ulid) (standing : Standing env s)
    {frozen : Memtable} {draw : FlushDraw} {table : SSTableMeta}
    (h : flush env frozen draw s = (.ok table, t)) : Flushed frozen table s t := by
  cases flush_ends h with
  | @committed first rest _ m nodes succeeds made stored =>
    have fresh : ¬ s.Drawn env (.single (env.ulid s.drawn)) :=
      s.not_drawn unique (le_refl _) (Or.inl rfl)
    have id : table.id = .single (env.ulid s.drawn) := by
      rw [← made]
      rfl
    have path : table.sstPath .L0 = ⟨.L0, .single (env.ulid s.drawn)⟩ := by
      rw [SSTableMeta.sstPath_eq, id]
    have order := nodes_precede frozen.skiplist
    obtain ⟨-, -, listed⟩ := flush_listed unique standing h
    refine ⟨?_, ?_, ?_, ?_, (standing.shelf.put fresh .L0 _).1⟩
    · simpa using listed .L0
    · intro level below
      refine update_untouched (m := s.manifest) standing.latest stored ?_ ?_
      · rintro entry ⟨⟩
      · intro entry member same
        rw [List.mem_singleton.mp member] at same
        exact below same.symm
    · rw [path, nodes]
      exact ObjectStore.get_put_self _ _ _
    · rw [nodes] at order ⊢
      obtain ⟨head, last⟩ := ofEntries_described env.fileSize
        (.single (env.ulid s.drawn)) draw.nowMs first rest
      rw [made] at head last
      exact ⟨order, head, last⟩

/-- A flush that fails has at most left an object that is not listed. -/
theorem flush_failed_extends (unique : Function.Injective env.ulid) (standing : Standing env s)
    {frozen : Memtable} {draw : FlushDraw} {e : FlushError}
    (h : flush env frozen draw s = (.error e, t)) :
    t.manifest.manager = s.manifest.manager ∧ ObjectStore.Extends s.tables t.tables := by
  have fresh : ¬ s.Drawn env (.single (env.ulid s.drawn)) :=
    s.not_drawn unique (le_refl _) (Or.inl rfl)
  have put := fun contents => (standing.shelf.put fresh .L0 contents).1
  refine ⟨(flush_refused unique standing h).2.1, ?_⟩
  cases flush_ends h with
  | empty => exact ObjectStore.Extends.refl _
  | unwritten => exact ObjectStore.Extends.refl _
  | written => exact put _
  | refused nodes made failed => exact put _

theorem Flushed.arranged {frozen : Memtable} {table : SSTableMeta} (h : Flushed frozen table s t)
    (after : Standing env t) (arranged : Levels.Arranged s.manifestManager.current s.tables) :
    Levels.Arranged t.manifestManager.current t.tables := by
  refine ⟨?_, ?_, ?_⟩
  · have distinct := after.shelf.distinct
    rw [show tablesAt t.manifests = _ from funext after.latest.tablesAt_eq] at distinct
    rw [Levels.ids_eq]
    exact distinct
  · intro level u listed
    have old : u ∈ s.manifestManager.current.sstablesAtLevel level →
        ∃ entries, t.tables.get (u.sstPath level) = some entries ∧ TableSorted u entries := by
      intro before
      obtain ⟨entries, found, good⟩ := arranged.stored level u before
      exact ⟨entries, h.extend _ _ found, good⟩
    by_cases top : level = .L0
    · subst top
      rcases List.mem_append.mp (h.top.mem_iff.mp listed) with before | new
      · exact old before
      · rw [List.mem_singleton.mp new]
        exact ⟨_, h.object, h.sorted⟩
    · rw [h.below level top] at listed
      exact old listed
  · intro level below
    rw [h.below level below]
    exact arranged.disjoint level below

/-- No change of an engine disturbs the levels. -/
theorem Change.arranged (unique : Function.Injective env.ulid) {new : List MemtableEntry}
    (change : Change env s new t) (ready : Ready env s) (ready' : Ready env t)
    (arranged : Levels.Arranged s.manifestManager.current s.tables) :
    Levels.Arranged t.manifestManager.current t.tables := by
  have popped := (popped_ready ready).standing
  cases change with
  | aside frame =>
    rw [frame]
    exact arranged
  | inserted entry => exact arranged
  | committed nonempty flushed =>
    exact (flush_flushed unique popped flushed).arranged ready'.standing arranged
  | @dropped draw e t nonempty failed =>
    obtain ⟨manager, extend⟩ := flush_failed_extends unique popped failed
    have current : t.manifestManager = s.manifestManager := manager
    show Levels.Arranged t.manifestManager.current t.tables
    rw [current]
    exact arranged.extends extend
  | compacted compacts =>
    exact maybeCompact_keeps unique (P := fun c =>
      Levels.Arranged c.manifest.manager.current c.tables) (fun _ kept => kept)
      (fun _ _ _ _ _ ends kept => ends.arranged kept) ready.standing arranged compacts

end Flush

end Engine

namespace World
variable {env : Env} {w w' : World} {a : Label}

/-- The levels that the newest manifest of the storage lists are arranged. -/
def Arranged (w : World) : Prop := Lists.Arranged (tablesAt w.disk.manifests) w.disk.tables

theorem arranged_of_engine {s : Engine} (active : w.engine = some s) (ready : s.Ready env) :
    w.Arranged ↔ Levels.Arranged s.manifestManager.current s.tables := by
  rw [Arranged, disk_of_engine active, Levels.arranged_iff,
    show tablesAt s.manifests = _ from funext ready.latest.tablesAt_eq]
  rfl

theorem step_arranged (unique : Function.Injective env.ulid) (ready : Ready env w)
    (arranged : w.Arranged) (taken : step env w a = some w') : w'.Arranged := by
  have called : a.isCall → w'.Arranged := by
    intro call
    obtain ⟨s, active⟩ := call_active call taken
    have ready_s := ready.engine s active
    obtain ⟨s', done, active', ready', -, chain, -⟩ := call_changes unique call active ready_s taken
    rw [arranged_of_engine active' ready']
    refine chain.keeps (P := fun s => Levels.Arranged s.manifestManager.current s.tables) ?_ ready_s
      ((arranged_of_engine active ready_s).mp arranged)
    exact fun _ _ _ before after change kept => change.arranged unique before after kept
  cases a with
  | openEngine nowMs fault =>
    obtain ⟨closed, ⟨st, reloaded, rfl⟩ | ⟨s, launched, rfl⟩⟩ := openEngine_cases ready.stored taken
    · rw [Arranged, disk_closed closed] at arranged
      show Lists.Arranged (tablesAt (World.disk { w with stored := st }).manifests) _
      rw [disk_closed (w := { w with stored := st }) closed, reloaded.tablesAt_eq, reloaded.frame]
      exact arranged
    · rw [Arranged, disk_closed closed] at arranged
      show Lists.Arranged (tablesAt s.manifests) s.tables
      rw [launched.tables, show tablesAt s.manifests =
        tablesAt w.stored.manifests from funext launched.listed.1]
      exact arranged
  | crash torn =>
    obtain ⟨s, active, rfl⟩ := Option.map_eq_some_iff.mp taken
    rw [Arranged, disk_of_engine active] at arranged
    exact arranged
  | _ => exact called rfl

theorem exec_arranged_disk (unique : Function.Injective env.ulid) {labels : List Label}
    (run : exec (step env) {} labels = some w) :
    w.Arranged := by
  have kept : ∀ w a w', Ready env w ∧ w.Arranged → step env w a = some w' → Ready env w' ∧
      w'.Arranged :=
    fun w a w' before taken => ⟨step_ready unique before.1 taken, step_arranged unique before.1 before.2 taken⟩
  exact (exec_keeps kept ⟨ready_empty env, Lists.arranged_empty _⟩ run).2

/-- In every undisturbed run, at whatever steps flushes and compactions fail, the newest manifest
lists each name once, every listed table has its object, whose entries are sorted and lie between
the first and the last key of the table, and below L0 the tables of a level follow one another. -/
theorem exec_arranged {env : Env} (unique : Function.Injective env.ulid) {labels : List Label}
    {w : World} (undisturbed : Undisturbed env labels w) :
    Lists.Arranged (tablesAt w.disk.manifests) w.disk.tables :=
  exec_arranged_disk unique undisturbed.run

section Example

/-- The second task of the check has lost its input to the first; the levels stay arranged. -/
theorem exec_arranged_stale :
    ∃ w, exec (step mergingEnv) {} (staleRun ++ [.maybeCompact fun _ => {}]) = some w ∧
      Lists.Arranged (tablesAt w.disk.manifests) w.disk.tables := by
  have summary : (exec (step mergingEnv) {} (staleRun ++ [.maybeCompact fun _ => {}])).map (fun w =>
      decide (Cached.NamesApart w.disk.tables (Cached.storedPaths w.disk.tables))) =
        some true := by decide +kernel
  obtain ⟨w, run, apart⟩ := Option.map_eq_some_iff.mp summary
  exact ⟨w, run, @exec_arranged mergingEnv (sampleEnv_unique 100) _ _ ⟨run, of_decide_eq_true apart⟩⟩

end Example

end World

end FlushDB
