import FlushDB.Engine.Mirror

/-!
The tasks of one check are planned on one manifest and run one after the other. When a task has
consumed a table of a later one, the later one cannot commit. This happens when the table that is
next to leave a level is also overlapped by what comes down from the level above.
-/

namespace FlushDB
open Lib ManifestBucket

namespace CompactionScheduler

/-- The oldest table of a level meets none of the tables that the level above sends down: what L0
sends is within the combined range of its tables, what L1 sends is its oldest table. -/
structure Apart (config : CompactionConfig) (m : Manifest) : Prop where
  first : config.l0CompactionTrigger < m.l0Count → config.l1MaxBytes < m.levelSizeBytes .L1 →
    ∀ low high oldest, combinedKeyRange (m.sstablesAtLevel .L0) = some (low, high) →
      (m.sstablesAtLevel .L1).argmin SSTableMeta.createdAtMs = some oldest →
      ∀ t ∈ m.sstablesAtLevel .L1, t.id = oldest.id → t.maxKey < low ∨ high < t.minKey
  second : config.l1MaxBytes < m.levelSizeBytes .L1 → config.l2MaxBytes < m.levelSizeBytes .L2 →
    ∀ upper oldest, (m.sstablesAtLevel .L1).argmin SSTableMeta.createdAtMs = some upper →
      (m.sstablesAtLevel .L2).argmin SSTableMeta.createdAtMs = some oldest →
      ∀ t ∈ m.sstablesAtLevel .L2, t.id = oldest.id → t.maxKey < upper.minKey ∨
        upper.maxKey < t.minKey

/-- No table is consumed by two of the tasks. -/
def NoneShared (tasks : List CompactionTask) : Prop :=
  tasks.Pairwise fun a b => (CompactionExecutor.removals a).Disjoint (CompactionExecutor.removals b)

instance (tasks : List CompactionTask) : Decidable (NoneShared tasks) :=
  decidable_of_iff (tasks.Pairwise fun a b => ∀ p ∈ CompactionExecutor.removals a,
    ∀ q ∈ CompactionExecutor.removals b, p ≠ q)
    ⟨fun apart => apart.imp fun none _ one two => none _ one _ two rfl,
      fun apart => apart.imp fun none _ one _ two same => none one (same ▸ two)⟩

section Plans
variable {config : CompactionConfig} {m : Manifest} {task : CompactionTask}

theorem checkL0Trigger_some (h : checkL0Trigger config m = some task) : ∃ low high,
    config.l0CompactionTrigger < m.l0Count ∧ combinedKeyRange (m.sstablesAtLevel .L0) =
      some (low, high) ∧
      task = ⟨.l0ToL1, .L0, .L1, m.sstablesAtLevel .L0, m.findOverlapping .L1 low high⟩ := by
  unfold checkL0Trigger at h
  split at h
  · cases h
  · rename_i exceeded
    obtain ⟨⟨low, high⟩, range, rfl⟩ := Option.map_eq_some_iff.mp h
    exact ⟨low, high, by omega, range, rfl⟩

theorem checkL0Trigger_of {low high : Bytes} (exceeded : config.l0CompactionTrigger < m.l0Count)
    (range : combinedKeyRange (m.sstablesAtLevel .L0) = some (low, high)) :
    checkL0Trigger config m = some ⟨.l0ToL1, .L0, .L1, m.sstablesAtLevel .L0,
      m.findOverlapping .L1 low high⟩ := by
  unfold checkL0Trigger
  rw [if_neg (by omega)]
  dsimp only
  rw [range]
  rfl

theorem checkLevelTrigger_iff {level target : Level} {limit : Nat}
    (bounded : maxBytes config level = some limit) (next : level.next = some target) :
    checkLevelTrigger config m level = some task ↔
      limit < m.levelSizeBytes level ∧ ∃ oldest, (m.sstablesAtLevel level).argmin
        SSTableMeta.createdAtMs = some oldest ∧
        task = ⟨.levelToLevel, level, target, [oldest],
          m.findOverlapping target oldest.minKey oldest.maxKey⟩ := by
  unfold checkLevelTrigger
  rw [bounded]
  by_cases small : m.levelSizeBytes level ≤ limit
  · simp only [Option.bind_eq_bind, Option.bind_some, if_pos small]
    constructor
    · rintro ⟨⟩
    · rintro ⟨large, -⟩
      omega
  · simp only [Option.bind_eq_bind, Option.bind_some, if_neg small, next]
    constructor
    · intro found
      obtain ⟨oldest, first, same⟩ := Option.bind_eq_some_iff.mp found
      exact ⟨by omega, oldest, first, (Option.some.inj same).symm⟩
    · rintro ⟨-, oldest, first, rfl⟩
      exact Option.bind_eq_some_iff.mpr ⟨oldest, first, rfl⟩

/-- Two tasks of adjacent levels share a table exactly when the second moves a table that the first
merges into. -/
theorem removals_disjoint_iff {upper lower : CompactionTask} {oldest : SSTableMeta}
    (meets : upper.targetLevel = lower.sourceLevel) (apart : upper.sourceLevel ≠ lower.sourceLevel)
    (apart' : upper.sourceLevel ≠ lower.targetLevel) (below : upper.targetLevel ≠ lower.targetLevel)
    (single : lower.inputSSTables = [oldest]) :
    (CompactionExecutor.removals upper).Disjoint (CompactionExecutor.removals lower) ↔
      ∀ t ∈ upper.targetSSTables, t.id ≠ oldest.id := by
  unfold CompactionExecutor.removals
  rw [single]
  constructor
  · intro disjoint t member same
    refine disjoint (List.mem_append_right _ (List.mem_map_of_mem member)) (List.mem_append_left _ ?_)
    rw [List.map_singleton, List.mem_singleton, meets, same]
  · intro different p one two
    rcases List.mem_append.mp one with source | target
    · obtain ⟨t, -, rfl⟩ := List.mem_map.mp source
      rcases List.mem_append.mp two with source' | target'
      · obtain ⟨u, -, same⟩ := List.mem_map.mp source'
        exact apart (Prod.mk.inj same).1.symm
      · obtain ⟨u, -, same⟩ := List.mem_map.mp target'
        exact apart' (Prod.mk.inj same).1.symm
    · obtain ⟨t, member, rfl⟩ := List.mem_map.mp target
      rcases List.mem_append.mp two with source' | target'
      · obtain ⟨u, inside, same⟩ := List.mem_map.mp source'
        rw [List.mem_singleton.mp inside] at same
        exact different t member (Prod.mk.inj same).2.symm
      · obtain ⟨u, -, same⟩ := List.mem_map.mp target'
        exact below (Prod.mk.inj same).1.symm

theorem findOverlapping_none {level : Level} {low high : Bytes} {oldest : SSTableMeta} :
    (∀ t ∈ m.findOverlapping level low high, t.id ≠ oldest.id) ↔
      ∀ t ∈ m.sstablesAtLevel level, t.id = oldest.id → t.maxKey < low ∨ high < t.minKey := by
  have meets : ∀ t : SSTableMeta, t.overlapsRange low high = false ↔ t.maxKey < low ∨
      high < t.minKey := by
    intro t
    rw [SSTableMeta.overlapsRange, decide_eq_false_iff_not, not_not]
  constructor
  · intro different t listed same
    by_contra overlaps
    rw [← meets, Bool.not_eq_false] at overlaps
    exact different t (List.mem_filter.mpr ⟨listed, overlaps⟩) same
  · intro apart t member same
    obtain ⟨listed, overlaps⟩ := List.mem_filter.mp member
    rw [(meets t).mpr (apart t listed same)] at overlaps
    cases overlaps

/-- The tasks of one check share no table exactly when the oldest tables of L1 and L2 are apart
from what comes down on them. -/
theorem checkTriggers_noneShared (config : CompactionConfig) (m : Manifest) :
    NoneShared (checkTriggers config m) ↔ Apart config m := by
  have one : ∀ task, checkLevelTrigger config m .L1 = some task ↔ _ := fun task =>
    @checkLevelTrigger_iff config m task .L1 .L2 _ rfl rfl
  have two : ∀ task, checkLevelTrigger config m .L2 = some task ↔ _ := fun task =>
    @checkLevelTrigger_iff config m task .L2 .L3 _ rfl rfl
  have pairs : NoneShared (checkTriggers config m) ↔
      (∀ a ∈ checkL0Trigger config m, ∀ b ∈ checkLevelTrigger config m .L1,
        (CompactionExecutor.removals a).Disjoint (CompactionExecutor.removals b)) ∧
      (∀ a ∈ checkL0Trigger config m, ∀ b ∈ checkLevelTrigger config m .L2,
        (CompactionExecutor.removals a).Disjoint (CompactionExecutor.removals b)) ∧
      ∀ a ∈ checkLevelTrigger config m .L1, ∀ b ∈ checkLevelTrigger config m .L2,
        (CompactionExecutor.removals a).Disjoint (CompactionExecutor.removals b) := by
    unfold NoneShared checkTriggers
    cases checkL0Trigger config m <;> cases checkLevelTrigger config m .L1 <;>
      cases checkLevelTrigger config m .L2 <;>
      simp [and_assoc, and_comm]
  rw [pairs]
  constructor
  · rintro ⟨upper, -, lower⟩
    refine ⟨?_, ?_⟩
    · intro exceeded large low high oldest range least
      have disjoint := upper _ (checkL0Trigger_of exceeded range) _
        ((one _).mpr ⟨large, oldest, least, rfl⟩)
      exact findOverlapping_none.mp ((removals_disjoint_iff rfl (by simp) (by simp) (by simp) rfl).mp disjoint)
    · intro large large' input oldest least least'
      have disjoint := lower _ ((one _).mpr ⟨large, input, least, rfl⟩) _
        ((two _).mpr ⟨large', oldest, least', rfl⟩)
      exact findOverlapping_none.mp ((removals_disjoint_iff rfl (by simp) (by simp) (by simp) rfl).mp disjoint)
  · rintro ⟨first, second⟩
    refine ⟨?_, ?_, ?_⟩
    · intro a asked b asked'
      obtain ⟨low, high, exceeded, range, rfl⟩ := checkL0Trigger_some asked
      obtain ⟨large, oldest, least, rfl⟩ := (one b).mp asked'
      exact (removals_disjoint_iff rfl (by simp) (by simp) (by simp) rfl).mpr
        (findOverlapping_none.mpr (first exceeded large low high oldest range least))
    · intro a asked b asked' p here there
      obtain ⟨low, high, -, -, rfl⟩ := checkL0Trigger_some asked
      obtain ⟨-, oldest, -, rfl⟩ := (two b).mp asked'
      rcases CompactionExecutor.removals_levels p here with l0 | l1
      · rcases CompactionExecutor.removals_levels p there with l2 | l3
        · cases l0.symm.trans l2
        · cases l0.symm.trans l3
      · rcases CompactionExecutor.removals_levels p there with l2 | l3
        · cases l1.symm.trans l2
        · cases l1.symm.trans l3
    · intro a asked b asked'
      obtain ⟨large, input, least, rfl⟩ := (one a).mp asked
      obtain ⟨large', oldest, least', rfl⟩ := (two b).mp asked'
      exact (removals_disjoint_iff rfl (by simp) (by simp) (by simp) rfl).mpr
        (findOverlapping_none.mpr (second large large' input oldest least least'))

end Plans

end CompactionScheduler

namespace CompactionExecutor

/-- An execution that succeeds found all that it consumes in the lists, and adds to the target
level only, under new names or, where it moves a table, under the names of its inputs. -/
structure Consumed (d : Drawn) (task : CompactionTask) (added : List SSTableMeta)
    (before after : Lists) : Prop where
  found : ∀ p ∈ removals task, ∃ t ∈ before p.1, t.id = p.2
  lists : ∀ level, (after level).Perm ((before level).filter (fun t => (level, t.id) ∉ removals task) ++
    if level = task.targetLevel then added else [])
  named : ∀ t ∈ added, d.names t.id ∨ (task.targetSSTables = [] ∧ ∃ u ∈ task.inputSSTables, t.id = u.id)

theorem execute_consumed {config : CompactionConfig} {fileSize : List MergeEntry → Nat}
    {serializedLen : Manifest → Nat} {d : Drawn} {task : CompactionTask} {s s' : CompactionState}
    {result : CompactionResult} (latest : s.manifest.Latest) (keyed : Keyed s.manifest.bucket)
    (distinct : ∀ level, ((tablesAt s.manifest.bucket level).map SSTableMeta.id).Nodup)
    (h : execute config fileSize serializedLen d task s = (.ok result, s')) :
    ∃ added, Consumed d task added (tablesAt s.manifest.bucket) (tablesAt s'.manifest.bucket) := by
  have update : ∀ {added : List SSTableMeta} {removed : List (Level × SstId)} {m : ManifestState},
      s.manifest.update serializedLen (compactionUpdate s.manifest.manager
        (added.map fun t => (task.targetLevel, t)) removed)
        d.nowMs = (.ok (), m) →
      (∀ p ∈ removed, ∃ t ∈ tablesAt s.manifest.bucket p.1, t.id = p.2) ∧
        ∀ level, (tablesAt m.bucket level).Perm ((tablesAt s.manifest.bucket level).filter
          (fun t => (level, t.id) ∉ removed) ++
          if level = task.targetLevel then added else []) := by
    intro added removed m stored
    have updated := latest.updated keyed distinct stored
    refine ⟨updated.removed, ?_⟩
    intro level
    rw [← addedAt_level]
    exact updated.lists level
  unfold execute at h
  split at h
  · rename_i trivial
    have none : task.targetSSTables = [] := List.isEmpty_iff.mp trivial.2.1
    have removes : removals task = task.inputSSTables.map fun t => (task.sourceLevel, t.id) := by
      rw [removals, none, List.map_nil, List.append_nil]
    cases moveTrivially_outcome h with
    | committed copies stored =>
      obtain ⟨found, lists⟩ := update stored
      refine ⟨task.inputSSTables.map fun t => { t with createdAtMs := d.nowMs }, removes ▸ found,
        removes ▸ lists, ?_⟩
      intro t member
      obtain ⟨u, input, rfl⟩ := List.mem_map.mp member
      exact Or.inr ⟨none, u, input, rfl⟩
  · cases mergeInputs_outcome h with
    | @committed contents outs _ m read cut reads writes reached stored =>
      rw [show (fun out : SSTableMeta × List MergeEntry => (task.targetLevel, out.1)) =
        (fun t => (task.targetLevel, t)) ∘ Prod.fst from rfl, ← List.map_map] at stored
      obtain ⟨found, lists⟩ := update stored
      refine ⟨_, found, lists, ?_⟩
      intro t member
      obtain ⟨out, written, rfl⟩ := List.mem_map.mp member
      rw [← cut] at written
      exact Or.inl ((outputs_spec fileSize d config.targetFragmentSize _).1 out written).2

end CompactionExecutor

namespace Engine
variable {env : Env} {s t : Engine}

/-- The manifest of the engine lists a table of this name at the level. -/
def Lists (s : Engine) (p : Level × SstId) : Prop :=
  ∃ t ∈ s.manifestManager.current.sstablesAtLevel p.1, t.id = p.2

/-- What a compaction that succeeds does to the names in the manifest. -/
theorem compact_lists (unique : Function.Injective env.ulid) {draw : CompactionDraw}
    {task : CompactionTask} (moves : task.sourceLevel ≠ task.targetLevel)
    (standing : Standing env s) (h : compact env draw task s = (.ok (), t)) :
    (∀ p ∈ CompactionExecutor.removals task, s.Lists p ∧ ¬ t.Lists p) ∧
      (∀ p, p ∉ CompactionExecutor.removals task → s.Lists p → t.Lists p) ∧
      ∀ p : Level × SstId, p.1 ≠ task.targetLevel → t.Lists p → s.Lists p := by
  have standing_t := compact_standing unique moves standing h
  obtain ⟨result, state, executed, ⟨e, -, refused, -⟩ | ⟨done, levels, rfl, -, frame⟩⟩ :=
    compact_cases h
  · cases refused
  · obtain ⟨added, consumed⟩ := CompactionExecutor.execute_consumed standing.latest standing.keyed
      (FlushDB.Lists.nodup_level standing.shelf.distinct) executed
    have before : ∀ p, s.Lists p ↔ ∃ v ∈ tablesAt s.manifests p.1, v.id = p.2 := by
      intro p
      rw [show tablesAt s.manifests p.1 = _ from standing.latest.tablesAt_eq p.1]
      rfl
    have after : ∀ p, t.Lists p ↔ ∃ v ∈ tablesAt state.manifest.bucket p.1, v.id = p.2 := by
      intro p
      rw [show tablesAt state.manifest.bucket p.1 = tablesAt t.manifests p.1 by rw [frame]; rfl,
        show tablesAt t.manifests p.1 = _ from standing_t.latest.tablesAt_eq p.1]
      rfl
    refine ⟨?_, ?_, ?_⟩
    · intro p removed
      refine ⟨(before p).mpr (consumed.found p removed), ?_⟩
      rw [after]
      rintro ⟨v, listed, name⟩
      rcases List.mem_append.mp ((consumed.lists p.1).mem_iff.mp listed) with kept | new
      · have stays := of_decide_eq_true (List.mem_filter.mp kept).2
        rw [name] at stays
        exact stays removed
      · split at new
        · rename_i at_target
          rcases consumed.named v new with fresh | ⟨none, -⟩
          · -- the names of the outputs are not in use
            obtain ⟨u, place, name'⟩ := consumed.found p removed
            have known := standing.shelf.named _ (standing.shelf.present p.1 u place)
            rw [name', ← name] at known
            rcases fresh with single | ⟨index, fragment⟩
            · exact s.not_drawn unique (Nat.le_succ _) (Or.inl single) known
            · exact s.not_drawn unique (le_refl _) (Or.inr ⟨index, fragment⟩) known
          · rw [CompactionExecutor.removals, none, List.map_nil, List.append_nil] at removed
            obtain ⟨u, -, rfl⟩ := List.mem_map.mp removed
            exact moves at_target
        · cases new
    · intro p unremoved listed
      obtain ⟨v, place, name⟩ := (before p).mp listed
      refine (after p).mpr ⟨v, (consumed.lists p.1).mem_iff.mpr
        (List.mem_append_left _ (List.mem_filter.mpr ⟨place, ?_⟩)), name⟩
      rw [name]
      exact decide_eq_true unremoved
    · intro p other listed
      obtain ⟨v, place, name⟩ := (after p).mp listed
      rw [before]
      rcases List.mem_append.mp ((consumed.lists p.1).mem_iff.mp place) with kept | new
      · exact ⟨v, List.mem_of_mem_filter kept, name⟩
      · rw [if_neg other] at new
        cases new

theorem compactAll_cons {draw : Nat → CompactionDraw} {task : CompactionTask}
    {rest : List CompactionTask} (h : compactAll env draw (task :: rest) s = (.ok (), t)) :
    ∃ u, compact env (draw rest.length) task s = (.ok (), u) ∧
      compactAll env draw rest u = (.ok (), t) := by
  unfold compactAll at h
  generalize first : compact env (draw rest.length) task s = left at h
  obtain ⟨result, u⟩ := left
  cases result with
  | error e => cases h
  | ok done => exact ⟨u, rfl, h⟩

theorem compactAll_standing (unique : Function.Injective env.ulid) {draw : Nat → CompactionDraw}
    {tasks : List CompactionTask} (moves : ∀ task ∈ tasks, task.sourceLevel ≠ task.targetLevel)
    (standing : Standing env s) (h : compactAll env draw tasks s = (.ok (), t)) :
    Standing env t := by
  induction tasks generalizing s with
  | nil =>
    cases h
    exact standing
  | cons task rest ih =>
    obtain ⟨u, one, others⟩ := compactAll_cons h
    exact ih (fun other member => moves other (List.mem_cons_of_mem _ member))
      (compact_standing unique (moves task List.mem_cons_self) standing one) others

/-- Compactions that succeed keep what none of them consumes, and list nothing anew above their
targets. -/
theorem compactAll_lists (unique : Function.Injective env.ulid) {draw : Nat → CompactionDraw}
    {tasks : List CompactionTask} (moves : ∀ task ∈ tasks, task.sourceLevel ≠ task.targetLevel)
    (standing : Standing env s) (h : compactAll env draw tasks s = (.ok (), t))
    (p : Level × SstId) :
    ((∀ task ∈ tasks, p ∉ CompactionExecutor.removals task) → s.Lists p → t.Lists p) ∧
      ((∀ task ∈ tasks, p.1 ≠ task.targetLevel) → t.Lists p → s.Lists p) := by
  induction tasks generalizing s with
  | nil =>
    cases h
    exact ⟨fun _ listed => listed, fun _ listed => listed⟩
  | cons task rest ih =>
    obtain ⟨u, one, others⟩ := compactAll_cons h
    have here := moves task List.mem_cons_self
    obtain ⟨-, kept, back⟩ := compact_lists unique here standing one
    obtain ⟨kept', back'⟩ := ih (fun other member => moves other (List.mem_cons_of_mem _ member))
      (compact_standing unique here standing one) others
    refine ⟨?_, ?_⟩
    · intro untouched listed
      exact kept' (fun other member => untouched other (List.mem_cons_of_mem _ member))
        (kept p (untouched task List.mem_cons_self) listed)
    · intro above listed
      exact back p (above task List.mem_cons_self)
        (back' (fun other member => above other (List.mem_cons_of_mem _ member)) listed)

/-- What one of the compactions consumes is not listed after them. -/
theorem compactAll_consumed (unique : Function.Injective env.ulid) {draw : Nat → CompactionDraw}
    {tasks : List CompactionTask}
    (moves : ∀ task ∈ tasks, task.sourceLevel.asU8 < task.targetLevel.asU8)
    (descend : tasks.Pairwise fun a b => a.targetLevel.asU8 < b.targetLevel.asU8)
    (standing : Standing env s) (h : compactAll env draw tasks s = (.ok (), t))
    {task : CompactionTask} (member : task ∈ tasks) {p : Level × SstId}
    (consumed : p ∈ CompactionExecutor.removals task) : ¬ t.Lists p := by
  have differ : ∀ task ∈ tasks, task.sourceLevel ≠ task.targetLevel := by
    intro task member same
    have := moves task member
    rw [same] at this
    omega
  induction tasks generalizing s with
  | nil => cases member
  | cons first rest ih =>
    obtain ⟨below, descend⟩ := List.pairwise_cons.mp descend
    obtain ⟨u, one, others⟩ := compactAll_cons h
    have here := differ first List.mem_cons_self
    have standing_u := compact_standing unique here standing one
    have differ' := fun other inside => differ other (List.mem_cons_of_mem _ inside)
    rcases List.mem_cons.mp member with rfl | later
    · obtain ⟨gone, -⟩ := compact_lists unique here standing one
      intro listed
      refine (gone p consumed).2 ((compactAll_lists unique differ' standing_u others p).2 ?_ listed)
      intro other inside same
      have lower := below other inside
      have source := moves task List.mem_cons_self
      rw [← same] at lower
      rcases CompactionExecutor.removals_levels p consumed with at_source | at_target
      · rw [at_source] at lower
        omega
      · rw [at_target] at lower
        omega
    · exact ih (fun other inside => moves other (List.mem_cons_of_mem _ inside)) descend standing_u
        others later differ'

/-- A compaction whose tables are not all listed fails. -/
theorem compact_unlisted (unique : Function.Injective env.ulid) {task : CompactionTask}
    (moves : task.sourceLevel ≠ task.targetLevel) (standing : Standing env s) {p : Level × SstId}
    (needed : p ∈ CompactionExecutor.removals task) (unlisted : ¬ s.Lists p)
    (draw : CompactionDraw) : ∃ e u, compact env draw task s = (.error e, u) := by
  cases done : compact env draw task s with
  | mk result u =>
    cases result with
    | error e => exact ⟨e, u, rfl⟩
    | ok nothing => exact absurd ((compact_lists unique moves standing done).1 p needed).1 unlisted

end Engine

namespace CompactionScheduler

/-- The tasks of one check go down from level to level. -/
theorem checkTriggers_descend (config : CompactionConfig) (m : Manifest) :
    (∀ task ∈ checkTriggers config m, task.sourceLevel.asU8 < task.targetLevel.asU8) ∧
      (checkTriggers config m).Pairwise fun a b => a.targetLevel.asU8 < b.targetLevel.asU8 := by
  have zero : ∀ task ∈ checkL0Trigger config m, task.sourceLevel = .L0 ∧
      task.targetLevel = .L1 := by
    intro task asked
    obtain ⟨low, high, -, -, rfl⟩ := checkL0Trigger_some asked
    exact ⟨rfl, rfl⟩
  have one : ∀ task ∈ checkLevelTrigger config m .L1, task.sourceLevel = .L1 ∧
      task.targetLevel = .L2 := by
    intro task asked
    obtain ⟨-, oldest, -, rfl⟩ := (@checkLevelTrigger_iff config m task .L1 .L2 _ rfl rfl).mp asked
    exact ⟨rfl, rfl⟩
  have two : ∀ task ∈ checkLevelTrigger config m .L2, task.sourceLevel = .L2 ∧
      task.targetLevel = .L3 := by
    intro task asked
    obtain ⟨-, oldest, -, rfl⟩ := (@checkLevelTrigger_iff config m task .L2 .L3 _ rfl rfl).mp asked
    exact ⟨rfl, rfl⟩
  unfold checkTriggers
  constructor
  · intro task member
    rcases List.mem_append.mp member with upper | last
    · rcases List.mem_append.mp upper with first | second
      · obtain ⟨source, target⟩ := zero task (Option.mem_toList.mp first)
        rw [source, target]
        decide
      · obtain ⟨source, target⟩ := one task (Option.mem_toList.mp second)
        rw [source, target]
        decide
    · obtain ⟨source, target⟩ := two task (Option.mem_toList.mp last)
      rw [source, target]
      decide
  · have single : ∀ o : Option CompactionTask, o.toList.Pairwise fun a b =>
        a.targetLevel.asU8 < b.targetLevel.asU8 := by
      intro o
      cases o <;> simp
    refine List.pairwise_append.mpr ⟨List.pairwise_append.mpr ⟨single _, single _, ?_⟩, single _, ?_⟩
    · intro a first b second
      rw [(zero a (Option.mem_toList.mp first)).2, (one b (Option.mem_toList.mp second)).2]
      decide
    · intro a upper b last
      rw [(two b (Option.mem_toList.mp last)).2]
      rcases List.mem_append.mp upper with first | second
      · rw [(zero a (Option.mem_toList.mp first)).2]
        decide
      · rw [(one a (Option.mem_toList.mp second)).2]
        decide

/-- The tasks of one check consume no table twice exactly when the oldest tables of L1 and L2 are
apart from what comes down on them. Run one after the other, a task finds all its tables listed if
it shares none with those before it, and fails if it does. -/
theorem planned_together_iff (config : CompactionConfig) (m : Manifest) :
    (NoneShared (checkTriggers config m) ↔ Apart config m) ∧
    ∀ (env : Env) (s : Engine), Function.Injective env.ulid → s.Standing env →
      env.config.compactionConfig = config →
      s.manifestManager.current = m → ∀ before task after draw t,
        checkTriggers config m = before ++ task :: after →
      Engine.compactAll env draw before s = (.ok (), t) →
        ((∀ earlier ∈ before, (CompactionExecutor.removals earlier).Disjoint
          (CompactionExecutor.removals task)) →
          ∀ p ∈ CompactionExecutor.removals task, t.Lists p) ∧
        ((∃ earlier ∈ before, ¬ (CompactionExecutor.removals earlier).Disjoint
          (CompactionExecutor.removals task)) →
          ∀ draw', ∃ e u, Engine.compact env draw' task t = (.error e, u)) := by
  refine ⟨checkTriggers_noneShared config m, ?_⟩
  rintro env s unique standing rfl rfl before task after draw t planned done
  obtain ⟨moves, descend⟩ := checkTriggers_descend env.config.compactionConfig s.manifestManager.current
  rw [planned] at moves descend
  have asked : task ∈ checkTriggers env.config.compactionConfig s.manifestManager.current := by
    rw [planned]
    exact List.mem_append_right _ List.mem_cons_self
  obtain ⟨low, high, plan⟩ := CompactionExecutor.checkTriggers_planned asked
  have listed : ∀ p ∈ CompactionExecutor.removals task, s.Lists p := by
    intro p needed
    rcases List.mem_append.mp needed with input | target
    · obtain ⟨u, member, rfl⟩ := List.mem_map.mp input
      exact ⟨u, plan.inputs u member, rfl⟩
    · obtain ⟨u, member, rfl⟩ := List.mem_map.mp target
      exact ⟨u, (CompactionExecutor.targets_mem plan member).1, rfl⟩
  have moves' := fun earlier member => moves earlier (List.mem_append_left _ member)
  have differ : ∀ earlier ∈ before, earlier.sourceLevel ≠ earlier.targetLevel := by
    intro earlier member same
    have := moves' earlier member
    rw [same] at this
    omega
  constructor
  · intro apart p needed
    refine (Engine.compactAll_lists unique differ standing done p).1 ?_ (listed p needed)
    intro earlier member consumed
    exact apart earlier member consumed needed
  · rintro ⟨earlier, member, shares⟩ draw'
    obtain ⟨p, consumed, needed⟩ : ∃ p, p ∈ CompactionExecutor.removals earlier ∧
        p ∈ CompactionExecutor.removals task := by
      by_contra none
      exact shares fun p one two => none ⟨p, one, two⟩
    have unlisted := Engine.compactAll_consumed unique moves'
      (List.pairwise_append.mp descend).1 standing done member consumed
    exact Engine.compact_unlisted unique (CompactionExecutor.levels_differ plan)
      (Engine.compactAll_standing unique differ standing done) needed unlisted draw'

end CompactionScheduler

namespace World

section Example

/-- Every entry becomes a fragment of its own, and L1 overflows at two of them. -/
def conflictEnv : Env :=
  { sampleEnv 100 with
    config := { ns := "ns", compactionConfig := { l0CompactionTrigger := 1, l1MaxBytes := 150,
                                                  targetFragmentSize := 1 } } }

/-- Four fragments in L1, of which one has moved on, and two tables in L0, of which the last is not
opened, so that no compaction follows its commit. -/
def conflictRun (last : UInt8) : List Label :=
  [.openEngine 0 none, sampleBatch [1, 2, 3, 4], samplePut 1 1 true, samplePut 1 1 true,
    samplePut 9 1 true,
    .put ⟨[114]⟩ ⟨[last]⟩ ⟨[1]⟩ ⟨[]⟩ none { freeze := true, flush := { fault := some .openTable } }]

/-- What L0 sends down overlaps the oldest table of L1: the first task consumes it, and the second
fails although nothing fails outside. -/
theorem oldest_consumed :
    ∃ w s, exec (step conflictEnv) {} (conflictRun 2) = some w ∧ w.engine = some s ∧
      (∀ level, level ≠ .L0 → (s.manifestManager.current.sstablesAtLevel level).Pairwise fun a b =>
        a.maxKey < b.minKey) ∧
      ¬ CompactionScheduler.NoneShared
        (CompactionScheduler.checkTriggers conflictEnv.config.compactionConfig s.manifestManager.current) ∧
      (Engine.maybeCompact conflictEnv (fun _ => {}) s).1 =
        .error (.invalidArgument "SSTable run-xx/frag-0001 not found at level L1") := by
  have ends : ((exec (step conflictEnv) {} (conflictRun 2)).bind World.engine).map (fun s =>
      (decide (∀ level ∈ Level.all, level ≠ .L0 →
          (s.manifestManager.current.sstablesAtLevel level).Pairwise fun a b => a.maxKey < b.minKey),
        decide (CompactionScheduler.NoneShared
          (CompactionScheduler.checkTriggers conflictEnv.config.compactionConfig s.manifestManager.current)),
        (Engine.maybeCompact conflictEnv (fun _ => {}) s).1)) =
      some (true, false, .error
        (.invalidArgument "SSTable run-xx/frag-0001 not found at level L1")) := by decide +kernel
  obtain ⟨s, found, held⟩ := Option.map_eq_some_iff.mp ends
  obtain ⟨w, run, active⟩ := Option.bind_eq_some_iff.mp found
  obtain ⟨sorted, rest⟩ := Prod.mk.inj held
  obtain ⟨shared, failed⟩ := Prod.mk.inj rest
  refine ⟨w, s, run, active, ?_, of_decide_eq_false shared, failed⟩
  intro level below
  exact of_decide_eq_true sorted level level.mem_all below

/-- Where the tables of L0 are apart from L1 the second task finds its table. -/
theorem planned_together_sample :
    ∃ w s a b t, exec (step conflictEnv) {} (conflictRun 8) = some w ∧ w.engine = some s ∧
      CompactionScheduler.checkTriggers conflictEnv.config.compactionConfig
        s.manifestManager.current = [a, b] ∧
      Engine.compactAll conflictEnv (fun _ => {}) [a] s = (.ok (), t) ∧
        ∀ p ∈ CompactionExecutor.removals b, t.Lists p := by
  have ends : ((exec (step conflictEnv) {} (conflictRun 8)).bind World.engine).map (fun s =>
      let tasks := CompactionScheduler.checkTriggers conflictEnv.config.compactionConfig
        s.manifestManager.current
      (tasks.length, decide (CompactionScheduler.NoneShared tasks),
        (Engine.compactAll conflictEnv (fun _ => {}) (tasks.take 1) s).1)) =
          some (2, true, .ok ()) := by decide +kernel
  obtain ⟨s, found, held⟩ := Option.map_eq_some_iff.mp ends
  obtain ⟨w, run, active⟩ := Option.bind_eq_some_iff.mp found
  obtain ⟨two, rest⟩ := Prod.mk.inj held
  obtain ⟨apart, done⟩ := Prod.mk.inj rest
  obtain ⟨a, b, tasks⟩ := List.length_eq_two.mp two
  rw [tasks] at apart done
  have none_shared := of_decide_eq_true apart
  have standing : s.Standing conflictEnv :=
    ((@exec_ready conflictEnv (sampleEnv_unique 100) _ _ run).engine s active).standing
  refine ⟨w, s, a, b, _, run, active, tasks, Prod.ext done rfl, ?_⟩
  refine (((CompactionScheduler.planned_together_iff _ _).2 conflictEnv s
    (sampleEnv_unique 100) standing rfl rfl [a] b [] _ _ tasks
    (Prod.ext done rfl)).1 ?_)
  intro earlier member
  rw [List.mem_singleton.mp member]
  exact (List.pairwise_cons.mp none_shared).1 b (List.mem_singleton_self b)

end Example

end World

end FlushDB
