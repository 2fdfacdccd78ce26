import FlushDB.Compaction.Outputs
import FlushDB.Compaction.Replacement

/-!
A compaction that `check_triggers` asks for keeps the level invariants and what readers see.
-/

namespace FlushDB.CompactionExecutor
open Lib Levels

/-- The names an execution draws are not in use. -/
def FreshNames (drawn : Drawn) (m : Manifest) : Prop :=
  ∀ level, ∀ t ∈ m.sstablesAtLevel level, t.id ≠ .single drawn.ulid ∧
    ∀ i, t.id ≠ .fragment drawn.runId i

/-- What every task of the scheduler has: inputs of one level within a key range, and all tables
of the next level that overlap the range. -/
structure Planned (m : Manifest) (task : CompactionTask) (low high : Bytes) : Prop where
  adjacent : task.sourceLevel.next = some task.targetLevel
  inputs : ∀ t ∈ task.inputSSTables, t ∈ m.sstablesAtLevel task.sourceLevel
  within : ∀ t ∈ task.inputSSTables, low ≤ t.minKey ∧ t.maxKey ≤ high
  targets : task.targetSSTables = m.findOverlapping task.targetLevel low high
  whole : task.sourceLevel = .L0 → task.inputSSTables = m.sstablesAtLevel .L0
  single : task.taskType = .levelToLevel → ∃ input, task.inputSSTables = [input]

theorem checkTriggers_planned {config : CompactionConfig} {m : Manifest} {task : CompactionTask}
    (h : task ∈ CompactionScheduler.checkTriggers config m) :
    ∃ low high, Planned m task low high := by
  have level : ∀ level, task ∈ (CompactionScheduler.checkLevelTrigger config m level).toList →
      ∃ low high, Planned m task low high := by
    intro level member
    obtain ⟨limit, bounded, found⟩ := Option.bind_eq_some_iff.mp (Option.mem_toList.mp member)
    split at found
    · cases found
    · obtain ⟨target, next, found⟩ := Option.bind_eq_some_iff.mp found
      obtain ⟨input, oldest, found⟩ := Option.bind_eq_some_iff.mp found
      obtain rfl := Option.some.inj found
      refine ⟨input.minKey, input.maxKey, next, ?_, ?_, rfl, ?_, fun _ => ⟨input, rfl⟩⟩
      · intro t inside
        obtain rfl := List.mem_singleton.mp inside
        exact List.argmin_mem oldest
      · intro t inside
        obtain rfl := List.mem_singleton.mp inside
        exact ⟨le_refl _, le_refl _⟩
      · intro top
        have top : level = .L0 := top
        rw [top] at bounded
        cases bounded
  unfold CompactionScheduler.checkTriggers at h
  rcases List.mem_append.mp h with h | last
  · rcases List.mem_append.mp h with first | second
    · have found := Option.mem_toList.mp first
      unfold CompactionScheduler.checkL0Trigger at found
      split at found
      · cases found
      · obtain ⟨⟨low, high⟩, range, rfl⟩ := Option.map_eq_some_iff.mp found
        exact ⟨low, high, rfl, fun t member => member,
          CompactionScheduler.combinedKeyRange_contains range, rfl,
          fun _ => rfl, fun impossible => by cases impossible⟩
    · exact level _ second
  · exact level _ last

/-- What a task removes from the manifest. -/
def removals (task : CompactionTask) : List (Level × SstId) :=
  (task.inputSSTables.map fun t => (task.sourceLevel, t.id)) ++
    task.targetSSTables.map fun t => (task.targetLevel, t.id)

section Plan
variable {m : Manifest} {tables : Tables} {task : CompactionTask} {low high : Bytes}

theorem place_unique (arranged : Arranged m tables) {a b : Level} {t u : SSTableMeta}
    (first : t ∈ m.sstablesAtLevel a) (second : u ∈ m.sstablesAtLevel b) (same : t.id = u.id) :
    a = b ∧ t = u := by
  have equal := List.inj_on_of_nodup_map arranged.distinct (Manifest.mem_allSSTables.mpr first)
    (Manifest.mem_allSSTables.mpr second) same
  exact Prod.mk.inj equal

theorem ids_nodup (arranged : Arranged m tables) (level : Level) :
    ((m.levels level).map SSTableMeta.id).Nodup := by
  refine List.Nodup.map_on ?_ ?_
  · intro t first u second same
    exact (place_unique arranged first second same).2
  · have listed := (List.nodup_flatMap.mp (List.Nodup.of_map _ arranged.distinct)).1 level level.mem_all
    exact List.Nodup.of_map _ listed

theorem targets_mem (plan : Planned m task low high) {t : SSTableMeta}
    (h : t ∈ task.targetSSTables) :
    t ∈ m.sstablesAtLevel task.targetLevel ∧ ¬ (t.maxKey < low ∨ high < t.minKey) := by
  rw [plan.targets] at h
  obtain ⟨listed, overlaps⟩ := List.mem_filter.mp h
  refine ⟨listed, ?_⟩
  simpa [SSTableMeta.overlapsRange] using overlaps

theorem levels_differ (plan : Planned m task low high) : task.sourceLevel ≠ task.targetLevel := by
  intro same
  have adjacent := plan.adjacent
  rw [← same] at adjacent
  revert adjacent
  cases task.sourceLevel <;> simp [Level.next]

/-- The tables a task removes are its inputs and its targets. -/
theorem mem_gone_iff (plan : Planned m task low high) (arranged : Arranged m tables) {level : Level}
    {t : SSTableMeta} :
    t ∈ gone m (removals task) level ↔
      (level = task.sourceLevel ∧ t ∈ task.inputSSTables) ∨
        (level = task.targetLevel ∧ t ∈ task.targetSSTables) := by
  rw [mem_gone]
  constructor
  · rintro ⟨listed, removed⟩
    rcases List.mem_append.mp removed with input | target
    · obtain ⟨u, member, same⟩ := List.mem_map.mp input
      obtain ⟨rfl, id⟩ := Prod.mk.inj same
      obtain ⟨-, rfl⟩ := place_unique arranged (plan.inputs u member) listed id
      exact Or.inl ⟨rfl, member⟩
    · obtain ⟨u, member, same⟩ := List.mem_map.mp target
      obtain ⟨rfl, id⟩ := Prod.mk.inj same
      obtain ⟨-, rfl⟩ := place_unique arranged (targets_mem plan member).1 listed id
      exact Or.inr ⟨rfl, member⟩
  · rintro (⟨rfl, member⟩ | ⟨rfl, member⟩)
    · exact ⟨plan.inputs t member, List.mem_append_left _ (List.mem_map_of_mem member)⟩
    · exact ⟨(targets_mem plan member).1, List.mem_append_right _ (List.mem_map_of_mem member)⟩

theorem mem_goneEntries_iff (plan : Planned m task low high) (arranged : Arranged m tables)
    {e : MergeEntry} :
    e ∈ goneEntries m tables (removals task) ↔
      (∃ t ∈ task.inputSSTables, e ∈ tableEntries tables task.sourceLevel t) ∨
        ∃ t ∈ task.targetSSTables, e ∈ tableEntries tables task.targetLevel t := by
  rw [mem_goneEntries]
  constructor
  · rintro ⟨level, t, removed, inside⟩
    rcases (mem_gone_iff plan arranged).mp removed with ⟨rfl, member⟩ | ⟨rfl, member⟩
    · exact Or.inl ⟨t, member, inside⟩
    · exact Or.inr ⟨t, member, inside⟩
  · rintro (⟨t, member, inside⟩ | ⟨t, member, inside⟩)
    · exact ⟨_, t, (mem_gone_iff plan arranged).mpr (Or.inl ⟨rfl, member⟩), inside⟩
    · exact ⟨_, t, (mem_gone_iff plan arranged).mpr (Or.inr ⟨rfl, member⟩), inside⟩

theorem listed_bounds (arranged : Arranged m tables) {level : Level} {t : SSTableMeta}
    (listed : t ∈ m.sstablesAtLevel level) :
    t.minKey ≤ t.maxKey ∧ ∀ e ∈ tableEntries tables level t,
      t.minKey ≤ e.compositeKey.bytes ∧ e.compositeKey.bytes ≤ t.maxKey := by
  obtain ⟨entries, found, good⟩ := arranged.stored level t listed
  have contents : tableEntries tables level t = entries := by
    simp [tableEntries, Tables.entries, found]
  exact ⟨good.min_le_max, fun e inside => good.bounds (contents ▸ inside)⟩

theorem level_apart (arranged : Arranged m tables) {level : Level} (below : level ≠ .L0)
    {t u : SSTableMeta} (first : t ∈ m.sstablesAtLevel level) (second : u ∈ m.sstablesAtLevel level)
    (different : t ≠ u) :
    t.maxKey < u.minKey ∨ u.maxKey < t.minKey := by
  have pairs : (m.sstablesAtLevel level).Pairwise fun a b =>
      a.maxKey < b.minKey ∨ b.maxKey < a.minKey :=
    (arranged.disjoint level below).imp Or.inl
  have : Std.Symm fun a b : SSTableMeta => a.maxKey < b.minKey ∨ b.maxKey < a.minKey :=
    ⟨fun _ _ => Or.symm⟩
  exact pairs.forall first second different

/-- A target table that does not overlap the inputs' range lies on one side of every removed
entry: a removed target table reaches into the range, so it cannot enclose one that does not. -/
theorem kept_outside (plan : Planned m task low high) (arranged : Arranged m tables)
    (t : SSTableMeta) (stays : t ∈ kept m (removals task) task.targetLevel) :
    (∀ x ∈ goneEntries m tables (removals task), t.maxKey < x.compositeKey.bytes) ∨
      ∀ x ∈ goneEntries m tables (removals task), x.compositeKey.bytes < t.minKey := by
  have listed := (mem_kept.mp stays).1
  have valid := (listed_bounds arranged listed).1
  have not_target : t ∉ task.targetSSTables := by
    intro member
    exact (mem_kept.mp stays).2 (List.mem_append_right _ (List.mem_map_of_mem member))
  have target_below : task.targetLevel ≠ .L0 := by
    intro top
    have adjacent := plan.adjacent
    rw [top] at adjacent
    revert adjacent
    cases task.sourceLevel <;> simp [Level.next]
  have beside : t.maxKey < low ∨ high < t.minKey := by
    by_contra overlaps
    apply not_target
    rw [plan.targets]
    refine List.mem_filter.mpr ⟨listed, ?_⟩
    simpa [SSTableMeta.overlapsRange] using overlaps
  have input_bounds : ∀ u ∈ task.inputSSTables, ∀ x ∈ tableEntries tables task.sourceLevel u,
      low ≤ x.compositeKey.bytes ∧ x.compositeKey.bytes ≤ high := by
    intro u member x inside
    have bounds := (listed_bounds arranged (plan.inputs u member)).2 x inside
    exact ⟨(plan.within u member).1.trans bounds.1, bounds.2.trans (plan.within u member).2⟩
  have target_apart : ∀ u ∈ task.targetSSTables, t.maxKey < u.minKey ∨ u.maxKey < t.minKey := by
    intro u member
    refine level_apart arranged target_below listed (targets_mem plan member).1 ?_
    rintro rfl
    exact not_target member
  rcases beside with left | right
  · left
    intro x removed
    rcases (mem_goneEntries_iff plan arranged).mp removed with ⟨u, member, inside⟩ | ⟨u, member, inside⟩
    · exact left.trans_le (input_bounds u member x inside).1
    · obtain ⟨there, overlaps⟩ := targets_mem plan member
      rw [not_or, not_lt, not_lt] at overlaps
      rcases target_apart u member with before | after
      · exact before.trans_le ((listed_bounds arranged there).2 x inside).1
      · exact absurd ((after.trans_le valid).trans left) (not_lt.mpr overlaps.1)
  · right
    intro x removed
    rcases (mem_goneEntries_iff plan arranged).mp removed with ⟨u, member, inside⟩ | ⟨u, member, inside⟩
    · exact (input_bounds u member x inside).2.trans_lt right
    · obtain ⟨there, overlaps⟩ := targets_mem plan member
      rw [not_or, not_lt, not_lt] at overlaps
      rcases target_apart u member with before | after
      · exact absurd ((right.trans_le valid).trans before) (not_lt.mpr overlaps.2)
      · exact ((listed_bounds arranged there).2 x inside).2.trans_lt after

theorem source_apart (plan : Planned m task low high) (arranged : Arranged m tables)
    (t : SSTableMeta) (stays : t ∈ kept m (removals task) task.sourceLevel) (a : MergeEntry)
    (held : a ∈ tableEntries tables task.sourceLevel t) (g : SSTableMeta)
    (goes : g ∈ gone m (removals task) task.sourceLevel) (b : MergeEntry)
    (held' : b ∈ tableEntries tables task.sourceLevel g) : a.compositeKey ≠ b.compositeKey := by
  obtain ⟨listed, remains⟩ := mem_kept.mp stays
  by_cases top : task.sourceLevel = .L0
  · -- all of L0 is compacted
    exfalso
    apply remains
    refine List.mem_append_left _ (List.mem_map_of_mem ?_)
    rw [plan.whole top, ← top]
    exact listed
  · obtain ⟨listed', removed⟩ := mem_gone.mp goes
    have different : t ≠ g := by
      rintro rfl
      exact remains removed
    have first := (listed_bounds arranged listed).2 a held
    have second := (listed_bounds arranged listed').2 b held'
    intro same
    rw [same] at first
    rcases level_apart arranged top listed listed' different with before | after
    · exact absurd (first.2.trans_lt before) (not_lt.mpr second.1)
    · exact absurd (second.2.trans_lt after) (not_lt.mpr first.1)

theorem level_sorted (arranged : Arranged m tables) {level : Level} (below : level ≠ .L0) :
    (m.levels level).Pairwise fun a b => a.minKey ≤ b.minKey := by
  refine (arranged.disjoint level below).imp_of_mem ?_
  intro a b first _ order
  exact ((listed_bounds arranged first).1.trans_lt order).le

/-- The level lists after the manifest update of a compaction. -/
theorem updated_levels {len : Manifest → Nat} {nowMs : Nat} {s s' : ManifestState}
    {added : List SSTableMeta} (arranged : Arranged s.manager.current tables)
    (free : s.bucket.get (s.manager.current.manifestId + 1) = none)
    (h : s.update len (compactionUpdate s.manager (added.map fun t => (task.targetLevel, t))
      (removals task)) nowMs = (.ok (), s')) :
    (∀ level, (s'.manager.current.sstablesAtLevel level).Perm
      (kept s.manager.current (removals task) level ++ if level = task.targetLevel then added
        else [])) ∧
      ∀ level, level ≠ .L0 → (s'.manager.current.sstablesAtLevel level).Pairwise fun a b =>
        a.minKey ≤ b.minKey := by
  obtain ⟨next, written, applied, same, rfl⟩ := ManifestState.update_ok free h
  have levels : written.levels = next.levels := by rcases same with rfl | rfl <;> rfl
  have additions : ∀ level, ManifestUpdate.addedAt (added.map fun t => (task.targetLevel, t)) level =
      if level = task.targetLevel then added else [] := by
    intro level
    unfold ManifestUpdate.addedAt
    split
    · rename_i here
      subst here
      rw [List.filter_eq_self.mpr (by simp)]
      simp [Function.comp_def]
    · rename_i other
      rw [List.filter_eq_nil_iff.mpr]
      · rfl
      · intro pair member
        obtain ⟨t, -, rfl⟩ := List.mem_map.mp member
        simpa using fun eq => other eq.symm
  refine ⟨?_, ?_⟩
  · intro level
    have perm := (ManifestUpdate.apply_levels applied (ids_nodup arranged) level).1
    rw [show (compactionUpdate s.manager (added.map fun t => (task.targetLevel, t))
      (removals task)).addSSTables =
      added.map fun t => (task.targetLevel, t) from rfl, additions level] at perm
    rw [Manifest.sstablesAtLevel]
    show (written.levels level).Perm _
    rw [levels]
    refine perm.trans (List.Perm.of_eq ?_)
    congr 1
  · intro level below
    have sorted := (ManifestUpdate.apply_levels applied (ids_nodup arranged) level).2 below
      (level_sorted arranged below)
    simpa [Manifest.sstablesAtLevel, levels] using sorted

theorem read_level (plan : Planned m task low high) (arranged : Arranged m tables) :
    (∀ t ∈ task.inputSSTables, task.inputSSTables.any (fun m => m.id = t.id) = true) ∧
      ∀ t ∈ task.targetSSTables, task.inputSSTables.any (fun m => m.id = t.id) = false := by
  refine ⟨?_, ?_⟩
  · intro t member
    exact List.any_eq_true.mpr ⟨t, member, decide_eq_true rfl⟩
  · intro t member
    rw [List.any_eq_false]
    intro u input same
    have placed := place_unique arranged (plan.inputs u input) (targets_mem plan member).1
      (of_decide_eq_true same)
    exact levels_differ plan placed.1

/-- What a merge reads is what the task removes. -/
theorem readTables_gone (plan : Planned m task low high) (arranged : Arranged m tables)
    {contents : List (List MergeEntry)}
    (h : readTables tables task (task.inputSSTables ++ task.targetSSTables) = .ok contents) :
    (∀ entries ∈ contents, entries.Pairwise MergeEntry.Precedes) ∧
      ∀ e, e ∈ contents.flatten ↔ e ∈ goneEntries m tables (removals task) := by
  obtain ⟨inputs, targets⟩ := read_level plan arranged
  have read : contents = task.inputSSTables.map (tableEntries tables task.sourceLevel) ++
      task.targetSSTables.map (tableEntries tables task.targetLevel) := by
    rw [readTables_ok h, List.map_append]
    congr 1
    · refine List.map_congr_left ?_
      intro t member
      rw [inputs t member, if_pos rfl]
    · refine List.map_congr_left ?_
      intro t member
      rw [targets t member, if_neg Bool.false_ne_true]
  have sorted : ∀ level, ∀ t ∈ m.sstablesAtLevel level,
      (tableEntries tables level t).Pairwise MergeEntry.Precedes := by
    intro level t listed
    obtain ⟨entries, found, good⟩ := arranged.stored level t listed
    simpa [tableEntries, Tables.entries, found] using good.sorted
  refine ⟨?_, ?_⟩
  · intro entries member
    rw [read] at member
    rcases List.mem_append.mp member with input | target
    · obtain ⟨t, listed, rfl⟩ := List.mem_map.mp input
      exact sorted _ t (plan.inputs t listed)
    · obtain ⟨t, listed, rfl⟩ := List.mem_map.mp target
      exact sorted _ t (targets_mem plan listed).1
  · intro e
    rw [mem_goneEntries_iff plan arranged, read, List.flatten_append, List.mem_append,
      ← List.flatMap_def, ← List.flatMap_def,
      List.mem_flatMap, List.mem_flatMap]

theorem goneEntries_subset (e : MergeEntry) (h : e ∈ goneEntries m tables (removals task)) :
    e ∈ allEntries m tables :=
  (Levels.allEntries_perm m tables (removals task)).mem_iff.mpr (List.mem_append_right _ h)

theorem noRangeDelete_all (ok : Ok m tables) {e : MergeEntry} (h : e ∈ allEntries m tables) :
    e.entryType ≠ .rangeDelete := by
  obtain ⟨level, held⟩ := mem_allEntries.mp h
  obtain ⟨t, listed, inside⟩ := mem_levelEntries.mp held
  obtain ⟨entries, found, good⟩ := ok.stored level t listed
  refine good.noRangeDelete e ?_
  simpa [tableEntries, Tables.entries, found] using inside

/-- Of the removed versions of a key a merge keeps one that none beats, unless it drops a
tombstone. -/
theorem merge_succeeds (bottom : Bool) {contents : List (List MergeEntry)}
    {merged : List MergeEntry}
    (same : ∀ e, e ∈ contents.flatten ↔ e ∈ goneEntries m tables (removals task))
    (deduped : MergeIterator.Deduped contents.flatten merged) {x : MergeEntry}
    (removed : x ∈ goneEntries m tables (removals task)) :
    ∃ y ∈ goneEntries m tables (removals task), y.compositeKey = x.compositeKey ∧
      x.sequenceNumber ≤ y.sequenceNumber ∧
      (y ∈ merged.filter (fun e => !(bottom && e.isTombstone)) ∨ y.isTombstone = true) := by
  obtain ⟨y, listed, key⟩ := deduped.complete x ((same x).mpr removed)
  obtain ⟨held, newest⟩ := deduped.newest y listed
  refine ⟨y, (same y).mp held, key, newest x ((same x).mpr removed) key.symm, ?_⟩
  cases tombstone : y.isTombstone with
  | true => exact Or.inr rfl
  | false => exact Or.inl (List.mem_filter.mpr ⟨listed, by simp [tombstone]⟩)

/-- The removed version that no other removed version of its key beats is merged, or it is a
tombstone that a merge into the bottom drops with its key. -/
theorem merge_newest (bottom : Bool) (ok : Ok m tables) {contents : List (List MergeEntry)}
    {merged : List MergeEntry}
    (same : ∀ e, e ∈ contents.flatten ↔ e ∈ goneEntries m tables (removals task))
    (deduped : MergeIterator.Deduped contents.flatten merged) {x : MergeEntry}
    (removed : x ∈ goneEntries m tables (removals task))
    (best : ∀ y ∈ goneEntries m tables (removals task), y.compositeKey = x.compositeKey →
      y.sequenceNumber ≤ x.sequenceNumber) :
    x ∈ merged.filter (fun e => !(bottom && e.isTombstone)) ∨
      (x.isTombstone = true ∧ bottom = true ∧
      ∀ y ∈ merged.filter (fun e => !(bottom && e.isTombstone)),
        y.compositeKey ≠ x.compositeKey) := by
  have survives : x ∈ merged := by
    obtain ⟨y, listed, key⟩ := deduped.complete x ((same x).mpr removed)
    obtain ⟨held, newest⟩ := deduped.newest y listed
    have y_gone := (same y).mp held
    have upper := newest x ((same x).mpr removed) key.symm
    have lower := best y y_gone key
    have equal := eq_of_same_version ok.sequences (goneEntries_subset y y_gone)
      (goneEntries_subset x removed) key
      (by omega)
    exact equal ▸ listed
  by_cases dropped : (bottom && x.isTombstone) = true
  · rw [Bool.and_eq_true] at dropped
    refine Or.inr ⟨dropped.2, dropped.1, ?_⟩
    intro y member key
    obtain ⟨listed, stays⟩ := List.mem_filter.mp member
    -- a merge has one entry for each key
    have unique : y = x := by
      by_contra different
      have apart : merged.Pairwise fun a b => a.compositeKey ≠ b.compositeKey :=
        deduped.ascends.imp ne_of_lt
      have : Std.Symm fun a b : MergeEntry => a.compositeKey ≠ b.compositeKey :=
        ⟨fun _ _ => Ne.symm⟩
      exact apart.forall listed survives different key
    subst y
    simp [dropped.1, dropped.2] at stays
  · exact Or.inl (List.mem_filter.mpr ⟨survives, by simp [dropped]⟩)

theorem removals_levels (entry : Level × SstId) (h : entry ∈ removals task) :
    entry.1 = task.sourceLevel ∨ entry.1 = task.targetLevel := by
  rcases List.mem_append.mp h with input | target
  · obtain ⟨t, -, rfl⟩ := List.mem_map.mp input
    exact Or.inl rfl
  · obtain ⟨t, -, rfl⟩ := List.mem_map.mp target
    exact Or.inr rfl

end Plan

section Execute
variable {config : CompactionConfig} {fileSize : List MergeEntry → Nat}
  {serializedLen : Manifest → Nat} {drawn : Drawn}
  {task : CompactionTask} {low high : Bytes} {s s' : CompactionState} {r : CompactionResult}

theorem merged_exchange (plan : Planned s.manifest.manager.current task low high)
    (arranged : Arranged s.manifest.manager.current s.tables)
    (fresh : FreshNames drawn s.manifest.manager.current)
    (free : s.manifest.bucket.get (s.manifest.manager.current.manifestId + 1) = none)
    {contents : List (List MergeEntry)}
    (read : readTables s.tables task (task.inputSSTables ++ task.targetSSTables) = .ok contents)
    {merged : List MergeEntry} (deduped : MergeIterator.Deduped contents.flatten merged)
    {outs : List (SSTableMeta × List MergeEntry)}
    (cut : outputs fileSize drawn config.targetFragmentSize
      (merged.filter fun e => !(task.targetLevel.isBottom && e.isTombstone)) = outs)
    {manifest : ManifestState}
    (updated : s.manifest.update serializedLen (compactionUpdate s.manifest.manager
      (outs.map fun out => (task.targetLevel, out.1)) (removals task)) drawn.nowMs =
        (.ok (), manifest)) :
    Exchange s.manifest.manager.current manifest.manager.current s.tables
      (writeTables task.targetLevel outs s.tables)
      task.sourceLevel task.targetLevel (removals task) outs := by
  obtain ⟨-, same⟩ := readTables_gone plan arranged read
  have contents_eq := cut ▸ outputs_flatten fileSize drawn config.targetFragmentSize
    (merged.filter fun e => !(task.targetLevel.isBottom && e.isTombstone))
  obtain ⟨described, distinct⟩ := cut ▸ outputs_spec fileSize drawn config.targetFragmentSize
    (merged.filter fun e => !(task.targetLevel.isBottom && e.isTombstone))
  have additions : outs.map (fun out => (task.targetLevel, out.1)) =
      (outs.map Prod.fst).map fun t => (task.targetLevel, t) := by simp
  rw [additions] at updated
  obtain ⟨levels, order⟩ := updated_levels arranged free updated
  have ascends : (outs.flatMap Prod.snd).Pairwise fun a b => a.compositeKey < b.compositeKey := by
    rw [contents_eq]
    exact deduped.ascends.sublist List.filter_sublist
  have inside : ∀ e ∈ outs.flatMap Prod.snd, e ∈
      goneEntries s.manifest.manager.current s.tables (removals task) := by
    intro e member
    rw [contents_eq] at member
    exact (same e).mp (deduped.newest e (List.mem_filter.mp member).1).1
  obtain ⟨sound, between⟩ := outputs_sorted (fun out member => (described out member).1) ascends
  have unlike : ∀ out ∈ outs, ∀ level, ∀ t ∈ kept s.manifest.manager.current (removals task) level,
      t.id ≠ out.1.id := by
    intro out member level t stays
    obtain ⟨single, fragment⟩ := fresh level t (mem_kept.mp stays).1
    rcases (described out member).2 with name | ⟨i, name⟩
    · rw [name]
      exact single
    · rw [name]
      exact fragment i
  obtain ⟨stored, others⟩ : _ ∧ ∀ path, (∀ out ∈ outs, path ≠ out.1.sstPath task.targetLevel) → _ :=
    writeTables_get s.tables distinct
  refine ⟨plan.adjacent, removals_levels, levels, order, ?_,
    fun out member => ⟨stored out member, sound out member⟩,
    distinct, unlike, between, inside, kept_outside plan arranged, ?_⟩
  · intro level t stays
    refine others _ ?_
    intro out member path
    rw [SSTableMeta.sstPath_eq, SSTableMeta.sstPath_eq] at path
    exact unlike out member level t stays (SstPath.mk.inj path).2
  · intro x removed
    rw [contents_eq]
    exact merge_succeeds task.targetLevel.isBottom same deduped removed

theorem mergeInputs_replacement (plan : Planned s.manifest.manager.current task low high)
    (ok : Ok s.manifest.manager.current s.tables)
    (fresh : FreshNames drawn s.manifest.manager.current)
    (free : s.manifest.bucket.get (s.manifest.manager.current.manifestId + 1) = none)
    (h : mergeInputs config fileSize serializedLen drawn task s = (.ok r, s')) :
    ∃ outs, Replacement s.manifest.manager.current s'.manifest.manager.current s.tables s'.tables
      task.sourceLevel task.targetLevel (removals task) outs := by
  cases mergeInputs_outcome h with
  | @committed contents outs _ manifest read cut _ _ _ updated =>
  obtain ⟨sorted, same⟩ := readTables_gone plan ok.arranged read
  obtain ⟨merged, deduped, merge_eq⟩ := merge_spec sorted task.targetLevel.isBottom
  rw [merge_eq] at cut
  have contents_eq := cut ▸ outputs_flatten fileSize drawn config.targetFragmentSize
    (merged.filter fun e => !(task.targetLevel.isBottom && e.isTombstone))
  have exchange := merged_exchange plan ok.arranged fresh free read deduped cut updated
  refine ⟨outs, exchange, ?_, ?_, source_apart plan ok.arranged, ?_⟩
  · intro e member
    exact noRangeDelete_all ok (goneEntries_subset e (exchange.subset e member))
  · refine List.subperm_of_subset ?_ exchange.subset
    rw [contents_eq]
    refine (deduped.ascends.sublist List.filter_sublist).imp ?_
    rintro a b order rfl
    exact lt_irrefl _ order
  · intro x removed best
    rw [contents_eq]
    rcases merge_newest task.targetLevel.isBottom ok same deduped removed best with
      survives | ⟨tombstone, bottom, dropped⟩
    · exact Or.inl survives
    · exact Or.inr ⟨tombstone, by simpa [Level.isBottom] using bottom, dropped⟩

section Moved
variable {input : SSTableMeta} {entries : List MergeEntry}

theorem moved_removals (inputs : task.inputSSTables = [input]) (alone : task.targetSSTables = []) :
    removals task = [(task.sourceLevel, input.id)] := by simp [removals, inputs, alone]

theorem mem_moved (plan : Planned s.manifest.manager.current task low high)
    (arranged : Arranged s.manifest.manager.current s.tables)
    (inputs : task.inputSSTables = [input]) (alone : task.targetSSTables = [])
    (found : s.tables.get (input.sstPath task.sourceLevel) = some entries) (x : MergeEntry) :
    x ∈ goneEntries s.manifest.manager.current s.tables (removals task) ↔ x ∈ entries := by
  have contents : tableEntries s.tables task.sourceLevel input = entries := by
    simp [tableEntries, Tables.entries, found]
  rw [mem_goneEntries_iff plan arranged]
  simp [inputs, alone, contents]

/-- A table that goes one level down as it is. -/
theorem moved_exchange (plan : Planned s.manifest.manager.current task low high)
    (arranged : Arranged s.manifest.manager.current s.tables)
    (inputs : task.inputSSTables = [input]) (alone : task.targetSSTables = [])
    (found : s.tables.get (input.sstPath task.sourceLevel) = some entries)
    (good : TableSorted input entries)
    (free : s.manifest.bucket.get (s.manifest.manager.current.manifestId + 1) = none)
    {manifest : ManifestState}
    (updated : s.manifest.update serializedLen (compactionUpdate s.manifest.manager
      [(task.targetLevel, { input with createdAtMs := drawn.nowMs })] (removals task)) drawn.nowMs =
        (.ok (), manifest))
    {tables : Tables}
    (others : ∀ path : SstPath, path.file ≠ input.id → tables.get path = s.tables.get path)
    (copied : tables.get (input.sstPath task.targetLevel) = some entries) :
    Exchange s.manifest.manager.current manifest.manager.current s.tables tables
      task.sourceLevel task.targetLevel (removals task)
        [({ input with createdAtMs := drawn.nowMs }, entries)] := by
  have listed := plan.inputs input (by simp [inputs])
  have stays_unlike : ∀ level, ∀ t ∈ kept s.manifest.manager.current (removals task) level,
      t.id ≠ input.id := by
    intro level t stays same
    obtain ⟨here, remains⟩ := mem_kept.mp stays
    obtain ⟨rfl, rfl⟩ := place_unique arranged here listed same
    exact remains (by simp [moved_removals inputs alone])
  obtain ⟨levels, order⟩ :=
    @updated_levels _ task _ _ _ _ [{ input with createdAtMs := drawn.nowMs }] arranged free updated
  refine ⟨plan.adjacent, removals_levels, levels, order, ?_,
    ?_, by simp, ?_, by simp, ?_, kept_outside plan arranged, ?_⟩
  · intro level t stays
    refine others _ ?_
    rw [SSTableMeta.sstPath_eq]
    exact stays_unlike level t stays
  · intro out member
    obtain rfl := List.mem_singleton.mp member
    exact ⟨copied, good.sorted, good.first, good.last⟩
  · intro out member level t stays
    obtain rfl := List.mem_singleton.mp member
    exact stays_unlike level t stays
  · intro e member
    exact (mem_moved plan arranged inputs alone found e).mpr (by simpa using member)
  · intro x removed
    exact ⟨x, removed, rfl, le_refl _,
      Or.inl (by simpa using (mem_moved plan arranged inputs alone found x).mp removed)⟩

end Moved

/-- A trivial move takes one table, which no table of the target level overlaps. -/
theorem moveTrivially_replacement (plan : Planned s.manifest.manager.current task low high)
    (ok : Ok s.manifest.manager.current s.tables) (downward : task.taskType = .levelToLevel)
    (alone : task.targetSSTables = [])
    (free : s.manifest.bucket.get (s.manifest.manager.current.manifestId + 1) = none)
    (h : moveTrivially serializedLen drawn task s = (.ok r, s')) :
    ∃ outs, Replacement s.manifest.manager.current s'.manifest.manager.current s.tables s'.tables
      task.sourceLevel task.targetLevel (removals task) outs := by
  obtain ⟨input, inputs⟩ := plan.single downward
  have listed := plan.inputs input (by simp [inputs])
  obtain ⟨entries, found, good⟩ := ok.stored _ input listed
  have removes := moved_removals inputs alone
  have gone_iff := mem_moved plan ok.arranged inputs alone found
  cases moveTrivially_outcome h with
  | @committed _ manifest _ copies updated finished =>
  simp only [inputs, copyTables, found, Prod.mk.injEq, true_and] at copies
  subst copies
  rw [(finished r rfl).1]
  simp only [inputs, List.map_cons, List.map_nil, List.foldl_cons, List.foldl_nil] at updated ⊢
  rw [← removes] at updated
  have exchange : Exchange s.manifest.manager.current manifest.manager.current s.tables
      (ObjectStore.delete (s.tables.put (input.sstPath task.targetLevel) entries)
        (input.sstPath task.sourceLevel))
      task.sourceLevel task.targetLevel (removals task)
        [({ input with createdAtMs := drawn.nowMs }, entries)] := by
    refine moved_exchange plan ok.arranged inputs alone found good.tableSorted free updated ?_ ?_
    · intro path other
      have unlike : ∀ level, path ≠ input.sstPath level := by
        rintro level rfl
        rw [SSTableMeta.sstPath_eq] at other
        exact other rfl
      exact (ObjectStore.get_delete_ne _ (unlike _)).trans (ObjectStore.get_put_ne _ _ (unlike _))
    · have unlike : input.sstPath task.targetLevel ≠ input.sstPath task.sourceLevel := by
        intro path
        rw [SSTableMeta.sstPath_eq, SSTableMeta.sstPath_eq] at path
        exact levels_differ plan (SstPath.mk.inj path).1.symm
      exact (ObjectStore.get_delete_ne _ unlike).trans (ObjectStore.get_put_self _ _ _)
  refine ⟨_, exchange, ?_, ?_, source_apart plan ok.arranged, ?_⟩
  · intro e member
    exact noRangeDelete_all ok (goneEntries_subset e (exchange.subset e member))
  · -- the table is one of the removed tables of its level
    have contents : tableEntries s.tables task.sourceLevel input = entries := by
      simp [tableEntries, Tables.entries, found]
    have removed : input ∈ gone s.manifest.manager.current (removals task) task.sourceLevel :=
      mem_gone.mpr ⟨listed, by simp [removes]⟩
    have there : entries.Sublist ((gone s.manifest.manager.current (removals task) task.sourceLevel).flatMap
        (tableEntries s.tables task.sourceLevel)) := by
      rw [← contents, List.flatMap_def]
      exact List.sublist_flatten_of_mem (List.mem_map_of_mem removed)
    have all : ((gone s.manifest.manager.current (removals task) task.sourceLevel).flatMap
        (tableEntries s.tables task.sourceLevel)).Sublist
          (goneEntries s.manifest.manager.current s.tables (removals task)) := by
      unfold goneEntries
      rw [List.flatMap_def]
      exact List.sublist_flatten_of_mem (List.mem_map.mpr ⟨task.sourceLevel, task.sourceLevel.mem_all, rfl⟩)
    simpa using (there.trans all).subperm
  · intro x removed _
    exact Or.inl (by simpa using (gone_iff x).mp removed)

/-- A compaction that `check_triggers` asks for keeps the level invariants, and readers see the
same before and after. -/
theorem execute_preserves (ok : Ok s.manifest.manager.current s.tables)
    (asked : task ∈ CompactionScheduler.checkTriggers config s.manifest.manager.current)
    (fresh : FreshNames drawn s.manifest.manager.current)
    (free : s.manifest.bucket.get (s.manifest.manager.current.manifestId + 1) = none)
    (h : execute config fileSize serializedLen drawn task s = (.ok r, s')) :
    Ok s'.manifest.manager.current s'.tables ∧
      ∀ key, visible s'.manifest.manager.current s'.tables key =
        visible s.manifest.manager.current s.tables key := by
  obtain ⟨low, high, plan⟩ := checkTriggers_planned asked
  have replaced : ∃ outs, Replacement s.manifest.manager.current s'.manifest.manager.current
      s.tables s'.tables
      task.sourceLevel task.targetLevel (removals task) outs := by
    unfold execute at h
    split at h
    · rename_i trivial_move
      obtain ⟨downward, alone, -⟩ := trivial_move
      exact moveTrivially_replacement plan ok downward (List.isEmpty_iff.mp alone) free h
    · exact mergeInputs_replacement plan ok fresh free h
  obtain ⟨outs, replacement⟩ := replaced
  exact ⟨replacement.levels_ok ok, replacement.visible_eq ok⟩

end Execute


section Example

def sampleVersion (item : UInt8) (sequenceNumber : Nat) (entryType : EntryType) : MergeEntry where
  compositeKey := CompositeKey.encode ⟨[114]⟩ [item]
  value := ⟨[118]⟩
  metadata := ⟨[]⟩
  entryType := entryType
  sequenceNumber := sequenceNumber
  origin := 0

def sampleTable (name : String) (first : MergeEntry) (entries : List MergeEntry) : SSTableMeta :=
  SSTableMeta.ofEntries (fun _ => 100) (.single name) 0 first entries

/-- The key `1` is deleted and the key `2` overwritten in L0; L1 has older versions of both. -/
def sampleManifest : Manifest :=
  { Manifest.newEmpty "ns" 0 with
    levels := fun
      | .L0 =>
        [sampleTable "a" (sampleVersion 1 4 .delete) [], sampleTable "b" (sampleVersion 2 5 .put) []]
      | .L1 =>
        [sampleTable "c" (sampleVersion 1 1 .put) [sampleVersion 2 2 .put],
          sampleTable "d" (sampleVersion 3 3 .put) []]
      | _ => [] }

def sampleTables : Tables where
  objects := [(⟨.L0, .single "a"⟩, [sampleVersion 1 4 .delete]),
    (⟨.L0, .single "b"⟩, [sampleVersion 2 5 .put]),
    (⟨.L1, .single "c"⟩, [sampleVersion 1 1 .put, sampleVersion 2 2 .put]),
      (⟨.L1, .single "d"⟩, [sampleVersion 3 3 .put])]
  unique := by decide

def sampleConfig : CompactionConfig := { l0CompactionTrigger := 1 }

def sampleState : CompactionState where
  manifest := { manager := { current := sampleManifest, config := {} } }
  tables := sampleTables

theorem sample_ok : Ok sampleManifest sampleTables := by
  refine ⟨by decide, ?_, ?_, ?_, by decide⟩
  · intro level t listed
    cases level
    · rcases List.mem_pair.mp listed with rfl | rfl
      all_goals exact ⟨_, rfl, by decide, rfl, rfl, by decide⟩
    · rcases List.mem_pair.mp listed with rfl | rfl
      all_goals exact ⟨_, rfl, by decide, rfl, rfl, by decide⟩
    all_goals cases listed
  · intro level below
    cases level
    all_goals decide
  · intro lower higher
    cases lower
    all_goals cases higher
    all_goals decide

theorem execute_preserves_sample :
    ∃ task r s', CompactionScheduler.checkTriggers sampleConfig sampleManifest = [task] ∧
      execute sampleConfig (fun _ => 100) (fun _ => 0) ⟨1, "run", "out", none⟩ task sampleState =
        (.ok r, s') ∧
      r.outputSSTables.length = 1 ∧ Ok s'.manifest.manager.current s'.tables ∧
      ∀ key, visible s'.manifest.manager.current s'.tables key =
        visible sampleManifest sampleTables key := by
  have fresh : FreshNames ⟨1, "run", "out", none⟩ sampleManifest := by
    intro level t listed
    cases level
    · rcases List.mem_pair.mp listed with rfl | rfl
      all_goals exact ⟨by decide, fun i => by simp [sampleTable, SSTableMeta.ofEntries]⟩
    · rcases List.mem_pair.mp listed with rfl | rfl
      all_goals exact ⟨by decide, fun i => by simp [sampleTable, SSTableMeta.ofEntries]⟩
    all_goals cases listed
  refine ⟨_, _, _, rfl, rfl, rfl, ?_⟩
  exact @execute_preserves sampleConfig (fun _ => 100) (fun _ => 0)
    ⟨1, "run", "out", none⟩ _ sampleState _ _ sample_ok
    (List.mem_singleton_self _) fresh rfl rfl

end Example

end FlushDB.CompactionExecutor
