import FlushDB.Compaction.Leftovers

/-!
The levels under whatever a compaction does: its exchange is committed, or the lists stay as they
were. The tasks of one check are planned on one manifest; a later one finds its target level as it
was planned, and where its input is gone the manifest refuses it.
-/

namespace FlushDB
open Lib ManifestBucket

/-- Where the listed tables are: each has its object, and below L0 they follow one another. -/
structure Lists.Arranged (lists : Lists) (tables : Tables) : Prop where
  distinct : lists.ids.Nodup
  stored : ∀ level, ∀ t ∈ lists level, ∃ entries, tables.get (t.sstPath level) = some entries ∧
    TableSorted t entries
  disjoint : ∀ level, level ≠ .L0 → (lists level).Pairwise fun a b => a.maxKey < b.minKey

theorem Levels.arranged_iff {m : Manifest} {tables : Tables} :
    Levels.Arranged m tables ↔ Lists.Arranged m.sstablesAtLevel tables := by
  constructor
  · rintro ⟨distinct, stored, disjoint⟩
    rw [Levels.ids_eq] at distinct
    exact ⟨distinct, stored, disjoint⟩
  · rintro ⟨distinct, stored, disjoint⟩
    refine ⟨?_, stored, disjoint⟩
    rw [Levels.ids_eq]
    exact distinct

theorem Lists.arranged_empty (tables : Tables) : Lists.Arranged (fun _ => []) tables :=
  ⟨List.nodup_nil, by rintro level t ⟨⟩, fun _ _ => .nil⟩

namespace Levels
variable {m : Manifest} {tables tables' : Tables}

theorem Arranged.extends (h : Arranged m tables) (extend : ObjectStore.Extends tables tables') :
    Arranged m tables' := by
  refine ⟨h.distinct, ?_, h.disjoint⟩
  intro level t listed
  obtain ⟨entries, found, good⟩ := h.stored level t listed
  exact ⟨entries, extend _ _ found, good⟩

theorem Arranged.allEntries_extends (h : Arranged m tables)
    (extend : ObjectStore.Extends tables tables') (level : Level) :
    levelEntries m tables' level = levelEntries m tables level := by
  refine List.flatMap_congr ?_
  intro t listed
  obtain ⟨entries, found, -⟩ := h.stored level t listed
  rw [tableEntries, tableEntries, Tables.entries, Tables.entries, extend _ _ found, found]

/-- Objects that are not listed change no invariant of the levels, and nothing that readers see. -/
theorem Ok.extends (h : Ok m tables) (extend : ObjectStore.Extends tables tables') :
    Ok m tables' ∧ ∀ key, visible m tables' key = visible m tables key := by
  have same := h.arranged.allEntries_extends extend
  have all : allEntries m tables' = allEntries m tables :=
    List.flatMap_congr fun level _ => same level
  refine ⟨⟨h.distinct, ?_, h.disjoint, ?_, ?_⟩, ?_⟩
  · intro level t listed
    obtain ⟨entries, found, good⟩ := h.stored level t listed
    exact ⟨entries, extend _ _ found, good⟩
  · intro lower higher order
    rw [same, same]
    exact h.newer lower higher order
  · rw [all]
    exact h.sequences
  · intro key
    rw [visible, visible, all]

end Levels

namespace CompactionExecutor
open Levels

/-- A task that was planned on an earlier manifest, of which only compactions into levels above its
target have come since. Its inputs may be gone; no other table has taken their names. -/
structure Foreseen (known : SstId → Prop) (m : Manifest) (task : CompactionTask)
    (low high : Bytes) : Prop where
  adjacent : task.sourceLevel.next = some task.targetLevel
  nonempty : task.inputSSTables ≠ []
  only : ∀ t ∈ task.inputSSTables, ∀ u ∈ m.sstablesAtLevel task.sourceLevel, u.id = t.id → u = t
  known : ∀ t ∈ task.inputSSTables, known t.id
  within : ∀ t ∈ task.inputSSTables, low ≤ t.minKey ∧ t.maxKey ≤ high
  targets : task.targetSSTables = m.findOverlapping task.targetLevel low high
  whole : task.sourceLevel = .L0 → task.inputSSTables = m.sstablesAtLevel .L0
  single : task.taskType = .levelToLevel → ∃ input, task.inputSSTables = [input]

theorem Planned.foreseen {known : SstId → Prop} {m : Manifest} {tables : Tables}
    {task : CompactionTask} {low high : Bytes} (plan : Planned m task low high)
    (nonempty : task.inputSSTables ≠ []) (arranged : Arranged m tables)
    (names : ∀ level, ∀ t ∈ m.sstablesAtLevel level, known t.id) :
    Foreseen known m task low high := by
  refine ⟨plan.adjacent, nonempty, ?_, fun t member => names _ t (plan.inputs t member),
    plan.within, plan.targets, plan.whole, plan.single⟩
  intro t member u listed same
  exact (place_unique arranged listed (plan.inputs t member) same).2

/-- Where the manifest has all that the task removes, the plan is one for this manifest. -/
theorem Foreseen.planned {known : SstId → Prop} {m : Manifest} {task : CompactionTask}
    {low high : Bytes} (h : Foreseen known m task low high)
    (found : ∀ t ∈ task.inputSSTables, ∃ u ∈ m.sstablesAtLevel task.sourceLevel, u.id = t.id) :
    Planned m task low high := by
  refine ⟨h.adjacent, ?_, h.within, h.targets, h.whole, h.single⟩
  intro t member
  obtain ⟨u, listed, same⟩ := found t member
  exact h.only t member u listed same ▸ listed

/-- How the execution of a foreseen task ends. -/
inductive Ends (d : Drawn) (task : CompactionTask) (s s' : CompactionState) : Prop
  | uncommitted (manifest : s'.manifest = s.manifest)
      (extend : ObjectStore.Extends s.tables s'.tables) : Ends d task s s'
  | committed {low high : Bytes} {outs : List (SSTableMeta × List MergeEntry)}
      (plan : Planned s.manifest.manager.current task low high) (nonempty : task.inputSSTables ≠ [])
      (number : s'.manifest.manager.current.manifestId = s.manifest.manager.current.manifestId + 1)
      (exchange : Exchange s.manifest.manager.current s'.manifest.manager.current s.tables s'.tables
        task.sourceLevel
        task.targetLevel (removals task) outs)
      (parts : (outs.flatMap Prod.snd).Subperm (goneEntries s.manifest.manager.current s.tables
        (removals task)))
      (others : ∀ level, level ≠ task.sourceLevel → level ≠ task.targetLevel →
        s'.manifest.manager.current.sstablesAtLevel level =
          s.manifest.manager.current.sstablesAtLevel level)
      (named : ∀ out ∈ outs, d.names out.1.id ∨ ∃ u ∈ task.inputSSTables, out.1.id = u.id)
      (replaces : Ok s.manifest.manager.current s.tables → Replacement s.manifest.manager.current
        s'.manifest.manager.current s.tables s'.tables task.sourceLevel task.targetLevel
          (removals task) outs) : Ends d task s s'

section Execute
variable {known : SstId → Prop} {config : CompactionConfig} {fileSize : List MergeEntry → Nat}
  {serializedLen : Manifest → Nat}
  {d : Drawn} {task : CompactionTask} {low high : Bytes} {s s' : CompactionState}
  {r : FlushResult CompactionResult}

theorem update_manifestId {u : ManifestUpdate} {nowMs : Nat} {m m' : ManifestState}
    (latest : m.Latest) (h : m.update serializedLen u nowMs = (.ok (), m')) :
    m'.manager.current.manifestId = m.manager.current.manifestId + 1 := by
  obtain ⟨next, written, applied, same, rfl⟩ := ManifestState.update_ok latest.free h
  have number := ManifestUpdate.apply_manifestId applied
  rcases same with rfl | rfl <;> exact number

theorem update_untouched {u : ManifestUpdate} {nowMs : Nat} {m m' : ManifestState} {level : Level}
    (latest : m.Latest) (h : m.update serializedLen u nowMs = (.ok (), m'))
    (removes : ∀ entry ∈ u.removeSSTables, entry.1 ≠ level)
    (adds : ∀ entry ∈ u.addSSTables, entry.1 ≠ level) :
    m'.manager.current.sstablesAtLevel level = m.manager.current.sstablesAtLevel level := by
  obtain ⟨next, written, applied, same, rfl⟩ := ManifestState.update_ok latest.free h
  have levels : written.levels = next.levels := by rcases same with rfl | rfl <;> rfl
  show written.levels level = _
  rw [levels]
  exact ManifestUpdate.apply_untouched applied removes adds

/-- An update that names the levels of the task only leaves the others. -/
theorem compactionUpdate_others {m m' : ManifestState} {added : List SSTableMeta} {nowMs : Nat}
    (latest : m.Latest)
    (h : m.update serializedLen (compactionUpdate m.manager
      (added.map fun t => (task.targetLevel, t)) (removals task)) nowMs = (.ok (), m'))
    (level : Level) (source : level ≠ task.sourceLevel) (target : level ≠ task.targetLevel) :
    m'.manager.current.sstablesAtLevel level = m.manager.current.sstablesAtLevel level := by
  refine update_untouched latest h ?_ ?_
  · intro entry member same
    rcases removals_levels entry member with here | there
    · exact source (same.symm.trans here)
    · exact target (same.symm.trans there)
  · intro entry member same
    obtain ⟨t, -, rfl⟩ := List.mem_map.mp member
    exact target same.symm

/-- The manifest that accepts the update has the inputs. -/
theorem Foreseen.accepted (h : Foreseen known s.manifest.manager.current task low high)
    (latest : s.manifest.Latest) (keyed : Keyed s.manifest.bucket)
    (shelf : Shelf known (tablesAt s.manifest.bucket) s.tables) {added : List (Level × SSTableMeta)}
    {m : ManifestState}
    (stored : s.manifest.update serializedLen (compactionUpdate s.manifest.manager added
      (removals task)) d.nowMs = (.ok (), m)) :
    Planned s.manifest.manager.current task low high := by
  have updated := latest.updated keyed (Lists.nodup_level shelf.distinct) stored
  refine h.planned ?_
  intro t member
  obtain ⟨u, listed, same⟩ := updated.removed (task.sourceLevel, t.id)
    (List.mem_append_left _ (List.mem_map_of_mem member))
  exact ⟨u, latest.tablesAt_eq task.sourceLevel ▸ listed, same⟩

/-- The entries of a removed table are removed entries. -/
theorem tableEntries_subperm_gone {m : Manifest} {tables : Tables} {removes : List (Level × SstId)}
    {level : Level} {t : SSTableMeta} (removed : t ∈ gone m removes level) :
    (tableEntries tables level t).Subperm (goneEntries m tables removes) := by
  have inside : (tableEntries tables level t).Sublist
      ((gone m removes level).flatMap (tableEntries tables level)) := by
    rw [List.flatMap_def]
    exact List.sublist_flatten_of_mem (List.mem_map_of_mem removed)
  refine (inside.trans ?_).subperm
  unfold goneEntries
  rw [List.flatMap_def]
  exact List.sublist_flatten_of_mem (List.mem_map.mpr ⟨level, level.mem_all, rfl⟩)

theorem fresh_names (shelf : Shelf known (tablesAt s.manifest.bucket) s.tables)
    (latest : s.manifest.Latest) (fresh : ∀ id, d.names id → ¬ known id) :
    FreshNames d s.manifest.manager.current := by
  intro level t listed
  have drawn : known t.id := by
    refine shelf.named ⟨level, t.id⟩ (shelf.present level t ?_)
    rw [latest.tablesAt_eq]
    exact listed
  refine ⟨?_, ?_⟩
  · intro same
    exact fresh t.id (Or.inl same) drawn
  · intro i same
    exact fresh t.id (Or.inr ⟨i, same⟩) drawn

theorem mergeInputs_ends (latest : s.manifest.Latest) (keyed : Keyed s.manifest.bucket)
    (shelf : Shelf known (tablesAt s.manifest.bucket) s.tables)
    (fresh : ∀ id, d.names id → ¬ known id)
    (arranged : Arranged s.manifest.manager.current s.tables)
    (foreseen : Foreseen known s.manifest.manager.current task low high)
    (h : mergeInputs config fileSize serializedLen d task s = (r, s')) : Ends d task s s' := by
  cases mergeInputs_outcome h with
  | unread => exact .uncommitted rfl (ObjectStore.Extends.refl _)
  | uncommitted read kept =>
    obtain ⟨extend, -⟩ := @writeTables_shelf known config fileSize d task s _ _ shelf fresh
      (doneBefore_sublist _ _)
    exact .uncommitted (kept.same latest) extend
  | @committed contents outs result m read cut reads writes reached stored =>
    have plan := foreseen.accepted latest keyed shelf stored
    have names := fresh_names shelf latest fresh
    obtain ⟨sorted, same⟩ := readTables_gone plan arranged read
    obtain ⟨merged, deduped, merge_eq⟩ := merge_spec sorted task.targetLevel.isBottom
    rw [merge_eq] at cut
    have contents_eq := cut ▸ outputs_flatten fileSize d config.targetFragmentSize
      (merged.filter fun e => !(task.targetLevel.isBottom && e.isTombstone))
    have described := cut ▸ (outputs_spec fileSize d config.targetFragmentSize
      (merged.filter fun e => !(task.targetLevel.isBottom && e.isTombstone))).1
    have exchange := merged_exchange plan arranged names latest.free read deduped cut stored
    have parts : (outs.flatMap Prod.snd).Subperm
        (goneEntries s.manifest.manager.current s.tables (removals task)) := by
      refine List.subperm_of_subset ?_ exchange.subset
      rw [contents_eq]
      refine (deduped.ascends.sublist List.filter_sublist).imp ?_
      rintro a b order rfl
      exact lt_irrefl _ order
    refine .committed plan foreseen.nonempty (update_manifestId latest stored) exchange parts ?_
      (fun out member => Or.inl (described out member).2) ?_
    · rw [show outs.map (fun out => (task.targetLevel, out.1)) = (outs.map Prod.fst).map fun t =>
        (task.targetLevel, t) by
        rw [List.map_map]; rfl] at stored
      exact compactionUpdate_others latest stored
    · intro ok
      refine ⟨exchange, ?_, parts, source_apart plan arranged, ?_⟩
      · intro e member
        exact noRangeDelete_all ok (goneEntries_subset e (exchange.subset e member))
      · intro x removed best
        rw [contents_eq]
        rcases merge_newest task.targetLevel.isBottom ok same deduped removed
          best with survives | ⟨tombstone, bottom, dropped⟩
        · exact Or.inl survives
        · exact Or.inr ⟨tombstone, by simpa [Level.isBottom] using bottom, dropped⟩

/-- A moved table is at its new level, whether the old file is gone or not. -/
theorem moveTrivially_ends (latest : s.manifest.Latest) (keyed : Keyed s.manifest.bucket)
    (shelf : Shelf known (tablesAt s.manifest.bucket) s.tables)
    (arranged : Arranged s.manifest.manager.current s.tables)
    (foreseen : Foreseen known s.manifest.manager.current task low high)
    (downward : task.taskType = .levelToLevel) (alone : task.targetSSTables = [])
    (h : moveTrivially serializedLen d task s = (r, s')) : Ends d task s s' := by
  obtain ⟨input, inputs⟩ := foreseen.single downward
  have removes := moved_removals inputs alone
  cases moveTrivially_outcome h with
  | uncommitted part copies kept =>
    obtain ⟨extend, -⟩ := copyTables_spec shelf.coherent copies
    exact .uncommitted (kept.same latest) extend
  | @committed _ m tables copies stored =>
    simp only [inputs, List.map_cons, List.map_nil] at stored
    rw [← removes] at stored
    have plan := foreseen.accepted latest keyed shelf stored
    have listed := plan.inputs input (by simp [inputs])
    obtain ⟨entries, found, good⟩ := arranged.stored _ input listed
    simp only [inputs, copyTables, found, Prod.mk.injEq, true_and] at copies
    subst copies
    have unlike : ∀ {path : SstPath}, path.file ≠ input.id →
        ∀ level, path ≠ input.sstPath level := by
      rintro path other level rfl
      rw [SSTableMeta.sstPath_eq] at other
      exact other rfl
    have target_unlike : input.sstPath task.targetLevel ≠ input.sstPath task.sourceLevel := by
      intro path
      rw [SSTableMeta.sstPath_eq, SSTableMeta.sstPath_eq] at path
      exact levels_differ plan (SstPath.mk.inj path).1.symm
    -- the file at the source level is deleted or not
    have deleted : ∀ path, path ≠ input.sstPath task.sourceLevel →
        ((doneBefore d.deleteStop task.inputSSTables).foldl
          (fun tables t => tables.delete (t.sstPath task.sourceLevel))
          (s.tables.put (input.sstPath task.targetLevel) entries)).get path =
            (s.tables.put (input.sstPath task.targetLevel) entries).get path := by
      intro path other
      have part := doneBefore_sublist d.deleteStop task.inputSSTables
      rw [inputs] at part
      rw [inputs]
      rcases List.sublist_singleton.mp part with none | one
      · rw [none]
        rfl
      · rw [one]
        exact ObjectStore.get_delete_ne _ other
    have exchange : Exchange s.manifest.manager.current m.manager.current s.tables
        ((doneBefore d.deleteStop task.inputSSTables).foldl
          (fun tables t => tables.delete (t.sstPath task.sourceLevel))
          (s.tables.put (input.sstPath task.targetLevel) entries))
        task.sourceLevel task.targetLevel (removals task)
          [({ input with createdAtMs := d.nowMs }, entries)] := by
      refine moved_exchange plan arranged inputs alone found good latest.free stored ?_ ?_
      · intro path other
        exact (deleted path (unlike other _)).trans (ObjectStore.get_put_ne _ _ (unlike other _))
      · exact (deleted _ target_unlike).trans (ObjectStore.get_put_self _ _ _)
    have moved_iff := mem_moved plan arranged inputs alone found
    have parts : ([({ input with createdAtMs := d.nowMs }, entries)].flatMap Prod.snd).Subperm
        (goneEntries s.manifest.manager.current s.tables (removals task)) := by
      have contents : tableEntries s.tables task.sourceLevel input = entries := by
        simp [tableEntries, Tables.entries, found]
      have removed : input ∈ gone s.manifest.manager.current (removals task) task.sourceLevel :=
        mem_gone.mpr ⟨listed, by simp [removes]⟩
      have parted : (tableEntries s.tables task.sourceLevel input).Subperm
          (goneEntries s.manifest.manager.current s.tables (removals task)) :=
            tableEntries_subperm_gone removed
      simpa [contents] using parted
    refine .committed plan foreseen.nonempty (update_manifestId latest stored) exchange parts ?_ ?_ ?_
    · exact @compactionUpdate_others serializedLen task _ _
        [{ input with createdAtMs := d.nowMs }] _ latest stored
    · intro out member
      rw [List.mem_singleton.mp member]
      exact Or.inr ⟨input, by simp [inputs], rfl⟩
    · intro ok
      refine ⟨exchange, ?_, parts, source_apart plan arranged, ?_⟩
      · intro e member
        exact noRangeDelete_all ok (goneEntries_subset e (exchange.subset e member))
      · intro x removed _
        exact Or.inl (by simpa using (moved_iff x).mp removed)

/-- Whatever the execution of a foreseen task meets, it commits the exchange or leaves the lists. -/
theorem execute_ends (latest : s.manifest.Latest) (keyed : Keyed s.manifest.bucket)
    (shelf : Shelf known (tablesAt s.manifest.bucket) s.tables)
    (fresh : ∀ id, d.names id → ¬ known id)
    (arranged : Arranged s.manifest.manager.current s.tables)
    (foreseen : Foreseen known s.manifest.manager.current task low high)
    (h : execute config fileSize serializedLen d task s = (r, s')) : Ends d task s s' := by
  unfold execute at h
  split at h
  · rename_i trivial_move
    exact moveTrivially_ends latest keyed shelf arranged foreseen trivial_move.1
      (List.isEmpty_iff.mp trivial_move.2.1) h
  · exact mergeInputs_ends latest keyed shelf fresh arranged foreseen h

end Execute

namespace Ends
variable {d : Drawn} {task : CompactionTask} {s s' : CompactionState}

theorem arranged (h : Ends d task s s') (arranged : Arranged s.manifest.manager.current s.tables) :
    Arranged s'.manifest.manager.current s'.tables := by
  cases h with
  | uncommitted manifest extend =>
    rw [manifest]
    exact arranged.extends extend
  | committed plan nonempty number exchange =>
    exact ⟨exchange.distinct arranged, exchange.stored arranged, exchange.disjoint arranged⟩

theorem visible (h : Ends d task s s') (ok : Ok s.manifest.manager.current s.tables) :
    Ok s'.manifest.manager.current s'.tables ∧ ∀ key,
      Levels.visible s'.manifest.manager.current s'.tables key =
        Levels.visible s.manifest.manager.current s.tables key := by
  cases h with
  | uncommitted manifest extend =>
    rw [manifest]
    exact ok.extends extend
  | committed plan nonempty number exchange parts others named replaces =>
    exact ⟨(replaces ok).levels_ok ok, (replaces ok).visible_eq ok⟩

/-- A task further down keeps its plan. -/
theorem foreseen (h : Ends d task s s') {known known' : SstId → Prop}
    (fresh : ∀ id, d.names id → ¬ known id) (more : ∀ id, known id → known' id)
    {later : CompactionTask} {low high : Bytes}
    (below : task.sourceLevel.asU8 < later.sourceLevel.asU8)
    (apart : ∀ t ∈ task.inputSSTables, ∀ u ∈ later.inputSSTables, t.id ≠ u.id)
    (foreseen : Foreseen known s.manifest.manager.current later low high) :
    Foreseen known' s'.manifest.manager.current later low high := by
  have lift : ∀ t ∈ later.inputSSTables, known' t.id :=
    fun t member => more _ (foreseen.known t member)
  cases h with
  | uncommitted manifest extend =>
    rw [manifest]
    exact ⟨foreseen.adjacent, foreseen.nonempty, foreseen.only, lift, foreseen.within,
      foreseen.targets, foreseen.whole, foreseen.single⟩
  | @committed low' high' outs plan nonempty number exchange parts others named =>
    have first := Level.asU8_next plan.adjacent
    have second := Level.asU8_next foreseen.adjacent
    have top : later.sourceLevel ≠ .L0 := by
      intro equal
      rw [equal] at below
      exact Nat.not_lt_zero _ below
    refine ⟨foreseen.adjacent, foreseen.nonempty, ?_, lift, foreseen.within, ?_,
      fun equal => absurd equal top, foreseen.single⟩
    · intro t member u listed same
      by_cases here : later.sourceLevel = task.targetLevel
      · rcases List.mem_append.mp ((exchange.levels later.sourceLevel).mem_iff.mp listed) with old | new
        · exact foreseen.only t member u (mem_kept.mp old).1 same
        · rw [if_pos here] at new
          obtain ⟨out, written, rfl⟩ := List.mem_map.mp new
          rcases named out written with new_name | ⟨input, moved, name⟩
          · exact absurd (foreseen.known t member) (same ▸ fresh _ new_name)
          · exact absurd (name.symm.trans same) (apart input moved t member)
      · have other : later.sourceLevel ≠ task.sourceLevel := by
          intro equal
          rw [equal] at below
          exact lt_irrefl _ below
        rw [others later.sourceLevel other here] at listed
        exact foreseen.only t member u listed same
    · rw [foreseen.targets, Manifest.findOverlapping, Manifest.findOverlapping]
      rw [others later.targetLevel]
      · intro equal
        rw [equal] at second
        omega
      · intro equal
        rw [equal] at second
        omega

end Ends

end CompactionExecutor

end FlushDB
