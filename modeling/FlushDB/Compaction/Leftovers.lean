import FlushDB.Compaction.Preserves
import FlushDB.Compaction.Shelf

/-!
The objects that a compaction leaves behind. A merge leaves all it has read, a move removes its
source unless that fails. Where no merge commits and no removal fails, a path from which a table
has been moved holds nothing any more.
-/

namespace FlushDB
open Lib ManifestBucket

/-- A table of the path's name is listed at the path's level. -/
def Lists.At (lists : Lists) (path : SstPath) : Prop := ∃ t ∈ lists path.level, t.id = path.file

/-- Nothing is left at the path, and tables of its name are listed at deeper levels only. -/
structure Left (lists : Lists) (tables : Tables) (path : SstPath) : Prop where
  absent : tables.get path = none
  deeper : ∀ level, lists.At ⟨level, path.file⟩ → path.level.asU8 < level.asU8

theorem Level.asU8_next {source target : Level} (next : source.next = some target) :
    target.asU8 = source.asU8 + 1 := by
  cases source <;> cases next <;> rfl

/-- What a change does to the lists and the objects: whatever is new has a new name or goes down
from where it is listed, and where a table is not listed any more its object has been removed. -/
structure Spared (drawn : SstId → Prop) (source target : Level) (lists lists' : Lists)
    (tables tables' : Tables) : Prop where
  objects : ∀ path, (tables'.get path).isSome → (tables.get path).isSome ∨ ¬ drawn path.file ∨
    (path.level = target ∧ lists.At ⟨source, path.file⟩)
  listed : ∀ path, lists'.At path → lists.At path ∨ ¬ drawn path.file ∨
    (path.level = target ∧ lists.At ⟨source, path.file⟩)
  lost : ∀ path, lists.At path → ¬ lists'.At path → path.level = source ∧ tables'.get path = none

namespace Spared
variable {drawn : SstId → Prop} {source target : Level} {lists lists' : Lists} {tables tables' : Tables}

theorem refl (source target : Level) (lists : Lists) (tables : Tables) :
    Spared drawn source target lists lists tables tables :=
  ⟨fun _ found => Or.inl found, fun _ listed => Or.inl listed,
    fun _ listed unlisted => absurd listed unlisted⟩

theorem drawn_of_at (shelf : Shelf drawn lists tables) {path : SstPath} (listed : lists.At path) :
    drawn path.file := by
  obtain ⟨t, member, name⟩ := listed
  have named := shelf.named ⟨path.level, t.id⟩ (shelf.present path.level t member)
  rwa [← name]

/-- A path that is listed, or from which the table has gone, stays so. -/
theorem kept (h : Spared drawn source target lists lists' tables tables')
    (next : source.next = some target) (distinct : lists.ids.Nodup) {path : SstPath}
    (known : drawn path.file) (before : lists.At path ∨ Left lists tables path) :
    lists'.At path ∨ Left lists' tables' path := by
  have lower := Level.asU8_next next
  by_cases now : lists'.At path
  · exact Or.inl now
  right
  rcases before with listed | left
  · obtain ⟨at_source, removed⟩ := h.lost path listed now
    refine ⟨removed, ?_⟩
    intro level there
    rcases h.listed _ there with old | new | ⟨at_target, -⟩
    · obtain ⟨t, first, name⟩ := listed
      obtain ⟨u, second, name'⟩ := old
      have same := Lists.level_unique distinct first second (name.trans name'.symm)
      rw [← show path.level = level from same] at there
      exact absurd there now
    · exact absurd known new
    · rw [at_source, show level = target from at_target]
      omega
  · refine ⟨?_, ?_⟩
    · by_contra present
      rcases h.objects path (Option.isSome_iff_ne_none.mpr present) with old | new | ⟨at_target, origin⟩
      · rw [left.absent] at old
        cases old
      · exact new known
      · have above := left.deeper source origin
        rw [at_target] at above
        omega
    · intro level there
      rcases h.listed _ there with old | new | ⟨at_target, origin⟩
      · exact left.deeper level old
      · exact absurd known new
      · have above := left.deeper source origin
        rw [show level = target from at_target]
        omega

end Spared

namespace CompactionExecutor

/-- What `execute` decides by: whether the tables are moved as they are. -/
def IsMove (task : CompactionTask) : Prop :=
  task.taskType = .levelToLevel ∧ task.targetSSTables.isEmpty ∧ ¬ task.inputSSTables.isEmpty

/-- A fault that stops an execution of so many reads and writes before its commit. -/
def StopsEarly (reads writes : Nat) : Option CompactionFault → Prop
  | some (.input count) => count < reads
  | some (.output count) => count < writes
  | some .updateManifest => True
  | _ => False

/-- What a merge reads, where every table has its object. -/
def consumedContents (tables : Tables) (task : CompactionTask) : List (List MergeEntry) :=
  (task.inputSSTables ++ task.targetSSTables).map fun t =>
    Levels.tableEntries tables (if task.inputSSTables.any (fun m => m.id = t.id) then
      task.sourceLevel else task.targetLevel) t

/-- The execution leaves nothing behind: a table it consumes is not listed any more, or it is a
move whose removal does not fail, or a merge that is stopped before its commit. -/
def Spares (config : CompactionConfig) (fileSize : List MergeEntry → Nat) (d : Drawn)
    (task : CompactionTask) (s : CompactionState) : Prop :=
  (∀ p ∈ removals task, s.manifest.manager.lists p.1 p.2 = true) →
    (IsMove task → d.fault ≠ some (.delete 0)) ∧
      (¬ IsMove task → StopsEarly (task.inputSSTables ++ task.targetSSTables).length
        (outputs fileSize d config.targetFragmentSize
          (merge task.targetLevel.isBottom (consumedContents s.tables task))).length d.fault)

section Effects
variable {drawn : SstId → Prop} {config : CompactionConfig} {fileSize : List MergeEntry → Nat}
  {serializedLen : Manifest → Nat} {d : Drawn} {task : CompactionTask} {s s' : CompactionState}
  {r : FlushResult CompactionResult}

theorem lists_iff (latest : s.manifest.Latest) (p : Level × SstId) :
    s.manifest.manager.lists p.1 p.2 = true ↔ ∃ t ∈ tablesAt s.manifest.bucket p.1, t.id = p.2 := by
  rw [latest.tablesAt_eq, ManifestManager.lists, List.any_eq_true]
  simp only [decide_eq_true_eq]

/-- Copies have the names of the inputs, at the target level. -/
theorem copyTables_objects {source target : Level} {inputs : List SSTableMeta}
    {tables tables' : Tables} {r : FlushResult Unit}
    (h : copyTables source target inputs tables = (r, tables')) :
    ∀ path, (tables'.get path).isSome → (tables.get path).isSome ∨
      (path.level = target ∧ ∃ t ∈ inputs, t.id = path.file) := by
  induction inputs generalizing tables with
  | nil =>
    cases h
    exact fun path found => Or.inl found
  | cons t rest ih =>
    unfold copyTables at h
    rw [SSTableMeta.sstPath_eq, SSTableMeta.sstPath_eq] at h
    split at h
    · cases h
      exact fun path found => Or.inl found
    rename_i data here
    intro path found
    rcases ih h path found with first | ⟨at_target, u, member, name⟩
    · rw [ObjectStore.get_put] at first
      split at first
      · rename_i same
        right
        rw [same]
        exact ⟨rfl, t, List.mem_cons_self, rfl⟩
      · exact Or.inl first
    · exact Or.inr ⟨at_target, u, List.mem_cons_of_mem _ member, name⟩

theorem doneBefore_short {α : Type} {stop : Option Nat} {xs : List α}
    (short : (doneBefore stop xs).length < xs.length) :
    ∃ count, stop = some count ∧ count < xs.length := by
  cases stop with
  | none => exact absurd short (lt_irrefl _)
  | some count =>
    refine ⟨count, rfl, ?_⟩
    have := List.length_take (i := count) (l := xs)
    unfold doneBefore at short
    dsimp only at short
    omega

/-- The lists after one table has moved. -/
theorem moved_at {source target : Level} {input moved : SSTableMeta} (same : moved.id = input.id)
    {lists lists' : Lists}
    (updated : ∀ level, (lists' level).Perm ((lists level).filter
      (fun t => (level, t.id) ∉ [(source, input.id)]) ++ if level = target then [moved] else []))
    (path : SstPath) :
    lists'.At path ↔ (lists.At path ∧ path ≠ ⟨source, input.id⟩) ∨ path = ⟨target, input.id⟩ := by
  have perm := updated path.level
  constructor
  · rintro ⟨t, member, name⟩
    rcases List.mem_append.mp (perm.mem_iff.mp member) with old | new
    · obtain ⟨before, stays⟩ := List.mem_filter.mp old
      refine Or.inl ⟨⟨t, before, name⟩, ?_⟩
      rintro rfl
      exact of_decide_eq_true stays (by rw [name]; exact List.mem_singleton_self _)
    · right
      split at new
      · rename_i here
        rw [List.mem_singleton.mp new, same] at name
        rw [← here, name]
      · cases new
  · rintro (⟨⟨t, before, name⟩, other⟩ | rfl)
    · refine ⟨t, perm.mem_iff.mpr (List.mem_append_left _
        (List.mem_filter.mpr ⟨before, decide_eq_true ?_⟩)), name⟩
      intro removed
      obtain ⟨level, id⟩ := Prod.mk.inj (List.mem_singleton.mp removed)
      exact other (by rw [← level, ← id, name])
    · refine ⟨moved, perm.mem_iff.mpr (List.mem_append_right _ ?_), same⟩
      rw [if_pos rfl]
      exact List.mem_singleton_self _

/-- The only removal of a move does not fail when the first one does not. -/
theorem delete_works (input : SSTableMeta) (works : d.fault ≠ some (.delete 0)) :
    doneBefore d.deleteStop [input] = [input] := by
  by_contra short
  obtain ⟨count, stop, few⟩ := doneBefore_short (lt_of_not_ge fun more =>
    short ((doneBefore_sublist d.deleteStop [input]).eq_of_length_le more))
  rw [List.length_singleton, Nat.lt_one_iff] at few
  rw [few] at stop
  refine works ?_
  unfold Drawn.deleteStop at stop
  split at stop
  · rename_i count fault
    rw [fault, Option.some.inj stop]
  · cases stop

theorem moveTrivially_spared {low high : Bytes} {m : Manifest} (plan : Planned m task low high)
    (move : IsMove task) (latest : s.manifest.Latest) (keyed : Keyed s.manifest.bucket)
    (shelf : Shelf drawn (tablesAt s.manifest.bucket) s.tables)
    (current : ∀ t ∈ task.inputSSTables, Lists.At (tablesAt s.manifest.bucket) ⟨task.sourceLevel, t.id⟩)
    (spares : Spares config fileSize d task s)
    (h : moveTrivially serializedLen d task s = (r, s')) :
    Spared drawn task.sourceLevel task.targetLevel (tablesAt s.manifest.bucket)
      (tablesAt s'.manifest.bucket) s.tables s'.tables := by
  obtain ⟨input, inputs⟩ := plan.single move.1
  have objects : ∀ {copied : List SSTableMeta} {result : FlushResult Unit} {tables : Tables},
      copied ⊆ task.inputSSTables →
      copyTables task.sourceLevel task.targetLevel copied s.tables = (result, tables) →
      ∀ path, (tables.get path).isSome → (s.tables.get path).isSome ∨ ¬ drawn path.file ∨
        (path.level = task.targetLevel ∧ Lists.At (tablesAt s.manifest.bucket)
          ⟨task.sourceLevel, path.file⟩) := by
    intro copied result tables part copies path found
    rcases copyTables_objects copies path found with old | ⟨at_target, t, member, name⟩
    · exact Or.inl old
    · exact Or.inr (Or.inr ⟨at_target, name ▸ current t (part member)⟩)
  cases moveTrivially_outcome h with
  | uncommitted part copies kept =>
    obtain rfl := kept.same latest
    exact ⟨objects part copies, fun _ listed => Or.inl listed,
      fun _ listed unlisted => absurd listed unlisted⟩
  | @committed _ m tables copies stored =>
    have updated := latest.updated keyed (Lists.nodup_level shelf.distinct) stored
    generalize update_eq : compactionUpdate s.manifest.manager
      ((task.inputSSTables.map fun t => { t with createdAtMs := d.nowMs }).map fun t => (task.targetLevel, t))
      (task.inputSSTables.map fun t => (task.sourceLevel, t.id)) = u at updated
    have removes : u.removeSSTables = [(task.sourceLevel, input.id)] := by
      rw [← update_eq, inputs]
      rfl
    have adds : u.addSSTables = [{ input with createdAtMs := d.nowMs }].map fun t =>
        (task.targetLevel, t) := by
      rw [← update_eq, inputs]
      rfl
    have listed := updated.removed
    have lists := updated.lists
    rw [removes] at listed lists
    rw [adds] at lists
    simp only [addedAt_level] at lists
    have consumed : ∀ p ∈ removals task, s.manifest.manager.lists p.1 p.2 = true := by
      intro p member
      rw [moved_removals inputs (List.isEmpty_iff.mp move.2.1)] at member
      exact (lists_iff latest p).mpr (listed p member)
    have works := delete_works input ((spares consumed).1 move)
    have place := @moved_at task.sourceLevel task.targetLevel input
      { input with createdAtMs := d.nowMs } rfl _ _ lists
    have source_listed := current input (by rw [inputs]; exact List.mem_singleton_self _)
    have copied := objects (List.Subset.refl _) copies
    rw [inputs, works]
    simp only [List.foldl_cons, List.foldl_nil, SSTableMeta.sstPath_eq]
    refine ⟨?_, ?_, ?_⟩
    · intro path found
      rw [ObjectStore.get_delete] at found
      split at found
      · cases found
      · exact copied path found
    · intro path now
      rcases (place path).mp now with ⟨before, -⟩ | rfl
      · exact Or.inl before
      · exact Or.inr (Or.inr ⟨rfl, source_listed⟩)
    · intro path before now
      by_cases here : path = ⟨task.sourceLevel, input.id⟩
      · rw [here]
        exact ⟨rfl, ObjectStore.get_delete_self _ _⟩
      · exact absurd ((place path).mpr (Or.inl ⟨before, here⟩)) now

/-- A merge that is stopped has written objects under new names at most. -/
theorem mergeInputs_spared (merges : ¬ IsMove task) (latest : s.manifest.Latest)
    (keyed : Keyed s.manifest.bucket) (shelf : Shelf drawn (tablesAt s.manifest.bucket) s.tables)
    (fresh : ∀ id, d.names id → ¬ drawn id) (spares : Spares config fileSize d task s)
    (h : mergeInputs config fileSize serializedLen d task s = (r, s')) :
    Spared drawn task.sourceLevel task.targetLevel (tablesAt s.manifest.bucket)
      (tablesAt s'.manifest.bucket) s.tables s'.tables := by
  cases mergeInputs_outcome h with
  | unread => exact Spared.refl _ _ _ _
  | @uncommitted contents _ _ read kept =>
    obtain rfl := kept.same latest
    generalize outs_eq : outputs fileSize d config.targetFragmentSize
      (merge task.targetLevel.isBottom contents) = outs
    have spec := outputs_spec fileSize d config.targetFragmentSize
      (merge task.targetLevel.isBottom contents)
    rw [outs_eq] at spec
    obtain ⟨described, distinct⟩ := spec
    have part := doneBefore_sublist d.outputStop outs
    obtain ⟨-, others⟩ := @writeTables_get task.targetLevel _ s.tables (distinct.sublist (part.map _))
    refine ⟨?_, fun _ listed => Or.inl listed, fun _ listed unlisted => absurd listed unlisted⟩
    intro path found
    by_cases new : ∃ out ∈ doneBefore d.outputStop outs, path = out.1.sstPath task.targetLevel
    · obtain ⟨out, member, rfl⟩ := new
      right
      left
      rw [SSTableMeta.sstPath_eq]
      exact fresh _ (described out (part.subset member)).2
    · rw [others path fun out member same => new ⟨out, member, same⟩] at found
      exact Or.inl found
  | @committed contents outs result m read cut reads writes reached stored =>
    -- the execution reaches its commit
    exfalso
    have updated := latest.updated keyed (Lists.nodup_level shelf.distinct) stored
    have consumed : ∀ p ∈ removals task, s.manifest.manager.lists p.1 p.2 = true := fun p member =>
      (lists_iff latest p).mpr (updated.removed p member)
    have stops := (spares consumed).2 merges
    have read_eq : contents = consumedContents s.tables task := readTables_ok read
    rw [← read_eq, cut] at stops
    unfold StopsEarly at stops
    split at stops
    · rename_i count fault
      have all := congrArg List.length reads
      simp only [Drawn.inputStop, fault, doneBefore, List.length_take] at all
      omega
    · rename_i count fault
      have all := congrArg List.length writes
      simp only [Drawn.outputStop, fault, doneBefore, List.length_take] at all
      omega
    · rename_i fault
      exact reached fault
    · exact stops

/-- What an execution that leaves nothing behind does to the lists and the objects. -/
theorem execute_spared {m : Manifest} {low high : Bytes} (plan : Planned m task low high)
    (latest : s.manifest.Latest) (keyed : Keyed s.manifest.bucket)
    (shelf : Shelf drawn (tablesAt s.manifest.bucket) s.tables)
    (fresh : ∀ id, d.names id → ¬ drawn id)
    (current : ∀ t ∈ task.inputSSTables, Lists.At (tablesAt s.manifest.bucket) ⟨task.sourceLevel, t.id⟩)
    (spares : Spares config fileSize d task s)
    (h : execute config fileSize serializedLen d task s = (r, s')) :
    Spared drawn task.sourceLevel task.targetLevel (tablesAt s.manifest.bucket)
      (tablesAt s'.manifest.bucket) s.tables s'.tables := by
  unfold execute at h
  split at h
  · rename_i move
    exact moveTrivially_spared plan move latest keyed shelf current spares h
  · rename_i merges
    exact mergeInputs_spared merges latest keyed shelf fresh spares h

/-- What an execution reports as removed, it has removed from the manifest. -/
theorem execute_removed {result : CompactionResult}
    (h : execute config fileSize serializedLen d task s = (.ok result, s')) :
    ∀ id ∈ result.removedSSTableIds, ∃ level, (level, id) ∈ removals task := by
  have input : ∀ t ∈ task.inputSSTables, ∃ level, (level, t.id) ∈ removals task := fun t member =>
    ⟨task.sourceLevel, List.mem_append_left _ (List.mem_map_of_mem member)⟩
  have target : ∀ t ∈ task.targetSSTables, ∃ level, (level, t.id) ∈ removals task := fun t member =>
    ⟨task.targetLevel, List.mem_append_right _ (List.mem_map_of_mem member)⟩
  unfold execute at h
  split at h
  · cases moveTrivially_outcome h with
    | committed copies stored finished =>
      intro id member
      rw [(finished result rfl).2] at member
      obtain ⟨t, inside, rfl⟩ := List.mem_map.mp member
      exact input t inside
  · cases mergeInputs_outcome h with
    | committed read cut reads writes reached stored finished =>
      intro id member
      rw [finished] at member
      obtain ⟨t, inside, rfl⟩ := List.mem_map.mp member
      rcases List.mem_append.mp inside with source | other
      · exact input t source
      · exact target t other

end Effects

end CompactionExecutor

end FlushDB
