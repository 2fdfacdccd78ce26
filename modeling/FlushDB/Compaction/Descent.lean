import FlushDB.Compaction.Arrangement

/-!
Compactions only move entries down. What they have left to do is the number of levels that each
listed entry can still go down: a committed compaction lowers it, and a compaction that is due
commits unless an operation of it fails.
-/

namespace FlushDB
open Lib

/-- The number of levels below. -/
def Level.depth : Level → Nat
  | .L0 => 3
  | .L1 => 2
  | .L2 => 1
  | .L3 => 0

namespace Levels

/-- What compactions have left to do. -/
def fall (m : Manifest) (tables : Tables) : Nat :=
  (Level.all.map fun level => level.depth * (levelEntries m tables level).length).sum

section Count
variable {m m' : Manifest} {tables tables' : Tables} {source target : Level}
  {removes : List (Level × SstId)}
  {outs : List (SSTableMeta × List MergeEntry)}

def keptCount (m : Manifest) (tables : Tables) (removes : List (Level × SstId)) (level : Level) :
    Nat :=
  ((kept m removes level).flatMap (tableEntries tables level)).length

def goneCount (m : Manifest) (tables : Tables) (removes : List (Level × SstId)) (level : Level) :
    Nat :=
  ((gone m removes level).flatMap (tableEntries tables level)).length

theorem length_levelEntries (m : Manifest) (tables : Tables) (removes : List (Level × SstId))
    (level : Level) :
    (levelEntries m tables level).length = keptCount m tables removes level + goneCount m tables
      removes level := by
  have parts := List.filter_append_perm (fun t => decide ((level, t.id) ∉ removes))
    (m.sstablesAtLevel level)
  have split : (kept m removes level ++ gone m removes level).Perm (m.sstablesAtLevel level) := by
    simpa [kept, gone] using parts
  have whole := (split.flatMap_right (tableEntries tables level)).length_eq
  rw [List.flatMap_append, List.length_append] at whole
  exact whole.symm

theorem length_goneEntries (m : Manifest) (tables : Tables) (removes : List (Level × SstId)) :
    (goneEntries m tables removes).length = (Level.all.map (goneCount m tables removes)).sum := by
  rw [goneEntries, List.length_flatMap]
  rfl

namespace Exchange

theorem length_levelEntries (h : Exchange m m' tables tables' source target removes outs)
    (level : Level) :
    (levelEntries m' tables' level).length =
      keptCount m tables removes level + if level = target then (outs.flatMap Prod.snd).length
        else 0 := by
  have listed := ((h.levels level).flatMap_right (tableEntries tables' level)).length_eq
  have old : (kept m removes level).flatMap (tableEntries tables' level) =
      (kept m removes level).flatMap (tableEntries tables level) := by
    refine List.flatMap_congr ?_
    intro t member
    simp only [tableEntries, Tables.entries, h.untouched level t member]
  rw [List.flatMap_append, List.length_append, old] at listed
  refine listed.trans ?_
  rw [keptCount]
  split
  · rename_i here
    subst level
    have new : (outs.map Prod.fst).flatMap (tableEntries tables' target) = outs.flatMap Prod.snd := by
      rw [List.flatMap_map]
      refine List.flatMap_congr ?_
      intro out member
      simp only [tableEntries, Tables.entries, (h.written out member).1, Option.getD_some]
    rw [new]
  · rfl

theorem goneCount_elsewhere (h : Exchange m m' tables tables' source target removes outs)
    {level : Level} (first : level ≠ source) (second : level ≠ target) :
    goneCount m tables removes level = 0 := by
  have nothing : gone m removes level = [] := by
    refine List.eq_nil_iff_forall_not_mem.mpr ?_
    intro t member
    rcases h.removed _ (mem_gone.mp member).2 with here | there
    · exact first here
    · exact second there
  rw [goneCount, nothing]
  rfl

/-- An exchange that removes a table of its upper level leaves less to do. -/
theorem fall_lt (h : Exchange m m' tables tables' source target removes outs)
    (arranged : Arranged m tables)
    (parts : (outs.flatMap Prod.snd).Subperm (goneEntries m tables removes)) {t : SSTableMeta}
    (removed : t ∈ gone m removes source) :
    fall m' tables' < fall m tables := by
  have fewer := parts.length_le
  have some : 0 < goneCount m tables removes source := by
    obtain ⟨entries, found, good⟩ := arranged.stored source t (mem_gone.mp removed).1
    obtain ⟨⟨e, member, -⟩, -⟩ := good.attained
    have inside : e ∈ tableEntries tables source t := by
      simpa [tableEntries, Tables.entries, found] using member
    exact List.length_pos_of_mem (List.mem_flatMap.mpr ⟨t, removed, inside⟩)
  have elsewhere := fun level => @goneCount_elsewhere m m' tables tables' source target removes outs h level
  rw [length_goneEntries] at fewer
  simp only [fall, Level.all, List.map_cons, List.map_nil, List.sum_cons, List.sum_nil,
    h.length_levelEntries,
    Levels.length_levelEntries m tables removes] at fewer ⊢
  have adjacent := h.adjacent
  cases source <;> cases adjacent
  · have none := elsewhere .L2 (by decide) (by decide)
    have none' := elsewhere .L3 (by decide) (by decide)
    simp only [Level.depth, if_true, if_false, reduceCtorEq] at fewer ⊢
    omega
  · have none := elsewhere .L0 (by decide) (by decide)
    have none' := elsewhere .L3 (by decide) (by decide)
    simp only [Level.depth, if_true, if_false, reduceCtorEq] at fewer ⊢
    omega
  · have none := elsewhere .L0 (by decide) (by decide)
    have none' := elsewhere .L1 (by decide) (by decide)
    simp only [Level.depth, if_true, if_false, reduceCtorEq] at fewer ⊢
    omega

end Exchange

end Count

theorem Arranged.fall_extends {m : Manifest} {tables tables' : Tables}
    (arranged : Arranged m tables) (extend : ObjectStore.Extends tables tables') :
    fall m tables' = fall m tables := by
  rw [fall, fall]
  simp only [arranged.allEntries_extends extend]

end Levels

namespace ManifestState

/-- An update that removes what is listed and adds what is not is stored at the first attempt. -/
theorem update_accepted (len : Manifest → Nat) {u : ManifestUpdate} (nowMs : Nat)
    {s : ManifestState} (latest : s.Latest) (unfenced : s.manager.validateEpoch u = .ok ())
    (distinct : ∀ level, ((s.manager.current.levels level).map SSTableMeta.id).Nodup)
    (once : u.removeSSTables.Nodup)
    (listed : ∀ entry ∈ u.removeSSTables, ∃ t ∈ s.manager.current.levels entry.1, t.id = entry.2)
    (fresh : ∀ entry ∈ u.addSSTables, ∀ t ∈ s.manager.current.levels entry.1, t.id ≠ entry.2.id)
    (unmarked : u.newLastFlushedSequence = none) : ∃ m, s.update len u nowMs = (.ok (), m) := by
  obtain ⟨removed, removes⟩ := ManifestUpdate.removeAll_accepted distinct once listed
  have present : u.removeSSTables.find? (fun entry => !s.manager.lists entry.1 entry.2) = none := by
    refine List.find?_eq_none.mpr ?_
    intro entry member absent
    obtain ⟨t, here, same⟩ := listed entry member
    have there : s.manager.lists entry.1 entry.2 = true :=
      List.any_eq_true.mpr ⟨t, here, decide_eq_true same⟩
    rw [there] at absent
    cases absent
  have absent : u.addSSTables.find? (fun entry => s.manager.lists entry.1 entry.2.id) = none := by
    refine List.find?_eq_none.mpr ?_
    intro entry member there
    obtain ⟨t, here, same⟩ := List.any_eq_true.mp there
    exact fresh entry member t here (of_decide_eq_true same)
  have valid : s.manager.validateUpdate u = .ok () := by
    unfold ManifestManager.validateUpdate
    rw [present]
    dsimp only
    rw [absent]
    dsimp only
    rw [unmarked]
  have applied : ∃ next, u.apply nowMs s.manager.current = .ok next := by
    unfold ManifestUpdate.apply
    rw [removes]
    dsimp only
    rw [unmarked]
    exact ⟨_, rfl⟩
  have prepared : ∃ next, s.manager.toWrite len u nowMs = .ok next := by
    obtain ⟨next, applied⟩ := applied
    unfold ManifestManager.toWrite
    rw [applied]
    dsimp only
    split
    · exact ⟨_, rfl⟩
    · exact ⟨_, rfl⟩
  obtain ⟨next, prepared⟩ := prepared
  rcases update_cases len u nowMs latest.free with ⟨e, failed⟩ | ⟨next, written, -, -, stored⟩
  · have number : next.manifestId = s.manager.current.manifestId + 1 := by
      obtain ⟨plain, applied, same⟩ := ManifestManager.toWrite_ok prepared
      have applied_id := ManifestUpdate.apply_manifestId applied
      rcases same with same | same <;> rw [same] <;> exact applied_id
    have put : s.bucket.conditionalPut next.manifestId next =
        some (s.bucket.put next.manifestId next) := by
      simp [ObjectStore.conditionalPut, number, latest.free]
    unfold update at failed
    rw [unfenced] at failed
    dsimp only at failed
    rw [valid] at failed
    simp only [maxCasRetries, tryUpdate, prepared, put] at failed
    cases failed
  · exact ⟨_, stored⟩

end ManifestState

namespace CompactionExecutor
open Levels

section Commits
variable {config : CompactionConfig} {fileSize : List MergeEntry → Nat}
  {serializedLen : Manifest → Nat} {d : Drawn}
  {task : CompactionTask} {low high : Bytes} {s s' : CompactionState} {r : FlushResult CompactionResult}

theorem removals_nodup {m : Manifest} {tables : Tables} (plan : Planned m task low high)
    (arranged : Arranged m tables) (once : (task.inputSSTables.map SSTableMeta.id).Nodup) :
    (removals task).Nodup := by
  have tag : ∀ {level : Level} {xs : List SSTableMeta}, (xs.map SSTableMeta.id).Nodup →
      (xs.map fun t => (level, t.id)).Nodup := by
    intro level xs distinct
    have paired := List.Nodup.map (f := fun id => (level, id))
      (fun a b same => (Prod.mk.inj same).2) distinct
    rwa [List.map_map] at paired
  refine List.nodup_append.mpr ⟨tag once, tag ?_, ?_⟩
  · rw [plan.targets]
    exact (ids_nodup arranged task.targetLevel).sublist (List.Sublist.map _ List.filter_sublist)
  · rintro a first b second rfl
    obtain ⟨t, -, rfl⟩ := List.mem_map.mp first
    obtain ⟨u, -, same⟩ := List.mem_map.mp second
    exact levels_differ plan (Prod.mk.inj same).1.symm

theorem removals_listed {m : Manifest} (plan : Planned m task low high) :
    ∀ entry ∈ removals task, ∃ t ∈ m.levels entry.1, t.id = entry.2 := by
  intro entry member
  rcases List.mem_append.mp member with input | target
  · obtain ⟨t, inside, rfl⟩ := List.mem_map.mp input
    exact ⟨t, plan.inputs t inside, rfl⟩
  · obtain ⟨t, inside, rfl⟩ := List.mem_map.mp target
    exact ⟨t, (targets_mem plan inside).1, rfl⟩

theorem readTables_stored {tables : Tables} {ts : List SSTableMeta}
    (stored : ∀ t ∈ ts, (tables.get
      (t.sstPath (if task.inputSSTables.any (fun m => m.id = t.id) then task.sourceLevel
        else task.targetLevel))).isSome) :
    ∃ contents, readTables tables task ts = .ok contents := by
  induction ts with
  | nil => exact ⟨[], rfl⟩
  | cons t rest ih =>
    obtain ⟨others, read⟩ := ih fun u member => stored u (List.mem_cons_of_mem _ member)
    obtain ⟨entries, found⟩ := Option.isSome_iff_exists.mp (stored t List.mem_cons_self)
    refine ⟨entries :: others, ?_⟩
    unfold readTables
    dsimp only
    rw [found]
    dsimp only
    rw [read]

/-- A clock and names, and no failure. -/
theorem doneBefore_sound {α : Type} (sound : d.fault = none) (xs : List α) :
    doneBefore d.inputStop xs = xs ∧ doneBefore d.outputStop xs = xs := by
  simp [Drawn.inputStop, Drawn.outputStop, sound, doneBefore]

theorem compactionUpdate_unfenced {m : ManifestManager}
    (unfenced : m.current.compactorEpoch ≤ m.compactorEpoch) (added : List (Level × SSTableMeta))
    (removed : List (Level × SstId)) :
    m.validateEpoch (compactionUpdate m added removed) = .ok () := by
  show m.checkCompactorEpoch = .ok ()
  rw [ManifestManager.checkCompactorEpoch, if_neg (by omega)]

theorem mergeInputs_commits (latest : s.manifest.Latest)
    (unfenced : s.manifest.manager.current.compactorEpoch ≤ s.manifest.manager.compactorEpoch)
    (names : FreshNames d s.manifest.manager.current)
    (arranged : Arranged s.manifest.manager.current s.tables)
    (plan : Planned s.manifest.manager.current task low high)
    (once : (task.inputSSTables.map SSTableMeta.id).Nodup) (sound : d.fault = none) :
    ∃ result s', mergeInputs config fileSize serializedLen d task s = (.ok result, s') := by
  obtain ⟨inputs, targets⟩ := read_level plan arranged
  have stored : ∀ level, ∀ t ∈ s.manifest.manager.current.sstablesAtLevel level,
      (s.tables.get (t.sstPath level)).isSome := by
    intro level t listed
    obtain ⟨entries, found, -⟩ := arranged.stored level t listed
    exact Option.isSome_iff_exists.mpr ⟨entries, found⟩
  have read : ∃ contents, readTables s.tables task (task.inputSSTables ++ task.targetSSTables) =
      .ok contents := by
    refine readTables_stored ?_
    intro t member
    rcases List.mem_append.mp member with input | target
    · rw [inputs t input, if_pos rfl]
      exact stored _ t (plan.inputs t input)
    · rw [targets t target, if_neg Bool.false_ne_true]
      exact stored _ t (targets_mem plan target).1
  obtain ⟨contents, read⟩ := read
  generalize cut : outputs fileSize d config.targetFragmentSize
    (merge task.targetLevel.isBottom contents) = outs
  have described := cut ▸ (outputs_spec fileSize d config.targetFragmentSize
    (merge task.targetLevel.isBottom contents)).1
  obtain ⟨m, updated⟩ := ManifestState.update_accepted serializedLen d.nowMs latest
    (compactionUpdate_unfenced unfenced (outs.map fun out => (task.targetLevel, out.1))
      (removals task)) (ids_nodup arranged)
    (removals_nodup plan arranged once) (removals_listed plan) (by
      intro entry member t listed same
      obtain ⟨out, written, rfl⟩ := List.mem_map.mp member
      obtain ⟨single, fragment⟩ := names task.targetLevel t listed
      rcases (described out written).2 with one | ⟨i, part⟩
      · exact single (same.trans one)
      · exact fragment i (same.trans part)) rfl
  unfold removals at updated
  unfold mergeInputs
  dsimp only
  rw [(doneBefore_sound sound _).1, if_neg (lt_irrefl _), read]
  dsimp only
  rw [cut, (doneBefore_sound sound _).2, if_neg (lt_irrefl _), sound, if_neg (by simp), updated]
  exact ⟨_, _, rfl⟩

theorem moveTrivially_commits (latest : s.manifest.Latest)
    (unfenced : s.manifest.manager.current.compactorEpoch ≤ s.manifest.manager.compactorEpoch)
    (arranged : Arranged s.manifest.manager.current s.tables)
    (plan : Planned s.manifest.manager.current task low high)
    (once : (task.inputSSTables.map SSTableMeta.id).Nodup)
    (downward : task.taskType = .levelToLevel) (alone : task.targetSSTables = [])
    (sound : d.fault = none) :
    ∃ result s', moveTrivially serializedLen d task s = (.ok result, s') := by
  obtain ⟨input, inputs⟩ := plan.single downward
  have listed := plan.inputs input (by simp [inputs])
  obtain ⟨entries, found, -⟩ := arranged.stored _ input listed
  have copies : copyTables task.sourceLevel task.targetLevel task.inputSSTables s.tables =
      (.ok (), s.tables.put (input.sstPath task.targetLevel) entries) := by
    rw [inputs]
    simp only [copyTables, found]
  have removes : removals task = task.inputSSTables.map fun t => (task.sourceLevel, t.id) := by
    rw [removals, alone, List.map_nil, List.append_nil]
  obtain ⟨m, updated⟩ := ManifestState.update_accepted serializedLen d.nowMs latest
    (compactionUpdate_unfenced unfenced
      ((task.inputSSTables.map fun t => { t with createdAtMs := d.nowMs }).map fun t =>
      (task.targetLevel, t)) (removals task)) (ids_nodup arranged)
        (removals_nodup plan arranged once) (removals_listed plan) (by
      intro entry member t present same
      rw [inputs] at member
      obtain rfl : entry = (task.targetLevel, { input with createdAtMs := d.nowMs }) := by
        simpa [compactionUpdate] using member
      exact levels_differ plan (place_unique arranged listed present same.symm).1) rfl
  rw [removes] at updated
  have deleted : doneBefore d.deleteStop task.inputSSTables = task.inputSSTables := by
    simp [Drawn.deleteStop, sound, doneBefore]
  unfold moveTrivially
  dsimp only
  rw [(doneBefore_sound sound _).1, (doneBefore_sound sound _).2, copies]
  dsimp only
  rw [if_neg (lt_irrefl _), sound, if_neg (by simp), updated]
  dsimp only
  rw [deleted, if_neg (lt_irrefl _)]
  exact ⟨_, _, rfl⟩

/-- A planned compaction succeeds unless an operation of it fails. -/
theorem execute_commits (latest : s.manifest.Latest)
    (unfenced : s.manifest.manager.current.compactorEpoch ≤ s.manifest.manager.compactorEpoch)
    (names : FreshNames d s.manifest.manager.current)
    (arranged : Arranged s.manifest.manager.current s.tables)
    (plan : Planned s.manifest.manager.current task low high)
    (once : (task.inputSSTables.map SSTableMeta.id).Nodup) (sound : d.fault = none) :
    ∃ result s', execute config fileSize serializedLen d task s = (.ok result, s') := by
  unfold execute
  split
  · rename_i trivial_move
    exact moveTrivially_commits latest unfenced arranged plan once trivial_move.1
      (List.isEmpty_iff.mp trivial_move.2.1) sound
  · exact mergeInputs_commits latest unfenced names arranged plan once sound

/-- An execution that succeeds takes the next number of the manifest. -/
theorem execute_number (latest : s.manifest.Latest) {result : CompactionResult}
    (h : execute config fileSize serializedLen d task s = (.ok result, s')) :
    s'.manifest.manager.current.manifestId = s.manifest.manager.current.manifestId + 1 := by
  unfold execute at h
  split at h
  · cases moveTrivially_outcome h with
    | committed copies stored => exact update_manifestId latest stored
  · cases mergeInputs_outcome h with
    | committed read cut reads writes reached stored => exact update_manifestId latest stored

end Commits

namespace Ends
variable {d : Drawn} {task : CompactionTask} {s s' : CompactionState}

theorem number_le (h : Ends d task s s') :
    s.manifest.manager.current.manifestId ≤ s'.manifest.manager.current.manifestId := by
  cases h with
  | uncommitted manifest extend => rw [manifest]
  | committed plan nonempty number => omega

/-- Each commit takes one number of the manifest and lowers what is left to do. -/
theorem fall_le (h : Ends d task s s') (arranged : Arranged s.manifest.manager.current s.tables) :
    s'.manifest.manager.current.manifestId + fall s'.manifest.manager.current s'.tables ≤
      s.manifest.manager.current.manifestId + fall s.manifest.manager.current s.tables := by
  cases h with
  | uncommitted manifest extend =>
    rw [manifest]
    exact Nat.add_le_add_left (arranged.fall_extends extend).le _
  | committed plan nonempty number exchange parts =>
    obtain ⟨t, input⟩ := List.exists_mem_of_ne_nil _ nonempty
    have removed : t ∈ gone s.manifest.manager.current (removals task) task.sourceLevel :=
      mem_gone.mpr ⟨plan.inputs t input, List.mem_append_left _ (List.mem_map_of_mem input)⟩
    have less := exchange.fall_lt arranged parts removed
    omega

end Ends

end CompactionExecutor

end FlushDB
