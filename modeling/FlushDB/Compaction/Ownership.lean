import FlushDB.Compaction.Preserves
import FlushDB.Compaction.Shelf
import FlushDB.Lib.Relational

/-!
One directory of tables with several owners. The manifests of an owner list only its own tables, so
its compactions read, write and remove no others.
-/

namespace FlushDB
open Lib

def Manifest.Owned (own : SstId → Prop) (m : Manifest) : Prop :=
  ∀ level, ∀ t ∈ m.sstablesAtLevel level, own t.id

/-- All manifests of the owner, and the one in use, list its own tables. -/
structure ManifestState.Owned (own : SstId → Prop) (s : ManifestState) : Prop where
  stored : ∀ id m, s.bucket.get id = some m → m.Owned own
  current : s.manager.current.Owned own

/-- The directory of a process beside the same directory where other owners write, too. -/
abbrev Tables.Beside (own : SstId → Prop) (base : Tables) : Tables → Tables → Prop :=
  ObjectStore.Shares (fun path : SstPath => own path.file) base

section Manifests
variable {own : SstId → Prop}

theorem Manifest.owned_empty (ns : String) (nowMs : Nat) :
    (Manifest.newEmpty ns nowMs).Owned own := by
  rintro level t ⟨⟩

theorem ManifestUpdate.removeAll_sublist {levels removed : Levels} {removes : List (Level × SstId)}
    (h : removeAll levels removes = .ok removed) (level : Level) :
    (removed level).Sublist (levels level) := by
  induction removes generalizing levels with
  | nil =>
    obtain rfl := Except.ok.inj h
    exact List.Sublist.refl _
  | cons entry rest ih =>
    unfold removeAll at h
    split at h
    · rename_i next first
      refine (ih h).trans ?_
      unfold removeOne at first
      split at first
      · rename_i idx found
        obtain rfl := Except.ok.inj first
        by_cases same : level = entry.1
        · subst level
          rw [Function.update_self]
          exact List.eraseIdx_sublist _ _
        · rw [Function.update_of_ne same]
      · cases first
    · cases h

/-- An update that adds own tables lists own tables. -/
theorem Manifest.Owned.apply {m next : Manifest} {u : ManifestUpdate} {nowMs : Nat}
    (h : m.Owned own) (added : ∀ entry ∈ u.addSSTables, own entry.2.id)
    (applied : u.apply nowMs m = .ok next) : next.Owned own := by
  obtain ⟨removed, removal, -, rfl⟩ := ManifestUpdate.apply_ok applied
  intro level t listed
  rcases List.mem_append.mp
    ((ManifestUpdate.addAll_perm removed u.addSSTables level).mem_iff.mp listed) with old | new
  · exact h level t ((ManifestUpdate.removeAll_sublist removal level).subset old)
  · obtain ⟨entry, member, rfl⟩ := List.mem_map.mp new
    exact added entry (List.mem_filter.mp member).1

namespace ManifestState
variable {s : ManifestState}

theorem Owned.store (h : s.Owned own) {bucket : ObjectStore Nat Manifest} {id : Nat} {m : Manifest}
    (owned : m.Owned own) (stored : s.bucket.conditionalPut id m = some bucket) :
    ({ s with bucket }.setCurrent m).Owned own := by
  obtain ⟨-, rfl⟩ := ObjectStore.conditionalPut_some stored
  exact ⟨ObjectStore.forall_put h.stored owned, owned⟩

theorem Owned.loadLatest (h : s.Owned own) (nowMs : Nat) : (s.loadLatest nowMs).2.Owned own := by
  unfold ManifestState.loadLatest
  split
  · dsimp only
    split
    · rename_i bucket stored
      exact h.store (Manifest.owned_empty _ _) stored
    · split
      · rename_i stored found
        exact ⟨h.stored, h.stored _ _ found⟩
      · exact h
  · split
    · exact h
    · rename_i m found
      split
      · exact h
      · exact ⟨h.stored, h.stored _ _ found⟩

theorem Owned.tryUpdate (h : s.Owned own) (len : Manifest → Nat) {u : ManifestUpdate}
    (added : ∀ entry ∈ u.addSSTables, own entry.2.id) (nowMs attempts : Nat) :
    (s.tryUpdate len u nowMs attempts).2.Owned own := by
  induction attempts generalizing s with
  | zero => exact h
  | succ attempts ih =>
    unfold ManifestState.tryUpdate
    split
    · exact h
    rename_i written prepared
    split
    · rename_i bucket stored
      refine h.store ?_ stored
      obtain ⟨next, applied, same⟩ := ManifestManager.toWrite_ok prepared
      have owned := h.current.apply added applied
      rcases same with rfl | rfl <;> exact owned
    · split
      · exact h
      · have refreshed := h.loadLatest nowMs
        split
        · rename_i e t loaded
          rw [loaded] at refreshed
          exact refreshed
        · rename_i t loaded
          rw [loaded] at refreshed
          split
          · exact refreshed
          · exact ih refreshed

theorem Owned.update (h : s.Owned own) (len : Manifest → Nat) {u : ManifestUpdate}
    (added : ∀ entry ∈ u.addSSTables, own entry.2.id) (nowMs : Nat) :
    (s.update len u nowMs).2.Owned own := by
  unfold ManifestState.update
  split
  · exact h
  · split
    · exact h
    · exact h.tryUpdate len added nowMs maxCasRetries

theorem Owned.acquireEpoch (h : s.Owned own) (kind : EpochKind) (nowMs : Nat) :
    (s.acquireEpoch kind nowMs).2.Owned own := by
  unfold ManifestState.acquireEpoch
  have loaded := h.loadLatest nowMs
  split
  · rename_i e t result
    rw [result] at loaded
    exact loaded
  · rename_i t result
    rw [result] at loaded
    split
    · exact loaded
    · rename_i next applied
      split
      · rename_i bucket stored
        have owned : next.Owned own :=
          loaded.current.apply (by cases kind <;> simp [ManifestManager.epochUpdate]) applied
        obtain ⟨kept, -⟩ := loaded.store owned stored
        refine ⟨kept, ?_⟩
        cases kind <;> exact owned
      · exact loaded

end ManifestState

end Manifests

/-- A compaction beside one whose directory has tables of others. -/
structure CompactionState.Beside (own : SstId → Prop) (base : Tables) (s t : CompactionState) :
    Prop where
  manifest : t.manifest = s.manifest
  tables : Tables.Beside own base s.tables t.tables
  owned : s.manifest.Owned own

namespace CompactionExecutor
variable {own : SstId → Prop} {base : Tables}

theorem checkTriggers_owned {config : CompactionConfig} {m : Manifest} (owned : m.Owned own)
    {task : CompactionTask} (planned : task ∈ CompactionScheduler.checkTriggers config m) :
    (∀ t ∈ task.inputSSTables, own t.id) ∧ ∀ t ∈ task.targetSSTables, own t.id := by
  obtain ⟨low, high, plan⟩ := checkTriggers_planned planned
  exact ⟨fun t member => owned _ t (plan.inputs t member),
    fun t member => owned _ t (targets_mem plan member).1⟩

theorem get_beside {a b : Tables} (h : Tables.Beside own base a b) {t : SSTableMeta}
    (owned : own t.id) (level : Level) :
    b.get (t.sstPath level) = a.get (t.sstPath level) := by
  rw [SSTableMeta.sstPath_eq]
  exact h.mine ⟨level, t.id⟩ owned

theorem put_beside {a b : Tables} (h : Tables.Beside own base a b) {t : SSTableMeta}
    (owned : own t.id) (level : Level) (entries : List MergeEntry) :
    Tables.Beside own base (a.put (t.sstPath level) entries) (b.put (t.sstPath level) entries) := by
  rw [SSTableMeta.sstPath_eq]
  exact h.put owned entries

theorem copyTables_alike (source target : Level) {ts : List SSTableMeta}
    (owned : ∀ t ∈ ts, own t.id) :
    Alike (Tables.Beside own base) (copyTables source target ts) := by
  induction ts with
  | nil => exact Alike.pure _
  | cons t rest ih =>
    intro a b h
    have mine := owned t List.mem_cons_self
    unfold copyTables
    rw [get_beside h mine source]
    cases a.get (t.sstPath source) with
    | none => exact ⟨_, a, b, rfl, rfl, h⟩
    | some data =>
      exact ih (fun u member => owned u (List.mem_cons_of_mem _ member)) _ _
        (put_beside h mine target data)

theorem readTables_beside {a b : Tables} (h : Tables.Beside own base a b) (task : CompactionTask)
    {ts : List SSTableMeta} (owned : ∀ t ∈ ts, own t.id) :
    readTables b task ts = readTables a task ts := by
  induction ts with
  | nil => rfl
  | cons t rest ih =>
    simp only [readTables, get_beside h (owned t List.mem_cons_self),
      ih fun u member => owned u (List.mem_cons_of_mem _ member)]

theorem writeTables_beside {a b : Tables} (h : Tables.Beside own base a b) (level : Level)
    (outs : List (SSTableMeta × List MergeEntry)) (owned : ∀ out ∈ outs, own out.1.id) :
    Tables.Beside own base (writeTables level outs a) (writeTables level outs b) := by
  induction outs generalizing a b with
  | nil => exact h
  | cons out rest ih =>
    exact ih (put_beside h (owned out List.mem_cons_self) level out.2) fun other member =>
      owned other (List.mem_cons_of_mem _ member)

theorem deleteTables_beside {a b : Tables} (h : Tables.Beside own base a b) (level : Level)
    (ts : List SSTableMeta) (owned : ∀ t ∈ ts, own t.id) :
    Tables.Beside own base (ts.foldl (fun tables t => tables.delete (t.sstPath level)) a)
      (ts.foldl (fun tables t => tables.delete (t.sstPath level)) b) := by
  induction ts generalizing a b with
  | nil => exact h
  | cons t rest ih =>
    rw [List.foldl_cons, List.foldl_cons, SSTableMeta.sstPath_eq]
    exact ih (h.delete (owned t List.mem_cons_self)) fun u member =>
      owned u (List.mem_cons_of_mem _ member)

section Execute
variable (serializedLen : Manifest → Nat) {d : Drawn} {task : CompactionTask}

theorem moveTrivially_alike (inputs : ∀ t ∈ task.inputSSTables, own t.id) :
    Alike (CompactionState.Beside own base) (moveTrivially serializedLen d task) := by
  intro s t h
  obtain ⟨manifest, tables⟩ := t
  obtain rfl : manifest = s.manifest := h.manifest
  have copied : ∀ u ∈ doneBefore d.outputStop (doneBefore d.inputStop task.inputSSTables),
      own u.id := fun u member =>
    inputs u ((doneBefore_sublist _ _).subset ((doneBefore_sublist _ _).subset member))
  obtain ⟨r, a, b, left, right, shared⟩ := copyTables_alike task.sourceLevel task.targetLevel copied
    _ _ h.tables
  unfold moveTrivially
  simp only [left, right]
  cases r with
  | error e => exact ⟨_, _, _, rfl, rfl, rfl, shared, h.owned⟩
  | ok =>
    dsimp only
    split
    · exact ⟨_, _, _, rfl, rfl, rfl, shared, h.owned⟩
    split
    · exact ⟨_, _, _, rfl, rfl, rfl, shared, h.owned⟩
    have updated := h.owned.update serializedLen (u := compactionUpdate s.manifest.manager
      ((task.inputSSTables.map fun t => { t with createdAtMs := d.nowMs }).map fun t => (task.targetLevel, t))
      (task.inputSSTables.map fun t => (task.sourceLevel, t.id))) (by
        intro entry member
        obtain ⟨moved, copied, rfl⟩ := List.mem_map.mp member
        obtain ⟨input, listed, rfl⟩ := List.mem_map.mp copied
        exact inputs input listed) d.nowMs
    split
    · rename_i e m result
      rw [result] at updated
      exact ⟨_, _, _, rfl, rfl, rfl, shared, updated⟩
    · rename_i m result
      rw [result] at updated
      have removed := deleteTables_beside shared task.sourceLevel
        (doneBefore d.deleteStop task.inputSSTables)
        fun u member => inputs u ((doneBefore_sublist _ _).subset member)
      split
      · exact ⟨_, _, _, rfl, rfl, rfl, removed, updated⟩
      · exact ⟨_, _, _, rfl, rfl, rfl, removed, updated⟩

theorem mergeInputs_alike (config : CompactionConfig) (fileSize : List MergeEntry → Nat)
    (names : ∀ id, d.names id → own id) (inputs : ∀ t ∈ task.inputSSTables, own t.id)
    (targets : ∀ t ∈ task.targetSSTables, own t.id) :
    Alike (CompactionState.Beside own base) (mergeInputs config fileSize serializedLen d task) := by
  intro s t h
  obtain ⟨manifest, tables⟩ := t
  obtain rfl : manifest = s.manifest := h.manifest
  have all : ∀ t ∈ task.inputSSTables ++ task.targetSSTables, own t.id := fun t member =>
    (List.mem_append.mp member).elim (inputs t) (targets t)
  unfold mergeInputs
  simp only [readTables_beside h.tables task all]
  split
  · exact ⟨_, _, _, rfl, rfl, rfl, h.tables, h.owned⟩
  split
  · exact ⟨_, _, _, rfl, rfl, rfl, h.tables, h.owned⟩
  rename_i contents read
  generalize cut : outputs fileSize d config.targetFragmentSize
    (merge task.targetLevel.isBottom contents) = outs
  have named : ∀ out ∈ outs, own out.1.id := by
    intro out member
    rw [← cut] at member
    exact names _ ((outputs_spec fileSize d _ _).1 out member).2
  have written := writeTables_beside h.tables task.targetLevel (doneBefore d.outputStop outs)
    fun out member => named out ((doneBefore_sublist _ _).subset member)
  split
  · exact ⟨_, _, _, rfl, rfl, rfl, written, h.owned⟩
  split
  · exact ⟨_, _, _, rfl, rfl, rfl, written, h.owned⟩
  have updated := h.owned.update serializedLen (u := compactionUpdate s.manifest.manager
    (outs.map fun out => (task.targetLevel, out.1))
    ((task.inputSSTables.map fun t => (task.sourceLevel, t.id)) ++ task.targetSSTables.map fun t =>
      (task.targetLevel, t.id))) (by
      intro entry member
      obtain ⟨out, made, rfl⟩ := List.mem_map.mp member
      exact named out made) d.nowMs
  split
  · rename_i e m result
    rw [result] at updated
    exact ⟨_, _, _, rfl, rfl, rfl, written, updated⟩
  · rename_i m result
    rw [result] at updated
    exact ⟨_, _, _, rfl, rfl, rfl, written, updated⟩

theorem execute_alike (config : CompactionConfig) (fileSize : List MergeEntry → Nat)
    (names : ∀ id, d.names id → own id) (inputs : ∀ t ∈ task.inputSSTables, own t.id)
    (targets : ∀ t ∈ task.targetSSTables, own t.id) :
    Alike (CompactionState.Beside own base) (execute config fileSize serializedLen d task) := by
  intro s t h
  unfold execute
  split
  · exact moveTrivially_alike serializedLen inputs s t h
  · exact mergeInputs_alike serializedLen config fileSize names inputs targets s t h

end Execute

end CompactionExecutor

end FlushDB
