import FlushDB.Engine.WrittenOnce

/-!
What the manifest records of a table is what its object holds. Flushes and merges record what they
write, a move records its source again, and since tables are written once it stays right in every
run: the sizes that compactions add up and the keys and numbers that reads go by are those of the
objects.
-/

namespace FlushDB
open Lib ManifestBucket

/-- The size, the counts and the bounds of a manifest entry are those of these entries. -/
structure SSTableMeta.Records (fileSize : List MergeEntry → Nat) (t : SSTableMeta)
    (entries : List MergeEntry) : Prop where
  sizeBytes : t.sizeBytes = fileSize entries
  entryCount : t.entryCount = entries.length
  keys : CompactionExecutor.Described (t, entries)
  sequenceRange : t.sequenceRange = SSTableMeta.sequenceRangeOf entries
  recordIdCount : t.recordIdCount = (entries.map fun e => e.compositeKey.recordId).dedup.length

/-- A table whose name is drawn and whose objects are as recorded. -/
structure SSTableMeta.Tells (fileSize : List MergeEntry → Nat) (drawn : SstId → Prop)
    (tables : Tables) (t : SSTableMeta) : Prop where
  drawn : drawn t.id
  records : ∀ level entries, tables.get ⟨level, t.id⟩ = some entries → t.Records fileSize entries

namespace SSTableMeta
variable {fileSize : List MergeEntry → Nat} {drawn drawn' : SstId → Prop} {tables tables' : Tables}
  {t : SSTableMeta}
  {entries : List MergeEntry}

theorem ofEntries_records (fileSize : List MergeEntry → Nat) (file : SstId) (nowMs : Nat)
    (first : MergeEntry) (rest : List MergeEntry) :
    (ofEntries fileSize file nowMs first rest).Records fileSize (first :: rest) :=
  ⟨rfl, rfl, CompactionExecutor.ofEntries_described fileSize file nowMs first rest, rfl, rfl⟩

theorem Records.asFragment (h : t.Records fileSize entries) (runId : String) (index : Nat) :
    (t.asFragment runId index).Records fileSize entries :=
  ⟨h.sizeBytes, h.entryCount, h.keys, h.sequenceRange, h.recordIdCount⟩

theorem Tells.mono (h : t.Tells fileSize drawn tables) (more : ∀ id, drawn id → drawn' id) :
    t.Tells fileSize drawn' tables :=
  ⟨more _ h.drawn, h.records⟩

theorem Tells.step (h : t.Tells fileSize drawn tables)
    (hands : tables.Inherits drawn drawn' tables') :
    t.Tells fileSize drawn' tables' := by
  refine ⟨hands.more _ h.drawn, ?_⟩
  intro level entries found
  rcases hands.from_before ⟨level, t.id⟩ entries found with ⟨⟨level', id⟩, same, before⟩ | ⟨new, -⟩
  · obtain rfl : id = t.id := same
    exact h.records level' entries before
  · exact absurd h.drawn new

/-- A move dates the entry anew. -/
theorem Tells.dated (h : t.Tells fileSize drawn tables) (nowMs : Nat) :
    SSTableMeta.Tells fileSize drawn tables { t with createdAtMs := nowMs } := by
  refine ⟨h.drawn, ?_⟩
  intro level entries found
  have records := h.records level entries found
  exact ⟨records.sizeBytes, records.entryCount, records.keys, records.sequenceRange,
    records.recordIdCount⟩

/-- A table that has been written with what it records. -/
theorem Tells.written (once : tables.WrittenOnce drawn) {level : Level}
    (found : tables.get ⟨level, t.id⟩ = some entries) (records : t.Records fileSize entries) :
    t.Tells fileSize drawn tables := by
  refine ⟨once.named _ (Option.isSome_of_eq_some found), ?_⟩
  intro level' entries' found'
  rwa [once.same ⟨level', t.id⟩ ⟨level, t.id⟩ entries' entries found' found rfl]

end SSTableMeta

namespace CompactionExecutor
variable {drawn : SstId → Prop} {config : CompactionConfig} {fileSize : List MergeEntry → Nat}
  {serializedLen : Manifest → Nat}
  {d : Drawn} {task : CompactionTask} {s s' : CompactionState} {r : FlushResult CompactionResult}

theorem nameFragments_records (fragments : List (List MergeEntry)) (index : Nat) :
    ∀ out ∈ nameFragments fileSize d index fragments, out.1.Records fileSize out.2 := by
  induction fragments generalizing index with
  | nil =>
    intro out member
    cases member
  | cons fragment rest ih =>
    cases fragment with
    | nil => exact ih (index + 1)
    | cons first entries =>
      intro out member
      rcases List.mem_cons.mp member with rfl | later
      · exact (SSTableMeta.ofEntries_records fileSize _ _ first entries).asFragment _ _
      · exact ih (index + 1) out later

theorem outputs_records (target : Nat) (merged : List MergeEntry) :
    ∀ out ∈ outputs fileSize d target merged, out.1.Records fileSize out.2 := by
  unfold outputs
  split
  · intro out member
    cases member
  · intro out member
    obtain rfl := List.mem_singleton.mp member
    exact SSTableMeta.ofEntries_records fileSize _ _ _ _
  · exact nameFragments_records _ 0
  · exact nameFragments_records _ 0

/-- After an update the lists hold what they held and what it adds. -/
theorem updated_listed {P : SSTableMeta → Prop} {u : ManifestUpdate} {m m' : ManifestState}
    (updated : ManifestState.Updated u m m') (old : ∀ level, ∀ t ∈ tablesAt m.bucket level, P t)
    (added : ∀ level, ∀ t ∈ ManifestUpdate.addedAt u.addSSTables level, P t) :
    ∀ level, ∀ t ∈ tablesAt m'.bucket level, P t := by
  intro level t member
  rcases List.mem_append.mp ((updated.lists level).mem_iff.mp member) with before | new
  · exact old level t (List.mem_filter.mp before).1
  · exact added level t new

/-- What an execution lists was listed before, or is recorded by it. -/
theorem execute_tells (latest : s.manifest.Latest) (keyed : Keyed s.manifest.bucket)
    (distinct : ∀ level, ((tablesAt s.manifest.bucket level).map SSTableMeta.id).Nodup)
    (once : s.tables.WrittenOnce drawn) (moves : task.sourceLevel ≠ task.targetLevel)
    (fresh : ∀ id, d.names id → ¬ drawn id)
    (listed : ∀ level, ∀ t ∈ tablesAt s.manifest.bucket level, t.Tells fileSize drawn s.tables)
    (inputs : ∀ t ∈ task.inputSSTables, t.Tells fileSize drawn s.tables)
    (h : execute config fileSize serializedLen d task s = (r, s')) :
    ∀ level, ∀ t ∈ tablesAt s'.manifest.bucket level,
      t.Tells fileSize (fun id => drawn id ∨ d.names id) s'.tables := by
  have hands := execute_inherits once moves fresh h
  have old : ∀ level, ∀ t ∈ tablesAt s.manifest.bucket level,
      t.Tells fileSize (fun id => drawn id ∨ d.names id) s'.tables :=
    fun level t member => (listed level t member).step hands
  unfold execute at h
  split at h
  · cases moveTrivially_outcome h with
    | uncommitted part copies kept =>
      obtain rfl := kept.same latest
      exact old
    | committed copies stored =>
      refine updated_listed (latest.updated keyed distinct stored) old ?_
      intro level t added
      simp only [compactionUpdate, addedAt_level] at added
      split at added
      · obtain ⟨u, input, rfl⟩ := List.mem_map.mp added
        exact ((inputs u input).step hands).dated d.nowMs
      · cases added
  · cases mergeInputs_outcome h with
    | unread => exact old
    | uncommitted read kept =>
      obtain rfl := kept.same latest
      exact old
    | @committed contents outs _ _ read cut reads writes reached stored =>
      refine updated_listed (latest.updated keyed distinct stored) old ?_
      intro level t added
      have adds : (outs.map fun out => (task.targetLevel, out.1)) =
          (outs.map Prod.fst).map fun t => (task.targetLevel, t) := by
        rw [List.map_map]
        rfl
      simp only [compactionUpdate, adds, addedAt_level] at added
      split at added
      · obtain ⟨out, inside, rfl⟩ := List.mem_map.mp added
        have produced := cut.symm ▸ inside
        have names := (outputs_spec fileSize d config.targetFragmentSize
          (merge task.targetLevel.isBottom contents)).2
        have found := (@writeTables_get task.targetLevel outs s.tables (cut ▸ names)).1 out inside
        rw [SSTableMeta.sstPath_eq] at found
        exact .written (hands.writeOnce once) found (outputs_records _ _ out produced)
      · cases added

end CompactionExecutor

/-- The entries of the newest manifest are those of the stored objects. -/
def Stored.Told (env : Env) (st : Stored) : Prop :=
  ∀ level, ∀ t ∈ tablesAt st.manifests level, t.Tells env.fileSize (st.Drawn env) st.tables

namespace Engine
variable {env : Env} {s t : Engine}

theorem Told.step {st st' : Stored} (told : st.Told env)
    (lists : ∀ level, tablesAt st'.manifests level = tablesAt st.manifests level)
    (hands : Hands env st st') : st'.Told env := by
  intro level u member
  rw [lists level] at member
  exact (told level u member).step hands

theorem compact_told (unique : Function.Injective env.ulid) (sound : s.Sound env)
    (latest : s.manifest.Latest) (told : s.Told env) {draw : CompactionDraw} {task : CompactionTask}
    (moves : task.sourceLevel ≠ task.targetLevel)
    (inputs : ∀ u ∈ task.inputSSTables, u.Tells env.fileSize (s.Drawn env) s.tables)
    {r : FlushResult Unit} (h : compact env draw task s = (r, t)) : t.Told env := by
  obtain ⟨result, left, levels, pending, executed, rfl⟩ := compact_frame h
  intro level u member
  have tells := @CompactionExecutor.execute_tells
    (s.Drawn env) _ _ _ _ task s.compactionState _ _ latest sound.keyed
    (Lists.nodup_level sound.shelf.distinct) sound.shelf.writtenOnce moves
      (compact_fresh unique draw s) told inputs executed
  exact (tells level u member).mono (compact_drawn draw s)

/-- The tables that a check plans with are still as recorded when their turn comes. -/
theorem maybeCompact_told (unique : Function.Injective env.ulid) (sound : s.Sound env)
    (latest : s.manifest.Latest) (told : s.Told env) {draw : Nat → CompactionDraw}
    {r : FlushResult Unit} (h : maybeCompact env draw s = (r, t)) : t.Told env := by
  have once := sound.shelf.writtenOnce
  suffices all : Compacted env s t ∧ Hands env s.toStored t.toStored ∧ t.Told env from all.2.2
  refine @compactAll_keeps env (fun u => Compacted env s u ∧ Hands env s.toStored u.toStored ∧
    u.Told env) _ _ ?_ _ _ _
    ⟨.refl sound latest, Lib.Inherits.refl once, told⟩ h
  rintro task member i u r v ⟨compacted, hands, told_u⟩ one
  obtain ⟨low, high, plan⟩ := CompactionExecutor.checkTriggers_planned member
  have moves := CompactionExecutor.levels_differ plan
  have ordered : u.wal.Ordered := by
    rw [compacted.frame]
    exact sound.ordered
  have sound_u : u.Sound env := ⟨compacted.keyed, ordered, compacted.shelf⟩
  refine ⟨compacted.trans (compact_compacted unique moves sound_u compacted.latest one).1,
    hands.trans once (compact_hands unique (hands.writeOnce once) moves one), ?_⟩
  refine compact_told unique sound_u compacted.latest told_u moves ?_ one
  intro input asked
  have listed : input ∈ tablesAt s.manifests task.sourceLevel := by
    rw [show tablesAt s.manifests task.sourceLevel = _ from latest.tablesAt_eq task.sourceLevel]
    exact plan.inputs input asked
  exact (told task.sourceLevel input listed).step hands

theorem flush_told (unique : Function.Injective env.ulid) (standing : Standing env s)
    (told : s.Told env) {frozen : Memtable} {draw : FlushDraw} {r : FlushResult SSTableMeta}
    (h : flush env frozen draw s = (r, t)) : t.Told env := by
  have once := standing.shelf.writtenOnce
  have hands := flush_hands unique once h
  have before : ∀ level, tablesAt s.manifests level =
      s.manifestManager.current.sstablesAtLevel level := standing.latest.tablesAt_eq
  cases r with
  | error e =>
    obtain ⟨after, same, -⟩ := flush_refused unique standing h
    refine Told.step told ?_ hands
    intro level
    rw [before level, ← same]
    exact after.latest.tablesAt_eq level
  | ok table =>
    obtain ⟨after, -, listed⟩ := flush_listed unique standing h
    intro level u member
    rw [show tablesAt t.manifests level = _ from after.latest.tablesAt_eq level] at member
    rcases List.mem_append.mp ((listed level).mem_iff.mp member) with old | new
    · rw [← before level] at old
      exact (told level u old).step hands
    · split at new
      · obtain rfl := List.mem_singleton.mp new
        cases flush_ends h with
        | committed nodes succeeds made stored =>
          subst made
          exact .written (hands.writeOnce once) (ObjectStore.get_put_self _ _ _)
            (SSTableMeta.ofEntries_records _ _ _ _ _)
      · cases new

theorem Change.told (unique : Function.Injective env.ulid) {new : List MemtableEntry}
    (change : Change env s new t) (ready : Ready env s) (told : s.Told env) : t.Told env := by
  have popped := (popped_ready ready).standing
  cases change with
  | aside frame =>
    rw [frame]
    exact told
  | inserted entry => exact told
  | committed nonempty flushed => exact flush_told unique popped told flushed
  | @dropped _ _ left nonempty failed =>
    exact @flush_told env s.popped left unique popped told _ _ _ failed
  | compacted compacts => exact maybeCompact_told unique ready.toSound ready.latest told compacts

end Engine

namespace World
variable {env : Env} {w w' : World} {a : Label}

theorem step_told (unique : Function.Injective env.ulid) (ready : Ready env w)
    (told : w.disk.Told env) (taken : step env w a = some w') : w'.disk.Told env := by
  have hands := step_hands unique ready taken
  have called : a.isCall → w'.disk.Told env := by
    intro call
    obtain ⟨s, active⟩ := call_active call taken
    obtain ⟨s', done, active', -, -, chain, -⟩ :=
      call_changes unique call active (ready.engine s active) taken
    rw [disk_of_engine active] at told
    rw [disk_of_engine active']
    exact chain.keeps (P := fun t => t.Told env)
      (fun _ _ _ before _ change kept => change.told unique before kept)
      (ready.engine s active) told
  cases a with
  | openEngine nowMs fault =>
    obtain ⟨closed, ⟨st, reloaded, rfl⟩ | ⟨s, launched, rfl⟩⟩ := openEngine_cases ready.stored taken
    · refine Engine.Told.step told ?_ hands
      intro level
      rw [disk_closed closed, @disk_closed { w with stored := st } closed]
      exact reloaded.view.1 level
    · refine Engine.Told.step told ?_ hands
      intro level
      rw [disk_closed closed]
      exact launched.listed.1 level
  | crash torn =>
    obtain ⟨s, active, rfl⟩ := Option.map_eq_some_iff.mp taken
    rw [disk_of_engine active] at told
    exact told
  | _ => exact called rfl

theorem exec_told (unique : Function.Injective env.ulid) {labels : List Label}
    (run : exec (step env) {} labels = some w) :
    Ready env w ∧ w.disk.Told env := by
  have start : Stored.Told env (World.disk {}) := by
    intro level t member
    cases member
  have kept : ∀ u b v, Ready env u ∧ u.disk.Told env → step env u b = some v → Ready env v ∧
      v.disk.Told env :=
    fun u b v before taken => ⟨step_ready unique before.1 taken, step_told unique before.1 before.2 taken⟩
  exact exec_keeps kept ⟨ready_empty env, start⟩ run

/-- In every run, whatever fails in it, each table that the newest manifest lists has its object,
and its entry gives the size, the number of entries and of records, the first and the last key and
the range of sequence numbers of that object. -/
theorem manifest_records_tables (unique : Function.Injective env.ulid) {labels : List Label}
    (run : exec (step env) {} labels = some w) {level : Level} {t : SSTableMeta}
    (listed : t ∈ tablesAt w.disk.manifests level) :
    ∃ entries, w.disk.tables.get (t.sstPath level) = some entries ∧
      t.Records env.fileSize entries := by
  obtain ⟨ready, told⟩ := exec_told unique run
  obtain ⟨entries, found⟩ := Option.isSome_iff_exists.mp (ready.shelf.present level t listed)
  refine ⟨entries, ?_, (told level t listed).records level entries found⟩
  rw [SSTableMeta.sstPath_eq]
  exact found

section Example

/-- After a compaction whose second plan was stale every level lists what its objects are. -/
theorem manifest_records_tables_stale :
    ∃ w t entries, exec (step conflictEnv) {} (conflictRun 2 ++ [.maybeCompact fun _ => {}]) = some w ∧
      t ∈ tablesAt w.disk.manifests .L1 ∧ w.disk.tables.get (t.sstPath .L1) = some entries ∧
        t.entryCount = entries.length := by
  have runs : ((exec (step conflictEnv) {} (conflictRun 2 ++ [.maybeCompact fun _ => {}])).map fun w =>
      (tablesAt w.disk.manifests .L1).isEmpty) = some false := by decide +kernel
  obtain ⟨w, run, some_listed⟩ := Option.map_eq_some_iff.mp runs
  obtain ⟨t, listed⟩ := List.exists_mem_of_ne_nil _ (List.isEmpty_eq_false_iff.mp some_listed)
  obtain ⟨entries, found, records⟩ := @manifest_records_tables conflictEnv _
    (sampleEnv_unique 100) _ run _ _ listed
  exact ⟨w, t, entries, run, listed, found, records.entryCount⟩

end Example

end World

end FlushDB
