import FlushDB.Compaction.Ownership
import FlushDB.Engine.World

/-!
An engine whose directory of tables is also written by others. Its calls answer and store as they
would if it were alone, and leave the tables of the others as they are: every table it
opens, reads, moves or removes is named by one of its own ULIDs.
-/

namespace FlushDB
open Lib

/-- The names made of the ULIDs that the engine draws. -/
def Env.Draws (env : Env) (own : SstId → Prop) : Prop :=
  ∀ k, own (.single (env.ulid k)) ∧ ∀ i, own (.fragment (env.ulid k) i)

def Stored.Owned (own : SstId → Prop) (st : Stored) : Prop :=
  ∀ id m, st.manifests.get id = some m → m.Owned own

/-- The storage of an engine beside the same storage with tables of others. -/
structure Stored.Beside (own : SstId → Prop) (base : Tables) (s t : Stored) : Prop where
  frame : t = { s with tables := t.tables }
  tables : Tables.Beside own base s.tables t.tables
  owned : s.Owned own

def Levels.Owned (own : SstId → Prop) (levels : List LevelState) : Prop :=
  ∀ l ∈ levels, ∀ h ∈ l.handles, own h.path.file

namespace Engine

structure Owned (own : SstId → Prop) (s : Engine) : Prop extends s.manifest.Owned own where
  handles : Levels.Owned own s.levels

structure Beside (own : SstId → Prop) (base : Tables) (s t : Engine) : Prop where
  frame : t = { s with tables := t.tables }
  tables : Tables.Beside own base s.tables t.tables
  owned : s.Owned own

variable {own : SstId → Prop} {base : Tables}

theorem Beside.split {s t : Engine} (h : Beside own base s t) :
    ∃ tables, t = { s with tables } ∧ Tables.Beside own base s.tables tables ∧ s.Owned own :=
      ⟨t.tables, h.frame, h.tables, h.owned⟩

theorem beside {s : Engine} {tables : Tables} (shared : Tables.Beside own base s.tables tables)
    (owned : s.Owned own) :
    Beside own base s { s with tables } := ⟨rfl, shared, owned⟩

section Opening
variable {a b : Tables}

theorem openTables_beside (h : Tables.Beside own base a b) (level : Level)
    {listed : List SSTableMeta} (owned : ∀ t ∈ listed, own t.id) :
    openTables b level listed = openTables a level listed := by
  induction listed with
  | nil => rfl
  | cons t rest ih =>
    simp only [openTables, openTable, CompactionExecutor.get_beside h (owned t List.mem_cons_self) level,
      ih fun u member => owned u (List.mem_cons_of_mem _ member)]

theorem openLevel_beside (h : Tables.Beside own base a b) (level : Level)
    {listed : List SSTableMeta} (owned : ∀ t ∈ listed, own t.id) :
    openLevel b level listed = openLevel a level listed := by
  unfold openLevel
  rw [openTables_beside h level owned]

theorem openLevels_beside (h : Tables.Beside own base a b) {m : Manifest} (owned : m.Owned own)
    (levels : List Level) :
    openLevels b m levels = openLevels a m levels := by
  induction levels with
  | nil => rfl
  | cons level rest ih => simp only [openLevels, openLevel_beside h level (owned level), ih]

theorem openTables_owned {level : Level} {listed : List SSTableMeta} {handles : List SSTableHandle}
    (owned : ∀ t ∈ listed, own t.id) (h : openTables a level listed = .ok handles) :
    ∀ x ∈ handles, own x.path.file := by
  induction listed generalizing handles with
  | nil =>
    obtain rfl := Except.ok.inj h
    rintro x ⟨⟩
  | cons t rest ih =>
    unfold openTables at h
    split at h
    · cases h
    rename_i handle first
    split at h
    · cases h
    rename_i later others
    obtain rfl := Except.ok.inj h
    intro x member
    rcases List.mem_cons.mp member with rfl | after
    · unfold openTable at first
      split at first
      · cases first
      · obtain rfl := Except.ok.inj first
        rw [SSTableMeta.sstPath_eq]
        exact owned t List.mem_cons_self
    · exact ih (fun u member => owned u (List.mem_cons_of_mem _ member)) others x after

theorem openLevels_owned {m : Manifest} (owned : m.Owned own) (levels : List Level) :
    Levels.Owned own (openLevels a m levels).2 := by
  induction levels with
  | nil => rintro l ⟨⟩
  | cons level rest ih =>
    unfold openLevels
    split
    · rintro l ⟨⟩
    rename_i state opened
    intro l member
    rcases List.mem_cons.mp member with rfl | later
    · unfold openLevel at opened
      split at opened
      · cases opened
      rename_i handles found
      obtain rfl := Except.ok.inj opened
      intro x held
      refine openTables_owned (owned level) found x ?_
      dsimp only at held
      split at held
      · exact held
      · exact (List.mergeSort_perm _ _).mem_iff.mp held
    · exact ih l later

end Opening

section Calls
variable {env : Env}

theorem rebuildLevels_alike (fault : Option CompactionFault) :
    Alike (Beside own base) (rebuildLevels fault) := by
  intro s t h
  obtain ⟨tables, rfl, shared, owned⟩ := h.split
  have current : s.manifestManager.current.Owned own := owned.current
  unfold rebuildLevels
  simp only [openLevels_beside shared current]
  cases Level.all.find? fun level => fault = some (.openTable level) ∧
    ¬ (s.manifestManager.current.sstablesAtLevel level).isEmpty with
  | none =>
    exact ⟨_, _, _, rfl, rfl, beside shared ⟨⟨owned.stored, owned.current⟩, openLevels_owned current _⟩⟩
  | some level =>
    exact ⟨_, _, _, rfl, rfl, beside shared ⟨⟨owned.stored, owned.current⟩, openLevels_owned current _⟩⟩

theorem compact_alike (draws : env.Draws own) (draw : CompactionDraw) {task : CompactionTask}
    (inputs : ∀ t ∈ task.inputSSTables, own t.id) (targets : ∀ t ∈ task.targetSSTables, own t.id) :
    Alike (Beside own base) (compact env draw task) := by
  intro s t h
  obtain ⟨tables, rfl, shared, owned⟩ := h.split
  have names : ∀ id, (⟨draw.nowMs, env.ulid s.drawn, env.ulid (s.drawn + 1), draw.fault⟩ :
      Drawn).names id → own id := by
    rintro id (rfl | ⟨i, rfl⟩)
    · exact (draws (s.drawn + 1)).1
    · exact (draws s.drawn).2 i
  obtain ⟨r, u, v, left, right, manifest, after, kept⟩ :=
    CompactionExecutor.execute_alike env.serializedLen env.config.compactionConfig
    env.fileSize names inputs targets ⟨s.manifest, s.tables⟩ ⟨s.manifest, tables⟩
      ⟨rfl, shared, owned.toOwned⟩
  unfold compact
  rw [show ({ s with tables } : Engine).manifest = s.manifest from rfl]
  dsimp only
  rw [left, right]
  obtain ⟨m, b⟩ := v
  obtain rfl : m = u.manifest := manifest
  cases r with
  | error e => exact ⟨_, _, _, rfl, rfl, beside after ⟨⟨kept.stored, kept.current⟩, owned.handles⟩⟩
  | ok result =>
    exact rebuildLevels_alike draw.fault _ _ (beside after ⟨⟨kept.stored, kept.current⟩, owned.handles⟩)

theorem compactAll_alike (draws : env.Draws own) (draw : Nat → CompactionDraw)
    {tasks : List CompactionTask}
    (owned : ∀ task ∈ tasks, (∀ t ∈ task.inputSSTables, own t.id) ∧
      ∀ t ∈ task.targetSSTables, own t.id) :
    Alike (Beside own base) (compactAll env draw tasks) := by
  induction tasks with
  | nil => exact Alike.pure _
  | cons task rest ih =>
    intro s t h
    obtain ⟨inputs, targets⟩ := owned task List.mem_cons_self
    obtain ⟨r, u, v, left, right, next⟩ := compact_alike draws (draw rest.length) inputs targets s t h
    unfold compactAll
    rw [left, right]
    cases r with
    | error e => exact ⟨_, _, _, rfl, rfl, next⟩
    | ok => exact ih (fun other member => owned other (List.mem_cons_of_mem _ member)) u v next

theorem maybeCompact_alike (draws : env.Draws own) (draw : Nat → CompactionDraw) :
    Alike (Beside own base) (maybeCompact env draw) := by
  intro s t h
  have planned : ∀ task ∈ CompactionScheduler.checkTriggers env.config.compactionConfig
      s.manifestManager.current, _ :=
    fun task member => CompactionExecutor.checkTriggers_owned h.owned.current member
  obtain ⟨tables, rfl, shared, owned⟩ := h.split
  exact compactAll_alike draws draw planned s _ h

theorem flush_alike (draws : env.Draws own) (frozen : Memtable) (draw : FlushDraw) :
    Alike (Beside own base) (flush env frozen draw) := by
  intro s t h
  obtain ⟨tables, rfl, shared, owned⟩ := h.split
  unfold flush
  dsimp only
  split
  · exact ⟨_, _, _, rfl, rfl, h⟩
  rename_i first rest _
  split
  · exact ⟨_, _, _, rfl, rfl, beside shared ⟨⟨owned.stored, owned.current⟩, owned.handles⟩⟩
  generalize made : SSTableMeta.ofEntries env.fileSize
    (.single (env.ulid s.drawn)) draw.nowMs first rest = table
  have mine : own table.id := made ▸ (draws s.drawn).1
  have stored := CompactionExecutor.put_beside shared mine .L0 (first :: rest)
  split
  · exact ⟨_, _, _, rfl, rfl, beside stored ⟨⟨owned.stored, owned.current⟩, owned.handles⟩⟩
  have updated := owned.toOwned.update env.serializedLen (u :=
    { trigger := .flush
      addSSTables := [(.L0, table)]
      removeSSTables := []
      newLastFlushedSequence := some table.sequenceRange.2
      writerEpoch := s.manifestManager.writerEpoch
      compactorEpoch := s.manifestManager.compactorEpoch }) (by simp [mine]) draw.nowMs
  simp only [manifest] at updated ⊢
  split
  · rename_i e m result
    rw [result] at updated
    exact ⟨_, _, _, rfl, rfl, beside stored ⟨⟨updated.stored, updated.current⟩, owned.handles⟩⟩
  · rename_i m result
    rw [result] at updated
    exact ⟨_, _, _, rfl, rfl, beside stored ⟨⟨updated.stored, updated.current⟩, owned.handles⟩⟩

/-- The table that a flush commits is named by the ULID it drew. -/
theorem flush_names (draws : env.Draws own) {frozen : Memtable} {draw : FlushDraw} {s s' : Engine}
    {table : SSTableMeta} (h : flush env frozen draw s = (.ok table, s')) : own table.id := by
  cases flush_ends h with
  | committed nodes succeeds made =>
    rw [← made]
    exact (draws s.drawn).1

theorem pushHandle_owned {levels : List LevelState} {handle : SSTableHandle}
    (owned : Levels.Owned own levels) (mine : own handle.path.file) :
    Levels.Owned own (pushHandle handle levels) := by
  have padded : Levels.Owned own (if levels.isEmpty then
      Level.all.map fun level => { level } else levels) := by
    split
    · intro l member h held
      obtain ⟨level, -, rfl⟩ := List.mem_map.mp member
      cases held
    · exact owned
  unfold pushHandle
  split
  · rintro l ⟨⟩
  · rename_i first rest shape
    rw [shape] at padded
    intro l member h held
    rcases List.mem_cons.mp member with rfl | later
    · rcases List.mem_append.mp held with old | new
      · exact padded first List.mem_cons_self h old
      · rw [List.mem_singleton.mp new]
        exact mine
    · exact padded l (List.mem_cons_of_mem _ later) h held

theorem cleanupSegments_alike (failing : Option Nat) (segments : List Nat) :
    Alike (Beside own base) (cleanupSegments failing segments) := by
  intro s t h
  obtain ⟨tables, rfl, shared, owned⟩ := h.split
  exact ⟨_, _, _, rfl, rfl, beside shared ⟨⟨owned.stored, owned.current⟩, owned.handles⟩⟩

theorem finishFlush_alike (draws : env.Draws own) (generation : Nat) {table : SSTableMeta}
    (mine : own table.id) (draw : FlushDraw) :
    Alike (Beside own base) (finishFlush env generation table draw) := by
  intro s t h
  obtain ⟨tables, rfl, shared, owned⟩ := h.split
  obtain ⟨r, u, v, left, right, next⟩ := cleanupSegments_alike draw.failing
    (s.walManager.markGenerationFlushed generation).1
    { s with walManager := (s.walManager.markGenerationFlushed generation).2 } _
    (beside shared ⟨⟨owned.stored, owned.current⟩, owned.handles⟩)
  unfold finishFlush
  dsimp only
  rw [left, right]
  cases r with
  | error e => exact ⟨_, _, _, rfl, rfl, next⟩
  | ok =>
    obtain ⟨after, rfl, shared, owned⟩ := next.split
    dsimp only
    split
    · exact ⟨_, _, _, rfl, rfl, next⟩
    simp only [openTable, CompactionExecutor.get_beside shared mine .L0]
    cases u.tables.get (table.sstPath .L0) with
    | none => exact ⟨_, _, _, rfl, rfl, next⟩
    | some entries =>
      refine maybeCompact_alike draws draw.compaction _ _
        (beside shared ⟨⟨owned.stored, owned.current⟩, ?_⟩)
      refine pushHandle_owned owned.handles ?_
      rw [SSTableMeta.sstPath_eq]
      exact mine

theorem flushFrozen_alike (draws : env.Draws own) (draw : FlushDraw) :
    Alike (Beside own base) (flushFrozen env draw) := by
  intro s t h
  obtain ⟨tables, rfl, shared, owned⟩ := h.split
  unfold flushFrozen
  dsimp only
  split
  · exact ⟨_, _, _, rfl, rfl, h⟩
  rename_i generation frozen memtableList _
  obtain ⟨r, u, v, left, right, next⟩ := flush_alike draws frozen draw { s with memtableList } _
    (beside shared ⟨⟨owned.stored, owned.current⟩, owned.handles⟩)
  rw [left, right]
  cases r with
  | error e =>
    obtain ⟨after, rfl, shared, owned⟩ := next.split
    exact ⟨_, _, _, rfl, rfl, beside shared ⟨⟨owned.stored, owned.current⟩, owned.handles⟩⟩
  | ok table => exact finishFlush_alike draws generation (flush_names draws left) draw u v next

theorem freezeActive_alike : Alike (Beside own base) freezeActive := by
  intro s t h
  obtain ⟨tables, rfl, shared, owned⟩ := h.split
  unfold freezeActive
  dsimp only
  split
  · exact ⟨_, _, _, rfl, rfl, h⟩
  · exact ⟨_, _, _, rfl, rfl, beside shared ⟨⟨owned.stored, owned.current⟩, owned.handles⟩⟩

theorem flushAllFrozen_alike (draws : env.Draws own) (draw : Nat → FlushDraw) (fuel : Nat) :
    Alike (Beside own base) (flushAllFrozen env draw fuel) := by
  induction fuel with
  | zero => exact Alike.pure _
  | succ fuel ih =>
    intro s t h
    have list : t.memtableList = s.memtableList := by rw [h.frame]
    unfold flushAllFrozen
    rw [list]
    split
    · obtain ⟨r, u, v, left, right, next⟩ := flushFrozen_alike draws (draw fuel) s t h
      rw [left, right]
      cases r with
      | error e => exact ⟨_, _, _, rfl, rfl, next⟩
      | ok => exact ih u v next
    · exact ⟨_, _, _, rfl, rfl, h⟩

theorem maybeFreezeAndFlush_alike (draws : env.Draws own) (freeze : Bool) (draw : FlushDraw) :
    Alike (Beside own base) (maybeFreezeAndFlush env freeze draw) := by
  intro s t h
  unfold maybeFreezeAndFlush
  split
  · obtain ⟨r, u, v, left, right, next⟩ := freezeActive_alike s t h
    rw [left, right]
    cases r with
    | error e => exact ⟨_, _, _, rfl, rfl, next⟩
    | ok => exact flushFrozen_alike draws draw u v next
  · exact ⟨_, _, _, rfl, rfl, h⟩

theorem appendWal_beside {s t : Engine} (h : Beside own base s t) (entries : List MemtableEntry)
    (late : Bool) :
    (∃ e, appendWal env entries late s = .error e ∧ appendWal env entries late t = .error e) ∨
      ∃ u v, appendWal env entries late s = .ok u ∧ appendWal env entries late t = .ok v ∧
        Beside own base u v := by
  obtain ⟨tables, rfl, shared, owned⟩ := h.split
  unfold appendWal
  dsimp only
  cases s.walManager.append s.wal (entries.map fun e =>
    WalEntry.fromMemtableEntry e (Bytes.ofString env.config.ns))
    s.generationCounter late with
  | error e => exact Or.inl ⟨e, rfl, rfl⟩
  | ok result =>
    exact Or.inr ⟨_, _, rfl, rfl, beside shared ⟨⟨owned.stored, owned.current⟩, owned.handles⟩⟩

theorem writeEntry_alike (draws : env.Draws own) (entry : MemtableEntry) (draw : WriteDraw) :
    Alike (Beside own base) (writeEntry env entry draw) := by
  intro s t h
  unfold writeEntry
  rcases appendWal_beside h [entry] draw.late with ⟨e, left, right⟩ | ⟨u, v, left, right, logged⟩
  · rw [left, right]
    exact ⟨_, _, _, rfl, rfl, h⟩
  · obtain ⟨tables, rfl, shared, owned⟩ := logged.split
    rw [left, right]
    dsimp only
    split
    · exact ⟨_, _, _, rfl, rfl, beside shared ⟨⟨owned.stored, owned.current⟩, owned.handles⟩⟩
    rename_i number memtableList _
    obtain ⟨r, v, w, first, second, next⟩ := maybeFreezeAndFlush_alike draws draw.freeze draw.flush
      { u with nextSequence := u.nextSequence + 1, memtableList } _
        (beside shared ⟨⟨owned.stored, owned.current⟩, owned.handles⟩)
    rw [first, second]
    cases r with
    | error e => exact ⟨_, _, _, rfl, rfl, next⟩
    | ok => exact ⟨_, _, _, rfl, rfl, next⟩

/-- What a call prepares does not depend on the tables. -/
theorem writePrepared_alike (draws : env.Draws own) {prepare : Engine → FlushResult MemtableEntry}
    (draw : WriteDraw) (same : ∀ s tables, prepare { s with tables } = prepare s) :
    Alike (Beside own base) fun s => writePrepared env (prepare s) draw s := by
  intro s t h
  obtain ⟨tables, rfl, shared, owned⟩ := h.split
  dsimp only
  rw [same s tables]
  cases prepare s with
  | error e => exact ⟨_, _, _, rfl, rfl, h⟩
  | ok entry => exact writeEntry_alike draws entry draw s _ h

theorem put_alike (draws : env.Draws own) (origin : Nat) (recordId itemKey value metadata : Bytes)
    (idempotencyToken : Option IdempotencyToken) (draw : WriteDraw) :
    Alike (Beside own base) (put env origin recordId itemKey value metadata idempotencyToken draw) :=
  writePrepared_alike draws draw fun _ _ => rfl

theorem delete_alike (draws : env.Draws own) (origin : Nat) (recordId itemKey : Bytes)
    (draw : WriteDraw) :
    Alike (Beside own base) (delete env origin recordId itemKey draw) :=
      writePrepared_alike draws draw fun _ _ => rfl

theorem deleteRange_alike (draws : env.Draws own) (origin : Nat) (recordId startKey endKey : Bytes)
    (draw : WriteDraw) :
    Alike (Beside own base) (deleteRange env origin recordId startKey endKey draw) :=
      writePrepared_alike draws draw fun _ _ => rfl

theorem flushWhile_alike (draws : env.Draws own) (pressured : Nat → Bool) (draw : Nat → FlushDraw)
    (fuel : Nat) (shouldFlush : Bool) :
    Alike (Beside own base) (flushWhile env pressured draw fuel shouldFlush) := by
  induction fuel generalizing shouldFlush with
  | zero => exact Alike.pure _
  | succ fuel ih =>
    intro s t h
    have list : t.memtableList = s.memtableList := by rw [h.frame]
    unfold flushWhile
    rw [list]
    split
    · obtain ⟨r, u, v, left, right, next⟩ := flushFrozen_alike draws (draw fuel) s t h
      rw [left, right]
      cases r with
      | error e => exact ⟨_, _, _, rfl, rfl, next⟩
      | ok => exact ih false u v next
    · exact ⟨_, _, _, rfl, rfl, h⟩

/-- Freezing first, then flushing what is frozen. -/
theorem freezing_alike {f : Nat → Engine → FlushResult Unit × Engine}
    (flushing : ∀ fuel, Alike (Beside own base) (f fuel)) {s t : Engine} (h : Beside own base s t) :
    ∃ r u v, freezeActive s = (r, u) ∧ freezeActive t = (r, v) ∧ Beside own base u v ∧
      ∃ r' u' v', f u.memtableList.frozen.length u = (r', u') ∧
        f v.memtableList.frozen.length v = (r', v') ∧ Beside own base u' v' := by
  obtain ⟨r, u, v, left, right, next⟩ := freezeActive_alike s t h
  have list : v.memtableList = u.memtableList := by rw [next.frame]
  refine ⟨r, u, v, left, right, next, ?_⟩
  rw [list]
  exact flushing _ u v next

theorem enforceBatchMemtableLimits_alike (draws : env.Draws own) (draw : ItemDraw) :
    Alike (Beside own base) (enforceBatchMemtableLimits env draw) := by
  intro s t h
  have list : t.memtableList = s.memtableList := by rw [h.frame]
  unfold enforceBatchMemtableLimits
  rw [list]
  split
  · obtain ⟨r, u, v, left, right, next, later⟩ :=
      freezing_alike (fun fuel => flushWhile_alike draws draw.pressured draw.flush fuel true) h
    rw [left, right]
    cases r with
    | error e => exact ⟨_, _, _, rfl, rfl, next⟩
    | ok => exact later
  · exact flushWhile_alike draws draw.pressured draw.flush _ false s t h

theorem insertBatch_alike (draws : env.Draws own) (draw : Nat → ItemDraw)
    (entries : List MemtableEntry) :
    Alike (Beside own base) (insertBatch env draw entries) := by
  induction entries with
  | nil => exact Alike.pure _
  | cons entry rest ih =>
    intro s t h
    obtain ⟨tables, rfl, shared, owned⟩ := h.split
    unfold insertBatch
    dsimp only
    split
    · exact ⟨_, _, _, rfl, rfl, h⟩
    rename_i number memtableList _
    obtain ⟨r, u, v, left, right, next⟩ := enforceBatchMemtableLimits_alike draws (draw rest.length)
      { s with memtableList } _
      (beside shared ⟨⟨owned.stored, owned.current⟩, owned.handles⟩)
    rw [left, right]
    cases r with
    | error e => exact ⟨_, _, _, rfl, rfl, next⟩
    | ok => exact ih u v next

theorem putBatch_alike (draws : env.Draws own) (origin : Nat) (recordId : Bytes)
    (items : List PutBatchItem) (pressured late : Bool) (draw : Nat → ItemDraw) :
    Alike (Beside own base) (putBatch env origin recordId items pressured late draw) := by
  intro s t h
  obtain ⟨tables, rfl, shared, owned⟩ := h.split
  unfold putBatch
  rw [show prepareBatch env origin recordId items pressured { s with tables } =
    prepareBatch env origin recordId items pressured s from rfl]
  split
  · exact ⟨_, _, _, rfl, rfl, h⟩
  · exact ⟨_, _, _, rfl, rfl, h⟩
  rename_i first rest _
  rcases appendWal_beside h (first :: rest) late with ⟨e, left, right⟩ | ⟨u, v, left, right, logged⟩
  · rw [left, right]
    exact ⟨_, _, _, rfl, rfl, h⟩
  · obtain ⟨after, rfl, shared, owned⟩ := logged.split
    rw [left, right]
    dsimp only
    obtain ⟨r, v, w, left', right', next⟩ := insertBatch_alike draws draw (first :: rest)
      { u with nextSequence := u.nextSequence + (first :: rest).length } _
        (beside shared ⟨⟨owned.stored, owned.current⟩, owned.handles⟩)
    rw [left', right']
    cases r with
    | error e => exact ⟨_, _, _, rfl, rfl, next⟩
    | ok => exact ⟨_, _, _, rfl, rfl, next⟩

theorem maybeFlush_alike (draws : env.Draws own) (draw : FlushDraw) :
    Alike (Beside own base) (maybeFlush env draw) := by
  intro s t h
  have list : t.memtableList = s.memtableList := by rw [h.frame]
  unfold maybeFlush
  rw [list]
  split
  · exact flushFrozen_alike draws draw s t h
  · exact ⟨_, _, _, rfl, rfl, h⟩

theorem runMaintenance_alike (draws : env.Draws own) (aged : Bool) (draw : Nat → FlushDraw) :
    Alike (Beside own base) (runMaintenance env aged draw) := by
  intro s t h
  have list : t.memtableList = s.memtableList := by rw [h.frame]
  unfold runMaintenance
  rw [list]
  split
  · obtain ⟨r, u, v, left, right, next, later⟩ :=
      freezing_alike (fun fuel => flushAllFrozen_alike draws draw fuel) h
    rw [left, right]
    cases r with
    | error e => exact ⟨_, _, _, rfl, rfl, next⟩
    | ok => exact later
  · exact flushAllFrozen_alike draws draw _ s t h

theorem close_alike (draws : env.Draws own) (draw : Nat → FlushDraw) :
    Alike (Beside own base) (close env draw) := by
  intro s t h
  have list : t.memtableList = s.memtableList := by rw [h.frame]
  unfold close
  rw [list]
  split
  · obtain ⟨r, u, v, left, right, next, -⟩ := freezing_alike
      (fun fuel => flushAllFrozen_alike draws draw fuel) h
    rw [left, right]
    cases r with
    | error e => exact ⟨_, _, _, rfl, rfl, next⟩
    | ok =>
      have frozen : v.memtableList = u.memtableList := by rw [next.frame]
      obtain ⟨r, x, y, left, right, flushed⟩ := flushFrozen_alike draws
        (draw (u.memtableList.frozen.length - 1)) u v next
      dsimp only
      rw [frozen, left, right]
      cases r with
      | error e => exact ⟨_, _, _, rfl, rfl, flushed⟩
      | ok =>
        have rest : y.memtableList = x.memtableList := by rw [flushed.frame]
        dsimp only
        rw [rest]
        exact flushAllFrozen_alike draws draw _ x y flushed
  · exact flushAllFrozen_alike draws draw _ s t h

end Calls

end Engine

end FlushDB
