import FlushDB.Compaction.Preserves
import FlushDB.Compaction.Shelf
import FlushDB.Engine.World
import FlushDB.Wal.Order

/-!
What the calls of an engine do to its storage, its memtable and its counters, said once for
every call: a flush drops the memtable or commits it, a write extends the log and the memtable.
-/

namespace FlushDB
open Lib ManifestBucket

/-- An entry of a table that the newest manifest lists. -/
def Stored.Copy (st : Stored) (c : MergeEntry) : Prop :=
  Lists.Holds (tablesAt st.manifests) st.tables c

/-- The entries of the listed tables. -/
def Stored.listed (st : Stored) : List MergeEntry :=
  Level.all.flatMap fun level => (tablesAt st.manifests level).flatMap fun t =>
    st.tables.entries (t.sstPath level)

theorem Stored.mem_listed {st : Stored} {c : MergeEntry} : c ∈ st.listed ↔ st.Copy c := by
  constructor
  · intro member
    obtain ⟨level, -, member⟩ := List.mem_flatMap.mp member
    obtain ⟨t, listed, held⟩ := List.mem_flatMap.mp member
    exact ⟨level, t, listed, held⟩
  · rintro ⟨level, t, listed, held⟩
    exact List.mem_flatMap.mpr ⟨level, level.mem_all, List.mem_flatMap.mpr ⟨t, listed, held⟩⟩

/-- A table's name that was drawn. -/
def Stored.Drawn (env : Env) (st : Stored) (id : SstId) : Prop :=
  ∃ i < st.drawn, id = .single (env.ulid i) ∨ ∃ index, id = .fragment (env.ulid i) index

/-- What is true of the storage between two sessions. -/
structure Stored.Sound (env : Env) (st : Stored) : Prop where
  keyed : Keyed st.manifests
  ordered : st.wal.Ordered
  shelf : Shelf (st.Drawn env) (tablesAt st.manifests) st.tables

section Drawn
variable {env : Env}

theorem Stored.Drawn.mono {st st' : Stored} (more : st.drawn ≤ st'.drawn) {id : SstId}
    (h : st.Drawn env id) :
    st'.Drawn env id := by
  obtain ⟨i, bound, name⟩ := h
  exact ⟨i, by omega, name⟩

theorem Stored.not_drawn (unique : Function.Injective env.ulid) (st : Stored) {i : Nat}
    (later : st.drawn ≤ i) {id : SstId}
    (name : id = .single (env.ulid i) ∨ ∃ index, id = .fragment (env.ulid i) index) :
    ¬ st.Drawn env id := by
  rintro ⟨j, bound, known⟩
  have same : env.ulid j = env.ulid i := by
    rcases name with rfl | ⟨index, rfl⟩
    · rcases known with known | ⟨index, known⟩
      · exact (SstId.single.inj known).symm
      · cases known
    · rcases known with known | ⟨index', known⟩
      · cases known
      · exact (SstId.fragment.inj known).1.symm
  have := unique same
  omega

end Drawn

namespace Engine

abbrev nodes (s : Engine) : List MemtableEntry := s.memtableList.active.skiplist.nodes

abbrev memtableNext (s : Engine) : Nat := s.memtableList.active.nextSequenceNumber

abbrev walNext (s : Engine) : Nat := s.walManager.writer.nextSequenceNumber

/-- What is true of an open engine between two calls. -/
structure Ready (env : Env) (s : Engine) : Prop extends Stored.Sound env s.toStored where
  latest : s.manifest.Latest
  opened : s.walManager.writer.Open s.wal
  noneFrozen : s.memtableList.frozen = []
  activeOpen : s.memtableList.active.frozen = false
  below : ∀ e ∈ s.nodes, e.sequenceNumber < s.memtableNext

section Compactions
variable {env : Env}

/-- What compactions leave, whether they fail or not. -/
structure Compacted (env : Env) (s s' : Engine) : Prop where
  frame : s' = { s with
    tables := s'.tables
    manifests := s'.manifests
    manifestManager := s'.manifestManager
    drawn := s'.drawn
    compactions := s'.compactions
    levels := s'.levels
    pendingDeletions := s'.pendingDeletions }
  keyed : Keyed s'.manifests
  latest : s'.manifest.Latest
  shelf : Shelf (s'.Drawn env) (tablesAt s'.manifests) s'.tables
  watermark : watermark s'.manifests = watermark s.manifests
  copies : ∀ c, s'.Copy c → s.Copy c
  compactions : s.compactions ≤ s'.compactions
  kept : s'.compactions = s.compactions → ∀ c, s.Copy c → s'.Copy c

theorem Compacted.refl {s : Engine} (sound : s.Sound env) (latest : s.manifest.Latest) :
    Compacted env s s :=
  ⟨rfl, sound.keyed, latest, sound.shelf, rfl, fun _ held => held, le_refl _, fun _ _ held => held⟩

theorem Compacted.trans {s t u : Engine} (first : Compacted env s t) (second : Compacted env t u) :
    Compacted env s u := by
  refine ⟨?_, second.keyed, second.latest, second.shelf, second.watermark.trans first.watermark,
    fun c held => first.copies c (second.copies c held), first.compactions.trans second.compactions,
      ?_⟩
  · rw [second.frame, first.frame]
  · intro same c held
    have one := first.compactions
    have two := second.compactions
    exact second.kept (by omega) c (first.kept (by omega) c held)

theorem rebuildLevels_frame {fault : Option CompactionFault} {s s' : Engine} {r : FlushResult Unit}
    (h : rebuildLevels fault s = (r, s')) : ∃ levels, s' = { s with levels } := by
  unfold rebuildLevels at h
  split at h
  · exact ⟨_, (Prod.mk.inj h).2.symm⟩
  · exact ⟨_, (Prod.mk.inj h).2.symm⟩

/-- The engine when a task has been executed, before the levels are opened again. -/
def afterTask (left : CompactionState) (s : Engine) : Engine :=
  { s.setManifest left.manifest with
    tables := left.tables
    drawn := s.drawn + 2
    compactions := s.compactions + 1 }

theorem compact_cases {draw : CompactionDraw} {task : CompactionTask} {s t : Engine}
    {r : FlushResult Unit} (h : compact env draw task s = (r, t)) :
    ∃ result left, CompactionExecutor.execute env.config.compactionConfig env.fileSize env.serializedLen
        ⟨draw.nowMs, env.ulid s.drawn, env.ulid (s.drawn + 1), draw.fault⟩ task
          ⟨s.manifest, s.tables⟩ = (result, left) ∧
      ((∃ e, result = .error e ∧ r = .error e ∧ t = s.afterTask left) ∨
        ∃ done levels, result = .ok done ∧
          rebuildLevels draw.fault
            { s.afterTask left with pendingDeletions := s.pendingDeletions ++ done.removedSSTableIds } = (r, t) ∧
          t = { s.afterTask left with levels,
                                      pendingDeletions := s.pendingDeletions ++
                                        done.removedSSTableIds }) := by
  unfold compact at h
  dsimp only at h
  generalize executed : CompactionExecutor.execute env.config.compactionConfig env.fileSize
    env.serializedLen
    ⟨draw.nowMs, env.ulid s.drawn, env.ulid (s.drawn + 1), draw.fault⟩ task ⟨s.manifest, s.tables⟩ =
      left at h
  obtain ⟨result, state⟩ := left
  refine ⟨result, state, rfl, ?_⟩
  cases result with
  | error e =>
    obtain ⟨rfl, rfl⟩ := Prod.mk.inj h
    exact Or.inl ⟨e, rfl, rfl, rfl⟩
  | ok done =>
    obtain ⟨levels, frame⟩ := rebuildLevels_frame h
    exact Or.inr ⟨done, levels, rfl, h, frame⟩

theorem compact_frame {draw : CompactionDraw} {task : CompactionTask} {s t : Engine}
    {r : FlushResult Unit} (h : compact env draw task s = (r, t)) :
    ∃ result left levels pendingDeletions, CompactionExecutor.execute env.config.compactionConfig
      env.fileSize env.serializedLen
        ⟨draw.nowMs, env.ulid s.drawn, env.ulid (s.drawn + 1), draw.fault⟩ task
          ⟨s.manifest, s.tables⟩ = (result, left) ∧
      t = { s.afterTask left with levels, pendingDeletions } := by
  obtain ⟨result, left, executed, ⟨-, -, -, rfl⟩ | ⟨-, levels, -, -, rfl⟩⟩ := compact_cases h
  · exact ⟨result, left, _, _, executed, rfl⟩
  · exact ⟨result, left, levels, _, executed, rfl⟩

/-- The tables of a compaction get names that no table has. -/
theorem compact_fresh (unique : Function.Injective env.ulid) (draw : CompactionDraw) (s : Engine) :
    ∀ id, Drawn.names ⟨draw.nowMs, env.ulid s.drawn, env.ulid (s.drawn + 1), draw.fault⟩ id →
      ¬ s.Drawn env id := by
  rintro id (rfl | ⟨index, rfl⟩)
  · exact s.not_drawn unique (Nat.le_succ _) (Or.inl rfl)
  · exact s.not_drawn unique (le_refl _) (Or.inr ⟨index, rfl⟩)

theorem compact_compacted (unique : Function.Injective env.ulid) {draw : CompactionDraw}
    {task : CompactionTask} (moves : task.sourceLevel ≠ task.targetLevel) {s s' : Engine}
    (sound : s.Sound env) (latest : s.manifest.Latest) {r : FlushResult Unit}
    (h : compact env draw task s = (r, s')) :
    Compacted env s s' ∧ s'.compactions = s.compactions + 1 := by
  obtain ⟨result, left, levels, pending, executed, rfl⟩ := compact_frame h
  obtain ⟨latest', keyed, shelf, mark, copies⟩ :=
    @CompactionExecutor.execute_executed (s.Drawn env) _ _ _ _ _ _ _ _ latest
    sound.keyed sound.shelf (compact_fresh unique draw s) moves executed
  have shelf' : ∀ t : Engine, t.drawn = s.drawn + 2 →
      Shelf (t.Drawn env) (tablesAt left.manifest.bucket) left.tables := by
    intro t drawn
    refine shelf.mono ?_
    rintro id (old | rfl | ⟨index, rfl⟩)
    · exact old.mono (by omega)
    · exact ⟨s.drawn + 1, by omega, Or.inl rfl⟩
    · exact ⟨s.drawn, by omega, Or.inr ⟨index, rfl⟩⟩
  have more : ∀ n, s.compactions + 1 = s.compactions → n := by
    intro n
    omega
  exact ⟨⟨rfl, keyed, latest', shelf' _ rfl, mark, copies, Nat.le_succ _, more _⟩, rfl⟩

theorem compactAll_compacted (unique : Function.Injective env.ulid) {draw : Nat → CompactionDraw}
    {tasks : List CompactionTask} (moves : ∀ task ∈ tasks, task.sourceLevel ≠ task.targetLevel)
    {s s' : Engine} (sound : s.Sound env) (latest : s.manifest.Latest) {r : FlushResult Unit}
    (h : compactAll env draw tasks s = (r, s')) : Compacted env s s' := by
  refine compactAll_keeps ?_ (.refl sound latest) h
  intro task member i t r u before one
  have ordered : t.wal.Ordered := by
    rw [before.frame]
    exact sound.ordered
  exact before.trans (compact_compacted unique (moves task member)
    ⟨before.keyed, ordered, before.shelf⟩ before.latest one).1

theorem maybeCompact_compacted (unique : Function.Injective env.ulid) {draw : Nat → CompactionDraw}
    {s s' : Engine} (sound : s.Sound env) (latest : s.manifest.Latest) {r : FlushResult Unit}
    (h : maybeCompact env draw s = (r, s')) :
    Compacted env s s' := by
  refine compactAll_compacted unique ?_ sound latest h
  intro task asked
  obtain ⟨low, high, plan⟩ := CompactionExecutor.checkTriggers_planned asked
  exact CompactionExecutor.levels_differ plan

/-- An engine whose memtables are the same needs only what is stored and the log of its writer. -/
theorem Ready.of_memtableList {s s' : Engine} (ready : Ready env s)
    (same : s'.memtableList = s.memtableList) (sound : s'.Sound env) (latest : s'.manifest.Latest)
    (opened : s'.walManager.writer.Open s'.wal) : Ready env s' := by
  refine ⟨sound, latest, opened, ?_, ?_, ?_⟩
  · rw [same]
    exact ready.noneFrozen
  · rw [same]
    exact ready.activeOpen
  · rw [nodes, memtableNext, same]
    exact ready.below

theorem Compacted.ready {s s' : Engine} (h : Compacted env s s') (ready : Ready env s) :
    Ready env s' := by
  have wal : s'.wal = s.wal := by rw [h.frame]
  have manager : s'.walManager = s.walManager := by rw [h.frame]
  have list : s'.memtableList = s.memtableList := by rw [h.frame]
  refine ready.of_memtableList list ⟨h.keyed, wal ▸ ready.ordered, h.shelf⟩ h.latest ?_
  rw [wal, manager]
  exact ready.opened

end Compactions

end Engine

section Flush
variable {env : Env}

namespace Engine

/-- A flush that failed: the memtable is gone, and all that is stored is as it was. -/
structure Dropped (s s' : Engine) : Prop where
  memtableList : s'.memtableList = { s.memtableList with active := { nextSequenceNumber := s.memtableNext } }
  wal : s'.wal = s.wal
  writer : s'.walManager.writer = s.walManager.writer
  watermark : watermark s'.manifests = watermark s.manifests
  copies : ∀ c, s'.Copy c ↔ s.Copy c
  nextSequence : s'.nextSequence = s.nextSequence
  dropped : s'.dropped = true
  compactions : s'.compactions = s.compactions
  walManager : s'.walManager = s.walManager
  generation : s'.generationCounter = s.generationCounter + 1

/-- The segments that only the generation needed are gone, up to one that could not be removed. -/
def CleanedUp (generation : Nat) (s s' : Engine) : Prop :=
  ∃ failing r, WalManager.cleanupSegments failing (s.walManager.markGenerationFlushed generation).1
    (s.walManager.markGenerationFlushed generation).2 s.wal = (r, s'.walManager, s'.wal)

/-- A flush that reached its commit: the memtable is a table of the newest manifest, its highest
number is the watermark, segments may be gone, and compactions may have run. -/
structure Committed (s s' : Engine) : Prop where
  memtableList : s'.memtableList = { s.memtableList with active := { nextSequenceNumber := s.memtableNext } }
  holds : ∀ e, s'.wal.Holds e → s.wal.Holds e
  writer : s'.walManager.writer = s.walManager.writer
  copies : ∀ c, s'.Copy c → s.Copy c ∨ ∃ e ∈ s.nodes, c = MergeEntry.fromMemtableEntry e
  rises : watermark s.manifests ≤ watermark s'.manifests
  highest : ∀ e ∈ s.nodes, e.sequenceNumber ≤ watermark s'.manifests
  attained : ∃ e ∈ s.nodes, e.sequenceNumber = watermark s'.manifests
  nextSequence : s'.nextSequence = s.nextSequence
  dropped : s'.dropped = s.dropped
  compactions : s.compactions ≤ s'.compactions
  kept : s'.compactions = s.compactions → ∀ c, s.Copy c ∨
    (∃ e ∈ s.nodes, c = MergeEntry.fromMemtableEntry e) → s'.Copy c
  cleaned : CleanedUp s.generationCounter s s'
  generation : s'.generationCounter = s.generationCounter + 1

/-- The outcomes of `FlushPipeline::flush`. -/
structure FlushOutcome (env : Env) (frozen : Memtable) (s : Engine) (r : FlushResult SSTableMeta)
    (s' : Engine) : Prop where
  frame : s' = { s with
    tables := s'.tables
    drawn := s'.drawn
    manifests := s'.manifests
    manifestManager := s'.manifestManager }
  keyed : Keyed s'.manifests
  latest : s'.manifest.Latest
  shelf : Shelf (s'.Drawn env) (tablesAt s'.manifests) s'.tables
  refused : ∀ e, r = .error e → s'.manifest = s.manifest
  listed : ∀ t, r = .ok t → ∀ level,
    (tablesAt s'.manifests level).Perm (tablesAt s.manifests level ++ if level = .L0 then [t] else [])
  outcome : (∃ e, r = .error e ∧ watermark s'.manifests = watermark s.manifests ∧ ∀ c, s'.Copy c ↔
    s.Copy c) ∨
    (∃ t, r = .ok t) ∧ watermark s.manifests ≤ watermark s'.manifests ∧
      (∀ c, s'.Copy c ↔ s.Copy c ∨ ∃ e ∈ frozen.skiplist.nodes, c = MergeEntry.fromMemtableEntry e) ∧
      (∀ e ∈ frozen.skiplist.nodes, e.sequenceNumber ≤ watermark s'.manifests) ∧
      ∃ e ∈ frozen.skiplist.nodes, e.sequenceNumber = watermark s'.manifests

theorem foldl_max_spec (xs : List Nat) (start : Nat) :
    start ≤ xs.foldl max start ∧ (∀ x ∈ xs, x ≤ xs.foldl max start) ∧
      (xs.foldl max start = start ∨ xs.foldl max start ∈ xs) := by
  induction xs generalizing start with
  | nil => exact ⟨le_refl _, by simp, Or.inl rfl⟩
  | cons x rest ih =>
    obtain ⟨lower, all, attained⟩ := ih (max start x)
    rw [List.foldl_cons]
    refine ⟨by omega, ?_, ?_⟩
    · intro y member
      rcases List.mem_cons.mp member with rfl | later
      · omega
      · exact all y later
    · rcases attained with eq | later
      · rcases Nat.le_total start x with le | ge
        · right
          rw [eq, Nat.max_eq_right le]
          exact List.mem_cons_self
        · left
          rw [eq, Nat.max_eq_left ge]
      · exact Or.inr (List.mem_cons_of_mem _ later)

/-- The number that a flush commits is the greatest of the memtable. -/
theorem sequenceRange_top {nodes : List MemtableEntry} {first : MergeEntry} {rest : List MergeEntry}
    (listed : nodes.map MergeEntry.fromMemtableEntry = first :: rest)
    (fileSize : List MergeEntry → Nat) (file : SstId) (nowMs : Nat) :
    (∀ e ∈ nodes, e.sequenceNumber ≤ (SSTableMeta.ofEntries fileSize file nowMs first rest).sequenceRange.2) ∧
      ∃ e ∈ nodes, e.sequenceNumber =
        (SSTableMeta.ofEntries fileSize file nowMs first rest).sequenceRange.2 := by
  have numbers : (first :: rest).map MergeEntry.sequenceNumber =
      nodes.map MemtableEntry.sequenceNumber := by
    rw [← listed, List.map_map]
    rfl
  have range : (SSTableMeta.ofEntries fileSize file nowMs first rest).sequenceRange.2 =
      (nodes.map MemtableEntry.sequenceNumber).foldl max 0 := by
    rw [← numbers]
    rfl
  obtain ⟨-, all, attained⟩ := foldl_max_spec (nodes.map MemtableEntry.sequenceNumber) 0
  rw [range]
  refine ⟨fun e member => all _ (List.mem_map_of_mem member), ?_⟩
  rcases attained with zero | member
  · obtain ⟨e, inside⟩ : ∃ e, e ∈ nodes := by
      cases nodes with
      | nil => cases listed
      | cons e more => exact ⟨e, List.mem_cons_self⟩
    refine ⟨e, inside, ?_⟩
    have := all e.sequenceNumber (List.mem_map_of_mem inside)
    omega
  · obtain ⟨e, inside, same⟩ := List.mem_map.mp member
    exact ⟨e, inside, same⟩

/-- A flush that fails has at most written an object that is not listed. -/
theorem flush_unlisted {s : Engine} (sound : s.Sound env) (latest : s.manifest.Latest)
    (frozen : Memtable) {tables : Tables} (extend : ObjectStore.Extends s.tables tables)
    (coherent : tables.Coherent)
    (named : ∀ path, (tables.get path).isSome → Stored.Drawn env
      { s.toStored with drawn := s.drawn + 1 } path.file)
    (e : FlushError) :
    FlushOutcome env frozen s (.error e) { s with drawn := s.drawn + 1, tables } :=
  ⟨rfl, sound.keyed, latest, ⟨sound.shelf.distinct, sound.shelf.present_extends extend, named,
    coherent⟩, fun _ _ => rfl, nofun,
    Or.inl ⟨e, rfl, rfl, sound.shelf.holds_extends extend⟩⟩

/-- A flush whose update is stored has listed its table at level 0. -/
theorem flush_stored {s : Engine} (sound : s.Sound env) {frozen : Memtable} {table : SSTableMeta}
    {entries : List MergeEntry}
    (nodes : frozen.skiplist.nodes.map MergeEntry.fromMemtableEntry = entries)
    (fresh : ¬ s.Drawn env table.id)
    (extend : ObjectStore.Extends s.tables (s.tables.put ⟨.L0, table.id⟩ entries))
    (coherent : Tables.Coherent (s.tables.put ⟨.L0, table.id⟩ entries))
    (named : ∀ path, ((s.tables.put ⟨.L0, table.id⟩ entries).get path).isSome →
      Stored.Drawn env { s.toStored with drawn := s.drawn + 1 } path.file)
    (top : (∀ e ∈ frozen.skiplist.nodes, e.sequenceNumber ≤ table.sequenceRange.2) ∧
      ∃ e ∈ frozen.skiplist.nodes, e.sequenceNumber = table.sequenceRange.2)
    {u : ManifestUpdate} (adds : u.addSSTables = [(.L0, table)]) (removes : u.removeSSTables = [])
    (sets : u.newLastFlushedSequence = some table.sequenceRange.2) {m : ManifestState}
    (updated : ManifestState.Updated u s.manifest m) :
    FlushOutcome env frozen s (.ok table)
      (Engine.setManifest { s with drawn := s.drawn + 1,
                                   tables := s.tables.put ⟨.L0, table.id⟩ entries } m) := by
  have lists : ∀ level, (tablesAt m.bucket level).Perm
      ((tablesAt s.manifests level).filter (fun t => (level, t.id) ∉ []) ++
      if level = .L0 then [table] else []) := by
    intro level
    have perm := updated.lists level
    rw [adds, removes] at perm
    refine perm.trans (List.Perm.of_eq ?_)
    rw [← CompactionExecutor.addedAt_level]
    rfl
  have stored_at : (s.tables.put ⟨.L0, table.id⟩ entries).get ⟨.L0, table.id⟩ = some entries :=
    ObjectStore.get_put_self _ _ _
  obtain ⟨relisted, held⟩ := sound.shelf.relist _ extend named coherent lists (List.nodup_singleton _)
    (by
      intro t member
      rw [List.mem_singleton.mp member]
      exact Or.inl (sound.shelf.unlisted fresh))
    (by
      intro t member
      rw [List.mem_singleton.mp member]
      exact Option.isSome_of_eq_some stored_at)
  have mark : watermark m.bucket = table.sequenceRange.2 := by
    rw [updated.watermark, sets]
    rfl
  have listed : ∀ t, (Except.ok table : FlushResult SSTableMeta) = .ok t → ∀ level,
      (tablesAt m.bucket level).Perm (tablesAt s.manifests level ++ if level = .L0 then [t]
        else []) := by
    rintro t ⟨⟩ level
    refine (lists level).trans (List.Perm.of_eq ?_)
    rw [List.filter_eq_self.mpr (by simp)]
  refine ⟨rfl, updated.keyed, updated.latest, relisted, by rintro e ⟨⟩, listed,
    Or.inr ⟨⟨table, rfl⟩, updated.rises, ?_, ?_, ?_⟩⟩
  · intro c
    have inserted : (∃ e ∈ frozen.skiplist.nodes, c = MergeEntry.fromMemtableEntry e) ↔
        c ∈ entries := by
      rw [← nodes, List.mem_map]
      exact ⟨fun ⟨e, member, same⟩ => ⟨e, member, same.symm⟩,
        fun ⟨e, member, same⟩ => ⟨e, member, same.symm⟩⟩
    rw [inserted]
    constructor
    · intro copy
      rcases held c copy with old | ⟨t, member, xs, found, inside⟩
      · exact Or.inl old
      · rw [List.mem_singleton.mp member, stored_at] at found
        obtain rfl := Option.some.inj found
        exact Or.inr inside
    · rintro (old | new)
      · obtain ⟨level, t, listed, xs, found, inside⟩ := Lists.get_of_holds old
        refine Lists.holds_of_get ((lists level).mem_iff.mpr (List.mem_append_left _ ?_))
          (extend _ _ found) inside
        exact List.mem_filter.mpr ⟨listed, by simp⟩
      · exact Lists.holds_of_get ((lists .L0).mem_iff.mpr (List.mem_append_right _ (by simp))) stored_at new
  · intro e member
    show e.sequenceNumber ≤ watermark m.bucket
    rw [mark]
    exact top.1 e member
  · show ∃ e ∈ frozen.skiplist.nodes, e.sequenceNumber = watermark m.bucket
    rw [mark]
    exact top.2

theorem flush_outcome (unique : Function.Injective env.ulid) {s : Engine} (sound : s.Sound env)
    (latest : s.manifest.Latest) {frozen : Memtable} (nonempty : frozen.skiplist.nodes ≠ [])
    {draw : FlushDraw} {r : FlushResult SSTableMeta} {s' : Engine}
    (h : flush env frozen draw s = (r, s')) : FlushOutcome env frozen s r s' := by
  have shelf := sound.shelf
  have fresh : ¬ s.Drawn env (.single (env.ulid s.drawn)) :=
    s.not_drawn unique (le_refl _) (Or.inl rfl)
  have drawn_old : ∀ id, s.Drawn env id → Stored.Drawn env
      { s.toStored with drawn := s.drawn + 1 } id := fun id old =>
    old.mono (Nat.le_succ _)
  have put := fun contents => shelf.put fresh .L0 contents
  have named : ∀ contents path, ((s.withObject env contents).tables.get path).isSome →
      Stored.Drawn env { s.toStored with drawn := s.drawn + 1 } path.file := by
    intro contents path found
    rcases (put contents).2.1 path found with old | new
    · exact drawn_old _ old
    · rw [new]
      exact ⟨s.drawn, Nat.lt_succ_self _, Or.inl rfl⟩
  have distinct := Lists.nodup_level shelf.distinct
  cases flush_ends h with
  | empty empty => exact absurd empty nonempty
  | unwritten =>
    exact flush_unlisted sound latest frozen (ObjectStore.Extends.refl _) shelf.coherent
      (fun path found => drawn_old _ (shelf.named path found)) _
  | written => exact flush_unlisted sound latest frozen (put _).1 (put _).2.2 (named _) _
  | refused nodes made failed =>
    rw [latest.refused failed]
    exact flush_unlisted sound latest frozen (put _).1 (put _).2.2 (named _) _
  | @committed first rest table m nodes succeeds made stored =>
    have id : table.id = .single (env.ulid s.drawn) := by
      rw [← made]
      rfl
    have top := sequenceRange_top nodes env.fileSize (.single (env.ulid s.drawn)) draw.nowMs
    have updated := latest.updated sound.keyed distinct stored
    obtain ⟨extend, -, coherent⟩ := put (first :: rest)
    have named := named (first :: rest)
    rw [made] at top
    unfold withObject at named ⊢
    rw [← id] at fresh extend coherent named ⊢
    exact flush_stored sound nodes fresh extend coherent named top rfl rfl rfl updated

theorem flush_ok_fault {frozen : Memtable} {draw : FlushDraw} {s s' : Engine} {t : SSTableMeta}
    (h : flush env frozen draw s = (.ok t, s')) : draw.fails = false := by
  cases flush_ends h with
  | committed nodes succeeds => exact succeeds

end Engine

end Flush

theorem WalManager.cleanupSegments_spec (failing : Option Nat) (numbers : List Nat) {m : WalManager}
    {dir : WalDir} (ordered : dir.Ordered) (opened : m.writer.Open dir) {result : FlushResult Unit}
    {m' : WalManager} {dir' : WalDir}
    (h : cleanupSegments failing numbers m dir = (result, m', dir')) :
    m'.writer = m.writer ∧ dir'.Ordered ∧ m.writer.Open dir' ∧ ∀ e, dir'.Holds e → dir.Holds e := by
  induction numbers generalizing m dir with
  | nil =>
    cases h
    exact ⟨rfl, ordered, opened, fun _ held => held⟩
  | cons number rest ih =>
    unfold cleanupSegments at h
    split at h
    · exact ih ordered opened h
    · rename_i removable
      split at h
      · cases h
        exact ⟨rfl, ordered, opened, fun _ held => held⟩
      · have other : number ≠ m.writer.currentSegment := fun same => removable (Or.inl same)
        have later := @ih { m with dirtyTracker := m.dirtyTracker.removeSegment number }
          (dir.delete number)
          (ordered.delete number) (opened.delete other) h
        refine ⟨later.1, later.2.1, later.2.2.1, ?_⟩
        intro e held
        exact WalDir.holds_delete (later.2.2.2 e held)

namespace Engine

section Roll
variable {env : Env}

/-- The state in which the memtable has been frozen and popped. -/
def popped (s : Engine) : Engine :=
  { s with
    memtableList := { s.memtableList with active := { nextSequenceNumber := s.memtableNext } }
    generationCounter := s.generationCounter + 1 }

theorem flushFrozen_frozen {s f : Engine} (noneFrozen : s.memtableList.frozen = [])
    (froze : freezeActive s = (.ok (), f)) (draw : FlushDraw) : flushFrozen env draw f =
      match flush env { s.memtableList.active with frozen := true } draw s.popped with
      | (.error e, t) => (.error e, { t with dropped := true })
      | (.ok table, t) => finishFlush env s.generationCounter table draw t := by
  unfold freezeActive MemtableList.freezeActiveWithGeneration at froze
  split at froze
  · cases froze
  · rename_i list made
    split at made
    · cases made
    · obtain rfl := Except.ok.inj made
      obtain rfl := (Prod.mk.inj froze).2
      unfold flushFrozen popped MemtableList.popOldestFrozenWithGeneration
      dsimp only
      rewrite [noneFrozen]
      rfl

/-- Only the log has changed: segments are gone. -/
structure Cleaned (generation : Nat) (s s' : Engine) : Prop where
  frame : s' = { s with walManager := s'.walManager, wal := s'.wal, levels := s'.levels }
  writer : s'.walManager.writer = s.walManager.writer
  ordered : s'.wal.Ordered
  opened : s.walManager.writer.Open s'.wal
  holds : ∀ e, s'.wal.Holds e → s.wal.Holds e
  cleaned : CleanedUp generation s s'

theorem Cleaned.sound {generation : Nat} {s s' : Engine} (h : Cleaned generation s s')
    (sound : s.Sound env) : s'.Sound env := by
  refine ⟨?_, h.ordered, ?_⟩
  · rw [h.frame]
    exact sound.keyed
  · rw [h.frame]
    exact sound.shelf

theorem Cleaned.latest {generation : Nat} {s s' : Engine} (h : Cleaned generation s s')
    (latest : s.manifest.Latest) :
    s'.manifest.Latest := by
  rw [h.frame]
  exact latest

theorem cleanupSegments_cleaned {failing : Option Nat} {generation : Nat} {s s' : Engine}
    {r : FlushResult Unit} (ordered : s.wal.Ordered) (opened : s.walManager.writer.Open s.wal)
    (h : cleanupSegments failing (s.walManager.markGenerationFlushed generation).1
      { s with walManager := (s.walManager.markGenerationFlushed generation).2 } = (r, s')) :
    Cleaned generation s s' := by
  unfold cleanupSegments at h
  generalize cleaned : WalManager.cleanupSegments failing
    (s.walManager.markGenerationFlushed generation).1
    (s.walManager.markGenerationFlushed generation).2 s.wal = left at h
  obtain ⟨result, walManager, wal⟩ := left
  have writer : (s.walManager.markGenerationFlushed generation).2.writer = s.walManager.writer :=
    rfl
  obtain ⟨same, ordered', opened', holds⟩ := WalManager.cleanupSegments_spec failing _ ordered
    (writer ▸ opened) cleaned
  cases h
  exact ⟨rfl, same.trans writer, ordered', opened', holds, failing, _, cleaned⟩

/-- After its commit a flush removes segments, opens the table and compacts. -/
theorem finishFlush_cleaned (unique : Function.Injective env.ulid) {generation : Nat}
    {table : SSTableMeta} {draw : FlushDraw} {s s' : Engine} {r : FlushResult Unit}
    (sound : s.Sound env) (latest : s.manifest.Latest) (opened : s.walManager.writer.Open s.wal)
    (h : finishFlush env generation table draw s = (r, s')) :
    ∃ t, Cleaned generation s t ∧ Compacted env t s' := by
  obtain ⟨result, t, cleans, rfl | ⟨handle, compacts⟩⟩ := finishFlush_cases h
  · have spec := cleanupSegments_cleaned sound.ordered opened cleans
    exact ⟨_, spec, .refl (spec.sound sound) (spec.latest latest)⟩
  · have spec := cleanupSegments_cleaned sound.ordered opened cleans
    have sound' := spec.sound sound
    refine ⟨{ t with levels := pushHandle handle t.levels },
      ⟨?_, spec.writer, spec.ordered, spec.opened, spec.holds, spec.cleaned⟩,
      maybeCompact_compacted unique ⟨sound'.keyed, sound'.ordered, sound'.shelf⟩
        (spec.latest latest) compacts⟩
    have frame := spec.frame
    dsimp only
    rw [frame]

theorem popped_ready {s : Engine} (ready : Ready env s) : Ready env s.popped :=
  ⟨ready.toSound, ready.latest, ready.opened, ready.noneFrozen, rfl, by
    intro e member
    cases member⟩

theorem FlushOutcome.ready {frozen : Memtable} {s s' : Engine} {r : FlushResult SSTableMeta}
    (h : FlushOutcome env frozen s r s') (ready : Ready env s) : Ready env s' := by
  have wal : s'.wal = s.wal := by rw [h.frame]
  have manager : s'.walManager = s.walManager := by rw [h.frame]
  have list : s'.memtableList = s.memtableList := by rw [h.frame]
  refine ready.of_memtableList list ⟨h.keyed, wal ▸ ready.ordered, h.shelf⟩ h.latest ?_
  rw [wal, manager]
  exact ready.opened

theorem Cleaned.ready {generation : Nat} {s s' : Engine} (h : Cleaned generation s s')
    (ready : Ready env s) : Ready env s' := by
  have list : s'.memtableList = s.memtableList := by rw [h.frame]
  refine ready.of_memtableList list (h.sound ready.toSound) (h.latest ready.latest) ?_
  rw [h.writer]
  exact h.opened

/-- The memtable was popped before the flush failed. -/
theorem FlushOutcome.dropped {frozen : Memtable} {s t : Engine} {e : FlushError}
    (h : FlushOutcome env frozen s.popped (.error e) t) :
    Dropped s { t with dropped := true } := by
  have frame := h.frame
  rcases h.outcome with ⟨-, -, mark, copies⟩ | ⟨⟨table, impossible⟩, -⟩
  · refine ⟨?_, ?_, ?_, mark, copies, ?_, rfl, ?_, ?_, ?_⟩ <;> rw [frame] <;> rfl
  · cases impossible

/-- After the flush segments were removed, and compactions may have run. -/
theorem FlushOutcome.committed {frozen : Memtable} {s t u s' : Engine} {table : SSTableMeta}
    (h : FlushOutcome env frozen s.popped (.ok table) t) (flushed : frozen.skiplist.nodes = s.nodes)
    (cleaned : Cleaned s.generationCounter t u) (compacted : Compacted env u s') :
    Committed s s' := by
  rcases h.outcome with ⟨e, impossible, -⟩ | ⟨-, rises, copies, highest, attained⟩
  · cases impossible
  rw [flushed] at copies highest attained
  have frame := h.frame
  have wal : t.wal = s.wal := by rw [frame]; rfl
  have manager : t.walManager = s.walManager := by rw [frame]; rfl
  have copy : ∀ c, u.Copy c ↔ t.Copy c := by
    intro c
    rw [cleaned.frame]
    rfl
  have count : u.compactions = s.compactions := by rw [cleaned.frame, frame]; rfl
  have mark : watermark s'.manifests = watermark t.manifests := by
    rw [compacted.watermark, cleaned.frame]
  refine ⟨?_, ?_, ?_, ?_, mark ▸ rises, mark ▸ highest, mark ▸ attained, ?_, ?_, ?_, ?_, ?_, ?_⟩
  · rw [compacted.frame, cleaned.frame, frame]
    rfl
  · intro e held
    rw [compacted.frame] at held
    exact wal ▸ cleaned.holds e held
  · rw [compacted.frame, ← manager, ← cleaned.writer]
  · intro c held
    exact (copies c).mp ((copy c).mp (compacted.copies c held))
  · rw [compacted.frame, cleaned.frame, frame]
    rfl
  · rw [compacted.frame, cleaned.frame, frame]
    rfl
  · rw [← count]
    exact compacted.compactions
  · intro same c held
    exact compacted.kept (same.trans count.symm) c ((copy c).mpr ((copies c).mpr held))
  · obtain ⟨failing, removed, cleans⟩ := cleaned.cleaned
    refine ⟨failing, removed, ?_⟩
    rw [compacted.frame]
    rw [manager, wal] at cleans
    exact cleans
  · rw [compacted.frame, cleaned.frame, frame]
    rfl

theorem roll_outcome (unique : Function.Injective env.ulid) {s f s' : Engine} (ready : Ready env s)
    (nonempty : s.nodes ≠ []) (froze : freezeActive s = (.ok (), f)) {draw : FlushDraw}
    {r : FlushResult Unit} (h : flushFrozen env draw f = (r, s')) :
    Ready env s' ∧ ((Dropped s s' ∧ ∃ e, r = .error e) ∨ (Committed s s' ∧ draw.fails = false)) := by
  rw [flushFrozen_frozen ready.noneFrozen froze] at h
  have popped := popped_ready ready
  generalize flushed : flush env { s.memtableList.active with frozen := true } draw s.popped = left at h
  obtain ⟨result, t⟩ := left
  have outcome := flush_outcome unique popped.toSound popped.latest nonempty flushed
  have ready_t := outcome.ready popped
  cases result with
  | error e =>
    cases h
    exact ⟨⟨ready_t.toSound, ready_t.latest, ready_t.opened, ready_t.noneFrozen, ready_t.activeOpen,
      ready_t.below⟩,
      Or.inl ⟨outcome.dropped, e, rfl⟩⟩
  | ok table =>
    obtain ⟨u, cleaned, compacted⟩ := finishFlush_cleaned unique ready_t.toSound ready_t.latest
      ready_t.opened h
    exact ⟨compacted.ready (cleaned.ready ready_t),
      Or.inr ⟨outcome.committed rfl cleaned compacted, flush_ok_fault flushed⟩⟩

end Roll

end Engine

end FlushDB
