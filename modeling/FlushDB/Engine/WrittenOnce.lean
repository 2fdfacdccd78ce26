import FlushDB.Engine.Arrangement
import FlushDB.Lib.WriteOnce

/-!
Tables are written once. A flush and a merge put their tables under names that were never drawn, and
a move copies its sources before it removes them, so that in no run an object changes or is lost:
what exists once under a name exists for ever, at some level, with the same entries.
-/

namespace FlushDB
open Lib ManifestBucket

/-- From tables under drawn names to tables under drawn names. -/
abbrev Tables.Inherits (drawn drawn' : SstId → Prop) (tables tables' : Tables) : Prop :=
  Lib.Inherits SstPath.file drawn drawn' tables tables'

abbrev Tables.WrittenOnce (drawn : SstId → Prop) (tables : Tables) : Prop :=
  Lib.WriteOnce SstPath.file drawn tables

theorem Shelf.writtenOnce {drawn : SstId → Prop} {lists : Lists} {tables : Tables}
    (shelf : Shelf drawn lists tables) :
    tables.WrittenOnce drawn := by
  refine ⟨shelf.named, ?_⟩
  rintro ⟨a, id⟩ ⟨b, id'⟩ xs ys first second same
  obtain rfl : id = id' := same
  exact shelf.coherent a b id xs ys first second

namespace CompactionExecutor
variable {drawn : SstId → Prop} {config : CompactionConfig} {fileSize : List MergeEntry → Nat}
  {serializedLen : Manifest → Nat}
  {d : Drawn} {task : CompactionTask} {s s' : CompactionState} {r : FlushResult CompactionResult}
  {tables tables' : Tables}

theorem copyTables_inherits (once : tables.WrittenOnce drawn) {source target : Level}
    {inputs : List SSTableMeta} {r : FlushResult Unit}
    (h : copyTables source target inputs tables = (r, tables')) :
    tables.Inherits drawn drawn tables' := by
  induction inputs generalizing tables with
  | nil =>
    cases h
    exact Lib.Inherits.refl once
  | cons t rest ih =>
    unfold copyTables at h
    rw [SSTableMeta.sstPath_eq, SSTableMeta.sstPath_eq] at h
    split at h
    · cases h
      exact Lib.Inherits.refl once
    · rename_i data found
      have copied := @Lib.Inherits.copy _ _ _ _ SstPath.file drawn tables once ⟨source, t.id⟩
        ⟨target, t.id⟩ data found rfl
      exact copied.trans once (ih (copied.writeOnce once) h)

/-- The sources of a move go when their copies are there. -/
theorem deleteTables_inherits (once : tables.WrittenOnce drawn) {source target : Level}
    (moves : source ≠ target) {gone : List SSTableMeta}
    (copied : ∀ t ∈ gone, (tables.get ⟨target, t.id⟩).isSome) :
    tables.Inherits drawn drawn (gone.foldl (fun tables t => tables.delete (t.sstPath source)) tables) := by
  induction gone generalizing tables with
  | nil => exact Lib.Inherits.refl once
  | cons t rest ih =>
    rw [List.foldl_cons, SSTableMeta.sstPath_eq]
    have apart : ∀ id, (⟨target, id⟩ : SstPath) ≠ ⟨source, t.id⟩ :=
      fun id same => moves (SstPath.mk.inj same).1.symm
    have deleted := @Lib.Inherits.delete _ _ _ _ SstPath.file drawn tables once _ _ (apart t.id) rfl
      (copied t List.mem_cons_self)
    refine deleted.trans once (ih (deleted.writeOnce once) ?_)
    intro u member
    rw [ObjectStore.get_delete_ne _ (apart u.id)]
    exact copied u (List.mem_cons_of_mem _ member)

theorem writeTables_inherits (once : tables.WrittenOnce drawn)
    (fresh : ∀ id, d.names id → ¬ drawn id) (level : Level) {merged : List MergeEntry}
    {done : List (SSTableMeta × List MergeEntry)}
    (part : done.Sublist (outputs fileSize d config.targetFragmentSize merged)) :
    tables.Inherits drawn (fun id => drawn id ∨ d.names id) (writeTables level done tables) := by
  obtain ⟨described, distinct⟩ := outputs_spec fileSize d config.targetFragmentSize merged
  obtain ⟨-, others⟩ := @writeTables_get level done tables (distinct.sublist (part.map _))
  have apart : ∀ p q : SstPath, p.level = level → q.level = level → p.file = q.file → p = q := by
    rintro ⟨a, id⟩ ⟨b, id'⟩ first second same
    exact congrArg₂ SstPath.mk (first.trans second.symm) same
  refine Lib.Inherits.extend once fresh apart ?_
  intro path
  by_cases new : ∃ out ∈ done, path = out.1.sstPath level
  · obtain ⟨out, member, rfl⟩ := new
    rw [SSTableMeta.sstPath_eq]
    exact Or.inl ⟨rfl, (described out (part.subset member)).2⟩
  · exact Or.inr (others path fun out member same => new ⟨out, member, same⟩)

/-- An execution, whatever its task and its failures. -/
theorem execute_inherits (once : s.tables.WrittenOnce drawn)
    (moves : task.sourceLevel ≠ task.targetLevel) (fresh : ∀ id, d.names id → ¬ drawn id)
    (h : execute config fileSize serializedLen d task s = (r, s')) :
    s.tables.Inherits drawn (fun id => drawn id ∨ d.names id) s'.tables := by
  unfold execute at h
  split at h
  · cases moveTrivially_outcome h with
    | uncommitted part copies kept => exact (copyTables_inherits once copies).mono fun _ => Or.inl
    | committed copies stored finished failed =>
      have copied := copyTables_inherits once copies
      have coherent : s.tables.Coherent := fun a b id xs ys one two =>
        once.same ⟨a, id⟩ ⟨b, id⟩ xs ys one two rfl
      obtain ⟨-, -, -, present⟩ := copyTables_spec coherent copies
      refine (copied.trans once (deleteTables_inherits (copied.writeOnce once) moves ?_)).mono
        fun _ => Or.inl
      intro t member
      obtain ⟨xs, -, found⟩ := present rfl t ((doneBefore_sublist _ _).subset member)
      exact Option.isSome_of_eq_some found
  · cases mergeInputs_outcome h with
    | unread => exact (Lib.Inherits.refl once).mono fun _ => Or.inl
    | uncommitted read kept => exact writeTables_inherits once fresh _ (doneBefore_sublist _ _)
    | committed read cut reads writes reached stored finished =>
      rw [← cut]
      exact writeTables_inherits once fresh _ (List.Sublist.refl _)

end CompactionExecutor

namespace Engine
variable {env : Env} {s t : Engine}

/-- What an engine's tables hand down to those of another state. -/
abbrev Hands (env : Env) (s t : Stored) : Prop :=
  s.tables.Inherits (s.Drawn env) (t.Drawn env) t.tables

theorem hands_refl (once : s.tables.WrittenOnce (s.Drawn env)) {t : Stored}
    (tables : t.tables = s.tables) (drawn : s.drawn ≤ t.drawn) :
    Hands env s.toStored t := by
  rw [Hands, tables]
  exact (Lib.Inherits.refl once).mono fun id => Stored.Drawn.mono drawn

theorem flush_hands (unique : Function.Injective env.ulid)
    (once : s.tables.WrittenOnce (s.Drawn env)) {frozen : Memtable} {draw : FlushDraw}
    {r : FlushResult SSTableMeta} (h : flush env frozen draw s = (r, t)) :
    Hands env s.toStored t.toStored := by
  have more : ∀ id, s.Drawn env id ∨ id = .single (env.ulid s.drawn) →
      Stored.Drawn env { s.toStored with drawn := s.drawn + 1 } id := by
    rintro id (old | rfl)
    · exact old.mono (Nat.le_succ _)
    · exact ⟨s.drawn, Nat.lt_succ_self _, Or.inl rfl⟩
  have written : ∀ entries, s.tables.Inherits (s.Drawn env)
      (Stored.Drawn env { s.toStored with drawn := s.drawn + 1 })
      (s.tables.put ⟨.L0, .single (env.ulid s.drawn)⟩ entries) := by
    intro entries
    have fresh := s.not_drawn unique (le_refl _) (Or.inl rfl)
    exact (@Lib.Inherits.put _ _ _ _ SstPath.file _ s.tables once
      ⟨.L0, .single (env.ulid s.drawn)⟩ fresh entries).mono more
  cases flush_ends h with
  | empty => exact Lib.Inherits.refl once
  | unwritten => exact hands_refl once rfl (Nat.le_succ _)
  | written nodes => exact written _
  | refused nodes => exact written _
  | committed nodes => exact written _

/-- A compaction draws a name for a run and one for a single table. -/
theorem compact_drawn (draw : CompactionDraw) (s : Engine) :
    ∀ id, s.Drawn env id ∨ Drawn.names ⟨draw.nowMs, env.ulid s.drawn, env.ulid (s.drawn + 1),
      draw.fault⟩ id →
      Stored.Drawn env { s.toStored with drawn := s.drawn + 2 } id := by
  rintro id (old | rfl | ⟨index, rfl⟩)
  · exact Stored.Drawn.mono (by show s.drawn ≤ s.drawn + 2; omega) old
  · exact ⟨s.drawn + 1, by show s.drawn + 1 < s.drawn + 2; omega, Or.inl rfl⟩
  · exact ⟨s.drawn, by show s.drawn < s.drawn + 2; omega, Or.inr ⟨index, rfl⟩⟩

theorem compact_hands (unique : Function.Injective env.ulid)
    (once : s.tables.WrittenOnce (s.Drawn env)) {draw : CompactionDraw} {task : CompactionTask}
    (moves : task.sourceLevel ≠ task.targetLevel) {r : FlushResult Unit}
    (h : compact env draw task s = (r, t)) : Hands env s.toStored t.toStored := by
  obtain ⟨result, left, levels, pending, executed, rfl⟩ := compact_frame h
  exact (CompactionExecutor.execute_inherits once moves (compact_fresh unique draw s) executed).mono
    (compact_drawn draw s)

theorem maybeCompact_hands (unique : Function.Injective env.ulid)
    (once : s.tables.WrittenOnce (s.Drawn env)) {draw : Nat → CompactionDraw} {r : FlushResult Unit}
    (h : maybeCompact env draw s = (r, t)) : Hands env s.toStored t.toStored := by
  refine @compactAll_keeps env (fun u => Hands env s.toStored u.toStored) _ _ ?_ _ _ _
    (Lib.Inherits.refl once) h
  intro task member i u r v before one
  obtain ⟨low, high, plan⟩ := CompactionExecutor.checkTriggers_planned member
  exact before.trans once (compact_hands unique (before.writeOnce once)
    (CompactionExecutor.levels_differ plan) one)

theorem Change.hands (unique : Function.Injective env.ulid) {new : List MemtableEntry}
    (change : Change env s new t) (once : s.tables.WrittenOnce (s.Drawn env)) :
    Hands env s.toStored t.toStored := by
  cases change with
  | aside frame =>
    rw [frame]
    exact Lib.Inherits.refl once
  | inserted entry => exact Lib.Inherits.refl once
  | committed nonempty flushed => exact @flush_hands env s.popped t unique once _ _ _ flushed
  | @dropped _ _ left nonempty failed =>
    exact @flush_hands env s.popped left unique once _ _ _ failed
  | compacted compacts => exact maybeCompact_hands unique once compacts

/-- An opening neither writes a table nor draws a name. -/
theorem openStored_aside {nowMs : Nat} {fault : Option OpenFault} {st st' : Stored}
    {r : FlushResult Engine} (keyed : Keyed st.manifests)
    (h : openStored env nowMs fault st = (r, st')) :
    st'.tables = st.tables ∧ st'.drawn = st.drawn := by
  unfold openStored at h
  generalize recovers : recover env nowMs st = left at h
  obtain ⟨result, mid⟩ := left
  have aside : mid.tables = st.tables ∧ mid.drawn = st.drawn := by
    rw [(recover_spec keyed recovers).1.frame]
    exact ⟨rfl, rfl⟩
  cases result with
  | error e =>
    cases h
    exact aside
  | ok recovered =>
    dsimp only at h
    split at h
    · cases h
      exact aside
    split at h
    · cases h
      exact aside
    split at h
    · cases h
      exact aside
    split at h
    · cases h
      exact aside
    · cases h
      exact aside

end Engine

namespace World
variable {env : Env} {w w' : World} {a : Label}

theorem Ready.shelf (ready : Ready env w) :
    Shelf (w.disk.Drawn env) (tablesAt w.disk.manifests) w.disk.tables := by
  cases active : w.engine with
  | some s =>
    rw [disk_of_engine active]
    exact (ready.engine s active).shelf
  | none =>
    rw [disk_closed active]
    exact (ready.stored active).shelf

theorem step_hands (unique : Function.Injective env.ulid) (ready : Ready env w)
    (taken : step env w a = some w') :
    Engine.Hands env w.disk w'.disk := by
  have once := ready.shelf.writtenOnce
  have unchanged : w'.disk.tables = w.disk.tables → w'.disk.drawn = w.disk.drawn →
      Engine.Hands env w.disk w'.disk := by
    intro tables drawn
    rw [Engine.Hands, tables]
    exact (Lib.Inherits.refl once).mono fun id => Stored.Drawn.mono drawn.ge
  have called : a.isCall → Engine.Hands env w.disk w'.disk := by
    intro call
    obtain ⟨s, active⟩ := call_active call taken
    obtain ⟨s', done, active', -, -, chain, -⟩ :=
      call_changes unique call active (ready.engine s active) taken
    rw [disk_of_engine active] at once ⊢
    rw [disk_of_engine active']
    refine chain.keeps (P := fun t => Engine.Hands env s.toStored t.toStored) ?_
      (ready.engine s active) (Lib.Inherits.refl once)
    intro t t' _ ready_t _ change kept
    exact kept.trans once (change.hands unique ready_t.shelf.writtenOnce)
  cases a with
  | openEngine nowMs fault =>
    unfold step at taken
    dsimp only at taken
    split at taken
    · cases taken
    rename_i closed
    generalize opens : Engine.openStored env nowMs fault w.stored = result at taken
    obtain ⟨r, st⟩ := result
    obtain ⟨tables, drawn⟩ := Engine.openStored_aside (ready.stored closed).keyed opens
    rw [← disk_closed closed] at tables drawn
    rcases Engine.openStored_launched (ready.stored closed) opens with ⟨e, rfl, -⟩ | ⟨s, rfl, rfl, -⟩
    · obtain rfl := Option.some.inj taken
      have disk : World.disk { w with stored := st } = st := disk_closed closed
      rw [← disk] at tables drawn
      exact unchanged tables drawn
    · obtain rfl := Option.some.inj taken
      exact unchanged tables drawn
  | crash torn =>
    obtain ⟨s, active, rfl⟩ := Option.map_eq_some_iff.mp taken
    rw [disk_of_engine active] at unchanged ⊢
    exact unchanged rfl rfl
  | _ => exact called rfl

theorem exec_hands (unique : Function.Injective env.ulid) {labels : List Label}
    (ready : Ready env w) (run : exec (step env) w labels = some w') :
    Engine.Hands env w.disk w'.disk := by
  have once := ready.shelf.writtenOnce
  have kept : ∀ u b v, Ready env u ∧ Engine.Hands env w.disk u.disk → step env u b = some v →
      Ready env v ∧ Engine.Hands env w.disk v.disk :=
    fun u b v before taken =>
      ⟨step_ready unique before.1 taken, before.2.trans once (step_hands unique before.1 taken)⟩
  exact (exec_keeps kept ⟨ready, Lib.Inherits.refl once⟩ run).2

/-- In every run, whatever fails in it, a table that once has an object has one for ever, and all
its objects at all times and levels are the same. -/
theorem tables_written_once (unique : Function.Injective env.ulid) {labels later : List Label}
    (run : exec (step env) {} labels = some w) {level : Level} {id : SstId}
    {entries : List MergeEntry} (found : w.disk.tables.get ⟨level, id⟩ = some entries)
    (goesOn : exec (step env) w later = some w') :
    (∃ level', w'.disk.tables.get ⟨level', id⟩ = some entries) ∧
      ∀ level' entries', w'.disk.tables.get ⟨level', id⟩ = some entries' → entries' = entries := by
  have ready := exec_ready unique run
  have hands := exec_hands unique ready goesOn
  constructor
  · obtain ⟨⟨level', id'⟩, same, kept⟩ := hands.kept ⟨level, id⟩ entries found
    obtain rfl : id' = id := same
    exact ⟨level', kept⟩
  · intro level' entries' present
    exact hands.same ready.shelf.writtenOnce found present rfl

section Example

/-- Compactions on both sides of a crash; each moves the oldest table of L1 down. -/
def movingOn : List Label :=
  [.maybeCompact fun _ => {}, .crash [], .openEngine 0 none, .maybeCompact fun _ => {}]

/-- A fragment that L1 has lost lies in L2 as it was. -/
theorem tables_written_once_moved :
    ∃ w w' entries, exec (step conflictEnv) {} (conflictRun 8) = some w ∧
      exec (step conflictEnv) w movingOn = some w' ∧
      w.disk.tables.get ⟨.L1, .fragment "xx" 2⟩ = some entries ∧
        w'.disk.tables.get ⟨.L1, .fragment "xx" 2⟩ = none ∧
      w'.disk.tables.get ⟨.L2, .fragment "xx" 2⟩ = some entries := by
  have summary : ((exec (step conflictEnv) {} (conflictRun 8)).bind fun w =>
      (exec (step conflictEnv) w movingOn).map fun w' =>
      ((w.disk.tables.get ⟨.L1, .fragment "xx" 2⟩).isSome,
        (w'.disk.tables.get ⟨.L1, .fragment "xx" 2⟩).isNone,
        (w'.disk.tables.get ⟨.L2, .fragment "xx" 2⟩).isSome)) =
          some (true, true, true) := by decide +kernel
  obtain ⟨w, run, rest⟩ := Option.bind_eq_some_iff.mp summary
  obtain ⟨w', goesOn, held⟩ := Option.map_eq_some_iff.mp rest
  obtain ⟨before, after⟩ := Prod.mk.inj held
  obtain ⟨left, moved⟩ := Prod.mk.inj after
  obtain ⟨entries, found⟩ := Option.isSome_iff_exists.mp before
  obtain ⟨entries', found'⟩ := Option.isSome_iff_exists.mp moved
  obtain ⟨-, same⟩ := @tables_written_once conflictEnv _ _
    (sampleEnv_unique 100) _ _ run _ _ _ found goesOn
  obtain rfl := same _ _ found'
  exact ⟨w, w', entries', run, goesOn, found, Option.isNone_iff_eq_none.mp left, found'⟩

end Example

end World

end FlushDB
