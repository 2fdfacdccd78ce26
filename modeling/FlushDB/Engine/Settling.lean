import FlushDB.Compaction.Descent
import FlushDB.Engine.Arrangement

/-!
Compaction settles. Whatever the compactions of an engine meet, they commit no more often than
their entries have levels to go down, and without failures they run until none is due.
-/

namespace FlushDB
open Lib ManifestBucket

namespace ManifestState

/-- No compactor has taken an epoch. -/
structure Unraised (s : ManifestState) : Prop where
  manager : s.manager.compactorEpoch = 0
  current : s.manager.current.compactorEpoch = 0
  stored : ∀ id m, s.bucket.get id = some m → m.compactorEpoch = 0

variable {s t : ManifestState} {len : Manifest → Nat} {u : ManifestUpdate} {nowMs : Nat}
  {r : FlushResult Unit}

theorem Unraised.conditionalPut (h : Unraised s) {m : Manifest} (low : m.compactorEpoch = 0)
    {k : Nat} {bucket : ObjectStore Nat Manifest}
    (put : s.bucket.conditionalPut k m = some bucket) :
    ∀ id x, bucket.get id = some x → x.compactorEpoch = 0 := by
  obtain ⟨-, rfl⟩ := ObjectStore.conditionalPut_some put
  exact ObjectStore.forall_put h.stored low

theorem loadLatest_unraised (h : Unraised s) (loads : s.loadLatest nowMs = (r, t)) :
    Unraised t := by
  unfold loadLatest at loads
  split at loads
  · dsimp only at loads
    split at loads
    · rename_i bucket put
      cases loads
      exact ⟨h.manager, rfl, h.conditionalPut rfl put⟩
    · split at loads
      · rename_i stored found
        cases loads
        exact ⟨h.manager, h.stored _ _ found, h.stored⟩
      · cases loads
        exact h
  · split at loads
    · cases loads
      exact h
    · rename_i m found
      split at loads
      · cases loads
        exact h
      · cases loads
        exact ⟨h.manager, h.stored _ _ found, h.stored⟩

theorem acquireEpoch_unraised (h : Unraised s) (acquires : s.acquireEpoch .writer nowMs = (r, t)) :
    Unraised t := by
  unfold acquireEpoch at acquires
  generalize loads : s.loadLatest nowMs = left at acquires
  obtain ⟨result, mid⟩ := left
  have kept := loadLatest_unraised h loads
  cases result with
  | error e =>
    cases acquires
    exact kept
  | ok done =>
    dsimp only at acquires
    split at acquires
    · cases acquires
      exact kept
    · rename_i next applied
      have low : next.compactorEpoch = 0 := by
        obtain ⟨removed, -, -, rfl⟩ := ManifestUpdate.apply_ok applied
        exact kept.current
      split at acquires
      · rename_i bucket put
        cases acquires
        exact ⟨kept.manager, low, kept.conditionalPut low put⟩
      · cases acquires
        exact kept

theorem update_unraised (h : Unraised s) (latest : s.Latest) (low : u.compactorEpoch = 0)
    (updates : s.update len u nowMs = (r, t)) : Unraised t := by
  rcases update_cases len u nowMs latest.free with ⟨e, failed⟩ | ⟨next, written, applied, same, stored⟩
  · rw [failed] at updates
    cases updates
    exact h
  · rw [stored] at updates
    cases updates
    have written_low : written.compactorEpoch = 0 := by
      obtain ⟨removed, -, -, rfl⟩ := ManifestUpdate.apply_ok applied
      rcases same with rfl | rfl <;> exact low
    exact ⟨h.manager, written_low, ObjectStore.forall_put h.stored written_low⟩

end ManifestState

namespace Engine
open CompactionExecutor Levels
variable {env : Env} {s t : Engine}

abbrev Unraised (s : Engine) : Prop := s.manifest.Unraised

theorem Unraised.unfenced (h : Unraised s) :
    s.manifestManager.current.compactorEpoch ≤ s.manifestManager.compactorEpoch := by
  have manager : s.manifestManager.compactorEpoch = 0 := h.manager
  have current : s.manifestManager.current.compactorEpoch = 0 := h.current
  omega

theorem execute_unraised {config : CompactionConfig} {fileSize : List MergeEntry → Nat}
    {serializedLen : Manifest → Nat} {d : Drawn} {task : CompactionTask} {c c' : CompactionState}
    {r : FlushResult CompactionResult} (latest : c.manifest.Latest) (h : c.manifest.Unraised)
    (executed : execute config fileSize serializedLen d task c = (r, c')) :
    c'.manifest.Unraised := by
  have kept : ∀ {m : ManifestState}, Uncommitted serializedLen d c m → m.Unraised := by
    intro m same
    rw [same.same latest]
    exact h
  have low : ∀ added removed, (compactionUpdate c.manifest.manager added removed).compactorEpoch =
      0 := fun _ _ => h.manager
  unfold execute at executed
  split at executed
  · cases moveTrivially_outcome executed with
    | uncommitted part copies same => exact kept same
    | committed copies stored => exact ManifestState.update_unraised h latest (low _ _) stored
  · cases mergeInputs_outcome executed with
    | unread => exact h
    | uncommitted read same => exact kept same
    | committed read cut reads writes reached stored =>
      exact ManifestState.update_unraised h latest (low _ _) stored

theorem maybeCompact_unraised (unique : Function.Injective env.ulid) (sound : s.Sound env)
    (latest : s.manifest.Latest) (h : Unraised s) {draw : Nat → CompactionDraw}
    {r : FlushResult Unit} (compacts : maybeCompact env draw s = (r, t)) :
    Unraised t := by
  suffices both : Compacted env s t ∧ Unraised t from both.2
  refine @compactAll_keeps env (fun u => Compacted env s u ∧ Unraised u) _ _ ?_ _ _ _
    ⟨.refl sound latest, h⟩ compacts
  intro task member i u r v before one
  obtain ⟨low, high, plan⟩ := checkTriggers_planned member
  have ordered : u.wal.Ordered := by
    rw [before.1.frame]
    exact sound.ordered
  obtain ⟨result, left, levels, pending, executed, frame⟩ := compact_frame one
  refine ⟨before.1.trans (compact_compacted unique (levels_differ plan)
    ⟨before.1.keyed, ordered, before.1.shelf⟩
    before.1.latest one).1, ?_⟩
  have kept := execute_unraised before.1.latest before.2 executed
  rw [frame]
  exact kept

theorem Change.unraised (unique : Function.Injective env.ulid) {new : List MemtableEntry}
    (change : Change env s new t) (ready : Ready env s) (h : Unraised s) : Unraised t := by
  have flushed : ∀ {draw : FlushDraw} {r : FlushResult SSTableMeta} {t : Engine},
      flush env { s.memtableList.active with frozen := true } draw s.popped = (r, t) →
        Unraised t := by
    intro draw r t flushes
    have popped := (popped_ready ready).latest
    have low : ∀ table, (s.popped.flushUpdate table).compactorEpoch = 0 := fun _ => h.manager
    cases flush_ends flushes with
    | empty => exact h
    | unwritten => exact h
    | written => exact h
    | refused nodes made failed => exact ManifestState.update_unraised h popped (low _) failed
    | committed nodes succeeds made stored =>
      exact ManifestState.update_unraised h popped (low _) stored
  cases change with
  | aside frame =>
    rw [frame]
    exact h
  | inserted entry => exact h
  | committed nonempty commits => exact flushed commits
  | dropped nonempty failed =>
    have kept := flushed failed
    exact kept
  | compacted compacts => exact maybeCompact_unraised unique ready.toSound ready.latest h compacts

end Engine

namespace World
open Engine
variable {env : Env} {w w' : World} {a : Label}

/-- No compactor epoch is stored or held. -/
structure Unraised (w : World) : Prop where
  stored : ∀ id m, w.disk.manifests.get id = some m → m.compactorEpoch = 0
  engine : ∀ s, w.engine = some s → s.Unraised

theorem recover_unraised {nowMs : Nat} {st st' : Stored} {r : FlushResult RecoveryResult}
    (low : ∀ id m, st.manifests.get id = some m → m.compactorEpoch = 0)
    (h : recover env nowMs st = (r, st')) :
    (∀ id m, st'.manifests.get id = some m → m.compactorEpoch = 0) ∧ ∀ x, r = .ok x →
      x.manifest.Unraised := by
  have start : ManifestState.Unraised
      ⟨ManifestManager.new env.config.ns nowMs env.config.manifestConfig, st.manifests⟩ :=
    ⟨rfl, rfl, low⟩
  unfold recover at h
  generalize loads : ManifestState.loadLatest nowMs
    ⟨ManifestManager.new env.config.ns nowMs env.config.manifestConfig, st.manifests⟩ = left at h
  obtain ⟨result, m⟩ := left
  have loaded := ManifestState.loadLatest_unraised start loads
  cases result with
  | error e =>
    cases h
    exact ⟨loaded.stored, by rintro x ⟨⟩⟩
  | ok done =>
    dsimp only at h
    split at h
    · cases h
      exact ⟨loaded.stored, by rintro x ⟨⟩⟩
    · split at h
      · cases h
        exact ⟨loaded.stored, by rintro x ⟨⟩⟩
      · cases h
        refine ⟨loaded.stored, ?_⟩
        intro x same
        obtain rfl := Except.ok.inj same
        exact loaded

theorem openStored_unraised {nowMs : Nat} {fault : Option OpenFault} {st st' : Stored}
    {r : FlushResult Engine} (low : ∀ id m, st.manifests.get id = some m → m.compactorEpoch = 0)
    (h : openStored env nowMs fault st = (r, st')) :
    (∀ id m, st'.manifests.get id = some m → m.compactorEpoch = 0) ∧ ∀ s, r = .ok s →
      s.Unraised := by
  unfold openStored at h
  generalize recovers : recover env nowMs st = left at h
  obtain ⟨result, mid⟩ := left
  obtain ⟨kept, recovered⟩ := recover_unraised low recovers
  cases result with
  | error e =>
    cases h
    exact ⟨kept, by rintro s ⟨⟩⟩
  | ok result =>
    dsimp only at h
    split at h
    · cases h
      exact ⟨kept, by rintro s ⟨⟩⟩
    generalize acquires : result.manifest.acquireEpoch .writer nowMs = left at h
    obtain ⟨outcome, m⟩ := left
    have acquired := ManifestState.acquireEpoch_unraised (recovered result rfl) acquires
    cases outcome with
    | error e =>
      cases h
      exact ⟨acquired.stored, by rintro s ⟨⟩⟩
    | ok done =>
      dsimp only at h
      split at h
      · cases h
        exact ⟨acquired.stored, by rintro s ⟨⟩⟩
      split at h
      · cases h
        exact ⟨acquired.stored, by rintro s ⟨⟩⟩
      · cases h
        refine ⟨acquired.stored, ?_⟩
        intro s same
        obtain rfl := Except.ok.inj same
        exact acquired

theorem unraised_of_engine {s : Engine} (active : w.engine = some s) : w.Unraised ↔ s.Unraised := by
  constructor
  · exact fun h => h.engine s active
  · intro h
    refine ⟨?_, ?_⟩
    · rw [disk_of_engine active]
      exact h.stored
    · intro t same
      rw [active] at same
      exact Option.some.inj same ▸ h

theorem step_unraised (unique : Function.Injective env.ulid) (ready : Ready env w) (h : w.Unraised)
    (taken : step env w a = some w') : w'.Unraised := by
  have called : a.isCall → w'.Unraised := by
    intro call
    obtain ⟨s, active⟩ := call_active call taken
    have ready_s := ready.engine s active
    obtain ⟨s', done, active', ready', -, chain, -⟩ := call_changes unique call active ready_s taken
    refine (unraised_of_engine active').mpr (chain.keeps ?_ ready_s ((unraised_of_engine active).mp h))
    exact fun _ _ _ before after change kept => change.unraised unique before kept
  cases a with
  | openEngine nowMs fault =>
    simp only [step] at taken
    split at taken
    · cases taken
    rename_i closed
    have low := h.stored
    rw [disk_closed closed] at low
    generalize opens : openStored env nowMs fault w.stored = left at taken
    obtain ⟨result, st⟩ := left
    obtain ⟨stored, opened⟩ := openStored_unraised low opens
    cases result with
    | error e =>
      cases taken
      refine ⟨?_, ?_⟩
      · simp only [disk, closed]
        exact stored
      · intro t active
        rw [closed] at active
        cases active
    | ok s =>
      cases taken
      exact (unraised_of_engine rfl).mpr (opened s rfl)
  | crash torn =>
    obtain ⟨s, active, rfl⟩ := Option.map_eq_some_iff.mp taken
    exact ⟨((unraised_of_engine active).mp h).stored, by rintro t ⟨⟩⟩
  | _ => exact called rfl

end World

namespace CompactionScheduler

/-- No task has a table twice. -/
theorem checkTriggers_once {config : CompactionConfig} {m : Manifest} {task : CompactionTask}
    (distinct : ∀ level, ((m.sstablesAtLevel level).map SSTableMeta.id).Nodup)
    (planned : task ∈ checkTriggers config m) :
    (task.inputSSTables.map SSTableMeta.id).Nodup := by
  rcases List.mem_append.mp planned with upper | last
  · rcases List.mem_append.mp upper with first | second
    · obtain ⟨low, high, -, range, rfl⟩ := checkL0Trigger_some (Option.mem_toList.mp first)
      exact distinct .L0
    · obtain ⟨-, oldest, -, rfl⟩ := (@checkLevelTrigger_iff config m task .L1 .L2 _ rfl rfl).mp
        (Option.mem_toList.mp second)
      exact List.nodup_singleton _
  · obtain ⟨-, oldest, -, rfl⟩ := (@checkLevelTrigger_iff config m task .L2 .L3 _ rfl rfl).mp
      (Option.mem_toList.mp last)
    exact List.nodup_singleton _

end CompactionScheduler

namespace Engine
open CompactionExecutor Levels
variable {env : Env} {s t : Engine}

/-- What a run keeps of an engine that compactions need. -/
structure Poised (env : Env) (s : Engine) : Prop where
  ready : Ready env s
  arranged : Levels.Arranged s.manifestManager.current s.tables
  unraised : Unraised s

/-- The compactions that are due. -/
def due (env : Env) (s : Engine) : List CompactionTask :=
  CompactionScheduler.checkTriggers env.config.compactionConfig s.manifestManager.current

/-- The levels that the listed entries can still go down. -/
def fall (s : Engine) : Nat := Levels.fall s.manifestManager.current s.tables

theorem maybeCompact_poised (unique : Function.Injective env.ulid) (h : Poised env s)
    {draw : Nat → CompactionDraw} {r : FlushResult Unit}
    (compacts : maybeCompact env draw s = (r, t)) : Poised env t := by
  have ready := (maybeCompact_compacted unique h.ready.toSound h.ready.latest compacts).ready h.ready
  exact ⟨ready, (Change.compacted compacts).arranged unique h.ready ready h.arranged,
    maybeCompact_unraised unique h.ready.toSound h.ready.latest h.unraised compacts⟩

/-- Each number that compactions take lowers what is left to do. -/
theorem maybeCompact_fall (unique : Function.Injective env.ulid) (h : Poised env s)
    {draw : Nat → CompactionDraw} {r : FlushResult Unit}
    (compacts : maybeCompact env draw s = (r, t)) :
    t.manifestManager.current.manifestId + t.fall ≤ s.manifestManager.current.manifestId + s.fall :=
  (maybeCompact_keeps unique
    (P := fun c => Levels.Arranged c.manifest.manager.current c.tables ∧
      c.manifest.manager.current.manifestId + Levels.fall c.manifest.manager.current c.tables ≤
        s.manifestManager.current.manifestId + s.fall)
    (fun _ kept => kept.1) (fun _ _ _ _ _ ends kept =>
      ⟨ends.arranged kept.1, (ends.fall_le kept.1).trans kept.2⟩)
    h.ready.standing ⟨h.arranged, le_refl _⟩ compacts).2

/-- Without a failure a compaction that is due commits. -/
theorem compact_commits (unique : Function.Injective env.ulid) (h : Poised env s)
    {task : CompactionTask} (planned : task ∈ due env s) {draw : CompactionDraw}
    (sound : draw.fault = none) {r : FlushResult Unit}
    (compacts : compact env draw task s = (r, t)) :
    Ends (drawnFor env draw s) task s.compactionState t.compactionState ∧
      t.manifestManager.current.manifestId = s.manifestManager.current.manifestId + 1 := by
  obtain ⟨low, high, plan⟩ := checkTriggers_planned planned
  have ahead := checkTriggers_ahead h.ready.standing h.arranged
  obtain ⟨low', high', foreseen⟩ := ahead.1 task planned
  have ends := compact_ends unique h.ready.standing foreseen h.arranged compacts
  refine ⟨ends, ?_⟩
  obtain ⟨result, left, levels, pending, executed, frame⟩ := compact_frame compacts
  have names : FreshNames (drawnFor env draw s) s.manifestManager.current :=
    fresh_names (s := s.compactionState) h.ready.shelf h.ready.latest (compact_fresh unique draw s)
  have once := CompactionScheduler.checkTriggers_once (ids_nodup h.arranged) planned
  obtain ⟨done, c, commits⟩ := @execute_commits env.config.compactionConfig env.fileSize
    env.serializedLen (drawnFor env draw s) task
    low high s.compactionState h.ready.latest h.unraised.unfenced names h.arranged plan once sound
  have same := executed.symm.trans commits
  obtain ⟨rfl, rfl⟩ := Prod.mk.inj same
  have number := execute_number h.ready.latest executed
  rw [frame]
  exact number

/-- Without failures the first compaction that is due commits; what the others keep of that is
left. -/
theorem maybeCompact_first (unique : Function.Injective env.ulid) (h : Poised env s)
    {draw : Nat → CompactionDraw} (sound : ∀ i, (draw i).fault = none) {task : CompactionTask}
    {rest : List CompactionTask} (pending : due env s = task :: rest) {P : CompactionState → Prop}
    (arranges : ∀ c, P c → Levels.Arranged c.manifest.manager.current c.tables)
    (first : ∀ d c, Ends d task s.compactionState c →
      c.manifest.manager.current.manifestId = s.manifestManager.current.manifestId + 1 → P c)
    (keeps : ∀ later ∈ rest, ∀ d c c', Ends d later c c' → P c → P c') {r : FlushResult Unit}
    (compacts : maybeCompact env draw s = (r, t)) : P t.compactionState := by
  have planned : task ∈ due env s := pending ▸ List.mem_cons_self
  have ahead := checkTriggers_ahead h.ready.standing h.arranged
  unfold maybeCompact at compacts
  rw [show CompactionScheduler.checkTriggers env.config.compactionConfig s.manifestManager.current =
    task :: rest from pending]
    at ahead compacts
  unfold compactAll at compacts
  generalize one : compact env (draw rest.length) task s = left at compacts
  obtain ⟨result, u⟩ := left
  obtain ⟨ends, number⟩ := compact_commits unique h planned (sound _) one
  have start := first _ _ ends number
  cases result with
  | error e =>
    cases compacts
    exact start
  | ok done =>
    obtain ⟨standing, ahead⟩ := ahead.next unique h.ready.standing h.arranged one
    exact tasks_keep unique arranges keeps standing start ahead compacts

theorem maybeCompact_progress (unique : Function.Injective env.ulid) (h : Poised env s)
    {draw : Nat → CompactionDraw} (sound : ∀ i, (draw i).fault = none) (pending : due env s ≠ [])
    {r : FlushResult Unit} (compacts : maybeCompact env draw s = (r, t)) : t.fall < s.fall := by
  obtain ⟨task, rest, planned⟩ := List.exists_cons_of_ne_nil pending
  have further := (maybeCompact_first unique h sound planned
    (P := fun c => Levels.Arranged c.manifest.manager.current c.tables ∧
      s.manifestManager.current.manifestId < c.manifest.manager.current.manifestId)
    (fun _ kept => kept.1) (fun d c ends number => ⟨ends.arranged h.arranged, by omega⟩)
    (fun _ _ _ _ _ ends kept => ⟨ends.arranged kept.1, kept.2.trans_le ends.number_le⟩) compacts).2
  have less := maybeCompact_fall unique h compacts
  have number : t.compactionState.manifest.manager.current.manifestId =
      t.manifestManager.current.manifestId := rfl
  omega

theorem maybeCompact_idle (none_due : due env s = []) (draw : Nat → CompactionDraw) :
    maybeCompact env draw s = (.ok (), s) := by
  unfold maybeCompact
  rw [show CompactionScheduler.checkTriggers env.config.compactionConfig s.manifestManager.current =
    [] from none_due]
  rfl

end Engine

namespace World
open Engine
variable {env : Env} {w w' : World} {s : Engine}

/-- Every run leaves an open engine poised. -/
theorem exec_poised (unique : Function.Injective env.ulid) {labels : List Label}
    (run : exec (step env) {} labels = some w) (active : w.engine = some s) : s.Poised env := by
  have kept : ∀ w a w', Ready env w ∧ w.Arranged ∧ w.Unraised → step env w a = some w' →
      Ready env w' ∧ w'.Arranged ∧ w'.Unraised :=
    fun w a w' before taken =>
      ⟨step_ready unique before.1 taken, step_arranged unique before.1 before.2.1 taken,
      step_unraised unique before.1 before.2.2 taken⟩
  have nothing : ∀ id m, ({} : World).disk.manifests.get id = some m → m.compactorEpoch = 0 := by
    rintro id m ⟨⟩
  obtain ⟨ready, arranged, unraised⟩ :=
    exec_keeps kept ⟨ready_empty env, Lists.arranged_empty _, nothing, by rintro s ⟨⟩⟩ run
  exact ⟨ready.engine s active, (arranged_of_engine active (ready.engine s active)).mp arranged,
    unraised.engine s active⟩

theorem step_maybeCompact {draw : Nat → CompactionDraw}
    (taken : step env w (.maybeCompact draw) = some w') (active : w.engine = some s) :
    ∃ r t, Engine.maybeCompact env draw s = (r, t) ∧ w' = { w with engine := some t } := by
  simp only [step, active, Option.map_some, Option.some.injEq] at taken
  exact ⟨_, _, rfl, taken.symm⟩

/-- What one call of `maybe_compact` leaves of an engine. -/
def compacts (env : Env) (s : Engine) (draw : Nat → CompactionDraw) : Option Engine :=
  some (Engine.maybeCompact env draw s).2

theorem exec_compacts {calls : List (Nat → CompactionDraw)}
    (runs : exec (step env) w (calls.map .maybeCompact) = some w') (active : w.engine = some s) :
    ∃ t, w'.engine = some t ∧ exec (compacts env) s calls = some t := by
  induction calls generalizing w s with
  | nil =>
    cases runs
    exact ⟨s, active, rfl⟩
  | cons draw rest ih =>
    obtain ⟨mid, taken, runs⟩ := exec_cons runs
    obtain ⟨r, u, called, rfl⟩ := step_maybeCompact taken active
    obtain ⟨t, active', rest_runs⟩ := ih runs rfl
    have first : compacts env s draw = some u := by rw [compacts, called]
    exact ⟨t, active', Option.bind_eq_some_iff.mpr ⟨u, first, rest_runs⟩⟩

/-- From every state that a run reaches, the compactions of an undisturbed continuation commit at
most as often as the listed entries have levels to go down, whatever they meet; and as many calls,
of which nothing fails, leave none due. -/
theorem compaction_settles {env : Env} (unique : Function.Injective env.ulid) {labels : List Label}
    {w w' : World} {s : Engine} (run : exec (step env) {} labels = some w)
    (active : w.engine = some s) {calls : List (Nat → CompactionDraw)}
    (undisturbed : Undisturbed env (labels ++ calls.map .maybeCompact) w') :
    ∃ t, w'.engine = some t ∧
      t.manifestManager.current.manifestId + t.fall ≤ s.manifestManager.current.manifestId + s.fall ∧
      ((∀ draw ∈ calls, ∀ i, (draw i).fault = none) → s.fall ≤ calls.length → t.due env = []) := by
  have runs := exec_later undisturbed.run run
  have poised := exec_poised unique run active
  obtain ⟨t, active', each⟩ := exec_compacts runs active
  refine ⟨t, active', ?_, ?_⟩
  · have kept : ∀ u draw v, (u.Poised env ∧ u.manifestManager.current.manifestId + u.fall ≤
        s.manifestManager.current.manifestId + s.fall) → compacts env u draw = some v →
        v.Poised env ∧ v.manifestManager.current.manifestId + v.fall ≤
          s.manifestManager.current.manifestId + s.fall := by
      rintro u draw v ⟨poised, less⟩ taken
      obtain rfl := Option.some.inj taken
      exact ⟨maybeCompact_poised unique poised rfl, (maybeCompact_fall unique poised rfl).trans less⟩
    exact (exec_keeps kept ⟨poised, le_refl _⟩ each).2
  · intro sound enough
    have falls : ∀ u draw v, u.Poised env → (∀ i, (draw i : CompactionDraw).fault = none) →
        compacts env u draw = some v →
        ¬ u.due env = [] → v.fall < u.fall := by
      intro u draw v poised sound taken pending
      obtain rfl := Option.some.inj taken
      exact maybeCompact_progress unique poised sound pending rfl
    refine @exec_settles _ _ _ _ _ Engine.fall (fun u => u.due env = []) ?_ falls ?_ ?_ _ _ _ poised
      sound each enough
    · intro u draw v poised sound taken
      obtain rfl := Option.some.inj taken
      exact maybeCompact_poised unique poised rfl
    · intro u draw v poised sound taken idle
      obtain rfl := Option.some.inj taken
      rw [maybeCompact_idle idle]
      exact idle
    · intro u poised nothing
      by_contra pending
      have less := falls u (fun _ => {}) _ poised (fun _ => rfl) rfl pending
      omega

section Example

/-- The first check of these plans a task that it makes stale. -/
theorem compaction_settles_stale :
    ∃ w s w' t, exec (step mergingEnv) {} staleRun = some w ∧ w.engine = some s ∧
      exec (step mergingEnv) w ((List.replicate 14 fun _ => {}).map .maybeCompact) = some w' ∧
        w'.engine = some t ∧
      t.manifestManager.current.manifestId + t.fall ≤
        s.manifestManager.current.manifestId + s.fall ∧ t.due mergingEnv = [] := by
  have runs : ((exec (step mergingEnv) {} staleRun).bind fun w =>
      (exec (step mergingEnv) w ((List.replicate 14 fun _ => {}).map .maybeCompact)).bind fun w' =>
        w.engine.map fun s =>
        (decide (Cached.NamesApart w'.disk.tables (Cached.storedPaths w'.disk.tables)), s.fall)) =
          some (true, 14) := by decide +kernel
  obtain ⟨w, run, runs⟩ := Option.bind_eq_some_iff.mp runs
  obtain ⟨w', more, runs⟩ := Option.bind_eq_some_iff.mp runs
  obtain ⟨s, active, runs⟩ := Option.map_eq_some_iff.mp runs
  obtain ⟨apart, fall⟩ := Prod.mk.inj runs
  obtain ⟨t, active', less, settled⟩ := @compaction_settles mergingEnv
    (sampleEnv_unique 100) _ _ _ _ run active _
    ⟨exec_append run more, of_decide_eq_true apart⟩
  refine ⟨w, s, w', t, run, active, more, active', less,
    settled ?_ (by rw [fall, List.length_replicate])⟩
  intro draw member i
  rw [(List.mem_replicate.mp member).2]

end Example

end World

end FlushDB
