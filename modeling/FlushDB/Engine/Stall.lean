import FlushDB.Engine.Settling

/-!
Write stalls. Writes stop when L0 has too many tables. The next compaction ends the stall exactly
when more tables are in L0 than the trigger lets stay; where it does not, the engine is stuck.
-/

namespace FlushDB
open Lib ManifestBucket

namespace WriteStallStatus

def isStopped : WriteStallStatus → Bool
  | .stopped _ => true
  | .normal | .slowdown _ _ => false

end WriteStallStatus

namespace CompactionScheduler
variable {config : CompactionConfig} {m : Manifest} {task : CompactionTask}

/-- The tasks of the levels that overflow. -/
def levelTasks (config : CompactionConfig) (m : Manifest) : List CompactionTask :=
  (checkLevelTrigger config m .L1).toList ++ (checkLevelTrigger config m .L2).toList

theorem levelTasks_below (planned : task ∈ levelTasks config m) : task.sourceLevel ≠ .L0 := by
  intro top
  rcases List.mem_append.mp planned with first | second
  · obtain ⟨-, oldest, -, rfl⟩ := (@checkLevelTrigger_iff config m task .L1 .L2 _ rfl rfl).mp
      (Option.mem_toList.mp first)
    cases top
  · obtain ⟨-, oldest, -, rfl⟩ := (@checkLevelTrigger_iff config m task .L2 .L3 _ rfl rfl).mp
      (Option.mem_toList.mp second)
    cases top

theorem checkTriggers_few (few : m.l0Count ≤ config.l0CompactionTrigger) :
    checkTriggers config m = levelTasks config m := by
  unfold checkTriggers checkL0Trigger
  rw [if_pos few]
  rfl

/-- Past the trigger the compaction of all of L0 comes first. -/
theorem checkTriggers_many (many : config.l0CompactionTrigger < m.l0Count) :
    ∃ task, checkTriggers config m = task :: levelTasks config m ∧
    task.sourceLevel = .L0 ∧ task.inputSSTables = m.sstablesAtLevel .L0 := by
  obtain ⟨first, rest, listed⟩ := List.exists_cons_of_length_pos (Nat.zero_lt_of_lt many)
  have range : ∃ low high, combinedKeyRange (m.sstablesAtLevel .L0) = some (low, high) := by
    rw [listed]
    exact ⟨_, _, rfl⟩
  obtain ⟨low, high, range⟩ := range
  refine ⟨⟨.l0ToL1, .L0, .L1, m.sstablesAtLevel .L0, m.findOverlapping .L1 low high⟩, ?_, rfl, rfl⟩
  unfold checkTriggers
  rw [checkL0Trigger_of many range]
  rfl

end CompactionScheduler

namespace CompactionExecutor.Ends
open Levels
variable {d : Drawn} {task : CompactionTask} {s s' : CompactionState}

/-- A task of another level leaves L0 as it is. -/
theorem top_kept (h : Ends d task s s') (below : task.sourceLevel ≠ .L0) :
    s'.manifest.manager.current.sstablesAtLevel .L0 =
      s.manifest.manager.current.sstablesAtLevel .L0 := by
  cases h with
  | uncommitted manifest extend => rw [manifest]
  | committed plan nonempty number exchange parts others =>
    refine others .L0 (Ne.symm below) ?_
    intro same
    have lower := Level.asU8_next plan.adjacent
    rw [← same] at lower
    exact Nat.succ_ne_zero _ lower.symm

/-- A task that has moved all of L0 leaves it empty. -/
theorem top_cleared (h : Ends d task s s') (top : task.sourceLevel = .L0)
    (whole : task.inputSSTables = s.manifest.manager.current.sstablesAtLevel .L0)
    (advanced : s'.manifest.manager.current.manifestId = s.manifest.manager.current.manifestId + 1) :
    s'.manifest.manager.current.sstablesAtLevel .L0 = [] := by
  cases h with
  | uncommitted manifest extend =>
    rw [manifest] at advanced
    omega
  | committed plan nonempty number exchange =>
    have other : ¬ Level.L0 = task.targetLevel := by
      intro same
      have lower := Level.asU8_next plan.adjacent
      rw [← same] at lower
      exact Nat.succ_ne_zero _ lower.symm
    have none_kept : kept s.manifest.manager.current (removals task) .L0 = [] := by
      refine List.eq_nil_iff_forall_not_mem.mpr ?_
      intro t member
      obtain ⟨listed, stays⟩ := mem_kept.mp member
      rw [← whole] at listed
      exact stays (List.mem_append_left _ (List.mem_map.mpr ⟨t, listed, by rw [top]⟩))
    have lists := exchange.levels .L0
    rw [none_kept, if_neg other] at lists
    exact lists.eq_nil

end CompactionExecutor.Ends

namespace Engine
open CompactionExecutor Levels
variable {env : Env} {s t : Engine}

/-- Writes are stopped until compactions have made room in L0. -/
def stopped (env : Env) (s : Engine) : Bool :=
  (CompactionScheduler.writeStallStatus env.config.compactionConfig s.manifestManager.current).isStopped

theorem stopped_iff :
    s.stopped env = true ↔ env.config.compactionConfig.l0StopTrigger ≤
      s.manifestManager.current.l0Count := by
  unfold stopped CompactionScheduler.writeStallStatus
  split
  · rename_i many
    simp only [WriteStallStatus.isStopped, true_iff]
    exact many
  · rename_i few
    split
    · simp only [WriteStallStatus.isStopped, Bool.false_eq_true, false_iff]
      exact few
    · simp only [WriteStallStatus.isStopped, Bool.false_eq_true, false_iff]
      exact few

theorem checkWriteStall_stopped (stopped : s.stopped env = true) (pressured : Bool) :
    ∃ e, checkWriteStall env pressured s = .error e := by
  unfold checkWriteStall CompactionScheduler.writeStallStatus
  rw [if_pos (stopped_iff.mp stopped)]
  exact ⟨_, rfl⟩

/-- The compaction of L0 comes first, and empties it. -/
theorem maybeCompact_clears (unique : Function.Injective env.ulid) (h : Poised env s)
    {draw : Nat → CompactionDraw} (sound : ∀ i, (draw i).fault = none)
    (exceeded : env.config.compactionConfig.l0CompactionTrigger < s.manifestManager.current.l0Count)
    {r : FlushResult Unit} (compacts : maybeCompact env draw s = (r, t)) :
    t.manifestManager.current.sstablesAtLevel .L0 = [] := by
  obtain ⟨task, planned, top, whole⟩ := CompactionScheduler.checkTriggers_many exceeded
  exact (maybeCompact_first unique h sound planned
    (P := fun c => Levels.Arranged c.manifest.manager.current c.tables ∧
      c.manifest.manager.current.sstablesAtLevel .L0 = [])
    (fun _ kept => kept.1) (fun d c ends number =>
      ⟨ends.arranged h.arranged, ends.top_cleared top whole number⟩)
    (fun later member _ _ _ ends kept =>
      ⟨ends.arranged kept.1, (ends.top_kept (CompactionScheduler.levelTasks_below member)).trans
        kept.2⟩) compacts).2

/-- Where no more tables are in L0 than may stay, whatever compactions do leaves them there. -/
theorem maybeCompact_stays (unique : Function.Injective env.ulid) (h : Poised env s)
    {draw : Nat → CompactionDraw}
    (few : s.manifestManager.current.l0Count ≤ env.config.compactionConfig.l0CompactionTrigger)
    {r : FlushResult Unit} (compacts : maybeCompact env draw s = (r, t)) :
    t.manifestManager.current.l0Count = s.manifestManager.current.l0Count := by
  have lists := (maybeCompact_keeps unique
    (P := fun c => Levels.Arranged c.manifest.manager.current c.tables ∧
      c.manifest.manager.current.sstablesAtLevel .L0 = s.manifestManager.current.sstablesAtLevel .L0)
    (fun _ kept => kept.1) (fun task member _ _ _ ends kept => ⟨ends.arranged kept.1, by
      rw [CompactionScheduler.checkTriggers_few few] at member
      exact (ends.top_kept (CompactionScheduler.levelTasks_below member)).trans kept.2⟩)
    h.ready.standing ⟨h.arranged, rfl⟩ compacts).2
  rw [Manifest.l0Count, Manifest.l0Count]
  exact congrArg List.length lists

/-- Writes are stopped, there is nothing to flush, and compactions do not make room. -/
structure Stuck (env : Env) (s : Engine) : Prop where
  stopped : s.stopped env = true
  empty : s.nodes = []
  held : s.manifestManager.current.l0Count ≤ env.config.compactionConfig.l0CompactionTrigger ∨
    env.config.compactionConfig.l0StopTrigger = 0

theorem maybeCompact_stuck (unique : Function.Injective env.ulid) (h : Poised env s)
    (stuck : Stuck env s) {draw : Nat → CompactionDraw} {r : FlushResult Unit}
    (compacts : maybeCompact env draw s = (r, t)) : Stuck env t := by
  have frame := (maybeCompact_compacted unique h.ready.toSound h.ready.latest compacts).frame
  have empty : t.nodes = [] := by
    rw [frame]
    exact stuck.empty
  rcases stuck.held with few | none
  · have same := maybeCompact_stays unique h few compacts
    refine ⟨?_, empty, Or.inl (same ▸ few)⟩
    rw [stopped_iff, same]
    exact stopped_iff.mp stuck.stopped
  · refine ⟨?_, empty, Or.inr none⟩
    rw [stopped_iff, none]
    exact Nat.zero_le _

end Engine

namespace World
open Engine
variable {env : Env} {w w' : World} {s : Engine} {a : Label}

/-- A stopped engine prepares nothing. -/
theorem prepared_stopped (stopped : s.stopped env = true) (a : Label) :
    prepared env w s a = [] := by
  have stalls := fun pressured => @checkWriteStall_stopped env s stopped pressured
  cases a with
  | put recordId itemKey value metadata token draw =>
    obtain ⟨e, stall⟩ := stalls draw.pressured
    simp [prepared, preparePut, stall, bind, Except.bind, Except.toOption]
  | putBatch recordId items pressured late draws =>
    obtain ⟨e, stall⟩ := stalls pressured
    show ((prepareBatch env w.writes recordId items pressured s).toOption).getD [] = []
    unfold prepareBatch
    split
    · rfl
    · simp [stall, bind, Except.bind, Except.toOption]
  | delete recordId itemKey draw =>
    obtain ⟨e, stall⟩ := stalls draw.pressured
    simp [prepared, prepareDelete, stall, bind, Except.bind, Except.toOption]
  | deleteRange recordId startKey endKey draw =>
    obtain ⟨e, stall⟩ := stalls draw.pressured
    simp [prepared, prepareDeleteRange, stall, bind, Except.bind, Except.toOption]
  | _ => rfl

/-- No call moves a stuck engine. -/
theorem call_stuck (unique : Function.Injective env.ulid) (call : a.isCall)
    (active : w.engine = some s) (h : Poised env s) (stuck : Stuck env s)
    (taken : step env w a = some w') :
    ∃ t, w'.engine = some t ∧ Poised env t ∧ Stuck env t ∧ w'.acked = w.acked := by
  have same : w' = w → ∃ t, w'.engine = some t ∧ Poised env t ∧ Stuck env t ∧
      w'.acked = w.acked := by
    rintro rfl
    exact ⟨s, active, h, stuck, rfl⟩
  have idle : ∀ {r : FlushResult Unit} {draw : FlushDraw} {t : Engine} {due : Bool},
      MayFlush env due draw r s t →
      (due = true → s.nodes ≠ []) → t = s := by
    rintro r draw t due (⟨rfl, -⟩ | ⟨dueNow, -⟩) nonempty
    · rfl
    · exact absurd stuck.empty (nonempty dueNow)
  have counted : ∀ {flag : Bool}, (decide (s.memtableList.activeEntryCount > 0) && flag) = true →
      s.nodes ≠ [] := by
    intro flag due
    exact nonempty_of_count (of_decide_eq_true (Bool.and_eq_true_iff.mp due).1)
  have engine_self : { w with engine := some s } = w := by rw [← active]
  cases a with
  | openEngine | crash => cases call
  | maybeCompact draw =>
    obtain ⟨r, t, compacts, rfl⟩ := step_maybeCompact taken active
    exact ⟨t, rfl, maybeCompact_poised unique h compacts,
      maybeCompact_stuck unique h stuck compacts, rfl⟩
  | maybeFlush draw =>
    simp only [step, active, Option.map_some, Option.some.injEq] at taken
    have nothing : Engine.maybeFlush env draw s = (.ok (), s) := by
      simp [Engine.maybeFlush, MemtableList.hasFrozen, h.ready.noneFrozen]
    rw [nothing, engine_self] at taken
    exact same taken.symm
  | runMaintenance aged draw =>
    simp only [step, active, Option.map_some, Option.some.injEq] at taken
    generalize maintains : Engine.runMaintenance env aged draw s = left at taken
    obtain ⟨r, t⟩ := left
    obtain rfl := idle (runMaintenance_mayFlush h.ready.noneFrozen maintains) counted
    exact same (taken.symm.trans engine_self)
  | close draw =>
    simp only [step, active, Option.map_some, Option.some.injEq] at taken
    generalize closes : Engine.close env draw s = left at taken
    obtain ⟨r, t⟩ := left
    obtain rfl := idle (close_mayFlush h.ready.noneFrozen closes) fun due =>
      nonempty_of_count (of_decide_eq_true due)
    exact same (taken.symm.trans engine_self)
  | _ => exact same (write_refused rfl active (prepared_stopped stuck.stopped _) taken)

/-- In every state that a run reaches in which writes are stopped: where more tables are in L0 than
the trigger and the stop trigger is not 0, the next compaction of which nothing fails ends the
stall; and where not, and the memtable is empty, no calls of the session ever end it or get a write
acknowledged. -/
theorem stall_ends_iff {env : Env} (unique : Function.Injective env.ulid) {labels : List Label}
    {w : World} {s : Engine} (run : exec (step env) {} labels = some w) (active : w.engine = some s)
    (stopped : s.stopped env = true) :
    (env.config.compactionConfig.l0CompactionTrigger < s.manifestManager.current.l0Count ∧
        0 < env.config.compactionConfig.l0StopTrigger →
      ∀ draw, (∀ i, (draw i).fault = none) → ∀ w', step env w (.maybeCompact draw) = some w' →
        ∃ t, w'.engine = some t ∧ t.stopped env = false) ∧
    (¬ (env.config.compactionConfig.l0CompactionTrigger < s.manifestManager.current.l0Count ∧
        0 < env.config.compactionConfig.l0StopTrigger) → s.nodes = [] →
      ∀ calls, (∀ a ∈ calls, Label.isCall a = true) → ∀ w', exec (step env) w calls = some w' →
        ∃ t, w'.engine = some t ∧ t.stopped env = true ∧ w'.acked = w.acked) := by
  have poised := exec_poised unique run active
  constructor
  · rintro ⟨exceeded, positive⟩ draw sound w' taken
    obtain ⟨r, t, compacts, rfl⟩ := step_maybeCompact taken active
    refine ⟨t, rfl, ?_⟩
    have cleared := maybeCompact_clears unique poised sound exceeded compacts
    rw [← Bool.not_eq_true, stopped_iff, Manifest.l0Count, cleared]
    exact Nat.not_le.mpr positive
  · intro kept empty calls within w' runs
    have stuck : Stuck env s := by
      refine ⟨stopped, empty, ?_⟩
      by_cases few : s.manifestManager.current.l0Count ≤ env.config.compactionConfig.l0CompactionTrigger
      · exact Or.inl few
      · exact Or.inr (by omega)
    have stays : ∀ u a v, (∃ t, u.engine = some t ∧ Poised env t ∧ Stuck env t ∧
        u.acked = w.acked) → Label.isCall a = true →
        step env u a = some v → ∃ t, v.engine = some t ∧ Poised env t ∧ Stuck env t ∧
          v.acked = w.acked := by
      rintro u a v ⟨t, engine, poised, stuck, acked⟩ call taken
      obtain ⟨t', engine', poised', stuck', acked'⟩ :=
        call_stuck unique call engine poised stuck taken
      exact ⟨t', engine', poised', stuck', acked'.trans acked⟩
    obtain ⟨t, engine, -, stuck', acked⟩ := exec_within stays
      ⟨s, active, poised, stuck, rfl⟩ within runs
    exact ⟨t, engine, stuck'.stopped, acked⟩

section Example

def stallEnv (trigger stop : Nat) : Env :=
  { sampleEnv 100 with
    config := { ns := "ns", compactionConfig := { l0CompactionTrigger := trigger,
                                                  l0StopTrigger := stop } } }

/-- The compaction that would have kept L0 below its stop trigger has failed. -/
def stallRun : List Label :=
  [.openEngine 0 none, samplePut 1 1 true, samplePut 2 1 false,
    .close fun _ => { compaction := fun _ => { fault := some .updateManifest } }]

/-- The next compaction ends the stall of the first engine; the second one stops writes below its
compaction trigger. -/
theorem stall_ends_or_stays :
    (∃ w s, exec (step (stallEnv 1 2)) {} stallRun = some w ∧ w.engine = some s ∧
      s.stopped (stallEnv 1 2) = true ∧
      ∃ w' t, step (stallEnv 1 2) w (.maybeCompact fun _ => {}) = some w' ∧ w'.engine = some t ∧
        t.stopped (stallEnv 1 2) = false) ∧
    ∃ w s, exec (step (stallEnv 4 1)) {} [.openEngine 0 none, samplePut 1 1 true] = some w ∧
      w.engine = some s ∧
      ∀ calls, (∀ a ∈ calls, Label.isCall a = true) →
        ∀ w', exec (step (stallEnv 4 1)) w calls = some w' →
        ∃ t, w'.engine = some t ∧ t.stopped (stallEnv 4 1) = true ∧ w'.acked = w.acked := by
  constructor
  · have ends : ((exec (step (stallEnv 1 2)) {} stallRun).bind fun w => w.engine.map fun s =>
        (s.stopped (stallEnv 1 2), s.manifestManager.current.l0Count,
          (step (stallEnv 1 2) w (.maybeCompact fun _ => {})).isSome)) =
            some (true, 2, true) := by decide +kernel
    obtain ⟨w, run, ends⟩ := Option.bind_eq_some_iff.mp ends
    obtain ⟨s, active, summary⟩ := Option.map_eq_some_iff.mp ends
    simp only [Prod.mk.injEq] at summary
    obtain ⟨stopped, count, taken⟩ := summary
    obtain ⟨w', taken⟩ := Option.isSome_iff_exists.mp taken
    have exceeded : (stallEnv 1 2).config.compactionConfig.l0CompactionTrigger <
        s.manifestManager.current.l0Count := by
      rw [count]
      decide
    obtain ⟨t, active', free⟩ :=
      (@stall_ends_iff (stallEnv 1 2) (sampleEnv_unique 100) _ _ _ run active stopped).1
      ⟨exceeded, by decide⟩ (fun _ => {}) (fun _ => rfl) w' taken
    exact ⟨w, s, run, active, stopped, w', t, taken, active', free⟩
  · have ends : ((exec (step (stallEnv 4 1)) {} [.openEngine 0 none, samplePut 1 1 true]).bind
        World.engine).map (fun s =>
        (s.stopped (stallEnv 4 1), s.manifestManager.current.l0Count, s.nodes.isEmpty)) =
          some (true, 1, true) := by decide +kernel
    obtain ⟨s, ends, summary⟩ := Option.map_eq_some_iff.mp ends
    obtain ⟨w, run, active⟩ := Option.bind_eq_some_iff.mp ends
    simp only [Prod.mk.injEq] at summary
    obtain ⟨stopped, count, empty⟩ := summary
    have few : ¬ (stallEnv 4 1).config.compactionConfig.l0CompactionTrigger <
        s.manifestManager.current.l0Count := by
      rw [count]
      decide
    exact ⟨w, s, run, active, (@stall_ends_iff (stallEnv 4 1) (sampleEnv_unique 100) _ _ _ run active stopped).2
      (fun both => few both.1) (List.isEmpty_iff.mp empty)⟩

end Example

end World

end FlushDB
