import FlushDB.Compaction.Leftovers
import FlushDB.Engine.Deletion
import FlushDB.Engine.TaskConflicts

/-!
The deferred deletion of an engine. What compactions queue are the ids of tables, and what a
deletion removes are objects by their keys, so it removes nothing: what goes are the sources of
moves, which the executor removes itself, and everything that a merge has read stays.
-/

namespace FlushDB
open Lib ManifestBucket

/-- The key of a table's object in the bucket. -/
def SstPath.key (ns : String) (path : SstPath) : String :=
  s!"flushdb/{ns}/sstables/{path.level}/{path.file}.sst"

/-- `backend.delete` among the objects of a namespace. -/
def Tables.deleteKey (ns key : String) (tables : Tables) : Option Tables :=
  match tables.objects.find? fun object => object.1.key ns = key with
  | some object => some (tables.delete object.1)
  | none => none

namespace Tables

theorem deleteKey_none {ns key : String} (other : ∀ path : SstPath, path.key ns ≠ key)
    (tables : Tables) :
    tables.deleteKey ns key = none := by
  unfold deleteKey
  rw [List.find?_eq_none.mpr fun object _ => by simpa using other object.1]

/-- An id is no key: a single table's has no slash, and a fragment's begins otherwise. -/
theorem key_ne_id {id : SstId} (plain : ∀ ulid, id = .single ulid → '/' ∉ ulid.toList) (ns : String)
    (path : SstPath) :
    path.key ns ≠ toString id := by
  intro same
  have chars := congrArg String.toList same
  cases id with
  | single ulid =>
    refine plain ulid rfl ?_
    rw [show toString (SstId.single ulid) = ulid from rfl] at chars
    rw [← chars]
    simp [SstPath.key, toString, String.toList_append]
  | fragment runId index =>
    have first := congrArg List.head? chars
    revert first
    simp [SstPath.key, toString, String.toList_append]

end Tables

namespace Engine
variable (env : Env)

/-- `Engine::run_deletion`. -/
def runDeletion (failing : Nat → Option String) (s : Engine) : FlushResult Nat × Engine :=
  let (result, left) := Deferred.runDeletion (fun (id : SstId) tables =>
    Tables.deleteKey env.config.ns (toString id) tables)
    failing ⟨s.pendingDeletions, s.tables⟩
  (result, { s with pendingDeletions := left.pending, tables := left.storage })

/-- The calls that write, list and remove tables. -/
inductive Upkeep where
  | flush (frozen : Memtable) (draw : FlushDraw)
  | maybeCompact (draw : Nat → CompactionDraw)
  | runDeletion (failing : Nat → Option String)

def upkeep (s : Engine) : Upkeep → Option Engine
  | .flush frozen draw => some (flush env frozen draw s).2
  | .maybeCompact draw => some (maybeCompact env draw s).2
  | .runDeletion failing => some (runDeletion env failing s).2

/-- None of the tasks leaves anything behind. -/
def SparesAll (draw : Nat → CompactionDraw) : List CompactionTask → Engine → Prop
  | [], _ => True
  | task :: rest, s =>
    CompactionExecutor.Spares env.config.compactionConfig env.fileSize
      ⟨(draw rest.length).nowMs, env.ulid s.drawn, env.ulid (s.drawn + 1), (draw rest.length).fault⟩
        task ⟨s.manifest, s.tables⟩ ∧
      ∀ t, compact env (draw rest.length) task s = (.ok (), t) → SparesAll draw rest t

/-- Every merge that is due is stopped before its commit, and every move removes its source. -/
def Spares (s : Engine) : Upkeep → Prop
  | .maybeCompact draw =>
    SparesAll env draw (CompactionScheduler.checkTriggers env.config.compactionConfig
      s.manifestManager.current) s
  | .flush _ _ | .runDeletion _ => True

instance (task : CompactionTask) : Decidable (CompactionExecutor.IsMove task) :=
  inferInstanceAs (Decidable (_ ∧ _ ∧ _))

instance (s : Engine) (p : Level × SstId) : Decidable (s.Lists p) :=
  inferInstanceAs (Decidable (∃ t ∈ s.manifestManager.current.sstablesAtLevel p.1, t.id = p.2))

variable {env}

/-- What every state of a session has. -/
structure Upkept (env : Env) (s : Engine) : Prop where
  standing : Standing env s
  known : ∀ id ∈ s.pendingDeletions, s.Drawn env id

section Steps

/-- A deletion removes nothing, whatever it reports. -/
theorem runDeletion_frame (plain : ∀ n, '/' ∉ (env.ulid n).toList) {s : Engine}
    (upkept : Upkept env s) (failing : Nat → Option String) :
    ∃ pending, (runDeletion env failing s).2 = { s with pendingDeletions := pending } ∧
      pending ⊆ s.pendingDeletions := by
  have absent : ∀ id ∈ s.pendingDeletions, Tables.deleteKey env.config.ns (toString id) s.tables =
      none := by
    intro id member
    refine Tables.deleteKey_none (fun path => Tables.key_ne_id ?_ env.config.ns path) s.tables
    rintro ulid rfl
    obtain ⟨n, -, name⟩ := upkept.known _ member
    rcases name with single | ⟨index, fragment⟩
    · rw [SstId.single.inj single]
      exact plain n
    · cases fragment
  unfold runDeletion
  rcases Deferred.runDeletion_cases (fun (id : SstId) tables =>
    Tables.deleteKey env.config.ns (toString id) tables) failing
    ⟨s.pendingDeletions, s.tables⟩ with ⟨-, run⟩ | ⟨done, failed, behind, message, split, -, -, run⟩
  · rw [run]
    dsimp only
    rw [Deferred.foldl_without_absent absent]
    exact ⟨[], rfl, List.nil_subset _⟩
  · have split : s.pendingDeletions = done ++ failed :: behind := split
    rw [run]
    dsimp only
    rw [Deferred.foldl_without_absent fun path member =>
      absent path (by rw [split]; exact List.mem_append_left _ member)]
    refine ⟨[failed], rfl, ?_⟩
    rw [split]
    simp

theorem flush_tables {frozen : Memtable} {draw : FlushDraw} {s s' : Engine}
    {r : FlushResult SSTableMeta} (h : flush env frozen draw s = (r, s')) :
    s'.pendingDeletions = s.pendingDeletions ∧ s.drawn ≤ s'.drawn ∧
      (∀ path, (s'.tables.get path).isSome → (s.tables.get path).isSome ∨
        path = ⟨.L0, .single (env.ulid s.drawn)⟩) ∧
      ∀ table, r = .ok table → table.id = .single (env.ulid s.drawn) := by
  have put : ∀ (xs : List MergeEntry) (path : SstPath),
      ((s.tables.put ⟨.L0, .single (env.ulid s.drawn)⟩ xs).get path).isSome →
        (s.tables.get path).isSome ∨ path = ⟨.L0, .single (env.ulid s.drawn)⟩ := by
    intro xs path found
    rw [ObjectStore.get_put] at found
    split at found
    · rename_i same
      exact Or.inr same
    · exact Or.inl found
  cases flush_ends h with
  | empty => exact ⟨rfl, le_refl _, fun path found => Or.inl found, nofun⟩
  | unwritten => exact ⟨rfl, Nat.le_succ _, fun path found => Or.inl found, nofun⟩
  | written => exact ⟨rfl, Nat.le_succ _, put _, nofun⟩
  | refused => exact ⟨rfl, Nat.le_succ _, put _, nofun⟩
  | committed nodes succeeds made =>
    refine ⟨rfl, Nat.le_succ _, put _, ?_⟩
    intro table same
    rw [← Except.ok.inj same, ← made]
    rfl

theorem upkept_flush (unique : Function.Injective env.ulid) {s : Engine} (upkept : Upkept env s)
    (frozen : Memtable) (draw : FlushDraw) :
    Upkept env (flush env frozen draw s).2 ∧ s.drawn ≤ (flush env frozen draw s).2.drawn ∧
      Spared (s.Drawn env) .L0 .L1 (tablesAt s.manifests)
        (tablesAt (flush env frozen draw s).2.manifests) s.tables
        (flush env frozen draw s).2.tables := by
  cases done : flush env frozen draw s with
  | mk r t =>
    obtain ⟨pending, more, objects, named⟩ := flush_tables done
    have fresh : ¬ s.Drawn env (.single (env.ulid s.drawn)) :=
      s.not_drawn unique (le_refl _) (Or.inl rfl)
    have new : ∀ path, (t.tables.get path).isSome → (s.tables.get path).isSome ∨
        ¬ s.Drawn env path.file ∨
        (path.level = .L1 ∧ Lists.At (tablesAt s.manifests) ⟨.L0, path.file⟩) := by
      intro path found
      rcases objects path found with old | rfl
      · exact Or.inl old
      · exact Or.inr (Or.inl fresh)
    have known : ∀ id ∈ t.pendingDeletions, t.Drawn env id := by
      intro id member
      rw [pending] at member
      exact (upkept.known id member).mono more
    cases r with
    | error e =>
      obtain ⟨standing, manager, -⟩ := flush_refused unique upkept.standing done
      have same : tablesAt t.manifests = tablesAt s.manifests := by
        funext level
        rw [show tablesAt t.manifests level = _ from standing.latest.tablesAt_eq level,
          show tablesAt s.manifests level = _ from upkept.standing.latest.tablesAt_eq level]
        exact congrArg (fun m : ManifestManager => m.current.sstablesAtLevel level) manager
      refine ⟨⟨standing, known⟩, more, new, ?_, ?_⟩
      · rw [same]
        exact fun path listed => Or.inl listed
      · rw [same]
        exact fun path listed unlisted => absurd listed unlisted
    | ok table =>
      obtain ⟨standing, -, listed⟩ := flush_listed unique upkept.standing done
      have perm : ∀ level, (tablesAt t.manifests level).Perm
          (tablesAt s.manifests level ++ if level = .L0 then [table] else []) := by
        intro level
        rw [show tablesAt t.manifests level = _ from standing.latest.tablesAt_eq level,
          show tablesAt s.manifests level = _ from upkept.standing.latest.tablesAt_eq level]
        exact listed level
      refine ⟨⟨standing, known⟩, more, new, ?_, ?_⟩
      · rintro path ⟨u, member, name⟩
        rcases List.mem_append.mp ((perm path.level).mem_iff.mp member) with old | added
        · exact Or.inl ⟨u, old, name⟩
        · right
          left
          split at added
          · rw [← name, List.mem_singleton.mp added, named table rfl]
            exact fresh
          · cases added
      · rintro path ⟨u, member, name⟩ unlisted
        exact absurd ⟨u, (perm path.level).mem_iff.mpr (List.mem_append_left _ member), name⟩ unlisted

theorem upkept_compact (unique : Function.Injective env.ulid) {s t : Engine} (upkept : Upkept env s)
    {draw : CompactionDraw} {task : CompactionTask} (moves : task.sourceLevel ≠ task.targetLevel)
    {r : FlushResult Unit} (h : compact env draw task s = (r, t)) :
    Upkept env t ∧ s.drawn ≤ t.drawn := by
  have standing := compact_standing unique moves upkept.standing h
  obtain ⟨result, left, executed, ⟨e, -, -, rfl⟩ | ⟨done, levels, rfl, -, rfl⟩⟩ := compact_cases h
  · exact ⟨⟨standing, fun id member => (upkept.known id member).mono (Nat.le_add_right _ _)⟩,
      Nat.le_add_right _ _⟩
  obtain ⟨added, consumed⟩ := CompactionExecutor.execute_consumed upkept.standing.latest
    upkept.standing.keyed
    (FlushDB.Lists.nodup_level upkept.standing.shelf.distinct) executed
  refine ⟨⟨standing, ?_⟩, Nat.le_add_right _ _⟩
  intro id member
  have old : s.Drawn env id := by
    rcases List.mem_append.mp member with before | removed
    · exact upkept.known id before
    · obtain ⟨level, gone⟩ := CompactionExecutor.execute_removed executed id removed
      obtain ⟨u, listed, name⟩ := consumed.found (level, id) gone
      have stored := upkept.standing.shelf.named _ (upkept.standing.shelf.present level u listed)
      rwa [show u.id = id from name] at stored
  exact old.mono (Nat.le_add_right _ _)

theorem compact_spared (unique : Function.Injective env.ulid) {s t : Engine} (upkept : Upkept env s)
    {draw : CompactionDraw} {task : CompactionTask} {m : Manifest} {low high : Bytes}
    (plan : CompactionExecutor.Planned m task low high)
    (current : ∀ input ∈ task.inputSSTables, FlushDB.Lists.At (tablesAt s.manifests)
      ⟨task.sourceLevel, input.id⟩)
    (spares : CompactionExecutor.Spares env.config.compactionConfig env.fileSize
      ⟨draw.nowMs, env.ulid s.drawn, env.ulid (s.drawn + 1), draw.fault⟩ task ⟨s.manifest, s.tables⟩)
    {r : FlushResult Unit} (h : compact env draw task s = (r, t)) :
    Spared (s.Drawn env) task.sourceLevel task.targetLevel (tablesAt s.manifests)
      (tablesAt t.manifests) s.tables t.tables := by
  obtain ⟨result, left, levels, pending, executed, rfl⟩ := compact_frame h
  exact CompactionExecutor.execute_spared plan upkept.standing.latest upkept.standing.keyed
    upkept.standing.shelf
    (compact_fresh unique draw s) current spares executed

end Steps

section Runs

/-- The path is listed, or its table has gone down and nothing is left. -/
def Held (env : Env) (path : SstPath) (s : Engine) : Prop :=
  s.Drawn env path.file ∧ (FlushDB.Lists.At (tablesAt s.manifests) path ∨
    Left (tablesAt s.manifests) s.tables path)

theorem held_spared {path : SstPath} {s t : Engine} (upkept : Upkept env s) (held : Held env path s)
    (more : s.drawn ≤ t.drawn) {source target : Level} (next : source.next = some target)
    (spared : Spared (s.Drawn env) source target (tablesAt s.manifests)
      (tablesAt t.manifests) s.tables t.tables) :
    Held env path t :=
  ⟨held.1.mono more, spared.kept next upkept.standing.shelf.distinct held.1 held.2⟩

/-- The tasks of one check go down, so that a task finds its inputs after the moves before it. -/
theorem compactAll_held (unique : Function.Injective env.ulid) {draw : Nat → CompactionDraw}
    {tasks : List CompactionTask} {m : Manifest}
    (asked : ∀ task ∈ tasks, ∃ low high, CompactionExecutor.Planned m task low high)
    (descend : tasks.Pairwise fun a b => a.targetLevel.asU8 < b.targetLevel.asU8) {s : Engine}
    (upkept : Upkept env s)
    (current : ∀ task ∈ tasks, ∀ input ∈ task.inputSSTables,
      FlushDB.Lists.At (tablesAt s.manifests) ⟨task.sourceLevel, input.id⟩)
    (spares : SparesAll env draw tasks s) {path : SstPath} (held : Held env path s) :
    Held env path (compactAll env draw tasks s).2 := by
  induction tasks generalizing s with
  | nil => exact held
  | cons task rest ih =>
    obtain ⟨below, descend⟩ := List.pairwise_cons.mp descend
    obtain ⟨low, high, plan⟩ := asked task List.mem_cons_self
    unfold compactAll
    cases first : compact env (draw rest.length) task s with
    | mk r t =>
      obtain ⟨upkept_t, more⟩ := upkept_compact unique upkept
        (CompactionExecutor.levels_differ plan) first
      have spared := compact_spared unique upkept plan (current task List.mem_cons_self) spares.1 first
      have held_t := held_spared upkept held more plan.adjacent spared
      cases r with
      | error e => exact held_t
      | ok done =>
        refine ih (fun other member => asked other (List.mem_cons_of_mem _ member)) descend upkept_t
          ?_ (spares.2 t first) held_t
        intro other member input inside
        have before := current other (List.mem_cons_of_mem _ member) input inside
        by_contra lost
        obtain ⟨same, -⟩ := spared.lost _ before lost
        obtain ⟨low', high', plan'⟩ := asked other (List.mem_cons_of_mem _ member)
        have lower := below other member
        rw [Level.asU8_next plan.adjacent, Level.asU8_next plan'.adjacent,
          show other.sourceLevel = task.sourceLevel from same] at lower
        exact lt_irrefl _ lower

theorem compactAll_upkept (unique : Function.Injective env.ulid) {draw : Nat → CompactionDraw}
    {tasks : List CompactionTask} (moves : ∀ task ∈ tasks, task.sourceLevel ≠ task.targetLevel)
    {s : Engine} (upkept : Upkept env s) :
    Upkept env (compactAll env draw tasks s).2 := by
  refine compactAll_keeps ?_ upkept (Prod.eta _).symm
  intro task member i t r u before one
  exact (upkept_compact unique before (moves task member) one).1

theorem upkeep_upkept (unique : Function.Injective env.ulid)
    (plain : ∀ n, '/' ∉ (env.ulid n).toList) {s t : Engine} {a : Upkeep} (upkept : Upkept env s)
    (taken : upkeep env s a = some t) : Upkept env t := by
  cases a with
  | flush frozen draw =>
    obtain rfl := Option.some.inj taken
    exact (upkept_flush unique upkept frozen draw).1
  | maybeCompact draw =>
    obtain rfl := Option.some.inj taken
    refine compactAll_upkept unique ?_ upkept
    intro task asked
    obtain ⟨low, high, plan⟩ := CompactionExecutor.checkTriggers_planned asked
    exact CompactionExecutor.levels_differ plan
  | runDeletion failing =>
    obtain rfl := Option.some.inj taken
    obtain ⟨pending, frame, fewer⟩ := runDeletion_frame plain upkept failing
    rw [frame]
    exact ⟨⟨upkept.standing.toSound, upkept.standing.latest, upkept.standing.opened⟩,
      fun id member => upkept.known id (fewer member)⟩

theorem upkeep_held (unique : Function.Injective env.ulid) (plain : ∀ n, '/' ∉ (env.ulid n).toList)
    {s t : Engine} {a : Upkeep} (upkept : Upkept env s) (spares : Spares env s a)
    (taken : upkeep env s a = some t) {path : SstPath} (held : Held env path s) :
    Held env path t := by
  cases a with
  | flush frozen draw =>
    obtain rfl := Option.some.inj taken
    obtain ⟨-, more, spared⟩ := upkept_flush unique upkept frozen draw
    exact held_spared upkept held more rfl spared
  | maybeCompact draw =>
    obtain rfl := Option.some.inj taken
    refine compactAll_held unique (fun task asked => CompactionExecutor.checkTriggers_planned asked)
      (CompactionScheduler.checkTriggers_descend _ _).2 upkept ?_ spares held
    intro task asked input inside
    obtain ⟨low, high, plan⟩ := CompactionExecutor.checkTriggers_planned asked
    refine ⟨input, ?_, rfl⟩
    rw [show tablesAt s.manifests task.sourceLevel = _ from upkept.standing.latest.tablesAt_eq task.sourceLevel]
    exact plan.inputs input inside
  | runDeletion failing =>
    obtain rfl := Option.some.inj taken
    obtain ⟨pending, frame, -⟩ := runDeletion_frame plain upkept failing
    rw [frame]
    exact held

theorem openStored_upkept {nowMs : Nat} {fault : Option OpenFault} {st st' : Stored}
    (sound : st.Sound env) {s : Engine} (opened : openStored env nowMs fault st = (.ok s, st')) :
    Upkept env s := by
  rcases openStored_launched sound opened with ⟨e, failed, -⟩ | ⟨s', made, -, launched⟩
  · cases failed
  · obtain rfl := Except.ok.inj made
    refine ⟨launched.ready.standing, ?_⟩
    have empty : s.pendingDeletions = [] := by
      obtain ⟨_, _, _, _, _, -, -, -, rfl⟩ := openStored_opened opened
      rfl
    rw [empty]
    exact fun id none => absurd none List.not_mem_nil

/-- After a deletion that reports success every listed table has its object; and where every merge
has been stopped before its commit and every move has removed its source, nothing is left at a path
that has been listed and is not listed any more. -/
theorem dead_objects_removed {env : Env} (unique : Function.Injective env.ulid)
    (plain : ∀ n, '/' ∉ (env.ulid n).toList) {earlier : List World.Label} {w : World}
    (lived : exec (World.step env) {} earlier = some w) (closed : w.engine = none) {nowMs : Nat}
    {fault : Option OpenFault} {s t u : Engine} {st : Stored}
    (opened : openStored env nowMs fault w.stored = (.ok s, st)) {calls : List Upkeep}
    (run : exec (upkeep env) s calls = some t) {failing : Nat → Option String} {deleted : Nat}
    (deletion : runDeletion env failing t = (.ok deleted, u)) :
    (∀ path : SstPath, u.Lists (path.level, path.file) → (u.tables.get path).isSome) ∧
      (Admits (upkeep env) (Spares env) s calls → ∀ (i : Nat) (v : Engine) (path : SstPath),
        exec (upkeep env) s (calls.take i) = some v → v.Lists (path.level, path.file) →
          ¬ u.Lists (path.level, path.file) →
          u.tables.get path = none) := by
  have lists : ∀ {x : Engine}, Upkept env x → ∀ path : SstPath,
      x.Lists (path.level, path.file) ↔ FlushDB.Lists.At (tablesAt x.manifests) path := by
    intro x upkept path
    unfold FlushDB.Lists.At
    rw [show tablesAt x.manifests path.level = _ from upkept.standing.latest.tablesAt_eq path.level]
    exact Iff.rfl
  have start := openStored_upkept ((World.exec_ready unique lived).stored closed) opened
  have keep := fun (x : Engine) (a : Upkeep) (y : Engine) (upkept : Upkept env x) (taken : upkeep env x a = some y) =>
    upkeep_upkept unique plain upkept taken
  have upkept_t := exec_keeps keep start run
  have last : upkeep env t (.runDeletion failing) = some u := by
    rw [upkeep, deletion]
  have upkept_u := keep t _ u upkept_t last
  refine ⟨?_, ?_⟩
  · intro path listed
    obtain ⟨table, member, name⟩ := (lists upkept_u path).mp listed
    rw [← show (⟨path.level, table.id⟩ : SstPath) = path by rw [name]]
    exact upkept_u.standing.shelf.present path.level table member
  · intro spares i v path before listed unlisted
    obtain ⟨v', first, rest⟩ := exec_split run i
    obtain rfl := Option.some.inj (before.symm.trans first)
    have upkept_v := exec_keeps keep start before
    have listed_v := (lists upkept_v path).mp listed
    have held : Held env path v :=
      ⟨Spared.drawn_of_at upkept_v.standing.shelf listed_v, Or.inl listed_v⟩
    have both : ∀ x a y, (Upkept env x ∧ Held env path x) → Spares env x a →
        upkeep env x a = some y →
        Upkept env y ∧ Held env path y := by
      rintro x a y ⟨upkept, held⟩ spare taken
      exact ⟨keep x a y upkept taken, upkeep_held unique plain upkept spare taken held⟩
    obtain ⟨-, held_t⟩ := exec_invariant both ⟨upkept_v, held⟩ (admits_drop spares before) rest
    rcases (upkeep_held unique plain upkept_t (show Spares env t
      (.runDeletion failing) from trivial) last held_t).2 with still | left
    · exact absurd ((lists upkept_u path).mpr still) unlisted
    · exact left.absent

end Runs

section Example

/-- One table in L0 is enough for a merge, every entry becomes a fragment, and two of them overflow
L1. -/
def leftEnv : Env :=
  { World.sampleEnv 1000 with
    config := { ns := "ns", compactionConfig := { l0CompactionTrigger := 0, l1MaxBytes := 150,
                                                  targetFragmentSize := 1 } } }

def oneEntry : Memtable :=
  Memtable.insertInner { nextSequenceNumber := 2 }
    ⟨CompositeKey.encode ⟨[114]⟩ [97], ⟨[1]⟩, ⟨[]⟩, .none, 1, .put, 0⟩

/-- A flush, the merge of its table into L1, and a deletion that reports one object: the object of
the table that is not listed any more is still there. -/
theorem merged_object_left :
    ∃ s st t v u, openStored leftEnv 0 none {} = (.ok s, st) ∧
      exec (upkeep leftEnv) s [.flush oneEntry {}] = some v ∧
      exec (upkeep leftEnv) s [.flush oneEntry {}, .maybeCompact fun _ => {}] = some t ∧
      runDeletion leftEnv (fun _ => none) t = (.ok 1, u) ∧
      v.Lists (.L0, .single "") ∧ ¬ u.Lists (.L0, .single "") ∧
        (u.tables.get ⟨.L0, .single ""⟩).isSome := by
  have ends : (openStored leftEnv 0 none {}).1.toOption.bind (fun s =>
      (exec (upkeep leftEnv) s [.flush oneEntry {}]).bind fun v =>
        (exec (upkeep leftEnv) s [.flush oneEntry {}, .maybeCompact fun _ => {}]).map fun t =>
          ((runDeletion leftEnv (fun _ => none) t).1, decide (v.Lists (.L0, .single "")),
            decide ((runDeletion leftEnv (fun _ => none) t).2.Lists (.L0, .single "")),
            ((runDeletion leftEnv (fun _ => none) t).2.tables.get ⟨.L0, .single ""⟩).isSome)) =
      some (.ok 1, true, false, true) := by decide +kernel
  obtain ⟨s, opened, ends⟩ := Option.bind_eq_some_iff.mp ends
  obtain ⟨v, flushed, ends⟩ := Option.bind_eq_some_iff.mp ends
  obtain ⟨t, run, ends⟩ := Option.map_eq_some_iff.mp ends
  simp only [Prod.mk.injEq] at ends
  obtain ⟨deleted, listed, unlisted, left⟩ := ends
  exact ⟨s, _, t, v, _, Prod.ext (FlushResult.ok_of_toOption opened) rfl, flushed, run,
    Prod.ext deleted rfl,
    of_decide_eq_true listed, of_decide_eq_false unlisted, left⟩

/-- Two merges into L1 in an earlier session. -/
def earlierMerges : List World.Label :=
  [.openEngine 0 none, World.samplePut 1 1 true, World.samplePut 2 1 true, .crash []]

/-- The oldest table of L1 goes to L2, and its object in L1 goes. -/
theorem moved_object_gone :
    ∃ w s st t u, exec (World.step leftEnv) {} earlierMerges = some w ∧
      openStored leftEnv 1 none w.stored = (.ok s, st) ∧
        exec (upkeep leftEnv) s [.maybeCompact fun _ => {}] = some t ∧
      runDeletion leftEnv (fun _ => none) t = (.ok 1, u) ∧
        (u.tables.get ⟨.L2, .fragment "x" 0⟩).isSome ∧
      u.tables.get ⟨.L1, .fragment "x" 0⟩ = none := by
  have ends : (exec (World.step leftEnv) {} earlierMerges).bind (fun w =>
      (openStored leftEnv 1 none w.stored).1.toOption.bind fun s =>
        (exec (upkeep leftEnv) s [.maybeCompact fun _ => {}]).map fun t =>
          ((CompactionScheduler.checkTriggers leftEnv.config.compactionConfig s.manifestManager.current).map
              (fun task => decide (CompactionExecutor.IsMove task)),
                (runDeletion leftEnv (fun _ => none) t).1,
            [w.engine.isNone, decide (s.Lists (.L1, .fragment "x" 0)),
              decide ((runDeletion leftEnv (fun _ => none) t).2.Lists (.L1, .fragment "x" 0)),
              decide ((runDeletion leftEnv (fun _ => none) t).2.Lists (.L2, .fragment "x" 0))])) =
      some ([true], .ok 1, [true, true, false, true]) := by decide +kernel
  obtain ⟨w, lived, ends⟩ := Option.bind_eq_some_iff.mp ends
  obtain ⟨s, opened, ends⟩ := Option.bind_eq_some_iff.mp ends
  obtain ⟨t, run, ends⟩ := Option.map_eq_some_iff.mp ends
  simp only [Prod.mk.injEq, List.cons.injEq, and_true] at ends
  obtain ⟨tasks, deleted, closed, before, unlisted, listed⟩ := ends
  obtain ⟨task, asked, move⟩ := List.map_eq_singleton_iff.mp tasks
  have plain : ∀ n, '/' ∉ (leftEnv.ulid n).toList := by
    intro n slash
    simp [leftEnv, World.sampleEnv] at slash
  have spares : Admits (upkeep leftEnv) (Spares leftEnv) s [.maybeCompact fun _ => {}] := by
    refine ⟨?_, fun _ _ => trivial⟩
    unfold Spares
    rw [asked]
    refine ⟨fun _ => ⟨fun _ => nofun, fun merges => absurd (of_decide_eq_true move) merges⟩,
      fun _ _ => trivial⟩
  have opened := FlushResult.ok_of_toOption opened
  obtain ⟨present, gone⟩ := @dead_objects_removed leftEnv (World.sampleEnv_unique 1000) plain _ w lived
    (Option.isNone_iff_eq_none.mp closed) _ _ s t _ _ (Prod.ext opened rfl) _ run _ _
      (Prod.ext deleted rfl)
  exact ⟨w, s, _, t, _, lived, Prod.ext opened rfl, run, Prod.ext deleted rfl,
    present ⟨.L2, .fragment "x" 0⟩ (of_decide_eq_true listed),
    gone spares 0 s ⟨.L1, .fragment "x" 0⟩ rfl (of_decide_eq_true before) (of_decide_eq_false unlisted)⟩

end Example

end Engine

end FlushDB
