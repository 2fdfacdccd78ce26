import FlushDB.Engine.Durability
import FlushDB.Engine.Segments
import FlushDB.Engine.Session
import FlushDB.Wal.Tracking

/-!
The reclamation of log segments. A session removes every segment that it leaves behind, and none
that it has found: the tracker starts empty, and recovered entries are recorded for no segment.
-/

namespace FlushDB
open Lib ManifestBucket

namespace WalEntry

/-- The entry is in a listed table or in a memtable. -/
def Held (e : WalEntry) (s : Engine) : Prop :=
  ∃ x, e.Records x ∧ s.Stores (MergeEntry.fromMemtableEntry x)

end WalEntry

namespace Engine

/-- No segment file but the current one has all its entries in listed tables. -/
def Reclaimed (s : Engine) : Prop :=
  ∀ k segment, s.wal.get k = some segment → k ≠ s.walManager.writer.currentSegment →
    ∃ e ∈ segment.entries, ¬ e.Contained s.toStored

/-- No removal of a segment file fails. -/
def Draws.removing : Draws := ⟨fun draw => draw.failing = none, fun _ => True, fun _ _ _ => trivial⟩

/-- The segment number is read before a rotation, or the segment that is left is recorded for the
generation already. -/
def Timely (s : Engine) (late : Bool) : Prop :=
  late = true → s.generationCounter ∈ s.walManager.dirtyTracker.dirtyGenerationIds
    s.walManager.writer.currentSegment

section
variable {env : Env} {s t : Engine}

theorem mem_assign_origin {entries : List MemtableEntry} {first : Nat} {e : WalEntry}
    (member : e ∈ WalWriter.assign first (logged env entries)) :
    ∃ x ∈ entries, x.origin = e.origin := by
  rw [WalWriter.assign_eq, logged] at member
  obtain ⟨i, bound, rfl⟩ := List.mem_mapIdx.mp member
  rw [List.length_map] at bound
  refine ⟨entries[i], List.getElem_mem bound, ?_⟩
  rw [List.getElem_map]
  rfl

theorem appendWal_rest {entries : List MemtableEntry} {late : Bool}
    (appended : appendWal env entries late s = .ok t) :
    t = { s with walManager := t.walManager, wal := t.wal } := by
  unfold appendWal at appended
  dsimp only at appended
  split at appended
  · cases appended
  · obtain rfl := Except.ok.inj appended
    rfl

theorem appendWal_holds (ready : Ready env s) {entries : List MemtableEntry} {late : Bool}
    (appended : appendWal env entries late s = .ok t) (e : WalEntry) :
    t.wal.Holds e ↔ s.wal.Holds e ∨ e ∈ WalWriter.assign s.walNext (logged env entries) := by
  obtain ⟨u, again, -, -, -, -, holds⟩ := appendWal_spec ready entries late
  obtain rfl := Except.ok.inj (again.symm.trans appended)
  exact holds e

/-- All names in the log are below `bound`. -/
theorem named_keeps (unique : Function.Injective env.ulid) (bound : Nat) :
    Keeps env .any (· < bound) (fun _ _ => True) (fun s => ∀ e, s.wal.Holds e → e.origin < bound)
      (fun s => ∀ e, s.wal.Holds e → e.origin < bound) where
  append s t entries late ready named new _ appended := by
    intro e held
    rcases (appendWal_holds ready appended e).mp held with old | logged
    · exact named e old
    · obtain ⟨x, member, same⟩ := mem_assign_origin logged
      exact same ▸ new x member
  number _ _ named := named
  insert _ _ _ _ named := named
  weaken _ named := named
  flush s s' due draw r ready named nonempty _ flushes := by
    intro e held
    have rolled := (@MayFlush.rolled env unique due true draw r s s' flushes ready nonempty fun _ _ => rfl).2
    exact named e (rolled.holds held)
  compact s s' named compacts := by
    intro e held
    exact named e (compacts.unchanged.1 ▸ held)

end

section Roll
variable {env : Env} {s s' : Engine}

theorem compact_log (draw : CompactionDraw) (task : CompactionTask) (s : Engine) :
    (compact env draw task s).2.walManager = s.walManager ∧
      (compact env draw task s).2.wal = s.wal := by
  obtain ⟨-, left, levels, pending, -, frame⟩ :=
    @compact_frame env draw task s _ _ (Prod.eta _).symm
  rw [frame]
  exact ⟨rfl, rfl⟩

theorem compactAll_log (draw : Nat → CompactionDraw) (tasks : List CompactionTask) (s : Engine) :
    (compactAll env draw tasks s).2.walManager = s.walManager ∧
      (compactAll env draw tasks s).2.wal = s.wal := by
  refine @compactAll_keeps env (fun t => t.walManager = s.walManager ∧ t.wal = s.wal) draw tasks ?_
    s _ _ ⟨rfl, rfl⟩ (Prod.eta _).symm
  rintro task member i t r u ⟨manager, wal⟩ done
  obtain ⟨manager', wal'⟩ := @compact_log env (draw i) task t
  rw [done] at manager' wal'
  exact ⟨manager'.trans manager, wal'.trans wal⟩

theorem finishFlush_log {generation : Nat} {table : SSTableMeta} {draw : FlushDraw}
    {r : FlushResult Unit} (h : finishFlush env generation table draw s = (r, s')) :
    ∃ removed, WalManager.cleanupSegments draw.failing (s.walManager.markGenerationFlushed generation).1
      (s.walManager.markGenerationFlushed generation).2 s.wal = (removed, s'.walManager, s'.wal) := by
  obtain ⟨removed, t, cleans, last⟩ := finishFlush_cases h
  have cleaned : WalManager.cleanupSegments draw.failing
      (s.walManager.markGenerationFlushed generation).1
      (s.walManager.markGenerationFlushed generation).2 s.wal = (removed, t.walManager, t.wal) := by
    rw [← (Prod.mk.inj cleans).1, ← (Prod.mk.inj cleans).2]
  refine ⟨removed, ?_⟩
  rcases last with rfl | ⟨handle, compacts⟩
  · exact cleaned
  · obtain ⟨manager, wal⟩ := @compactAll_log env draw.compaction
      (CompactionScheduler.checkTriggers env.config.compactionConfig t.manifestManager.current)
        { t with levels := pushHandle handle t.levels }
    unfold maybeCompact at compacts
    rw [compacts] at manager wal
    rw [cleaned, manager, wal]

/-- A flush that has not failed cleans up after the generation. -/
theorem roll_log (unique : Function.Injective env.ulid) (ready : Ready env s)
    (nonempty : s.nodes ≠ []) {f : Engine} (froze : freezeActive s = (.ok (), f)) {draw : FlushDraw}
    {r : FlushResult Unit} (h : flushFrozen env draw f = (r, s')) (succeeds : s'.dropped = false) :
    ∃ removed, WalManager.cleanupSegments draw.failing
      (s.walManager.markGenerationFlushed s.generationCounter).1
      (s.walManager.markGenerationFlushed s.generationCounter).2 s.wal =
        (removed, s'.walManager, s'.wal) := by
  rw [flushFrozen_frozen ready.noneFrozen froze] at h
  have popped := popped_ready ready
  generalize flushed : flush env { s.memtableList.active with frozen := true } draw s.popped = left at h
  obtain ⟨result, t⟩ := left
  have frame := (flush_outcome unique popped.toSound popped.latest nonempty flushed).frame
  cases result with
  | error e =>
    cases h
    cases succeeds
  | ok table =>
    have cleaned := finishFlush_log h
    rw [frame] at cleaned
    exact cleaned

end Roll

/-- A session that found `found` in its directory and was opened as `start`. Its segments begin with
`first`, its new entries are named from `writes` on. -/
structure Pending (first : Nat) (found : WalDir) (start : Engine) (writes : Nat) (s : Engine) :
    Prop where
  tracks : s.dropped = false → s.walManager.Tracks first found s.generationCounter s.wal
  versions : ∀ c, s.Stores c → start.Stores c ∨ writes ≤ c.origin

/-- Between two calls an empty memtable leaves nothing to be flushed. -/
structure Settled (first : Nat) (found : WalDir) (start : Engine) (writes : Nat) (s : Engine) : Prop
    extends Pending first found start writes s where
  clean : s.dropped = false → s.nodes = [] → ∀ k,
    s.walManager.dirtyTracker.dirtyGenerationIds k = []

section
variable {env : Env} {first : Nat} {found : WalDir} {start : Engine} {writes : Nat} {s t : Engine}

theorem Pending.appended (h : Pending first found start writes s) (ready : Ready env s)
    {entries : List MemtableEntry} {late : Bool} (timely : s.Timely late)
    (appends : appendWal env entries late s = .ok t) : Pending first found start writes t := by
  have frame := appendWal_rest appends
  have generation : t.generationCounter = s.generationCounter := by rw [frame]
  refine ⟨?_, ?_⟩
  · intro succeeds
    have before : s.dropped = false := by
      rw [frame] at succeeds
      exact succeeds
    rw [generation]
    exact (h.tracks before).append ready.opened (appendWal_ok appends) timely
  · intro c held
    apply h.versions c
    rw [frame] at held
    exact held

theorem Pending.inserted (h : Pending first found start writes s) (ready : Ready env s)
    {entry : MemtableEntry} (new : writes ≤ entry.origin) : Settled first found start writes
      { s with memtableList := { s.memtableList with active := insertAssigned s.memtableList.active entry } } := by
  refine ⟨⟨h.tracks, ?_⟩, ?_⟩
  · intro c held
    rcases (ready.inserted entry).stores_iff.mp held with copy | ⟨x, member, rfl⟩
    · exact h.versions c (Or.inl copy)
    · rcases (insertAssigned_took _ _).only x member with old | inserted
      · exact h.versions _ (ready.stores_iff.mpr (Or.inr ⟨x, old, rfl⟩))
      · rw [List.mem_singleton.mp inserted]
        exact Or.inr new
  · intro _ empty
    exact absurd empty (List.ne_nil_of_mem (mem_insertAssigned _ _))

theorem Settled.flushed (unique : Function.Injective env.ulid)
    (h : Settled first found start writes s) (ready : Ready env s) {due : Bool} {draw : FlushDraw}
    {r : FlushResult Unit} (nonempty : due = true → s.nodes ≠ []) (removes : draw.failing = none)
    (flushes : MayFlush env due draw r s t) : Settled first found start writes t := by
  obtain ⟨ready', rolled⟩ := @MayFlush.rolled env unique due true draw r s t flushes ready nonempty
    fun _ _ => rfl
  have versions : ∀ c, t.Stores c → start.Stores c ∨ writes ≤ c.origin :=
    fun c held => h.versions c (rolled.stores ready ready' held)
  rcases flushes with ⟨rfl, -⟩ | ⟨dueNow, f, froze, flushed⟩
  · exact h
  rcases (roll_outcome unique ready (nonempty dueNow) froze flushed).2 with ⟨dropped,
    -⟩ | ⟨committed, -⟩
  · refine ⟨⟨?_, versions⟩, ?_⟩
    all_goals
      intro succeeds
      rw [dropped.dropped] at succeeds
      cases succeeds
  · have cleared : t.dropped = false → t.walManager.Tracks first found (s.generationCounter + 1) t.wal ∧
        ∀ k, t.walManager.dirtyTracker.dirtyGenerationIds k = [] := by
      intro succeeds
      obtain ⟨removed, cleaned⟩ := roll_log unique ready (nonempty dueNow) froze flushed succeeds
      rw [removes] at cleaned
      exact (h.tracks (committed.dropped ▸ succeeds)).flushed cleaned
    refine ⟨⟨?_, versions⟩, fun succeeds _ => (cleared succeeds).2⟩
    rw [committed.generation]
    exact fun succeeds => (cleared succeeds).1

theorem Settled.compacted (h : Settled first found start writes s) (compacts : Compacted env s t) :
    Settled first found start writes t := by
  have manager : t.walManager = s.walManager := by rw [compacts.frame]
  have generation : t.generationCounter = s.generationCounter := by rw [compacts.frame]
  have dropped : t.dropped = s.dropped := by rw [compacts.frame]
  obtain ⟨wal, -, -, -, nodes⟩ := compacts.unchanged
  refine ⟨⟨?_, fun c held => h.versions c (compacts.stores held)⟩, ?_⟩
  · rw [manager, generation, wal, dropped]
    exact h.tracks
  · rw [manager, dropped, nodes]
    exact h.clean

theorem settled_keeps (unique : Function.Injective env.ulid) :
    Keeps env .removing (writes ≤ ·) Timely
    (Pending first found start writes) (Settled first found start writes) where
  append _ _ _ _ ready settled _ timely appends := settled.toPending.appended ready timely appends
  number _ _ pending := ⟨pending.tracks, pending.versions⟩
  insert _ _ ready new pending := pending.inserted ready new
  weaken _ settled := settled.toPending
  flush _ _ _ _ _ ready settled nonempty removes flushes :=
    settled.flushed unique ready nonempty removes flushes
  compact _ _ settled compacts := settled.compacted compacts

theorem Launched.settled {st : Stored} (h : Launched env st s) (writes : Nat) :
    Settled s.walManager.writer.currentSegment st.wal s writes s := by
  refine ⟨⟨?_, fun c held => Or.inl held⟩, ?_⟩
  · exact fun _ => WalManager.tracks_fresh h.tracker h.writer h.ready.opened
  · intro _ _ k
    rw [h.tracker]
    rfl

theorem Rolled.versions {commits : Bool} {r : FlushResult Unit} (h : Rolled commits r s t)
    (before : s.Ready env) (after : t.Ready env) (succeeds : t.dropped = false) :
    s.dropped = false ∧ (t.compactions = s.compactions → ∀ c, s.Stores c → t.Stores c) := by
  rcases h with rfl | ⟨dropped, -⟩ | ⟨committed, -⟩
  · exact ⟨succeeds, fun _ c held => held⟩
  · rw [dropped.dropped] at succeeds
    cases succeeds
  · refine ⟨committed.dropped ▸ succeeds, ?_⟩
    intro quiet c held
    exact after.stores_iff.mpr (Or.inl (committed.kept quiet c (before.stores_iff.mp held)))

theorem Wrote.versions {entries kept : List MemtableEntry} (h : Wrote env entries kept s t)
    (before : s.Ready env)
    (apart : ∀ x ∈ s.nodes, ∀ y ∈ kept, ¬ (x.compositeKey = y.compositeKey ∧
      x.sequenceNumber = y.sequenceNumber))
    {c : MergeEntry} (held : s.Stores c) : t.Stores c := by
  apply (h.ready before).stores_iff.mpr
  rcases before.stores_iff.mp held with copy | ⟨x, member, rfl⟩
  · exact Or.inl (h.copy_iff.mpr copy)
  · exact Or.inr ⟨x, h.stays x member (apart x member), rfl⟩

/-- What was found stays, and nothing else is left but the current segment. -/
theorem Settled.files {st : Stored} (launched : Launched env st start)
    (h : Settled start.walManager.writer.currentSegment st.wal start writes s)
    (flushed : s.nodes = []) (succeeded : s.dropped = false) {k : Nat} {segment : Segment} :
    st.wal.get k = some segment ↔ s.wal.get k = some segment ∧
      k ≠ s.walManager.writer.currentSegment := by
  have tracks := h.tracks succeeded
  have reached := tracks.reached
  obtain ⟨absent, content, made⟩ := WalWriter.openDir_created launched.writer
  constructor
  · intro present
    have other : k ≠ start.walManager.writer.currentSegment := by
      rintro rfl
      rw [absent] at present
      cases present
    have newest : k ≤ start.walManager.writer.currentSegment := by
      apply launched.ready.opened.newest k
      rw [made, ObjectStore.get_put_ne _ _ other, present]
      rfl
    refine ⟨?_, by omega⟩
    rw [(tracks.earlier k (by omega)).1]
    exact present
  · rintro ⟨present, other⟩
    by_cases earlier : k < start.walManager.writer.currentSegment
    · rw [← (tracks.earlier k earlier).1]
      exact present
    · have waits := tracks.left k (by omega) other (by rw [present]; rfl)
      rw [h.clean succeeded flushed k] at waits
      cases waits

end

end Engine

namespace World

/-- A call of the session in which no removal fails, and which misses no segment that it leaves. -/
def Timely (w : World) (a : Label) : Prop :=
  a.isCall ∧ a.Within .removing ∧ ∀ s ∈ w.engine, s.Timely a.late

section
variable {env : Env} {w w' : World} {a : Label} {s : Engine}

/-- A call names its entries from the present count of writes on. -/
theorem prepared_origins {e : MemtableEntry} (member : e ∈ prepared env w s a) :
    w.writes ≤ e.origin ∧ e.origin < w.writes + (prepared env w s a).length := by
  have one : ∀ {result : FlushResult MemtableEntry}, prepared env w s a = result.toOption.toList →
      (∀ entry, result = .ok entry → entry.origin = w.writes) →
      w.writes ≤ e.origin ∧ e.origin < w.writes + (prepared env w s a).length := by
    intro result same origin
    rw [same] at member ⊢
    cases result with
    | error err => cases member
    | ok entry =>
      rw [List.mem_singleton.mp member, origin entry rfl]
      exact ⟨le_refl _, Nat.lt_succ_self _⟩
  cases a with
  | put =>
    refine one rfl ?_
    intro entry made
    obtain ⟨-, -, -, rfl⟩ := preparePut_ok made
    rfl
  | delete =>
    refine one rfl ?_
    intro entry made
    obtain ⟨-, -, rfl⟩ := prepareDelete_ok made
    rfl
  | deleteRange =>
    refine one rfl ?_
    intro entry made
    obtain ⟨-, -, rfl⟩ := prepareDeleteRange_ok made
    rfl
  | putBatch recordId items pressured late draws =>
    cases prepares : Engine.prepareBatch env w.writes recordId items pressured s with
    | error err =>
      simp only [prepared, prepares] at member
      cases member
    | ok entries =>
      simp only [prepared, prepares] at member ⊢
      have listed := List.mem_map_of_mem (f := MemtableEntry.origin) (show e ∈ entries from member)
      rw [(Engine.prepareBatch_numbers prepares).2.1, List.mem_range'_1] at listed
      exact listed
  | _ => cases member

theorem call_writes (call : a.isCall) (active : w.engine = some s)
    (taken : step env w a = some w') :
    w'.writes = w.writes + (prepared env w s a).length := by
  cases a with
  | openEngine | crash => cases call
  | _ =>
    simp only [step, active, Option.map_some, Option.some.injEq] at taken
    rw [← taken]
    rfl

theorem named_step (unique : Function.Injective env.ulid) (ready : Ready env w)
    (named : ∀ e, w.disk.wal.Holds e → e.origin < w.writes) (taken : step env w a = some w') :
    ∀ e, w'.disk.wal.Holds e → e.origin < w'.writes := by
  cases a with
  | openEngine nowMs fault =>
    obtain ⟨closed, opening⟩ := openEngine_cases ready.stored taken
    rw [disk_closed closed] at named
    rcases opening with ⟨st, reloaded, rfl⟩ | ⟨s, launched, rfl⟩
    · have disk : World.disk { w with stored := st } = st := disk_closed closed
      intro e held
      rw [disk, reloaded.frame] at held
      exact named e held
    · intro e held
      exact named e ((launched.holds e).mp held)
  | crash torn =>
    obtain ⟨s, active, rfl⟩ := Option.map_eq_some_iff.mp taken
    rw [disk_of_engine active] at named
    obtain ⟨segment, found, -⟩ := (ready.engine s active).opened.current
    intro e held
    show e.origin < w.writes + torn.length
    rcases (WalWriter.holds_writeEntries found).mp held with old | new
    · have bound := named e old
      omega
    · obtain ⟨x, member, same⟩ := @Engine.mem_assign_origin env _ _ _ new
      rw [named_eq] at member
      obtain ⟨i, bound, rfl⟩ := List.mem_mapIdx.mp member
      rw [← same]
      exact Nat.add_lt_add_left bound _
  | _ =>
    obtain ⟨s, active, -⟩ := Option.map_eq_some_iff.mp taken
    have writes := call_writes rfl active taken
    rw [disk_of_engine active] at named
    have earlier : ∀ e, s.wal.Holds e → e.origin < w'.writes := by
      intro e held
      have bound := named e held
      omega
    obtain ⟨s', active', named'⟩ := call_keeps (Engine.named_keeps unique w'.writes) unique rfl
      active (ready.engine s active)
      earlier (fun e member => writes ▸ (prepared_origins member).2) (Label.within_any _) trivial taken
    rw [disk_of_engine active']
    exact named'

/-- In every run the entries of the log are named below the count of writes. -/
theorem exec_named (unique : Function.Injective env.ulid) {labels : List Label}
    (run : exec (step env) {} labels = some w) :
    ∀ e, w.disk.wal.Holds e → e.origin < w.writes := by
  have keep : ∀ w a w', (Ready env w ∧ ∀ e, w.disk.wal.Holds e → e.origin < w.writes) →
      step env w a = some w' →
      Ready env w' ∧ ∀ e, w'.disk.wal.Holds e → e.origin < w'.writes :=
    fun w a w' both taken => ⟨step_ready unique both.1 taken, named_step unique both.1 both.2 taken⟩
  refine (exec_keeps keep ⟨ready_empty env, ?_⟩ run).2
  rintro e ⟨k, segment, found, -⟩
  cases found

end

section
variable {env : Env}

/-- As long as no flush fails and no compaction runs, the versions of `start` are kept. -/
structure Carries (env : Env) (start : Engine) (w : World) : Prop where
  ready : Ready env w
  engine : ∃ s, w.engine = some s ∧ start.compactions ≤ s.compactions ∧
    (s.dropped = false → s.compactions = start.compactions → ∀ c, start.Stores c → s.Stores c)

theorem carries_step (unique : Function.Injective env.ulid) {start : Engine} {w w' : World}
    {a : Label} (h : Carries env start w) (call : a.isCall) (whole : Whole env w a)
    (taken : step env w a = some w') : Carries env start w' := by
  obtain ⟨ready, s, active, more, carried⟩ := h
  have ready_s := ready.engine s active
  have ready' := step_ready unique ready taken
  have plain : Plain w a := by
    cases a with
    | openEngine => cases call
    | putBatch recordId items pressured late draws => exact whole.1
    | _ => trivial
  have running : w'.engine.isSome := by
    cases a with
    | openEngine | crash => cases call
    | _ =>
      obtain ⟨t, -, rfl⟩ := Option.map_eq_some_iff.mp taken
      rfl
  -- what is carried up to `t`, and kept from there on, is carried
  have through : ∀ {t s' : Engine}, t.dropped = s.dropped → t.compactions = s.compactions →
      (∀ c, s.Stores c → t.Stores c) →
      t.compactions ≤ s'.compactions → (s'.dropped = false → t.dropped = false ∧
        (s'.compactions = t.compactions → ∀ c, t.Stores c → s'.Stores c)) →
      start.compactions ≤ s'.compactions ∧
        (s'.dropped = false → s'.compactions = start.compactions → ∀ c, start.Stores c →
          s'.Stores c) := by
    intro t s' dropped count first after rest
    refine ⟨by omega, ?_⟩
    intro succeeds quiet c held
    obtain ⟨before, kept⟩ := rest succeeds
    exact kept (by omega) c (first c (carried (dropped ▸ before) (by omega) c held))
  cases (step_effect unique ready plain taken).1 with
  | idle => exact ⟨ready, s, active, more, carried⟩
  | reloaded closed | opened _ closed =>
    rw [active] at closed
    cases closed
  | crashed => cases running
  | @rolled s₁ s' r active' other rolls =>
    obtain rfl := Option.some.inj (active.symm.trans active')
    refine ⟨ready', s', rfl, through rfl rfl (fun _ held => held) rolls.compactions ?_⟩
    exact Engine.Rolled.versions rolls ready_s (ready'.engine s' rfl)
  | @compacted s₁ s' active' compacts =>
    obtain rfl := Option.some.inj (active.symm.trans active')
    have dropped : s'.dropped = s.dropped := by rw [compacts.frame]
    have list : s'.memtableList = s.memtableList := by rw [compacts.frame]
    refine ⟨ready', s', rfl, through rfl rfl (fun _ held => held) compacts.compactions ?_⟩
    intro succeeds
    refine ⟨dropped ▸ succeeds, ?_⟩
    intro quiet c held
    unfold Engine.Stores
    rw [list]
    exact held.imp (compacts.kept quiet c) id
  | @wrote s₁ t s' entries first rolled reported active' written rolls told =>
    obtain rfl := Option.some.inj (active.symm.trans active')
    have frame := written.wrote.frame
    have kept : ∀ c, s.Stores c → t.Stores c := fun c held =>
      Engine.Wrote.versions written.wrote ready_s (written.apart ready_s (whole.free active)) held
    refine ⟨ready', s', rfl, through (by rw [frame]) (by rw [frame]) kept rolls.compactions ?_⟩
    exact Engine.Rolled.versions rolls (written.wrote.ready ready_s) (ready'.engine s' rfl)

end

section
variable {env : Env} {first : Nat} {found : WalDir} {start : Engine} {writes : Nat}

/-- A session between two calls. -/
structure InSession (env : Env) (first : Nat) (found : WalDir) (start : Engine) (writes : Nat)
    (w : World) : Prop where
  ready : Ready env w
  grown : writes ≤ w.writes
  engine : ∃ s, w.engine = some s ∧ Engine.Settled first found start writes s

theorem inSession_step (unique : Function.Injective env.ulid) {w w' : World} {a : Label}
    (h : InSession env first found start writes w) (timely : Timely w a)
    (taken : step env w a = some w') :
    InSession env first found start writes w' := by
  obtain ⟨ready, grown, s, active, settled⟩ := h
  obtain ⟨call, within, inTime⟩ := timely
  have more := call_writes call active taken
  refine ⟨step_ready unique ready taken, by omega, ?_⟩
  refine call_keeps (Engine.settled_keeps unique) unique call active
    (ready.engine s active) settled ?_ within (inTime s active) taken
  exact fun e member => grown.trans (prepared_origins member).1

end

theorem opened_launched {env : Env} {start opened : World} {nowMs : Nat} {fault : Option OpenFault}
    {s₀ : Engine} (ready : Ready env start)
    (opens : step env start (.openEngine nowMs fault) = some opened)
    (session : opened.engine = some s₀) :
    start.engine = none ∧ opened.writes = start.writes ∧ s₀.Launched env start.stored := by
  obtain ⟨closed, ⟨st, -, rfl⟩ | ⟨s, launched, rfl⟩⟩ := openEngine_cases ready.stored opens
  · rw [show start.engine = some s₀ from session] at closed
    cases closed
  · obtain rfl := Option.some.inj session
    exact ⟨closed, rfl, launched⟩

/-- At a moment of a session at which all is flushed: the segments left over are those that the
opening has found. So nothing is left to be removed when each of these has an entry that was lost
before; and only then, as long as no compaction has dropped versions. -/
theorem reclaimed_when_lost {env : Env} (unique : Function.Injective env.ulid)
    {earlier labels : List Label} {start opened w : World} {nowMs : Nat} {fault : Option OpenFault}
    {s₀ s : Engine} (reached : exec (step env) {} earlier = some start)
    (opens : step env start (.openEngine nowMs fault) = some opened)
    (session : opened.engine = some s₀) (admitted : Admits (step env) Timely opened labels)
    (run : exec (step env) opened labels = some w) (active : w.engine = some s)
    (flushed : s.nodes = []) (succeeded : s.dropped = false) :
    (s.Reclaimed ↔ ∀ k segment, start.stored.wal.get k = some segment →
      ∃ e ∈ segment.entries, ¬ e.Contained s.toStored) ∧
      ((∀ k segment, start.stored.wal.get k = some segment → ∃ e ∈ segment.entries, ¬ e.Held s₀) →
        s.Reclaimed) ∧
      (Admits (step env) (Whole env) opened labels → s.compactions = s₀.compactions → s.Reclaimed →
        ∀ k segment, start.stored.wal.get k = some segment →
          ∃ e ∈ segment.entries, ¬ e.Held s₀) := by
  have ready := exec_ready unique reached
  obtain ⟨closed, writes, launched⟩ := opened_launched ready opens session
  have ready_opened := step_ready unique ready opens
  have begun : InSession env s₀.walManager.writer.currentSegment start.stored.wal s₀ start.writes
      opened :=
    ⟨ready_opened, writes.ge, s₀, session, launched.settled _⟩
  obtain ⟨-, -, s', active', settled⟩ := exec_invariant
    (fun _ _ _ kept timely taken => inSession_step unique kept timely taken)
    begun admitted run
  obtain rfl := Option.some.inj (active.symm.trans active')
  have files : ∀ {k segment}, start.stored.wal.get k = some segment ↔
      s.wal.get k = some segment ∧ k ≠ s.walManager.writer.currentSegment :=
        settled.files launched flushed succeeded
  have listed : s.Reclaimed ↔ ∀ k segment, start.stored.wal.get k = some segment →
      ∃ e ∈ segment.entries, ¬ e.Contained s.toStored := by
    constructor
    · intro reclaimed k segment there
      obtain ⟨left, other⟩ := files.mp there
      exact reclaimed k segment left other
    · intro lost k segment left other
      exact lost k segment (files.mpr ⟨left, other⟩)
  refine ⟨listed, ?_, ?_⟩
  · intro lost
    apply listed.mpr
    intro k segment there
    obtain ⟨e, member, nowhere⟩ := lost k segment there
    refine ⟨e, member, ?_⟩
    rintro ⟨x, records, copy⟩
    rcases settled.versions _ (Or.inl copy) with old | new
    · exact nowhere ⟨x, records, old⟩
    · -- the entry was named before the session
      have below := exec_named unique reached e
      rw [disk_closed closed] at below
      have named : e.origin < start.writes := below ⟨k, segment, there, member⟩
      have same : e.origin = x.origin := congrArg WalEntry.origin records
      exact absurd (same ▸ new) (not_le.mpr named)
  · intro whole quiet reclaimed k segment there
    obtain ⟨e, member, outside⟩ := listed.mp reclaimed k segment there
    refine ⟨e, member, ?_⟩
    rintro ⟨x, records, held⟩
    have carries : Carries env s₀ w := by
      refine exec_invariant (fun _ _ _ kept ok taken => carries_step unique kept ok.1.1 ok.2 taken)
        ?_ (admits_and admitted whole) run
      exact ⟨ready_opened, s₀, session, le_refl _, fun _ _ _ held => held⟩
    obtain ⟨ready_w, s', active', -, carried⟩ := carries
    obtain rfl := Option.some.inj (active.symm.trans active')
    apply outside
    rcases (ready_w.engine s active).stores_iff.mp
      (carried succeeded quiet _ held) with copy | ⟨y, inside, -⟩
    · exact ⟨x, records, copy⟩
    · rw [flushed] at inside
      cases inside

section Example

/-- A session that loses two entries: a flush drops the memtable, and the next one moves the
watermark past them. -/
def lossySession : List Label := droppedRun ++ [.crash []]

/-- Writes that fill a segment, and one whose flush empties the memtable. -/
def laterCalls : List Label :=
  [samplePut 4 1 false, samplePut 5 1 false, samplePut 6 1 false, samplePut 7 1 true]

theorem reclaimed_when_lost_lossy :
    ∃ start opened w s, exec (step (sampleEnv 260)) {} lossySession = some start ∧
      step (sampleEnv 260) start (.openEngine 0 none) = some opened ∧
        exec (step (sampleEnv 260)) opened laterCalls = some w ∧
      w.engine = some s ∧ s.Reclaimed ∧ s.wal.objects.map Prod.fst = [3, 1] := by
  have summary : ((exec (step (sampleEnv 260)) {} lossySession).bind fun start =>
      (step (sampleEnv 260) start (.openEngine 0 none)).bind fun opened => opened.engine.bind fun s₀ =>
      (exec (step (sampleEnv 260)) opened laterCalls).bind fun w => w.engine.map fun s =>
        ([start.stored.wal.objects.map fun pair => pair.2.entries.head?.map WalEntry.origin],
          [s₀.listed.map MergeEntry.origin ++ s₀.nodes.map MemtableEntry.origin,
            s.nodes.map MemtableEntry.origin,
          s.wal.objects.map Prod.fst], s.dropped)) =
      some ([[some 0]], [[2, 2], [], [3, 1]], false) := by decide +kernel
  obtain ⟨start, reached, summary⟩ := Option.bind_eq_some_iff.mp summary
  obtain ⟨opened, opens, summary⟩ := Option.bind_eq_some_iff.mp summary
  obtain ⟨s₀, session, summary⟩ := Option.bind_eq_some_iff.mp summary
  obtain ⟨w, run, summary⟩ := Option.bind_eq_some_iff.mp summary
  obtain ⟨s, active, same⟩ := Option.map_eq_some_iff.mp summary
  simp only [Prod.mk.injEq, List.cons.injEq, and_true] at same
  obtain ⟨found, ⟨stored, empty, left⟩, succeeded⟩ := same
  have ready : s₀.Ready (sampleEnv 260) :=
    (step_ready (sampleEnv_unique 260) (exec_ready (sampleEnv_unique 260) reached) opens).engine s₀
      session
  have admitted : Admits (step (sampleEnv 260)) Timely opened laterCalls := by
    repeat' first | exact trivial | refine ⟨⟨rfl, rfl, fun _ _ late => nomatch late⟩, fun _ _ => ?_⟩
  refine ⟨start, opened, w, s, reached, opens, run, active, ?_, left⟩
  refine (reclaimed_when_lost (sampleEnv_unique 260) reached opens session admitted run active
    (List.map_eq_nil_iff.mp empty)
    succeeded).2.1 ?_
  intro k segment there
  have origin : segment.entries.head?.map WalEntry.origin ∈ [some 0] :=
    found ▸ List.mem_map.mpr ⟨(k, segment), ObjectStore.get_eq_some.mp there, rfl⟩
  obtain ⟨e, head, first⟩ := Option.map_eq_some_iff.mp (List.mem_singleton.mp origin)
  refine ⟨e, List.mem_of_head? head, ?_⟩
  rintro ⟨x, records, held⟩
  have inside : x.origin ∈ [2, 2] := by
    rw [← stored, List.mem_append]
    rcases ready.stores_iff.mp held with copy | ⟨y, member, same⟩
    · exact Or.inl (List.mem_map.mpr ⟨_, Stored.mem_listed.mpr copy, rfl⟩)
    · exact Or.inr (List.mem_map.mpr ⟨y, member, (congrArg MergeEntry.origin same).symm⟩)
  have same : e.origin = x.origin := congrArg WalEntry.origin records
  rw [← same, first] at inside
  simp at inside

/-- A write, and a session that recovers and flushes it. -/
def inheritedRun : List Label :=
  [.openEngine 0 none, samplePut 1 1 false, .crash [], .openEngine 0 none, samplePut 2 1 true]

theorem inheritedRun_keeps_segment :
    ∃ w s, exec (step (sampleEnv 1000)) {} inheritedRun = some w ∧ w.engine = some s ∧
      s.nodes = [] ∧ s.dropped = false ∧
      ¬ s.Reclaimed := by
  have summary : ((exec (step (sampleEnv 1000)) {} inheritedRun).bind fun w => w.engine.bind fun s =>
      (s.wal.get 1).bind fun segment => segment.entries.head?.bind fun e =>
        e.toMemtableEntry.toOption.map fun x =>
        ([s.nodes.length, s.walManager.writer.currentSegment, segment.entries.length], s.dropped,
          decide (e = { WalEntry.fromMemtableEntry x e.ns with sequenceNumber := e.sequenceNumber }),
          decide (MergeEntry.fromMemtableEntry x ∈ s.listed))) =
            some ([0, 2, 1], false, true, true) := by decide +kernel
  obtain ⟨w, run, summary⟩ := Option.bind_eq_some_iff.mp summary
  obtain ⟨s, active, summary⟩ := Option.bind_eq_some_iff.mp summary
  obtain ⟨segment, there, summary⟩ := Option.bind_eq_some_iff.mp summary
  obtain ⟨e, head, summary⟩ := Option.bind_eq_some_iff.mp summary
  obtain ⟨x, -, same⟩ := Option.map_eq_some_iff.mp summary
  simp only [Prod.mk.injEq, List.cons.injEq, and_true] at same
  obtain ⟨⟨empty, current, one⟩, succeeded, records, copied⟩ := same
  refine ⟨w, s, run, active, List.length_eq_zero_iff.mp empty, succeeded, ?_⟩
  intro reclaimed
  obtain ⟨e', member, outside⟩ := reclaimed 1 segment there (by omega)
  -- the segment has one entry
  obtain ⟨only, entries⟩ := List.length_eq_one_iff.mp one
  rw [entries] at head member
  obtain rfl := Option.some.inj head
  obtain rfl := List.mem_singleton.mp member
  rw [decide_eq_true_iff] at records
  exact outside ⟨x, records, Stored.mem_listed.mp (of_decide_eq_true copied)⟩

end Example

end World

end FlushDB
