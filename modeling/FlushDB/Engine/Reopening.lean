import FlushDB.Engine.RangeDeletes
import FlushDB.Engine.Reach

/-!
Opening again. An opening stores an epoch and an empty segment, and the next one reads the same
tables, the same watermark and the same log: the empty segment's header makes it skip only what
lies below the watermark. Openings that end early store no more than that.
-/

namespace FlushDB
open Lib ManifestBucket

/-- An opening of this storage succeeds, with these memtables and levels. -/
structure Stored.Opens (env : Env) (st : Stored) (l : MemtableList) (levels : List LevelState) :
    Prop where
  sound : st.Sound env
  readable : Readable st.manifests
  levels : ∃ m : Manifest, (∀ level, m.sstablesAtLevel level = tablesAt st.manifests level) ∧
    Engine.openLevels st.tables m Level.all = (.ok (), levels)
  replays : ∃ highest, replay st.replayLog (watermark st.manifests)
    (MemtableList.new env.config.memtableConfig (watermark st.manifests + 1)) = .ok (highest, l)

namespace Engine
variable {env : Env}

theorem openLevels_congr {tables : Tables} {m m' : Manifest}
    (same : ∀ level, m'.sstablesAtLevel level = m.sstablesAtLevel level) (levels : List Level) :
    openLevels tables m' levels = openLevels tables m levels := by
  induction levels with
  | nil => rfl
  | cons level rest ih => rw [openLevels, openLevels, same level, ih]

theorem recover_ok {nowMs : Nat} {st : Stored} {l : MemtableList} {levels : List LevelState}
    (opens : st.Opens env l levels) :
    ∃ result st', recover env nowMs st = (.ok result, st') ∧ result.memtableList = l ∧
      result.levels = levels ∧
      Readable result.manifest.bucket ∧ Keyed result.manifest.bucket := by
  obtain ⟨sound, readable, ⟨m, listed, opened⟩, highest, replays⟩ := opens
  have loads := @ManifestState.loadLatest_spec
    ⟨ManifestManager.new env.config.ns nowMs env.config.manifestConfig, st.manifests⟩
    nowMs sound.keyed
  have kept := @ManifestState.loadLatest_readable
    ⟨ManifestManager.new env.config.ns nowMs env.config.manifestConfig,
    st.manifests⟩ nowMs sound.keyed readable
  have succeeds := (@ManifestState.loadLatest_ok_iff
    ⟨ManifestManager.new env.config.ns nowMs env.config.manifestConfig,
    st.manifests⟩ nowMs).mpr readable
  unfold recover
  generalize ManifestState.loadLatest nowMs ⟨ManifestManager.new env.config.ns nowMs env.config.manifestConfig,
    st.manifests⟩ = loaded at loads kept succeeds ⊢
  obtain ⟨r, state⟩ := loaded
  obtain rfl : r = .ok () := succeeds
  obtain ⟨keyed, view, latest⟩ := loads
  have latest : state.Latest := latest rfl
  have mark : state.manager.current.lastFlushedSequence = watermark st.manifests :=
    latest.watermark_eq.symm.trans view.2
  have same : openLevels st.tables state.manager.current Level.all = (.ok (), levels) := by
    rw [← opened]
    refine openLevels_congr ?_ _
    intro level
    rw [listed level, ← latest.tablesAt_eq level]
    exact view.1 level
  simp only [mark, same, replays]
  exact ⟨_, _, rfl, rfl, rfl, kept, keyed⟩

/-- Such an opening succeeds at any time. -/
theorem openStored_opens {nowMs : Nat} {st : Stored} {l : MemtableList} {levels : List LevelState}
    (opens : st.Opens env l levels) :
    ∃ s, openStored env nowMs none st = (.ok s, s.toStored) ∧ s.memtableList = l ∧
      s.levels = levels ∧ s.tables = st.tables := by
  obtain ⟨result, st', recovers, list, opened, readable, keyed⟩ := @recover_ok env nowMs _ _ _ opens
  have acquires := @ManifestState.acquireEpoch_readable _ .writer nowMs keyed readable
  have frame := (recover_spec opens.sound.keyed recovers).1.frame
  unfold openStored
  rw [recovers]
  dsimp only
  rw [if_neg (by simp)]
  generalize result.manifest.acquireEpoch .writer nowMs = acquired at acquires
  obtain ⟨outcome, m⟩ := acquired
  obtain rfl : outcome = .ok () := acquires.1
  have wal : st'.wal = st.wal := by rw [frame]
  obtain ⟨writer, dir, directory, -⟩ := WalWriter.openDir_spec opens.sound.ordered env.config.walConfig
  dsimp only
  rw [if_neg (by simp), wal, directory]
  refine ⟨_, rfl, list, opened, ?_⟩
  show st'.tables = st.tables
  rw [frame]

theorem recover_readable {nowMs : Nat} {st st' : Stored} {r : FlushResult RecoveryResult}
    (keyed : Keyed st.manifests) (readable : Readable st.manifests)
    (h : recover env nowMs st = (r, st')) : Readable st'.manifests := by
  have kept := @ManifestState.loadLatest_readable
    ⟨ManifestManager.new env.config.ns nowMs env.config.manifestConfig,
    st.manifests⟩ nowMs keyed readable
  unfold recover at h
  generalize ManifestState.loadLatest nowMs ⟨ManifestManager.new env.config.ns nowMs env.config.manifestConfig,
    st.manifests⟩ = loaded at kept h
  obtain ⟨loads, m⟩ := loaded
  cases loads with
  | error e =>
    obtain ⟨-, rfl⟩ := Prod.mk.inj h
    exact kept
  | ok done =>
    dsimp only at h
    split at h
    · obtain ⟨-, rfl⟩ := Prod.mk.inj h
      exact kept
    · split at h
      · obtain ⟨-, rfl⟩ := Prod.mk.inj h
        exact kept
      · obtain ⟨-, rfl⟩ := Prod.mk.inj h
        exact kept

theorem openStored_readable {nowMs : Nat} {fault : Option OpenFault} {st st' : Stored}
    {r : FlushResult Engine} (sound : st.Sound env) (readable : Readable st.manifests)
    (h : openStored env nowMs fault st = (r, st')) :
    Readable st'.manifests := by
  unfold openStored at h
  generalize recovers : recover env nowMs st = left at h
  obtain ⟨result, mid⟩ := left
  have kept := recover_readable sound.keyed readable recovers
  obtain ⟨reloaded, recovered⟩ := recover_spec sound.keyed recovers
  cases result with
  | error e =>
    obtain ⟨-, rfl⟩ := Prod.mk.inj h
    exact kept
  | ok result =>
    have bucket := (recovered result rfl).1
    have acquired := (@ManifestState.acquireEpoch_readable result.manifest .writer nowMs
      (bucket ▸ reloaded.keyed)
      (bucket ▸ kept)).2
    dsimp only at h
    split at h
    · obtain ⟨-, rfl⟩ := Prod.mk.inj h
      exact kept
    generalize result.manifest.acquireEpoch .writer nowMs = taken at acquired h
    obtain ⟨outcome, m⟩ := taken
    cases outcome with
    | error e =>
      obtain ⟨-, rfl⟩ := Prod.mk.inj h
      exact acquired
    | ok done =>
      dsimp only at h
      split at h
      · obtain ⟨-, rfl⟩ := Prod.mk.inj h
        exact acquired
      · split at h
        · obtain ⟨-, rfl⟩ := Prod.mk.inj h
          exact acquired
        · obtain ⟨-, rfl⟩ := Prod.mk.inj h
          exact acquired

/-- An engine that was opened says what every opening of its storage gives. -/
theorem opens_of_openStored {nowMs : Nat} {fault : Option OpenFault} {st st' : Stored} {s : Engine}
    (sound : st.Sound env) (h : openStored env nowMs fault st = (.ok s, st')) :
    st.Opens env s.memtableList s.levels ∧ s.tables = st.tables := by
  rcases openStored_launched sound h with ⟨e, failed, -⟩ | ⟨t, same, -, launched⟩
  · cases failed
  obtain rfl := Except.ok.inj same
  obtain ⟨highest, replays, -⟩ := launched.replayed
  refine ⟨⟨sound, ?_, launched.levels, highest, replays⟩, launched.tables⟩
  obtain ⟨recovered, mid, _, _, _, recovers, -⟩ := openStored_opened h
  obtain ⟨m, levels, highest, l, loads, -⟩ := recover_recovered recovers
  exact (@ManifestState.loadLatest_ok_iff
    ⟨ManifestManager.new env.config.ns nowMs env.config.manifestConfig, st.manifests⟩
    nowMs).mp (congrArg Prod.fst loads)

end Engine

namespace Stored
variable {env : Env}

/-- What an opening leaves, whether it ends early, fails or succeeds, opens as before. -/
theorem Opens.again {st : Stored} {l : MemtableList} {levels : List LevelState}
    (opens : st.Opens env l levels) (nowMs : Nat) (fault : Option OpenFault) :
    (Engine.openStored env nowMs fault st).2.Opens env l levels ∧
      (Engine.openStored env nowMs fault st).2.tables = st.tables := by
  generalize opened : Engine.openStored env nowMs fault st = result
  obtain ⟨r, st'⟩ := result
  have readable := Engine.openStored_readable opens.sound opens.readable opened
  -- an early end leaves the log alone, a success adds a segment without entries
  have stored : st'.Sound env ∧ st'.tables = st.tables ∧ SameView st.manifests st'.manifests ∧
      ∀ e, st'.wal.Holds e ↔ st.wal.Holds e := by
    rcases Engine.openStored_launched opens.sound opened with ⟨e, -, reloaded⟩ | ⟨s, -, rfl, launched⟩
    · refine ⟨reloaded.sound opens.sound, ?_, reloaded.view, ?_⟩
      · rw [reloaded.frame]
      · intro e
        rw [reloaded.frame]
    · exact ⟨launched.ready.toSound, launched.tables, launched.listed, launched.holds⟩
  obtain ⟨sound, tables, view, holds⟩ := stored
  have log : st'.replayLog = st.replayLog := by
    unfold Stored.replayLog
    rw [WalReader.replayFrom_eq sound.ordered, WalReader.replayFrom_eq opens.sound.ordered, view.2,
      WalReader.replayAll_eq opens.sound.ordered sound.ordered holds]
  refine ⟨⟨sound, readable, ?_, ?_⟩, tables⟩
  · obtain ⟨m, listed, opened⟩ := opens.levels
    refine ⟨m, ?_, ?_⟩
    · intro level
      rw [listed level, view.1 level]
    · show Engine.openLevels st'.tables m Level.all = _
      rw [tables]
      exact opened
  · obtain ⟨highest, replays⟩ := opens.replays
    refine ⟨highest, ?_⟩
    rw [log, view.2]
    exact replays

/-- Any number of openings, each cut short at any of its steps or ended right after it. -/
def reopened (env : Env) (st : Stored) (attempts : List (Nat × Option OpenFault)) : Stored :=
  attempts.foldl (fun st attempt => (Engine.openStored env attempt.1 attempt.2 st).2) st

theorem Opens.reopened {st : Stored} {l : MemtableList} {levels : List LevelState}
    (opens : st.Opens env l levels) (attempts : List (Nat × Option OpenFault)) :
    (st.reopened env attempts).Opens env l levels ∧
      (st.reopened env attempts).tables = st.tables := by
  induction attempts generalizing st with
  | nil => exact ⟨opens, rfl⟩
  | cons attempt rest ih =>
    obtain ⟨again, tables⟩ := opens.again attempt.1 attempt.2
    obtain ⟨later, same⟩ := ih again
    exact ⟨later, same.trans tables⟩

end Stored

namespace World

/-- From every storage that a run with crashes leaves: when an opening succeeds, so does every
opening after any number of others that were cut short or crashed, and it gives the same reads. -/
theorem recovery_idempotent {env : Env} (unique : Function.Injective env.ulid) {labels : List Label}
    {w : World} (run : exec (step env) {} labels = some w) (closed : w.engine = none) {nowMs : Nat}
    {s : Engine} {st : Stored} (opened : Engine.openStored env nowMs none w.stored = (.ok s, st))
    (attempts : List (Nat × Option OpenFault)) (later : Nat) :
    ∃ s', Engine.openStored env later none (w.stored.reopened env attempts) = (.ok s', s'.toStored) ∧
      ∀ renv draw recordId, (∀ itemKey, s'.get renv draw recordId itemKey = s.get renv draw recordId itemKey) ∧
        ∀ startKey endKey options,
          s'.scan renv draw recordId startKey endKey options =
            s.scan renv draw recordId startKey endKey options := by
  have sound := (exec_ready unique run).stored closed
  obtain ⟨opens, tables⟩ := Engine.opens_of_openStored sound opened
  obtain ⟨again, kept⟩ := opens.reopened attempts
  obtain ⟨s', reopens, list, levels, tables'⟩ := @Engine.openStored_opens env later _ _ _ again
  have same : s'.tables = s.tables := (tables'.trans kept).trans tables.symm
  refine ⟨s', reopens, ?_⟩
  intro renv draw recordId
  constructor
  · intro itemKey
    unfold Engine.get
    rw [list, levels, same]
  · intro startKey endKey options
    unfold Engine.scan
    rw [list, levels, same]

section Example

/-- A flush, later writes that are only in the log, and a crash in the middle of an append. -/
def crashedRun : List Label :=
  [.openEngine 0 none, samplePut 1 1 false, samplePut 2 1 true, samplePut 1 2 false,
    .crash [⟨.encode ⟨[114]⟩ [9], ⟨[7]⟩, ⟨[]⟩,
    .none, 0, .put, 0⟩]]

theorem recovery_idempotent_crashed :
    ∃ w s st s', exec (step (sampleEnv 100)) {} crashedRun = some w ∧
      Engine.openStored (sampleEnv 100) 1 none w.stored = (.ok s, st) ∧
      Engine.openStored (sampleEnv 100) 5 none
        (w.stored.reopened (sampleEnv 100) [(2, some .acquireEpoch), (3, some .openWal),
          (4, none)]) = (.ok s', s'.toStored) ∧
      ∀ itemKey, s'.get sampleReads {} ⟨[114]⟩ itemKey = s.get sampleReads {} ⟨[114]⟩ itemKey := by
  have ends : (exec (step (sampleEnv 100)) {} crashedRun).map (fun w =>
      (w.engine.isNone, (Engine.openStored (sampleEnv 100) 1 none w.stored).1.toBool)) =
        some (true, true) := by decide +kernel
  obtain ⟨w, run, summary⟩ := Option.map_eq_some_iff.mp ends
  obtain ⟨closed, opens⟩ := Prod.mk.inj summary
  generalize opened : Engine.openStored (sampleEnv 100) 1 none w.stored = result at opens
  obtain ⟨r, st⟩ := result
  cases r with
  | error e => cases opens
  | ok s =>
    obtain ⟨s', reopens, same⟩ := recovery_idempotent (sampleEnv_unique 100) run
      (Option.isNone_iff_eq_none.mp closed) opened
      [(2, some .acquireEpoch), (3, some .openWal), (4, none)] 5
    exact ⟨w, s, st, s', run, opened, reopens, (same sampleReads {} ⟨[114]⟩).1⟩

end Example

end World

end FlushDB
