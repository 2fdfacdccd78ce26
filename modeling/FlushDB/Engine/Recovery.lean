import FlushDB.Engine.Engine

/-!
Opening an engine: the newest manifest, the log from the watermark on replayed into a memtable,
a new writer epoch and a new segment.
-/

namespace FlushDB
open Lib

/-- Replays entries; `highest` is the highest log number seen. An entry with a known token is
skipped, the others get the memtable's numbers. -/
def replay : List WalEntry → Nat → MemtableList → FlushResult (Nat × MemtableList)
  | [], highest, l => .ok (highest, l)
  | e :: rest, highest, l =>
    match e.toMemtableEntry with
    | .error err => .error err
    | .ok entry =>
      match l.insert entry with
      | .ok (_, l) => replay rest (max highest e.sequenceNumber) l
      | .error (.duplicateToken _) => replay rest (max highest e.sequenceNumber) l
      | .error err => .error err

structure RecoveryResult where
  manifest : ManifestState
  levels : List LevelState
  memtableList : MemtableList
  nextSequenceNumber : Nat

def recover (env : Env) (nowMs : Nat) (st : Stored) : FlushResult RecoveryResult × Stored :=
  match ManifestState.loadLatest nowMs
      ⟨ManifestManager.new env.config.ns nowMs env.config.manifestConfig, st.manifests⟩ with
  | (.error e, m) => (.error e, { st with manifests := m.bucket })
  | (.ok (), m) =>
    let st := { st with manifests := m.bucket }
    match Engine.openLevels st.tables m.manager.current Level.all with
    | (.error e, _) => (.error e, st)
    | (.ok (), levels) =>
      let watermark := m.manager.current.lastFlushedSequence
      match replay (WalReader.replayFrom st.wal watermark) watermark
          (MemtableList.new env.config.memtableConfig (watermark + 1)) with
      | .error e => (.error e, st)
      | .ok (highest, memtableList) =>
        (.ok { manifest := m, levels, memtableList, nextSequenceNumber := highest + 1 }, st)

/-- A recovery that succeeds has loaded the manifest, opened the levels and replayed the log. -/
theorem recover_recovered {env : Env} {nowMs : Nat} {st st' : Stored} {result : RecoveryResult}
    (h : recover env nowMs st = (.ok result, st')) : ∃ m levels highest l,
      ManifestState.loadLatest nowMs
        ⟨ManifestManager.new env.config.ns nowMs env.config.manifestConfig, st.manifests⟩ =
          (.ok (), m) ∧
      Engine.openLevels st.tables m.manager.current Level.all = (.ok (), levels) ∧
      replay (WalReader.replayFrom st.wal m.manager.current.lastFlushedSequence)
        m.manager.current.lastFlushedSequence
        (MemtableList.new env.config.memtableConfig (m.manager.current.lastFlushedSequence + 1)) =
          .ok (highest, l) ∧
      result = ⟨m, levels, l, highest + 1⟩ := by
  unfold recover at h
  split at h
  · cases h
  rename_i m loads
  dsimp only at h
  split at h
  · cases h
  rename_i levels opens
  split at h
  · cases h
  rename_i highest l replays
  obtain ⟨same, -⟩ := Prod.mk.inj h
  exact ⟨m, levels, highest, l, loads, opens, replays, (Except.ok.inj same).symm⟩

namespace Engine

/-- `Engine::open`; what it has stored stays when it fails. -/
def openStored (env : Env) (nowMs : Nat) (fault : Option OpenFault) (st : Stored) :
    FlushResult Engine × Stored :=
  match recover env nowMs st with
  | (.error e, st) => (.error e, st)
  | (.ok recovered, st) =>
    if fault = some .acquireEpoch then (.error (.io "conditional_put"), st)
    else
      match recovered.manifest.acquireEpoch .writer nowMs with
      | (.error e, m) => (.error e, { st with manifests := m.bucket })
      | (.ok (), m) =>
        let st := { st with manifests := m.bucket }
        if fault = some .openWal then (.error (.io "create_dir_all"), st)
        else
          match WalWriter.openDir st.wal env.config.walConfig with
          | .error e => (.error e, st)
          | .ok (writer, wal) =>
            let st := { st with wal }
            (.ok { toStored := st
                   memtableList := recovered.memtableList
                   walManager := { writer }
                   manifestManager := m.manager
                   levels := recovered.levels
                   nextSequence := recovered.nextSequenceNumber }, st)

/-- An engine that opens has been recovered, has acquired an epoch and has a log to write. -/
theorem openStored_opened {env : Env} {nowMs : Nat} {fault : Option OpenFault} {st st' : Stored}
    {s : Engine} (h : openStored env nowMs fault st = (.ok s, st')) : ∃ recovered mid m writer wal,
      recover env nowMs st = (.ok recovered, mid) ∧
        recovered.manifest.acquireEpoch .writer nowMs = (.ok (), m) ∧
      WalWriter.openDir mid.wal env.config.walConfig = .ok (writer, wal) ∧
      s = { toStored := { mid with manifests := m.bucket, wal }
            memtableList := recovered.memtableList
            walManager := { writer }
            manifestManager := m.manager
            levels := recovered.levels
            nextSequence := recovered.nextSequenceNumber } := by
  unfold openStored at h
  split at h
  · cases h
  rename_i recovered mid recovers
  split at h
  · cases h
  split at h
  · cases h
  rename_i m acquired
  dsimp only at h
  split at h
  · cases h
  split at h
  · cases h
  rename_i writer wal opens
  obtain ⟨same, -⟩ := Prod.mk.inj h
  exact ⟨recovered, mid, m, writer, wal, recovers, acquired, opens, (Except.ok.inj same).symm⟩

end Engine

end FlushDB
