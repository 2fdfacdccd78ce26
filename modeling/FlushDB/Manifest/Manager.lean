import FlushDB.Manifest.Types

/-!
The manifest manager: the local parts of `load_latest`, `update` and the epoch
acquisitions, between one call of the storage backend and the next.
-/

namespace FlushDB

def maxCasRetries : Nat := 5

structure ManifestConfig where
  snapshotInterval : Nat := 100
  maxManifestSize : Nat := 16 * 1024 * 1024

/-- `current` is the manager's own copy of a stored manifest; the epochs are those it holds. -/
structure ManifestManager where
  current : Manifest
  config : ManifestConfig
  writerEpoch : Nat := 0
  compactorEpoch : Nat := 0

/-- Which epoch an acquisition bumps. -/
inductive EpochKind where
  | writer | compactor
  deriving DecidableEq, Repr

namespace ManifestManager

def new (ns : String) (nowMs : Nat) (config : ManifestConfig) : ManifestManager where
  current := Manifest.newEmpty ns nowMs
  config := config

def checkWriterEpoch (m : ManifestManager) : FlushResult Unit :=
  if m.current.writerEpoch > m.writerEpoch then
    .error (.epochFenced m.writerEpoch m.current.writerEpoch)
  else .ok ()

def checkCompactorEpoch (m : ManifestManager) : FlushResult Unit :=
  if m.current.compactorEpoch > m.compactorEpoch then
    .error (.epochFenced m.compactorEpoch m.current.compactorEpoch)
  else .ok ()

/-- Only the epoch of the update's own kind is compared. -/
def validateEpoch (m : ManifestManager) (u : ManifestUpdate) : FlushResult Unit :=
  match u.trigger with
  | .flush => m.checkWriterEpoch
  | .compaction => m.checkCompactorEpoch
  | .gc => .ok ()

/-- Whether the current manifest lists the table at the level. -/
def lists (m : ManifestManager) (level : Level) (id : SstId) : Bool :=
  (m.current.sstablesAtLevel level).any fun t => t.id = id

def validateUpdate (m : ManifestManager) (u : ManifestUpdate) : FlushResult Unit :=
  match u.removeSSTables.find? (fun entry => !m.lists entry.1 entry.2) with
  | some (level, id) => .error (.invalidArgument s!"SSTable {id} not found at level {level}")
  | none =>
    match u.addSSTables.find? (fun entry => m.lists entry.1 entry.2.id) with
    | some (level, added) =>
      .error (.invalidArgument s!"SSTable {added.id} already exists at level {level}")
    | none =>
      match u.newLastFlushedSequence with
      | none => .ok ()
      | some seq =>
        if seq < m.current.lastFlushedSequence then
          .error (.invalidArgument
            s!"last_flushed_sequence cannot decrease from {m.current.lastFlushedSequence} to {seq}")
        else .ok ()

/-- The checks made after a lost race, on the manifest that `refresh` brought. -/
def revalidate (m : ManifestManager) (u : ManifestUpdate) : FlushResult Unit :=
  match m.validateEpoch u with
  | .error e => .error e
  | .ok () =>
    match u.removeSSTables.find? (fun entry => !m.lists entry.1 entry.2) with
    | some (level, id) =>
      .error (.invalidArgument s!"SSTable {id} at {level} was consumed by concurrent operation")
    | none => .ok ()

def casExhausted : FlushError :=
  .resourceExhausted "manifest CAS" s!"exceeded {maxCasRetries} CAS retries for manifest update"

/-- `serializedLen` is the length of the manifest's JSON. -/
def shouldSnapshotManifest (serializedLen : Manifest → Nat) (m : ManifestManager)
    (manifest : Manifest) : Bool :=
  (manifest.manifestId > 0 ∧ manifest.manifestId % m.config.snapshotInterval = 0) ∨
    serializedLen manifest > m.config.maxManifestSize

/-- The manifest an attempt of `update` tries to store. -/
def toWrite (serializedLen : Manifest → Nat) (m : ManifestManager) (u : ManifestUpdate)
    (nowMs : Nat) : FlushResult Manifest :=
  match u.apply nowMs m.current with
  | .error e => .error e
  | .ok next =>
    if m.shouldSnapshotManifest serializedLen next then .ok { next with isSnapshot := true }
    else .ok next

/-- The update an epoch acquisition applies to the manifest it has just loaded. -/
def epochUpdate (m : ManifestManager) : EpochKind → ManifestUpdate
  | .writer =>
    { trigger := .flush
      addSSTables := []
      removeSSTables := []
      newLastFlushedSequence := none
      writerEpoch := m.current.writerEpoch + 1
      compactorEpoch := m.current.compactorEpoch }
  | .compactor =>
    { trigger := .compaction
      addSSTables := []
      removeSSTables := []
      newLastFlushedSequence := none
      writerEpoch := m.current.writerEpoch
      compactorEpoch := m.current.compactorEpoch + 1 }

/-- The manager after its acquisition stored `next`. -/
def acquired (m : ManifestManager) (next : Manifest) : EpochKind → ManifestManager
  | .writer => { m with current := next, writerEpoch := next.writerEpoch }
  | .compactor => { m with current := next, compactorEpoch := next.compactorEpoch }

theorem checkWriterEpoch_ok {m : ManifestManager} {u : Unit} (h : m.checkWriterEpoch = .ok u) :
    m.current.writerEpoch ≤ m.writerEpoch := by
  unfold checkWriterEpoch at h
  split at h
  · cases h
  · omega

theorem checkCompactorEpoch_ok {m : ManifestManager} {u : Unit}
    (h : m.checkCompactorEpoch = .ok u) :
    m.current.compactorEpoch ≤ m.compactorEpoch := by
  unfold checkCompactorEpoch at h
  split at h
  · cases h
  · omega

theorem revalidate_ok {m : ManifestManager} {u : ManifestUpdate} {v : Unit}
    (h : m.revalidate u = .ok v) : m.validateEpoch u = .ok () := by
  unfold revalidate at h
  split at h
  · cases h
  · assumption

/-- Nothing but the snapshot mark is added to what `apply` computed. -/
theorem toWrite_ok {serializedLen : Manifest → Nat} {m : ManifestManager} {u : ManifestUpdate}
    {nowMs : Nat} {written : Manifest} (h : m.toWrite serializedLen u nowMs = .ok written) :
    ∃ next, u.apply nowMs m.current = .ok next ∧
      (written = next ∨ written = { next with isSnapshot := true }) := by
  unfold toWrite at h
  split at h
  · cases h
  · rename_i next applied
    split at h
    · exact ⟨next, applied, Or.inr (Except.ok.inj h).symm⟩
    · exact ⟨next, applied, Or.inl (Except.ok.inj h).symm⟩

end ManifestManager

end FlushDB
