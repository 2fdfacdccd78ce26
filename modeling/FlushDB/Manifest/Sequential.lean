import FlushDB.Lib.ObjectStore
import FlushDB.Manifest.Manager

/-!
The calls of one manifest manager that no other manager interleaves with: an engine that owns
its namespace. Each call returns its result and the state it leaves, also when it fails.
-/

namespace FlushDB
open Lib

/-- A manager and the manifests of its namespace. -/
structure ManifestState where
  manager : ManifestManager
  bucket : ObjectStore Nat Manifest := ObjectStore.empty

namespace ManifestState

def setCurrent (s : ManifestState) (m : Manifest) : ManifestState :=
  { s with manager := { s.manager with current := m } }

def loadLatest (nowMs : Nat) (s : ManifestState) : FlushResult Unit × ManifestState :=
  match s.bucket.keys.getLast? with
  | none =>
    let m := Manifest.newEmpty s.manager.current.ns nowMs
    match s.bucket.conditionalPut 0 m with
    | some bucket => (.ok (), { s with bucket }.setCurrent m)
    | none =>
      match s.bucket.get 0 with
      | some stored => (.ok (), s.setCurrent stored)
      | none => (.error (.notFound "0"), s)
  | some highest =>
    match s.bucket.get highest with
    | none => (.error (.notFound (toString highest)), s)
    | some m =>
      if m.formatVersion ≠ 1 then
        (.error (.corruptedData s!"unsupported manifest format_version: {m.formatVersion}"), s)
      else (.ok (), s.setCurrent m)

/-- The CAS loop of `update`, with the number of attempts left. -/
def tryUpdate (serializedLen : Manifest → Nat) (u : ManifestUpdate) (nowMs : Nat) :
    Nat → ManifestState → FlushResult Unit × ManifestState
  | 0, s => (.error ManifestManager.casExhausted, s)
  | attempts + 1, s =>
    match s.manager.toWrite serializedLen u nowMs with
    | .error e => (.error e, s)
    | .ok next =>
      match s.bucket.conditionalPut next.manifestId next with
      | some bucket => (.ok (), { s with bucket }.setCurrent next)
      | none =>
        if attempts = 0 then (.error ManifestManager.casExhausted, s)
        else
          match s.loadLatest nowMs with
          | (.error e, s) => (.error e, s)
          | (.ok (), s) =>
            match s.manager.revalidate u with
            | .error e => (.error e, s)
            | .ok () => tryUpdate serializedLen u nowMs attempts s

def update (serializedLen : Manifest → Nat) (u : ManifestUpdate) (nowMs : Nat) (s : ManifestState) :
    FlushResult Unit × ManifestState :=
  match s.manager.validateEpoch u with
  | .error e => (.error e, s)
  | .ok () =>
    match s.manager.validateUpdate u with
    | .error e => (.error e, s)
    | .ok () => tryUpdate serializedLen u nowMs maxCasRetries s

def acquireEpoch (kind : EpochKind) (nowMs : Nat) (s : ManifestState) :
    FlushResult Unit × ManifestState :=
  match s.loadLatest nowMs with
  | (.error e, s) => (.error e, s)
  | (.ok (), s) =>
    match (s.manager.epochUpdate kind).apply nowMs s.manager.current with
    | .error e => (.error e, s)
    | .ok next =>
      match s.bucket.conditionalPut next.manifestId next with
      | some bucket => (.ok (), { manager := s.manager.acquired next kind, bucket })
      | none =>
        (.error (.preconditionFailed s!"key '{next.manifestId}' already exists"), s)

/-- The manager holds the newest manifest of the bucket. -/
def Latest (s : ManifestState) : Prop :=
  s.bucket.keys.getLast? = some s.manager.current.manifestId ∧
    s.bucket.get s.manager.current.manifestId = some s.manager.current

theorem Latest.free {s : ManifestState} (h : s.Latest) :
    s.bucket.get (s.manager.current.manifestId + 1) = none := by
  by_contra present
  have listed := ObjectStore.mem_keys.mpr (Option.isSome_iff_ne_none.mpr present)
  have := ObjectStore.le_getLast_keys listed h.1
  omega

/-- On its newest manifest an update succeeds at the first attempt, or changes nothing. -/
theorem update_cases (len : Manifest → Nat) (u : ManifestUpdate) (nowMs : Nat) {s : ManifestState}
    (free : s.bucket.get (s.manager.current.manifestId + 1) = none) :
    (∃ e, s.update len u nowMs = (.error e, s)) ∨
      ∃ next written, u.apply nowMs s.manager.current = .ok next ∧
        (written = next ∨ written = { next with isSnapshot := true }) ∧
        s.update len u nowMs =
          (.ok (), { manager := { s.manager with current := written },
                     bucket := s.bucket.put written.manifestId written }) := by
  unfold update
  split
  · exact Or.inl ⟨_, rfl⟩
  split
  · exact Or.inl ⟨_, rfl⟩
  simp only [maxCasRetries, tryUpdate]
  split
  · exact Or.inl ⟨_, rfl⟩
  · rename_i written prepared
    obtain ⟨next, applied, same⟩ := ManifestManager.toWrite_ok prepared
    have number : written.manifestId = s.manager.current.manifestId + 1 := by
      have applied_id := ManifestUpdate.apply_manifestId applied
      rcases same with same | same <;> rw [same] <;> exact applied_id
    have stored : s.bucket.conditionalPut written.manifestId written =
        some (s.bucket.put written.manifestId written) := by
      simp [ObjectStore.conditionalPut, number, free]
    rw [stored]
    exact Or.inr ⟨next, written, applied, same, rfl⟩

theorem update_ok {len : Manifest → Nat} {u : ManifestUpdate} {nowMs : Nat} {s s' : ManifestState}
    (free : s.bucket.get (s.manager.current.manifestId + 1) = none)
    (h : s.update len u nowMs = (.ok (), s')) :
    ∃ next written, u.apply nowMs s.manager.current = .ok next ∧
      (written = next ∨ written = { next with isSnapshot := true }) ∧
      s' = { manager := { s.manager with current := written },
             bucket := s.bucket.put written.manifestId written } := by
  rcases update_cases len u nowMs free with ⟨e, failed⟩ | ⟨next, written, applied, same, stored⟩
  · rw [failed] at h
    cases h
  · rw [stored] at h
    exact ⟨next, written, applied, same, (Prod.mk.inj h).2.symm⟩

end ManifestState

end FlushDB
