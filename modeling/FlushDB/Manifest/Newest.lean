import FlushDB.Manifest.Apply
import FlushDB.Manifest.Sequential

/-!
The newest manifest of a bucket under the calls of its only manager: loading and epoch
acquisitions leave its tables and its watermark, a flush adds a table and moves the watermark.
-/

namespace FlushDB
open Lib

namespace ManifestBucket
variable (b : ObjectStore Nat Manifest)

def newest : Option Manifest := b.keys.getLast?.bind b.get

/-- Every manifest is stored under its own id. -/
def Keyed : Prop := ∀ k m, b.get k = some m → m.manifestId = k

def tablesAt (level : Level) : List SSTableMeta :=
  ((newest b).map fun m => m.sstablesAtLevel level).getD []

def watermark : Nat := ((newest b).map Manifest.lastFlushedSequence).getD 0

/-- The same tables and the same watermark. -/
def SameView (b c : ObjectStore Nat Manifest) : Prop :=
  (∀ level, tablesAt c level = tablesAt b level) ∧ watermark c = watermark b

/-- The newest manifest has the format that is supported. -/
def Readable : Prop := ∀ m, newest b = some m → m.formatVersion = 1

variable {b}

theorem keyed_empty : Keyed (ObjectStore.empty : ObjectStore Nat Manifest) := by
  intro k m found
  cases found

theorem Keyed.put (h : Keyed b) (m : Manifest) : Keyed (b.put m.manifestId m) :=
  ObjectStore.forall_put h rfl

theorem SameView.refl (b : ObjectStore Nat Manifest) : SameView b b := ⟨fun _ => rfl, rfl⟩

theorem SameView.trans {b c d : ObjectStore Nat Manifest} (first : SameView b c)
    (second : SameView c d) : SameView b d :=
  ⟨fun level => (second.1 level).trans (first.1 level), second.2.trans first.2⟩

theorem sameView_of_newest {c : ObjectStore Nat Manifest} {m n : Manifest}
    (before : newest b = some m) (after : newest c = some n) (levels : n.levels = m.levels)
    (watermark : n.lastFlushedSequence = m.lastFlushedSequence) : SameView b c := by
  refine ⟨?_, ?_⟩
  · intro level
    simp only [tablesAt, before, after, Option.map_some, Option.getD_some, Manifest.sstablesAtLevel,
      levels]
  · simp only [ManifestBucket.watermark, before, after, Option.map_some, Option.getD_some, watermark]

end ManifestBucket

open ManifestBucket

namespace ManifestState
variable {s s' : ManifestState}

theorem Latest.newest_eq (h : s.Latest) : newest s.bucket = some s.manager.current := by
  rw [newest, h.1]
  exact h.2

theorem Latest.tablesAt_eq (h : s.Latest) (level : Level) :
    tablesAt s.bucket level = s.manager.current.sstablesAtLevel level := by
  rw [tablesAt, h.newest_eq]
  rfl

theorem Latest.watermark_eq (h : s.Latest) :
    watermark s.bucket = s.manager.current.lastFlushedSequence := by
  rw [watermark, h.newest_eq]
  rfl

theorem Latest.put (h : s.Latest) {m : Manifest}
    (next : m.manifestId = s.manager.current.manifestId + 1) (manager : ManifestManager)
    (current : manager.current = m) : Latest ⟨manager, s.bucket.put m.manifestId m⟩ := by
  subst current
  refine ⟨ObjectStore.getLast_keys_eq (by simp) ?_, ObjectStore.get_put_self _ _ _⟩
  intro j present
  rw [ObjectStore.get_put] at present
  split at present
  · rename_i same
    exact same.le
  · have := ObjectStore.le_getLast_keys (ObjectStore.mem_keys.mpr present) h.1
    show j ≤ manager.current.manifestId
    omega

/-- Loading changes nothing that is stored, except that it creates the first manifest. -/
theorem loadLatest_spec {nowMs : Nat} (keyed : Keyed s.bucket) :
    Keyed (s.loadLatest nowMs).2.bucket ∧ SameView s.bucket (s.loadLatest nowMs).2.bucket ∧
      ((s.loadLatest nowMs).1 = .ok () → (s.loadLatest nowMs).2.Latest) := by
  unfold loadLatest
  cases last : s.bucket.keys.getLast? with
  | none =>
    have nothing := ObjectStore.get_of_getLast_none last
    have created : s.bucket.conditionalPut 0 (Manifest.newEmpty s.manager.current.ns nowMs) =
        some (s.bucket.put 0 (Manifest.newEmpty s.manager.current.ns nowMs)) := by
      simp [ObjectStore.conditionalPut, nothing 0]
    simp only [created]
    have latest : Latest ⟨{ s.manager with current := Manifest.newEmpty s.manager.current.ns nowMs },
        s.bucket.put 0 (Manifest.newEmpty s.manager.current.ns nowMs)⟩ := by
      refine ⟨ObjectStore.getLast_keys_eq (by simp [Manifest.newEmpty]) ?_, ObjectStore.get_put_self _ _ _⟩
      intro j present
      rw [ObjectStore.get_put] at present
      split at present
      · rename_i same
        exact same.le
      · rw [nothing j] at present
        cases present
    refine ⟨keyed.put (Manifest.newEmpty s.manager.current.ns nowMs), ?_, fun _ => latest⟩
    have before : newest s.bucket = none := by simp [newest, last]
    refine ⟨?_, ?_⟩
    · intro level
      simp only [tablesAt, before, setCurrent, latest.newest_eq]
      rfl
    · simp only [ManifestBucket.watermark, before, setCurrent, latest.newest_eq]
      rfl
  | some highest =>
    dsimp only
    cases found : s.bucket.get highest with
    | none => exact ⟨keyed, SameView.refl _, by simp⟩
    | some m =>
      dsimp only
      split
      · exact ⟨keyed, SameView.refl _, by simp⟩
      · refine ⟨keyed, SameView.refl _, fun _ => ?_⟩
        have id := keyed highest m found
        subst id
        exact ⟨last, found⟩

theorem loadLatest_ok_iff {nowMs : Nat} : (s.loadLatest nowMs).1 = .ok () ↔ Readable s.bucket := by
  unfold loadLatest Readable newest
  cases last : s.bucket.keys.getLast? with
  | none =>
    have absent := ObjectStore.get_of_getLast_none last 0
    simp [ObjectStore.conditionalPut, absent]
  | some highest =>
    dsimp only
    cases found : s.bucket.get highest with
    | none =>
      have present := ObjectStore.getLast_keys_mem last
      rw [found] at present
      cases present
    | some m =>
      dsimp only
      by_cases supported : m.formatVersion = 1
      · simp [supported, found]
      · simp [supported, found]

theorem loadLatest_readable {nowMs : Nat} (keyed : Keyed s.bucket) (h : Readable s.bucket) :
    Readable (s.loadLatest nowMs).2.bucket := by
  have latest := (@loadLatest_spec s nowMs keyed).2.2 (loadLatest_ok_iff.mpr h)
  intro m newest_eq
  obtain rfl := Option.some.inj (latest.newest_eq.symm.trans newest_eq)
  unfold loadLatest
  cases last : s.bucket.keys.getLast? with
  | none =>
    have absent := ObjectStore.get_of_getLast_none last 0
    simp [ObjectStore.conditionalPut, absent, setCurrent, Manifest.newEmpty]
  | some highest =>
    dsimp only
    split
    · rename_i absent
      have present := ObjectStore.getLast_keys_mem last
      rw [absent] at present
      cases present
    · rename_i m found
      have supported : m.formatVersion = 1 := h m (by simp [newest, last, found])
      simp [supported, setCurrent]

theorem acquireEpoch_spec {kind : EpochKind} {nowMs : Nat} (keyed : Keyed s.bucket) :
    Keyed (s.acquireEpoch kind nowMs).2.bucket ∧
      SameView s.bucket (s.acquireEpoch kind nowMs).2.bucket ∧
      ((s.acquireEpoch kind nowMs).1 = .ok () → (s.acquireEpoch kind nowMs).2.Latest) := by
  have loads := @loadLatest_spec s nowMs keyed
  unfold acquireEpoch
  split
  · rename_i e loaded eq
    rw [eq] at loads
    exact ⟨loads.1, loads.2.1, by simp⟩
  · rename_i loaded eq
    rw [eq] at loads
    obtain ⟨keyed, view, latest⟩ := loads
    have latest := latest rfl
    split
    · exact ⟨keyed, view, by simp⟩
    · rename_i next applied
      have id := ManifestUpdate.apply_manifestId applied
      obtain ⟨removed, removal, -, next_eq⟩ := ManifestUpdate.apply_ok applied
      split
      · rename_i bucket stored
        obtain ⟨-, rfl⟩ := ObjectStore.conditionalPut_some stored
        have fresh : Latest ⟨loaded.manager.acquired next kind,
            loaded.bucket.put next.manifestId next⟩ :=
          latest.put id _ (by cases kind <;> rfl)
        refine ⟨keyed.put next, view.trans ?_, fun _ => fresh⟩
        have kept : removed = loaded.manager.current.levels := by
          cases kind <;> exact (Except.ok.inj removal).symm
        refine sameView_of_newest latest.newest_eq fresh.newest_eq ?_ ?_
        · have current : (loaded.manager.acquired next kind).current = next := by cases kind <;> rfl
          rw [current, next_eq, kept]
          cases kind <;> rfl
        · have current : (loaded.manager.acquired next kind).current = next := by cases kind <;> rfl
          rw [current, next_eq]
          cases kind <;> rfl
      · exact ⟨keyed, view, by simp⟩

/-- An acquisition succeeds on a supported format, and keeps it. -/
theorem acquireEpoch_readable {kind : EpochKind} {nowMs : Nat} (keyed : Keyed s.bucket)
    (h : Readable s.bucket) :
    (s.acquireEpoch kind nowMs).1 = .ok () ∧ Readable (s.acquireEpoch kind nowMs).2.bucket := by
  have loads := @loadLatest_spec s nowMs keyed
  have readable := @loadLatest_readable s nowMs keyed h
  have succeeds := (@loadLatest_ok_iff s nowMs).mpr h
  unfold acquireEpoch
  generalize s.loadLatest nowMs = result at loads readable succeeds
  obtain ⟨r, loaded⟩ := result
  obtain rfl : r = .ok () := succeeds
  have latest : loaded.Latest := loads.2.2 rfl
  have applies : ∃ next, (loaded.manager.epochUpdate kind).apply nowMs loaded.manager.current =
      .ok next := by
    cases kind <;> exact ⟨_, rfl⟩
  obtain ⟨next, applied⟩ := applies
  have id := ManifestUpdate.apply_manifestId applied
  have stored : loaded.bucket.conditionalPut next.manifestId next =
      some (loaded.bucket.put next.manifestId next) := by
    simp [ObjectStore.conditionalPut, id, latest.free]
  simp only [applied, stored, true_and]
  have fresh : Latest ⟨loaded.manager.acquired next kind, loaded.bucket.put next.manifestId next⟩ :=
    latest.put id _ (by cases kind <;> rfl)
  intro m newest_eq
  obtain rfl := Option.some.inj (fresh.newest_eq.symm.trans newest_eq)
  obtain ⟨removed, -, -, next_eq⟩ := ManifestUpdate.apply_ok applied
  have current : (loaded.manager.acquired next kind).current = next := by cases kind <;> rfl
  have kept : loaded.manager.current.formatVersion = 1 := readable _ latest.newest_eq
  show (loaded.manager.acquired next kind).current.formatVersion = 1
  rw [current, next_eq]
  exact kept

/-- What an update that succeeds does to the newest manifest. -/
structure Updated (u : ManifestUpdate) (s s' : ManifestState) : Prop where
  latest : s'.Latest
  keyed : Keyed s'.bucket
  lists : ∀ level, (tablesAt s'.bucket level).Perm
    ((tablesAt s.bucket level).filter (fun t => (level, t.id) ∉ u.removeSSTables) ++
      ManifestUpdate.addedAt u.addSSTables level)
  removed : ∀ entry ∈ u.removeSSTables, ∃ t ∈ tablesAt s.bucket entry.1, t.id = entry.2
  once : u.removeSSTables.Nodup
  watermark : watermark s'.bucket = u.newLastFlushedSequence.getD (watermark s.bucket)
  rises : ManifestBucket.watermark s.bucket ≤ ManifestBucket.watermark s'.bucket

/-- On the newest manifest an update fails and changes nothing, or succeeds. -/
theorem Latest.update (h : s.Latest) (keyed : Keyed s.bucket)
    (distinct : ∀ level, ((tablesAt s.bucket level).map SSTableMeta.id).Nodup)
    (len : Manifest → Nat) (u : ManifestUpdate) (nowMs : Nat) :
    (∃ e, s.update len u nowMs = (.error e, s)) ∨ ∃ s', s.update len u nowMs = (.ok (), s') ∧
      Updated u s s' := by
  rcases update_cases len u nowMs h.free with failed | ⟨next, written, applied, same, stored⟩
  · exact Or.inl failed
  refine Or.inr ⟨_, stored, ?_⟩
  obtain ⟨removed, removal, rises, next_eq⟩ := ManifestUpdate.apply_ok applied
  have number : written.manifestId = s.manager.current.manifestId + 1 := by
    rcases same with rfl | rfl <;> rw [next_eq]
  have levels : written.levels = next.levels := by
    rcases same with rfl | rfl <;> rfl
  have mark : written.lastFlushedSequence = u.newLastFlushedSequence.getD
      s.manager.current.lastFlushedSequence := by
    rcases same with rfl | rfl <;> rw [next_eq]
  have latest : Latest ⟨{ s.manager with current := written },
      s.bucket.put written.manifestId written⟩ :=
    h.put number _ rfl
  have marks : watermark (s.bucket.put written.manifestId written) =
      u.newLastFlushedSequence.getD (watermark s.bucket) := by
    rw [latest.watermark_eq, h.watermark_eq]
    exact mark
  have current : ∀ level, ((s.manager.current.levels level).map SSTableMeta.id).Nodup := by
    intro level
    have each := distinct level
    rw [h.tablesAt_eq] at each
    exact each
  refine ⟨latest, keyed.put written, ?_, ?_, ManifestUpdate.removeAll_nodup current removal, marks, ?_⟩
  · intro level
    rw [latest.tablesAt_eq, h.tablesAt_eq]
    show (written.levels level).Perm _
    rw [levels]
    exact (ManifestUpdate.apply_levels applied current level).1
  · intro entry member
    rw [h.tablesAt_eq]
    exact ManifestUpdate.removeAll_listed removal entry member
  · rw [marks]
    cases given : u.newLastFlushedSequence with
    | none => exact le_refl _
    | some seq =>
      rw [h.watermark_eq]
      exact rises seq given

theorem Latest.updated (h : s.Latest) (keyed : Keyed s.bucket)
    (distinct : ∀ level, ((tablesAt s.bucket level).map SSTableMeta.id).Nodup)
    {len : Manifest → Nat} {u : ManifestUpdate} {nowMs : Nat} {s' : ManifestState}
    (stored : s.update len u nowMs = (.ok (), s')) : Updated u s s' := by
  rcases h.update keyed distinct len u nowMs with ⟨e, failed⟩ | ⟨t, succeeds, updated⟩
  · cases (Prod.mk.inj (failed.symm.trans stored)).1
  · obtain rfl := (Prod.mk.inj (succeeds.symm.trans stored)).2
    exact updated

theorem Latest.refused (h : s.Latest) {len : Manifest → Nat} {u : ManifestUpdate} {nowMs : Nat}
    {e : FlushError} {s' : ManifestState} (failed : s.update len u nowMs = (.error e, s')) :
    s' = s := by
  rcases update_cases len u nowMs h.free with ⟨e', same⟩ | ⟨next, written, -, -, stored⟩
  · exact (Prod.mk.inj (failed.symm.trans same)).2
  · cases (Prod.mk.inj (failed.symm.trans stored)).1

end ManifestState

end FlushDB
