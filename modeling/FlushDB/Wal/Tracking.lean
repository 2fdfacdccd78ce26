import FlushDB.Wal.Attribution

/-!
Which segments of a session are still to be removed. The tracker starts empty, so the segments of
earlier sessions wait for no generation and are never removed; a segment that the session leaves
behind waits for the present generation, and the flush of the generation removes it.
-/

namespace FlushDB
open Lib

namespace DirtySegmentTracker
variable {t : DirtySegmentTracker} {generation k : Nat}

/-- The converse of `newly_clean`. -/
theorem mem_newly_clean (named : generation ∈ t.dirtyGenerationIds k)
    (last : ∀ g ∈ t.dirtyGenerationIds k, g = generation) :
    k ∈ (t.markGenerationFlushed generation).1 := by
  unfold dirtyGenerationIds at named last
  cases found : t.dirtyMaps.get k with
  | none =>
    rw [found] at named
    cases named
  | some generations =>
    rw [found] at named last
    refine List.mem_filter.mpr ⟨ObjectStore.mem_keys_of_get found, ?_⟩
    simp only [found, Option.any_some, Bool.and_eq_true, List.contains_iff_mem, List.isEmpty_iff]
    refine ⟨named, List.filter_eq_nil_iff.mpr ?_⟩
    intro g member
    simpa using last g member

theorem isSegmentClean_iff : t.isSegmentClean k = true ↔ t.dirtyGenerationIds k = [] := by
  unfold isSegmentClean dirtyGenerationIds
  cases t.dirtyMaps.get k with
  | none => simp
  | some generations => simp

end DirtySegmentTracker

namespace WalManager
variable {first generation : Nat} {found : WalDir} {m m' : WalManager} {dir dir' : WalDir}

/-- The session's segments begin with `first`; `found` is the directory that it opened. -/
structure Tracks (first : Nat) (found : WalDir) (generation : Nat) (m : WalManager) (dir : WalDir) :
    Prop where
  reached : first ≤ m.writer.currentSegment
  earlier : ∀ k, k < first → dir.get k = found.get k ∧ m.dirtyTracker.dirtyGenerationIds k = []
  left : ∀ k, first ≤ k → k ≠ m.writer.currentSegment → (dir.get k).isSome →
    generation ∈ m.dirtyTracker.dirtyGenerationIds k
  only : ∀ k, ∀ g ∈ m.dirtyTracker.dirtyGenerationIds k, g = generation

theorem tracks_fresh {config : WalConfig} (tracker : m.dirtyTracker = {})
    (opens : WalWriter.openDir found config = .ok (m.writer, dir)) (opened : m.writer.Open dir) :
    Tracks m.writer.currentSegment found generation m dir := by
  obtain ⟨-, start, made⟩ := WalWriter.openDir_created opens
  have none_dirty : ∀ k, m.dirtyTracker.dirtyGenerationIds k = [] := by
    intro k
    rw [tracker]
    rfl
  refine ⟨le_refl _, ?_, ?_, ?_⟩
  · intro k below
    refine ⟨?_, none_dirty k⟩
    rw [made, ObjectStore.get_put_ne _ _ below.ne]
  · intro k above other present
    have newest := opened.newest k present
    omega
  · intro k g member
    rw [none_dirty k] at member
    cases member

/-- An append touches the current segment, and the next one when it rotates. -/
theorem append_files {entries : List WalEntry} {late : Bool} (opened : m.writer.Open dir)
    (h : m.append dir entries generation late = .ok (m', dir')) :
    (m'.writer.currentSegment = m.writer.currentSegment ∨
      m'.writer.currentSegment = m.writer.currentSegment + 1) ∧
      (∀ k, k < m.writer.currentSegment → dir'.get k = dir.get k) ∧
      ∀ k, (dir'.get k).isSome → (dir.get k).isSome ∨ k = m'.writer.currentSegment := by
  obtain ⟨current, there, -⟩ := opened.current
  have written : ∀ new k, k ≠ m.writer.currentSegment →
      (WalWriter.writeEntries dir m.writer.currentSegment new).get k = dir.get k := by
    intro new k other
    simp only [WalWriter.writeEntries, there]
    exact ObjectStore.get_put_ne _ _ other
  have present : ∀ new k, ((WalWriter.writeEntries dir m.writer.currentSegment new).get k).isSome →
      (dir.get k).isSome := by
    intro new k inside
    by_cases same : k = m.writer.currentSegment
    · rw [same, there]
      rfl
    · rwa [written new k same] at inside
  rcases WalWriter.appendBatch_cases (append_ok h).1 with ⟨stays, rfl⟩ | ⟨next, start, rfl⟩
  · exact ⟨Or.inl stays, fun k below => written _ k below.ne,
      fun k inside => Or.inl (present _ k inside)⟩
  · refine ⟨Or.inr next, ?_, ?_⟩
    · intro k below
      rw [ObjectStore.get_put_ne _ _ (show k ≠ m.writer.currentSegment + 1 by omega)]
      exact written _ k below.ne
    · intro k inside
      by_cases same : k = m.writer.currentSegment + 1
      · exact Or.inr (same.trans next.symm)
      · rw [ObjectStore.get_put_ne _ _ same] at inside
        exact Or.inl (present _ k inside)

/-- The number that an append is recorded under is the one before the rotation when it is read in
time. -/
theorem append_recorded {entries : List WalEntry} {late : Bool}
    (h : m.append dir entries generation late = .ok (m', dir')) :
    ∃ number, m.writer.currentSegment ≤ number ∧ (late = false → number = m.writer.currentSegment) ∧
      m'.dirtyTracker = m.dirtyTracker.recordWrite number generation := by
  refine ⟨_, ?_, ?_, (append_ok h).2⟩
  · cases late with
    | true => exact append_current h
    | false => exact le_refl _
  · rintro rfl
    rfl

/-- An append that reads the number in time, or finds the segment recorded already. -/
theorem Tracks.append {entries : List WalEntry} {late : Bool}
    (h : Tracks first found generation m dir) (opened : m.writer.Open dir)
    (appended : m.append dir entries generation late = .ok (m', dir'))
    (timely : late = true → generation ∈ m.dirtyTracker.dirtyGenerationIds m.writer.currentSegment) :
    Tracks first found generation m' dir' := by
  obtain ⟨moves, below, present⟩ := append_files opened appended
  obtain ⟨number, after, early, tracker⟩ := append_recorded appended
  have ids : ∀ k, m'.dirtyTracker.dirtyGenerationIds k =
      if k = number then (m.dirtyTracker.dirtyGenerationIds k).insert generation
      else m.dirtyTracker.dirtyGenerationIds k := by
    intro k
    rw [tracker]
    exact DirtySegmentTracker.dirtyGenerationIds_recordWrite _ _ _ _
  have more : ∀ k, ∀ g ∈ m.dirtyTracker.dirtyGenerationIds k,
      g ∈ m'.dirtyTracker.dirtyGenerationIds k := by
    intro k g member
    rw [ids k]
    split
    · exact List.mem_insert_of_mem member
    · exact member
  have recorded : generation ∈ m'.dirtyTracker.dirtyGenerationIds m.writer.currentSegment := by
    cases late with
    | true => exact more _ _ (timely rfl)
    | false =>
      rw [ids, if_pos (early rfl).symm]
      exact List.mem_insert_self
  have reached := h.reached
  refine ⟨by omega, ?_, ?_, ?_⟩
  · intro k earlier
    obtain ⟨same, clean⟩ := h.earlier k earlier
    refine ⟨(below k (by omega)).trans same, ?_⟩
    rw [ids, if_neg (by omega), clean]
  · intro k above other inside
    by_cases same : k = m.writer.currentSegment
    · exact same ▸ recorded
    · rcases present k inside with old | new
      · exact more k _ (h.left k above same old)
      · exact absurd new other
  · intro k g member
    rw [ids k] at member
    split at member
    · rcases List.mem_insert_iff.mp member with rfl | old
      · rfl
      · exact h.only k g old
    · exact h.only k g member

/-- Where every removal succeeds, all clean segments of the list but the current one go. -/
theorem cleanupSegments_all {numbers : List Nat} {r : FlushResult Unit}
    (h : cleanupSegments none numbers m dir = (r, m', dir')) {k : Nat} (listed : k ∈ numbers)
    (other : k ≠ m.writer.currentSegment) (clean : m.dirtyTracker.dirtyGenerationIds k = []) :
    dir'.get k = none := by
  induction numbers generalizing m dir with
  | nil => cases listed
  | cons number rest ih =>
    -- what the rest of the list leaves of a file that is gone
    have gone : ∀ {m₁ dir₁}, cleanupSegments none rest m₁ dir₁ = (r, m', dir') → dir₁.get k = none →
        dir'.get k = none := by
      intro m₁ dir₁ cleaned absent
      rcases (cleanupSegments_removes cleaned).2 k with ⟨same, -⟩ | ⟨-, removed, -⟩
      · rw [same, absent]
      · exact removed
    unfold cleanupSegments at h
    split at h
    · rename_i kept
      rcases List.mem_cons.mp listed with rfl | later
      · rcases kept with same | dirty
        · exact absurd same other
        · exact absurd (DirtySegmentTracker.isSegmentClean_iff.mpr clean) dirty
      · exact ih h later other clean
    · rw [if_neg (by simp)] at h
      by_cases same : k = number
      · subst same
        exact gone h (ObjectStore.get_delete_self _ _)
      · have later := (List.mem_cons.mp listed).resolve_left same
        refine @ih { m with dirtyTracker := m.dirtyTracker.removeSegment number }
          (dir.delete number) h later other ?_
        show (m.dirtyTracker.removeSegment number).dirtyGenerationIds k = []
        rw [DirtySegmentTracker.dirtyGenerationIds_removeSegment, if_neg same]
        exact clean

/-- The flush of the generation removes every segment that the session has left behind. -/
theorem Tracks.flushed {r : FlushResult Unit} (h : Tracks first found generation m dir)
    (cleaned : cleanupSegments none (m.markGenerationFlushed generation).1
      (m.markGenerationFlushed generation).2 dir = (r, m', dir')) :
    Tracks first found (generation + 1) m' dir' ∧
      ∀ k, m'.dirtyTracker.dirtyGenerationIds k = [] := by
  obtain ⟨writer, each⟩ := cleanupSegments_removes cleaned
  have same_writer : m'.writer = m.writer := writer
  have marked : ∀ k, (m.markGenerationFlushed generation).2.dirtyTracker.dirtyGenerationIds k = [] := by
    intro k
    rw [show (m.markGenerationFlushed generation).2.dirtyTracker =
      (m.dirtyTracker.markGenerationFlushed generation).2 from rfl,
      DirtySegmentTracker.dirtyGenerationIds_markGenerationFlushed, List.filter_eq_nil_iff]
    intro g member
    simpa using h.only k g member
  have clean : ∀ k, m'.dirtyTracker.dirtyGenerationIds k = [] := by
    intro k
    rcases each k with ⟨-, ids⟩ | ⟨-, -, ids⟩
    · rw [ids, marked]
    · exact ids
  refine ⟨⟨same_writer ▸ h.reached, ?_, ?_, ?_⟩, clean⟩
  · intro k earlier
    obtain ⟨same, waits⟩ := h.earlier k earlier
    refine ⟨?_, clean k⟩
    rcases each k with ⟨kept, -⟩ | ⟨listed, -, -⟩
    · exact kept.trans same
    · have named := (DirtySegmentTracker.newly_clean listed).1
      rw [waits] at named
      cases named
  · intro k above other inside
    rw [same_writer] at other
    exfalso
    rcases each k with ⟨kept, -⟩ | ⟨-, gone, -⟩
    · rw [kept] at inside
      have listed := DirtySegmentTracker.mem_newly_clean (h.left k above other inside) (h.only k)
      have gone := cleanupSegments_all cleaned listed other (marked k)
      rw [← kept, gone] at inside
      cases inside
    · rw [gone] at inside
      cases inside
  · intro k g member
    rw [clean k] at member
    cases member

end WalManager

end FlushDB
