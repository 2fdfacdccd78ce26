import FlushDB.Wal.Manager
import FlushDB.Wal.Order

/-!
Which generations a segment waits for. Every entry of a segment that may still be removed is
done with, or waits for an earlier generation that is never flushed, or for the present one.
What "done with" and "waiting" mean is left to the user of the log.
-/

namespace FlushDB
open Lib

namespace DirtySegmentTracker
variable (t : DirtySegmentTracker) (segment generation k : Nat)

def dirtyGenerationIds : List Nat := (t.dirtyMaps.get segment).getD []

theorem dirtyGenerationIds_recordWrite :
    (t.recordWrite segment generation).dirtyGenerationIds k =
      if k = segment then (t.dirtyGenerationIds k).insert generation
        else t.dirtyGenerationIds k := by
  unfold dirtyGenerationIds recordWrite
  rw [ObjectStore.get_put]
  by_cases same : k = segment
  · subst same
    simp
  · simp [same]

theorem dirtyGenerationIds_removeSegment :
    (t.removeSegment segment).dirtyGenerationIds k = if k = segment then []
      else t.dirtyGenerationIds k := by
  unfold dirtyGenerationIds removeSegment
  rw [ObjectStore.get_delete]
  by_cases same : k = segment
  · simp [same]
  · simp [same]

theorem dirtyGenerationIds_markGenerationFlushed :
    (t.markGenerationFlushed generation).2.dirtyGenerationIds k =
      (t.dirtyGenerationIds k).filter (· ≠ generation) := by
  unfold dirtyGenerationIds markGenerationFlushed
  dsimp only
  rw [ObjectStore.get_mapValues]
  cases t.dirtyMaps.get k with
  | none => rfl
  | some generations => rfl

/-- A segment becomes clean when the generation was the last it waited for. -/
theorem newly_clean {t : DirtySegmentTracker} {generation k : Nat}
    (h : k ∈ (t.markGenerationFlushed generation).1) :
    generation ∈ t.dirtyGenerationIds k ∧ ∀ g ∈ t.dirtyGenerationIds k, g = generation := by
  obtain ⟨-, clean⟩ := List.mem_filter.mp h
  unfold dirtyGenerationIds
  cases found : t.dirtyMaps.get k with
  | none => simp [found] at clean
  | some generations =>
    simp only [found, Option.any_some, Bool.and_eq_true, List.contains_iff_mem,
      List.isEmpty_iff] at clean
    obtain ⟨last, others⟩ := clean
    refine ⟨last, ?_⟩
    intro g member
    by_contra other
    have left : g ∈ generations.filter (· ≠ generation) :=
      List.mem_filter.mpr ⟨member, by simpa using other⟩
    rw [others] at left
    cases left

end DirtySegmentTracker

namespace WalManager
variable {done done' waits waits' : WalEntry → Prop} {generation : Nat} {m m' : WalManager}
  {dir dir' : WalDir}

/-- The generations that a segment waits for account for its entries. -/
structure Accounts (done waits : WalEntry → Prop) (generation : Nat) (m : WalManager)
    (dir : WalDir) : Prop where
  known : ∀ k, ∀ g ∈ m.dirtyTracker.dirtyGenerationIds k, g ≤ generation
  entries : ∀ k segment, dir.get k = some segment →
    (k = m.writer.currentSegment ∨ m.dirtyTracker.dirtyGenerationIds k ≠ []) →
      ∀ e ∈ segment.entries,
      done e ∨ (∃ g ∈ m.dirtyTracker.dirtyGenerationIds k, g < generation) ∨
        (waits e ∧ generation ∈ m.dirtyTracker.dirtyGenerationIds k)

theorem Accounts.mono (h : Accounts done waits generation m dir) (finish : ∀ e, done e → done' e)
    (waiting : ∀ e, waits e → done' e ∨ waits' e) : Accounts done' waits' generation m dir := by
  refine ⟨h.known, ?_⟩
  intro k segment found tracked e member
  rcases h.entries k segment found tracked e member with finished | earlier | ⟨pending, named⟩
  · exact Or.inl (finish e finished)
  · exact Or.inr (Or.inl earlier)
  · exact (waiting e pending).imp id fun still => Or.inr ⟨still, named⟩

theorem accounts_fresh (tracker : m.dirtyTracker = {})
    (fresh : ∀ segment, dir.get m.writer.currentSegment = some segment → segment.entries = []) :
    Accounts done waits generation m dir := by
  have none_dirty : ∀ k, m.dirtyTracker.dirtyGenerationIds k = [] := by
    intro k
    rw [tracker]
    rfl
  refine ⟨?_, ?_⟩
  · intro k g member
    rw [none_dirty k] at member
    cases member
  · intro k segment found tracked e member
    rcases tracked with rfl | dirty
    · rw [fresh segment found] at member
      cases member
    · exact absurd (none_dirty k) dirty

/-- An append writes its batch and records it for a segment. -/
theorem append_ok {entries : List WalEntry} {late : Bool}
    (h : m.append dir entries generation late = .ok (m', dir')) :
    m.writer.appendBatch dir entries = .ok (m'.writer, dir') ∧
      m'.dirtyTracker = m.dirtyTracker.recordWrite
        (if late then m'.writer.currentSegment else m.writer.currentSegment) generation := by
  unfold append at h
  split at h
  · cases h
  rename_i writer made appended
  obtain ⟨rfl, rfl⟩ := Prod.mk.inj (Except.ok.inj h)
  exact ⟨appended, rfl⟩

/-- What an append does to the segments: the entries go to the current one, and a rotation adds an
empty one. -/
theorem append_segments {entries : List WalEntry} {late : Bool} (opened : m.writer.Open dir)
    (h : m.append dir entries generation late = .ok (m', dir')) {k : Nat} {segment : Segment}
    (found : dir'.get k = some segment) :
    (k = m.writer.currentSegment ∧ ∃ old, dir.get k = some old ∧
      segment.entries = old.entries ++ WalWriter.assign m.writer.nextSequenceNumber entries) ∨
    (k ≠ m.writer.currentSegment ∧ dir.get k = some segment) ∨ segment.entries = [] := by
  obtain ⟨current, there, -⟩ := opened.current
  have written : ∀ {k segment}, (WalWriter.writeEntries dir m.writer.currentSegment
      (WalWriter.assign m.writer.nextSequenceNumber entries)).get k = some segment →
      (k = m.writer.currentSegment ∧ ∃ old, dir.get k = some old ∧
        segment.entries = old.entries ++ WalWriter.assign m.writer.nextSequenceNumber entries) ∨
      (k ≠ m.writer.currentSegment ∧ dir.get k = some segment) := by
    intro k segment found
    simp only [WalWriter.writeEntries, there] at found
    rw [ObjectStore.get_put] at found
    by_cases same : k = m.writer.currentSegment
    · subst same
      rw [if_pos rfl] at found
      obtain rfl := Option.some.inj found
      exact Or.inl ⟨rfl, current, there, rfl⟩
    · rw [if_neg same] at found
      exact Or.inr ⟨same, found⟩
  rcases WalWriter.appendBatch_cases (append_ok h).1 with ⟨-, rfl⟩ | ⟨-, start, rfl⟩
  · exact (written found).imp id Or.inl
  · rw [ObjectStore.get_put] at found
    split at found
    · obtain rfl := Option.some.inj found
      exact Or.inr (Or.inr rfl)
    · exact (written found).imp id Or.inl

theorem append_tracker {entries : List WalEntry} {late : Bool}
    (h : m.append dir entries generation late = .ok (m', dir')) :
    ∃ number, (number = m.writer.currentSegment ∨ number = m'.writer.currentSegment) ∧
      m'.dirtyTracker = m.dirtyTracker.recordWrite number generation := by
  refine ⟨_, ?_, (append_ok h).2⟩
  cases late with
  | true => exact Or.inr rfl
  | false => exact Or.inl rfl

theorem append_current {entries : List WalEntry} {late : Bool}
    (h : m.append dir entries generation late = .ok (m', dir')) :
    m.writer.currentSegment ≤ m'.writer.currentSegment := by
  rcases WalWriter.appendBatch_cases (append_ok h).1 with ⟨same, -⟩ | ⟨next, -⟩
  · exact same.ge
  · rw [next]
    exact Nat.le_succ _

/-- An append whose entries wait for the present generation. The segment that they are recorded
for may be the next one: then the one they are in waits for the generation anyway, or is never
removed. -/
theorem Accounts.append {entries : List WalEntry} {late : Bool}
    (account : Accounts done waits generation m dir) (opened : m.writer.Open dir)
    (h : m.append dir entries generation late = .ok (m', dir'))
    (waiting : ∀ e ∈ WalWriter.assign m.writer.nextSequenceNumber entries, waits e) :
    Accounts done waits generation m' dir' := by
  obtain ⟨number, place, tracker⟩ := append_tracker h
  have ids : ∀ k, m'.dirtyTracker.dirtyGenerationIds k =
      if k = number then (m.dirtyTracker.dirtyGenerationIds k).insert generation else
        m.dirtyTracker.dirtyGenerationIds k := by
    intro k
    rw [tracker]
    exact DirtySegmentTracker.dirtyGenerationIds_recordWrite _ _ _ _
  have more : ∀ k, ∀ g ∈ m.dirtyTracker.dirtyGenerationIds k,
      g ∈ m'.dirtyTracker.dirtyGenerationIds k := by
    intro k g member
    rw [ids k]
    split
    · exact List.mem_insert_of_mem member
    · exact member
  have known : ∀ k, ∀ g ∈ m'.dirtyTracker.dirtyGenerationIds k, g ≤ generation := by
    intro k g member
    rw [ids k] at member
    split at member
    · rcases List.mem_insert_iff.mp member with rfl | old
      · exact le_refl _
      · exact account.known k g old
    · exact account.known k g member
  refine ⟨known, ?_⟩
  intro k segment found tracked e member
  have kept : done e ∨ (∃ g ∈ m.dirtyTracker.dirtyGenerationIds k, g < generation) ∨
      (waits e ∧ generation ∈ m.dirtyTracker.dirtyGenerationIds k) →
      done e ∨ (∃ g ∈ m'.dirtyTracker.dirtyGenerationIds k, g < generation) ∨
        (waits e ∧ generation ∈ m'.dirtyTracker.dirtyGenerationIds k) := by
    rintro (finished | ⟨g, earlier, less⟩ | ⟨pending, named⟩)
    · exact Or.inl finished
    · exact Or.inr (Or.inl ⟨g, more k g earlier, less⟩)
    · exact Or.inr (Or.inr ⟨pending, more k _ named⟩)
  rcases append_segments opened h found with ⟨rfl, old, before, split_entries⟩ | ⟨other, before⟩ | empty
  · rw [split_entries] at member
    rcases List.mem_append.mp member with earlier | new
    · exact kept (account.entries _ old before (Or.inl rfl) e earlier)
    · -- some generation is recorded for the segment: an earlier one, or the present one
      have pending := waiting e new
      obtain ⟨g, recorded⟩ : ∃ g, g ∈ m'.dirtyTracker.dirtyGenerationIds m.writer.currentSegment := by
        rcases place with same | same
        · refine ⟨generation, ?_⟩
          rw [ids, if_pos same.symm]
          exact List.mem_insert_self
        · rcases tracked with present | dirty
          · refine ⟨generation, ?_⟩
            rw [ids, if_pos (present.trans same.symm)]
            exact List.mem_insert_self
          · exact List.exists_mem_of_ne_nil _ dirty
      rcases Nat.lt_or_ge g generation with less | least
      · exact Or.inr (Or.inl ⟨g, recorded, less⟩)
      · have same : g = generation := le_antisymm (known _ g recorded) least
        exact Or.inr (Or.inr ⟨pending, same ▸ recorded⟩)
  · by_cases recorded : m.dirtyTracker.dirtyGenerationIds k = []
    · -- an older segment that waits for nothing is recorded by no append
      exfalso
      have present : k ≤ m.writer.currentSegment :=
        opened.newest k (Option.isSome_of_eq_some before)
      have later : m.writer.currentSegment ≤ m'.writer.currentSegment := append_current h
      have unrecorded : k ≠ number := by
        rcases place with same | same <;> omega
      rcases tracked with same | dirty
      · omega
      · rw [ids, if_neg unrecorded] at dirty
        exact dirty recorded
    · exact kept (account.entries k segment before (Or.inr recorded) e member)
  · rw [empty] at member
    cases member

/-- The generation can no longer be flushed: it has been dropped. -/
theorem Accounts.dropped (account : Accounts done waits generation m dir) :
    Accounts done waits' (generation + 1) m dir := by
  refine ⟨fun k g member => Nat.le_succ_of_le (account.known k g member), ?_⟩
  intro k segment found tracked e member
  rcases account.entries k segment found tracked e
    member with finished | ⟨g, earlier, less⟩ | ⟨-, named⟩
  · exact Or.inl finished
  · exact Or.inr (Or.inl ⟨g, earlier, by omega⟩)
  · exact Or.inr (Or.inl ⟨generation, named, by omega⟩)

/-- Cleaning removes segments of the list and forgets only what it removes. -/
theorem cleanupSegments_removes {failing : Option Nat} {numbers : List Nat} {r : FlushResult Unit}
    (h : cleanupSegments failing numbers m dir = (r, m', dir')) :
    m'.writer = m.writer ∧
      ∀ k, (dir'.get k = dir.get k ∧ m'.dirtyTracker.dirtyGenerationIds k =
        m.dirtyTracker.dirtyGenerationIds k) ∨
        (k ∈ numbers ∧ dir'.get k = none ∧ m'.dirtyTracker.dirtyGenerationIds k = []) := by
  induction numbers generalizing m dir with
  | nil =>
    obtain ⟨-, same⟩ := Prod.mk.inj h
    obtain ⟨rfl, rfl⟩ := Prod.mk.inj same
    exact ⟨rfl, fun k => Or.inl ⟨rfl, rfl⟩⟩
  | cons number rest ih =>
    unfold cleanupSegments at h
    split at h
    · obtain ⟨writer, each⟩ := ih h
      refine ⟨writer, fun k => (each k).imp id ?_⟩
      rintro ⟨listed, gone⟩
      exact ⟨List.mem_cons_of_mem _ listed, gone⟩
    split at h
    · obtain ⟨-, same⟩ := Prod.mk.inj h
      obtain ⟨rfl, rfl⟩ := Prod.mk.inj same
      exact ⟨rfl, fun k => Or.inl ⟨rfl, rfl⟩⟩
    · obtain ⟨writer, each⟩ := ih h
      refine ⟨writer, ?_⟩
      intro k
      rcases each k with ⟨there, ids⟩ | ⟨listed, gone⟩
      · rw [DirtySegmentTracker.dirtyGenerationIds_removeSegment] at ids
        rw [ObjectStore.get_delete] at there
        by_cases same : k = number
        · rw [if_pos same] at there ids
          exact Or.inr ⟨same ▸ List.mem_cons_self, there, ids⟩
        · rw [if_neg same] at there ids
          exact Or.inl ⟨there, ids⟩
      · exact Or.inr ⟨List.mem_cons_of_mem _ listed, gone⟩

/-- Once the generation has been flushed, the segments that waited for nothing else go, and all
their entries are done with. -/
theorem Accounts.flushed (account : Accounts done waits generation m dir)
    (finish : ∀ e, done e ∨ waits e → done' e) {failing : Option Nat} {r : FlushResult Unit}
    (h : cleanupSegments failing (m.markGenerationFlushed generation).1
      (m.markGenerationFlushed generation).2 dir = (r, m', dir')) :
    Accounts done' waits' (generation + 1) m' dir' ∧
      ∀ k segment, dir.get k = some segment → dir'.get k = none →
        ∀ e ∈ segment.entries, done' e := by
  obtain ⟨writer, each⟩ := cleanupSegments_removes h
  have marked : ∀ k, (m.markGenerationFlushed generation).2.dirtyTracker.dirtyGenerationIds k =
      (m.dirtyTracker.dirtyGenerationIds k).filter (· ≠ generation) :=
    m.dirtyTracker.dirtyGenerationIds_markGenerationFlushed generation
  have fewer : ∀ k, ∀ g ∈ m'.dirtyTracker.dirtyGenerationIds k,
      g ∈ m.dirtyTracker.dirtyGenerationIds k := by
    intro k g member
    rcases each k with ⟨-, ids⟩ | ⟨-, -, ids⟩
    · rw [ids, marked] at member
      exact List.mem_of_mem_filter member
    · rw [ids] at member
      cases member
  refine ⟨⟨fun k g member => Nat.le_succ_of_le (account.known k g (fewer k g member)), ?_⟩, ?_⟩
  · intro k segment found tracked e member
    rcases each k with ⟨there, ids⟩ | ⟨-, gone, -⟩
    · rw [there] at found
      have tracked_before : k = m.writer.currentSegment ∨
          m.dirtyTracker.dirtyGenerationIds k ≠ [] := by
        rcases tracked with same | dirty
        · exact Or.inl (same.trans (congrArg WalWriter.currentSegment writer))
        · obtain ⟨g, left⟩ := List.exists_mem_of_ne_nil _ dirty
          exact Or.inr (List.ne_nil_of_mem (fewer k g left))
      rcases account.entries k segment found tracked_before e
        member with finished | ⟨g, earlier, less⟩ | ⟨pending, -⟩
      · exact Or.inl (finish e (Or.inl finished))
      · refine Or.inr (Or.inl ⟨g, ?_, by omega⟩)
        rw [ids, marked]
        exact List.mem_filter.mpr ⟨earlier, by simpa using less.ne⟩
      · exact Or.inl (finish e (Or.inr pending))
    · rw [gone] at found
      cases found
  · intro k segment found gone e member
    rcases each k with ⟨there, -⟩ | ⟨listed, -, -⟩
    · rw [there, found] at gone
      cases gone
    · obtain ⟨named, only⟩ := DirtySegmentTracker.newly_clean listed
      rcases account.entries k segment found (Or.inr (List.ne_nil_of_mem named)) e member with
        finished | ⟨g, earlier, less⟩ | ⟨pending, -⟩
      · exact finish e (Or.inl finished)
      · exact absurd (only g earlier) less.ne
      · exact finish e (Or.inr pending)

end WalManager

end FlushDB
