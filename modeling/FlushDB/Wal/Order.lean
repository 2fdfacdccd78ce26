import FlushDB.Wal.Log

/-!
The order of the log. Whatever is written, rotated, deleted and opened again, the entries of
a directory ascend through its segments, and a segment begins above all that came before it;
so skipping segments by their first number loses nothing.
-/

namespace FlushDB
open Lib

namespace WalDir

/-- The directory holds the entry in one of its segments. -/
def Holds (dir : WalDir) (e : WalEntry) : Prop :=
  ∃ n segment, dir.get n = some segment ∧ e ∈ segment.entries

/-- Entries ascend within a segment and from one segment to the next. -/
structure Ordered (dir : WalDir) : Prop where
  starts : ∀ n segment, dir.get n = some segment →
    ∀ e ∈ segment.entries, segment.startingSequence ≤ e.sequenceNumber
  ascends : ∀ n segment, dir.get n = some segment →
    (segment.entries.map WalEntry.sequenceNumber).Pairwise (· < ·)
  follows : ∀ i j first second, dir.get i = some first → dir.get j = some second → i < j →
    ∀ e ∈ first.entries, e.sequenceNumber < second.startingSequence

theorem ordered_empty : Ordered (ObjectStore.empty : WalDir) := by
  constructor
  · intro n segment found
    cases found
  · intro n segment found
    cases found
  · intro i j first second found
    cases found

theorem Ordered.create {dir : WalDir} (h : Ordered dir) {n start : Nat}
    (above : ∀ e, Holds dir e → e.sequenceNumber < start) :
    Ordered (dir.put n { startingSequence := start, entries := [] }) := by
  constructor
  · exact ObjectStore.forall_put h.starts fun e member => absurd member List.not_mem_nil
  · exact ObjectStore.forall_put h.ascends List.Pairwise.nil
  · intro i j first second at_i at_j order e member
    rw [ObjectStore.get_put] at at_i at_j
    split at at_i
    · obtain rfl := Option.some.inj at_i
      cases member
    · split at at_j
      · obtain rfl := Option.some.inj at_j
        exact above e ⟨i, first, at_i, member⟩
      · exact h.follows i j first second at_i at_j order e member

theorem Ordered.delete {dir : WalDir} (h : Ordered dir) (n : Nat) : Ordered (dir.delete n) := by
  exact ⟨fun k segment found => h.starts k segment (ObjectStore.get_of_delete found),
    fun k segment found => h.ascends k segment (ObjectStore.get_of_delete found),
    fun i j first second at_i at_j =>
      h.follows i j first second (ObjectStore.get_of_delete at_i) (ObjectStore.get_of_delete at_j)⟩

theorem holds_delete {dir : WalDir} {n : Nat} {e : WalEntry} (h : Holds (dir.delete n) e) :
    Holds dir e := by
  obtain ⟨k, segment, found, member⟩ := h
  exact ⟨k, segment, ObjectStore.get_of_delete found, member⟩

theorem Ordered.cut {dir : WalDir} (h : Ordered dir) {n : Nat} {segment : Segment}
    (found : dir.get n = some segment) {kept : List WalEntry} (sub : kept.Sublist segment.entries) :
    Ordered (dir.put n { segment with entries := kept }) := by
  constructor
  · intro k other at_k e member
    rw [ObjectStore.get_put] at at_k
    split at at_k
    · obtain rfl := Option.some.inj at_k
      exact h.starts n segment found e (sub.subset member)
    · exact h.starts k other at_k e member
  · intro k other at_k
    rw [ObjectStore.get_put] at at_k
    split at at_k
    · obtain rfl := Option.some.inj at_k
      exact (h.ascends n segment found).sublist (sub.map _)
    · exact h.ascends k other at_k
  · intro i j first second at_i at_j order e member
    have before : ∃ held, dir.get i = some held ∧ e ∈ held.entries := by
      rw [ObjectStore.get_put] at at_i
      split at at_i
      · rename_i same
        obtain rfl := Option.some.inj at_i
        exact ⟨segment, same ▸ found, sub.subset member⟩
      · exact ⟨first, at_i, member⟩
    have after : ∃ held, dir.get j = some held ∧
        held.startingSequence = second.startingSequence := by
      rw [ObjectStore.get_put] at at_j
      split at at_j
      · rename_i same
        obtain rfl := Option.some.inj at_j
        exact ⟨segment, same ▸ found, rfl⟩
      · exact ⟨second, at_j, rfl⟩
    obtain ⟨held, at_i, inside⟩ := before
    obtain ⟨held', at_j, starts⟩ := after
    rw [← starts]
    exact h.follows i j held held' at_i at_j order e inside

theorem holds_cut {dir : WalDir} {n : Nat} {segment : Segment} (found : dir.get n = some segment)
    {kept : List WalEntry} (sub : kept ⊆ segment.entries) {e : WalEntry}
    (h : Holds (dir.put n { segment with entries := kept }) e) : Holds dir e := by
  obtain ⟨k, other, at_k, member⟩ := h
  rw [ObjectStore.get_put] at at_k
  split at at_k
  · obtain rfl := Option.some.inj at_k
    exact ⟨n, segment, found, sub member⟩
  · exact ⟨k, other, at_k, member⟩

theorem holds_create {dir : WalDir} {n start : Nat} (absent : dir.get n = none) {e : WalEntry} :
    Holds (dir.put n { startingSequence := start, entries := [] }) e ↔ Holds dir e := by
  constructor
  · rintro ⟨k, segment, found, member⟩
    rw [ObjectStore.get_put] at found
    split at found
    · obtain rfl := Option.some.inj found
      cases member
    · exact ⟨k, segment, found, member⟩
  · rintro ⟨k, segment, found, member⟩
    exact ⟨k, segment, ObjectStore.extends_put _ absent k segment found, member⟩

end WalDir

namespace WalWriter

theorem mem_assign {entries : List WalEntry} {first : Nat} {e : WalEntry}
    (member : e ∈ assign first entries) :
    first ≤ e.sequenceNumber ∧ e.sequenceNumber < first + entries.length := by
  induction entries generalizing first with
  | nil => cases member
  | cons head rest ih =>
    rcases List.mem_cons.mp member with rfl | later
    · simp
    · have bounds := ih later
      simp only [List.length_cons]
      omega

theorem assign_append (first : Nat) (a b : List WalEntry) :
    assign first (a ++ b) = assign first a ++ assign (first + a.length) b := by
  induction a generalizing first with
  | nil => rfl
  | cons head rest ih =>
    have shifted : first + 1 + rest.length = first + (rest.length + 1) := by omega
    simp [assign, ih, shifted]

theorem assign_map {entries : List WalEntry} {first : Nat} :
    (assign first entries).map WalEntry.sequenceNumber = List.range' first entries.length := by
  induction entries generalizing first with
  | nil => rfl
  | cons head rest ih => simp [assign, ih, List.range'_succ]

theorem assign_ascends (entries : List WalEntry) (first : Nat) :
    ((assign first entries).map WalEntry.sequenceNumber).Pairwise (· < ·) := by
  rw [assign_map]
  exact List.pairwise_lt_range'

/-- The writer's current segment is the newest, and its next number is above every entry. -/
structure Open (w : WalWriter) (dir : WalDir) : Prop where
  current : ∃ segment, dir.get w.currentSegment = some segment ∧
    segment.startingSequence ≤ w.nextSequenceNumber
  newest : ∀ n, (dir.get n).isSome → n ≤ w.currentSegment
  above : ∀ e, WalDir.Holds dir e → e.sequenceNumber < w.nextSequenceNumber

theorem createSegment_ok {dir dir' : WalDir} {n start : Nat}
    (h : createSegment dir n start = .ok dir') :
    dir.get n = none ∧ dir' = dir.put n { startingSequence := start, entries := [] } := by
  unfold createSegment at h
  split at h
  · rename_i created put
    obtain rfl := Except.ok.inj h
    exact ObjectStore.conditionalPut_some put
  · cases h

theorem createSegment_free {dir : WalDir} {n : Nat} (start : Nat) (absent : dir.get n = none) :
    createSegment dir n start = .ok (dir.put n { startingSequence := start, entries := [] }) := by
  simp [createSegment, ObjectStore.conditionalPut, absent]

/-- A batch goes to the current segment, and an empty segment may follow it. -/
theorem appendBatch_cases {w w' : WalWriter} {dir dir' : WalDir} {entries : List WalEntry}
    (h : w.appendBatch dir entries = .ok (w', dir')) :
    (w'.currentSegment = w.currentSegment ∧
        dir' = writeEntries dir w.currentSegment (assign w.nextSequenceNumber entries)) ∨
      w'.currentSegment = w.currentSegment + 1 ∧ ∃ start,
        dir' = (writeEntries dir w.currentSegment (assign w.nextSequenceNumber entries)).put
          (w.currentSegment + 1)
          { startingSequence := start, entries := [] } := by
  unfold appendBatch at h
  dsimp only at h
  split at h
  · unfold rotate at h
    split at h
    · cases h
    rename_i created creates
    obtain ⟨rfl, rfl⟩ := Prod.mk.inj (Except.ok.inj h)
    exact Or.inr ⟨rfl, _, (createSegment_ok creates).2⟩
  · obtain ⟨rfl, rfl⟩ := Prod.mk.inj (Except.ok.inj h)
    exact Or.inl ⟨rfl, rfl⟩

section Write
variable {w : WalWriter} {dir : WalDir} {entries : List WalEntry}

theorem newest_put {n : Nat} {segment : Segment} (newest : ∀ k, (dir.get k).isSome → k ≤ n) :
    ∀ k, ((dir.put (n + 1) segment).get k).isSome → k ≤ n + 1 := by
  intro k present
  rw [ObjectStore.get_put] at present
  split at present
  · rename_i same
    exact same.le
  · exact Nat.le_succ_of_le (newest k present)

/-- A rotation always succeeds; it keeps the entries and the next number. -/
theorem rotate_spec (ordered : dir.Ordered) (opened : w.Open dir) :
    ∃ w' dir', w.rotate dir = .ok (w', dir') ∧ dir'.Ordered ∧ w'.Open dir' ∧
      w'.nextSequenceNumber = w.nextSequenceNumber ∧ w'.config = w.config ∧
      (∀ e, dir'.Holds e ↔ dir.Holds e) ∧ ∀ n segment, dir.get n = some segment →
        dir'.get n = some segment := by
  have absent : dir.get (w.currentSegment + 1) = none := by
    by_contra present
    have := opened.newest _ (Option.isSome_iff_ne_none.mpr present)
    omega
  refine ⟨{ w with
      currentSegment := w.currentSegment + 1
      currentSize := segmentHeaderSize
      segmentNumbers := w.segmentNumbers ++ [w.currentSegment + 1] },
    dir.put (w.currentSegment + 1) { startingSequence := w.nextSequenceNumber, entries := [] },
    ?_, ordered.create opened.above, ?_, rfl, rfl, fun e => WalDir.holds_create absent,
    ObjectStore.extends_put _ absent⟩
  · simp only [rotate, createSegment_free _ absent]
  · refine ⟨⟨_, ObjectStore.get_put_self _ _ _, le_refl w.nextSequenceNumber⟩,
      newest_put opened.newest, ?_⟩
    intro e held
    exact opened.above e ((WalDir.holds_create absent).mp held)

theorem holds_writeEntries {n : Nat} {segment : Segment} (found : dir.get n = some segment)
    {e : WalEntry} :
    WalDir.Holds (writeEntries dir n entries) e ↔ dir.Holds e ∨ e ∈ entries := by
  simp only [writeEntries, found]
  constructor
  · rintro ⟨k, other, at_k, member⟩
    rw [ObjectStore.get_put] at at_k
    split at at_k
    · obtain rfl := Option.some.inj at_k
      rcases List.mem_append.mp member with old | new
      · exact Or.inl ⟨n, segment, found, old⟩
      · exact Or.inr new
    · exact Or.inl ⟨k, other, at_k, member⟩
  · rintro (⟨k, other, at_k, member⟩ | member)
    · by_cases same : k = n
      · subst k
        obtain rfl := Option.some.inj (found.symm.trans at_k)
        exact ⟨n, _, ObjectStore.get_put_self _ _ _, List.mem_append_left _ member⟩
      · exact ⟨k, other, by rw [ObjectStore.get_put_ne _ _ same]; exact at_k, member⟩
    · exact ⟨n, _, ObjectStore.get_put_self _ _ _, List.mem_append_right _ member⟩

/-- Entries numbered from the writer's next number on keep the order. -/
theorem ordered_writeEntries (ordered : dir.Ordered) (opened : w.Open dir) :
    WalDir.Ordered (writeEntries dir w.currentSegment (assign w.nextSequenceNumber entries)) := by
  obtain ⟨current, found, start⟩ := opened.current
  simp only [writeEntries, found]
  constructor
  · intro n segment at_n e member
    rw [ObjectStore.get_put] at at_n
    split at at_n
    · obtain rfl := Option.some.inj at_n
      rcases List.mem_append.mp member with old | new
      · exact ordered.starts _ _ found e old
      · exact start.trans (mem_assign new).1
    · exact ordered.starts n segment at_n e member
  · intro n segment at_n
    rw [ObjectStore.get_put] at at_n
    split at at_n
    · obtain rfl := Option.some.inj at_n
      rw [List.map_append, List.pairwise_append]
      refine ⟨ordered.ascends _ _ found, assign_ascends _ _, ?_⟩
      intro a old b new
      obtain ⟨e, member, rfl⟩ := List.mem_map.mp old
      obtain ⟨e', member', rfl⟩ := List.mem_map.mp new
      have below := opened.above e ⟨_, current, found, member⟩
      have bounds := mem_assign member'
      omega
    · exact ordered.ascends n segment at_n
  · intro i j first second at_i at_j order e member
    rw [ObjectStore.get_put] at at_i at_j
    split at at_j
    · rename_i same
      obtain rfl := Option.some.inj at_j
      split at at_i
      · omega
      · exact ordered.follows i j first current at_i (same ▸ found) order e member
    · split at at_i
      · -- nothing lies behind the current segment
        have present : (dir.get j).isSome := by rw [at_j]; rfl
        have := opened.newest j present
        omega
      · exact ordered.follows i j first second at_i at_j order e member

theorem open_writeEntries (opened : w.Open dir) (size : Nat) :
    Open { w with nextSequenceNumber := w.nextSequenceNumber + entries.length, currentSize := size }
      (writeEntries dir w.currentSegment (assign w.nextSequenceNumber entries)) := by
  obtain ⟨current, found, start⟩ := opened.current
  refine ⟨?_, ?_, ?_⟩
  · refine ⟨{ current with entries := current.entries ++ assign w.nextSequenceNumber entries }, ?_, ?_⟩
    · simp only [writeEntries, found]
      exact ObjectStore.get_put_self _ _ _
    · exact start.trans (Nat.le_add_right _ _)
  · intro n present
    simp only [writeEntries, found] at present
    rw [ObjectStore.get_put] at present
    split at present
    · rename_i same
      exact same.le
    · exact opened.newest n present
  · intro e held
    rcases (holds_writeEntries found).mp held with old | new
    · exact (opened.above e old).trans_le (Nat.le_add_right _ _)
    · exact (mem_assign new).2

/-- A batch always succeeds, adds its numbered entries to the log and moves the counter. -/
theorem appendBatch_spec (ordered : dir.Ordered) (opened : w.Open dir) (entries : List WalEntry) :
    ∃ w' dir', w.appendBatch dir entries = .ok (w', dir') ∧ dir'.Ordered ∧ w'.Open dir' ∧
      w'.nextSequenceNumber = w.nextSequenceNumber + entries.length ∧ w'.config = w.config ∧
      ∀ e, dir'.Holds e ↔ dir.Holds e ∨ e ∈ assign w.nextSequenceNumber entries := by
  obtain ⟨current, found, -⟩ := opened.current
  have written : WalDir.Ordered (writeEntries dir w.currentSegment (assign w.nextSequenceNumber entries)) :=
    ordered_writeEntries ordered opened
  have reopened := @open_writeEntries w dir entries opened
    (w.currentSize + ((assign w.nextSequenceNumber entries).map WalEntry.totalSize).sum)
  unfold appendBatch
  dsimp only
  split
  · obtain ⟨w', dir', rotated, ordered', opened', next, config, holds, -⟩ :=
      rotate_spec written reopened
    refine ⟨w', dir', rotated, ordered', opened', next, config, ?_⟩
    intro e
    rw [holds e, holds_writeEntries found]
  · exact ⟨_, _, rfl, written, reopened, rfl, rfl, fun e => holds_writeEntries found⟩

end Write

section Open
variable {dir : WalDir}

theorem highestSequence_none {numbers : List Nat} (h : highestSequence dir numbers = none) {n : Nat}
    (member : n ∈ numbers) {segment : Segment} (found : dir.get n = some segment) :
    segment.entries = [] := by
  induction numbers with
  | nil => cases member
  | cons first rest ih =>
    unfold highestSequence at h
    split at h
    · cases h
    · rename_i empty
      rcases List.mem_cons.mp member with rfl | later
      · simpa [found] using empty
      · exact ih h later

/-- Scanning from the newest segment down, the first number found is the highest of all. -/
theorem highestSequence_some (ordered : dir.Ordered) {numbers : List Nat}
    (descending : numbers.Pairwise (· > ·)) {highest : Nat}
    (h : highestSequence dir numbers = some highest) :
    (∃ e, dir.Holds e ∧ e.sequenceNumber = highest) ∧
      ∀ n ∈ numbers, ∀ segment, dir.get n = some segment →
        ∀ e ∈ segment.entries, e.sequenceNumber ≤ highest := by
  induction numbers with
  | nil => cases h
  | cons first rest ih =>
    have below := (List.pairwise_cons.mp descending).1
    unfold highestSequence at h
    split at h
    · rename_i top scanned
      obtain rfl := Option.some.inj h
      obtain ⟨newest, found, largest⟩ := Option.bind_eq_some_iff.mp scanned
      obtain ⟨attained, bounded⟩ := List.max?_eq_some_iff.mp largest
      obtain ⟨e, member, number⟩ := List.mem_map.mp attained
      refine ⟨⟨e, ⟨first, newest, found, member⟩, number⟩, ?_⟩
      intro n listed segment at_n e' member'
      rcases List.mem_cons.mp listed with rfl | later
      · obtain rfl := Option.some.inj (found.symm.trans at_n)
        exact bounded _ (List.mem_map_of_mem member')
      · calc e'.sequenceNumber ≤ newest.startingSequence :=
              (ordered.follows n first segment newest at_n found (below n later) e' member').le
          _ ≤ e.sequenceNumber := ordered.starts first newest found e member
          _ = top := number
    · rename_i empty
      obtain ⟨attained, bounded⟩ := ih (List.pairwise_cons.mp descending).2 h
      refine ⟨attained, ?_⟩
      intro n listed segment at_n e member
      rcases List.mem_cons.mp listed with rfl | later
      · have none_here : segment.entries = [] := by simpa [at_n] using empty
        rw [none_here] at member
        cases member
      · exact bounded n later segment at_n e member

theorem openDir_created {config : WalConfig} {w : WalWriter} {dir' : WalDir}
    (h : openDir dir config = .ok (w, dir')) :
    dir.get w.currentSegment = none ∧
      ∃ start, dir' = dir.put w.currentSegment { startingSequence := start, entries := [] } := by
  unfold openDir at h
  split at h
  · split at h
    · cases h
    · rename_i made creates
      obtain ⟨rfl, rfl⟩ := Prod.mk.inj (Except.ok.inj h)
      obtain ⟨absent, rfl⟩ := createSegment_ok creates
      exact ⟨absent, _, rfl⟩
  · dsimp only at h
    split at h
    · cases h
    · rename_i made creates
      obtain ⟨rfl, rfl⟩ := Prod.mk.inj (Except.ok.inj h)
      obtain ⟨absent, rfl⟩ := createSegment_ok creates
      exact ⟨absent, _, rfl⟩

theorem openDir_fresh {config : WalConfig} {w : WalWriter} {dir' : WalDir} {segment : Segment}
    (h : openDir dir config = .ok (w, dir')) (found : dir'.get w.currentSegment = some segment) :
    segment.entries = [] := by
  obtain ⟨-, start, rfl⟩ := openDir_created h
  rw [ObjectStore.get_put_self] at found
  obtain rfl := Option.some.inj found
  rfl

/-- Opening a directory succeeds. It keeps the entries, and continues after the highest
number it holds, or from 1 when it holds none. -/
theorem openDir_spec (ordered : dir.Ordered) (config : WalConfig) :
    ∃ w dir', openDir dir config = .ok (w, dir') ∧ dir'.Ordered ∧ w.Open dir' ∧ w.config = config ∧
      (∀ e, dir'.Holds e ↔ dir.Holds e) ∧
      ((w.nextSequenceNumber = 1 ∧ ∀ e, ¬ dir.Holds e) ∨
        ∃ e, dir.Holds e ∧ w.nextSequenceNumber = e.sequenceNumber + 1) := by
  unfold openDir
  cases last : dir.keys.getLast? with
  | none =>
    have no_keys := ObjectStore.get_of_getLast_none last
    have nothing : ∀ e, ¬ dir.Holds e := by
      rintro e ⟨k, segment, found, -⟩
      rw [no_keys k] at found
      cases found
    have above : ∀ e, dir.Holds e → e.sequenceNumber < 1 := fun e held => absurd held (nothing e)
    simp only [createSegment_free 1 (no_keys 1)]
    refine ⟨_, _, rfl, ordered.create above, ⟨?_, ?_, ?_⟩, rfl,
      fun e => WalDir.holds_create (no_keys 1),
      Or.inl ⟨rfl, nothing⟩⟩
    · exact ⟨_, ObjectStore.get_put_self _ _ _, le_refl 1⟩
    · refine newest_put fun k present => ?_
      rw [no_keys k] at present
      cases present
    · intro e held
      exact above e ((WalDir.holds_create (no_keys 1)).mp held)
  | some newest =>
    have newer : ∀ k, (dir.get k).isSome → k ≤ newest := fun k present =>
      ObjectStore.le_getLast_keys (ObjectStore.mem_keys.mpr present) last
    have absent : dir.get (newest + 1) = none := by
      by_contra present
      have := newer _ (Option.isSome_iff_ne_none.mpr present)
      omega
    have descending : dir.keys.reverse.Pairwise (· > ·) := by
      rw [List.pairwise_reverse]
      exact dir.keys_strictly_sorted
    have listed : ∀ {k segment}, dir.get k = some segment → k ∈ dir.keys.reverse := fun found =>
      List.mem_reverse.mpr (ObjectStore.mem_keys_of_get found)
    have numbering : ∃ next, ((highestSequence dir dir.keys.reverse).map (· + 1)).getD 1 = next ∧
        (∀ e, dir.Holds e → e.sequenceNumber < next) ∧
        ((next = 1 ∧ ∀ e, ¬ dir.Holds e) ∨ ∃ e, dir.Holds e ∧ next = e.sequenceNumber + 1) := by
      cases scan : highestSequence dir dir.keys.reverse with
      | none =>
        have nothing : ∀ e, ¬ dir.Holds e := by
          rintro e ⟨k, segment, found, member⟩
          rw [highestSequence_none scan (listed found) found] at member
          cases member
        exact ⟨1, rfl, fun e held => absurd held (nothing e), Or.inl ⟨rfl, nothing⟩⟩
      | some highest =>
        obtain ⟨⟨e, held, number⟩, bounded⟩ := highestSequence_some ordered descending scan
        refine ⟨highest + 1, rfl, ?_, Or.inr ⟨e, held, by rw [number]⟩⟩
        rintro e' ⟨k, segment, found, member⟩
        exact Nat.lt_succ_of_le (bounded k (listed found) segment found e' member)
    obtain ⟨next, derived, above, source⟩ := numbering
    simp only [derived, createSegment_free next absent]
    refine ⟨_, _, rfl, ordered.create above, ⟨?_, ?_, ?_⟩, rfl, fun e => WalDir.holds_create absent,
      source⟩
    · exact ⟨_, ObjectStore.get_put_self _ _ _, le_refl next⟩
    · exact newest_put newer
    · intro e held
      exact above e ((WalDir.holds_create absent).mp held)

end Open

theorem removeSegment_ok {w w' : WalWriter} {dir dir' : WalDir} {n : Nat}
    (h : w.removeSegment dir n = .ok (w', dir')) :
    n ≠ w.currentSegment ∧ dir' = dir.delete n ∧
      w' = { w with segmentNumbers := w'.segmentNumbers } := by
  unfold removeSegment at h
  split at h
  · cases h
  · rename_i other
    split at h
    · cases h
    · obtain ⟨rfl, rfl⟩ := Prod.mk.inj (Except.ok.inj h)
      exact ⟨other, rfl, rfl⟩

theorem Open.delete {w : WalWriter} {dir : WalDir} (h : w.Open dir) {n : Nat}
    (other : n ≠ w.currentSegment) :
    w.Open (dir.delete n) := by
  obtain ⟨current, found, start⟩ := h.current
  refine ⟨⟨current, ?_, start⟩, ?_, fun e held => h.above e (WalDir.holds_delete held)⟩
  · rw [ObjectStore.get_delete_ne dir other.symm]
    exact found
  · intro k present
    rw [ObjectStore.get_delete] at present
    split at present
    · cases present
    · exact h.newest k present

end WalWriter

namespace WalReader
variable {dir : WalDir}

theorem mem_segmentEntries {n : Nat} {e : WalEntry} :
    e ∈ segmentEntries dir n ↔ ∃ segment, dir.get n = some segment ∧ e ∈ segment.entries := by
  cases found : dir.get n with
  | none => simp [segmentEntries, found]
  | some segment => simp [segmentEntries, found]

theorem mem_replayAll {e : WalEntry} : e ∈ replayAll dir ↔ dir.Holds e := by
  constructor
  · intro member
    obtain ⟨n, -, inside⟩ := List.mem_flatMap.mp member
    obtain ⟨segment, found, present⟩ := mem_segmentEntries.mp inside
    exact ⟨n, segment, found, present⟩
  · rintro ⟨n, segment, found, present⟩
    exact List.mem_flatMap.mpr
      ⟨n, ObjectStore.mem_keys_of_get found, mem_segmentEntries.mpr ⟨segment, found, present⟩⟩

/-- Replay returns the entries in the order of their numbers. -/
theorem replayAll_ascends (ordered : dir.Ordered) :
    ((replayAll dir).map WalEntry.sequenceNumber).Pairwise (· < ·) := by
  have general : ∀ numbers : List Nat, numbers.Pairwise (· < ·) →
      ((numbers.flatMap (segmentEntries dir)).map WalEntry.sequenceNumber).Pairwise (· < ·) := by
    intro numbers
    induction numbers with
    | nil => intro _; exact .nil
    | cons n rest ih =>
      intro sorted
      obtain ⟨first, sorted⟩ := List.pairwise_cons.mp sorted
      rw [List.flatMap_cons, List.map_append, List.pairwise_append]
      refine ⟨?_, ih sorted, ?_⟩
      · cases found : dir.get n with
        | none => simp [segmentEntries, found]
        | some segment => simpa [segmentEntries, found] using ordered.ascends n segment found
      · intro a here b later
        obtain ⟨e, member, rfl⟩ := List.mem_map.mp here
        obtain ⟨e', member', rfl⟩ := List.mem_map.mp later
        obtain ⟨m, listed, member'⟩ := List.mem_flatMap.mp member'
        obtain ⟨segment, found, member⟩ := mem_segmentEntries.mp member
        obtain ⟨segment', found', member'⟩ := mem_segmentEntries.mp member'
        exact (ordered.follows n m segment segment' found found' (first m listed) e member).trans_le
          (ordered.starts m segment' found' e' member')
  exact general _ dir.keys_strictly_sorted

/-- Skipping segments by the first number of the next one loses nothing. -/
theorem replayFrom_eq (ordered : dir.Ordered) (minSequence : Nat) :
    replayFrom dir minSequence = (replayAll dir).filter fun e => e.sequenceNumber ≥ minSequence := by
  have general : ∀ numbers : List Nat, numbers.Pairwise (· < ·) →
      replaySegments dir minSequence numbers =
      (numbers.flatMap (segmentEntries dir)).filter fun e => e.sequenceNumber ≥ minSequence := by
    intro numbers
    induction numbers with
    | nil => intro _; rfl
    | cons n rest ih =>
      intro sorted
      obtain ⟨first, sorted⟩ := List.pairwise_cons.mp sorted
      rw [List.flatMap_cons, List.filter_append, ← ih sorted, replaySegments]
      split
      · rename_i skipped
        cases rest with
        | nil => cases skipped
        | cons next later =>
          obtain ⟨behind, found, start⟩ := (Option.any_eq_true _ _).mp skipped
          have nothing : (segmentEntries dir n).filter (fun e => e.sequenceNumber ≥ minSequence) =
              [] := by
            rw [List.filter_eq_nil_iff]
            intro e member
            obtain ⟨segment, at_n, inside⟩ := mem_segmentEntries.mp member
            have below := ordered.follows n next segment behind at_n found
              (first next List.mem_cons_self) e inside
            have := of_decide_eq_true start
            simp only [ge_iff_le, decide_eq_true_eq, not_le]
            omega
          rw [nothing, List.nil_append]
      · rfl
  exact general _ dir.keys_strictly_sorted

/-- The replay depends on the entries only, not on how they lie in segments. -/
theorem replayAll_eq {dir' : WalDir} (ordered : dir.Ordered) (ordered' : dir'.Ordered)
    (same : ∀ e, dir'.Holds e ↔ dir.Holds e) :
    replayAll dir' = replayAll dir := by
  have first := List.pairwise_map.mp (replayAll_ascends ordered)
  have second := List.pairwise_map.mp (replayAll_ascends ordered')
  have distinct : ∀ {log : List WalEntry}, log.Pairwise
      (fun a b => a.sequenceNumber < b.sequenceNumber) → log.Nodup := by
    intro log ascends
    refine ascends.imp ?_
    rintro a b less rfl
    exact absurd less (lt_irrefl _)
  refine List.Perm.eq_of_pairwise ?_ second first
    ((List.perm_ext_iff_of_nodup (distinct second) (distinct first)).mpr fun e => ?_)
  · intro a b _ _ less greater
    omega
  · rw [mem_replayAll, mem_replayAll]
    exact same e

/-- What is appended comes last in the replay. -/
theorem replayAll_append {dir' : WalDir} {new : List WalEntry} (ordered : dir.Ordered)
    (ordered' : dir'.Ordered) (holds : ∀ e, dir'.Holds e ↔ dir.Holds e ∨ e ∈ new)
    (ascends : (new.map WalEntry.sequenceNumber).Pairwise (· < ·))
    (above : ∀ e, dir.Holds e → ∀ e' ∈ new, e.sequenceNumber < e'.sequenceNumber) :
    replayAll dir' = replayAll dir ++ new := by
  have first := List.pairwise_map.mp (replayAll_ascends ordered)
  have second := List.pairwise_map.mp (replayAll_ascends ordered')
  have whole : (replayAll dir ++ new).Pairwise fun a b => a.sequenceNumber < b.sequenceNumber :=
    List.pairwise_append.mpr ⟨first, List.pairwise_map.mp ascends,
      fun e old e' added => above e (mem_replayAll.mp old) e' added⟩
  have : Std.Irrefl fun a b : WalEntry => a.sequenceNumber < b.sequenceNumber :=
    ⟨fun _ => lt_irrefl _⟩
  have : Std.Antisymm fun a b : WalEntry => a.sequenceNumber < b.sequenceNumber :=
    ⟨fun _ _ less greater => absurd (less.trans greater) (lt_irrefl _)⟩
  refine List.Pairwise.eq_of_mem_iff second whole ?_
  intro e
  rw [List.mem_append, mem_replayAll, mem_replayAll, holds]

theorem mem_replayFrom (ordered : dir.Ordered) {minSequence : Nat} {e : WalEntry} :
    e ∈ replayFrom dir minSequence ↔ dir.Holds e ∧ minSequence ≤ e.sequenceNumber := by
  rw [replayFrom_eq ordered, List.mem_filter, mem_replayAll]
  simp

end WalReader

end FlushDB
