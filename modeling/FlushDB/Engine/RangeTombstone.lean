import FlushDB.Lib.BinarySearch
import FlushDB.Types.Key

/-!
The range tombstones of a memtable, sorted by record and first key. `covers` answers as a
search of all of them would.
-/

namespace FlushDB
open Lib

structure RangeTombstone where
  recordId : Bytes
  startKey : Bytes
  endKey : Bytes
  sequenceNumber : Nat
  deriving DecidableEq

def compareTombstones (a b : RangeTombstone) : Ordering :=
  match compare a.recordId b.recordId with
  | .eq => compare a.startKey b.startKey
  | other => other

namespace RangeTombstone

/-- The order of the index. -/
def NotAfter (a b : RangeTombstone) : Prop :=
  a.recordId < b.recordId ∨ (a.recordId = b.recordId ∧ a.startKey ≤ b.startKey)

theorem NotAfter.trans {a b c : RangeTombstone} (first : NotAfter a b) (second : NotAfter b c) :
    NotAfter a c := by
  rcases first with less | ⟨same, start⟩
  · rcases second with less' | ⟨same', -⟩
    · exact Or.inl (less.trans less')
    · exact Or.inl (same' ▸ less)
  · rcases second with less' | ⟨same', start'⟩
    · exact Or.inl (same ▸ less')
    · exact Or.inr ⟨same.trans same', start.trans start'⟩

theorem compareTombstones_lt {a b : RangeTombstone} : compareTombstones a b = .lt ↔
    a.recordId < b.recordId ∨ (a.recordId = b.recordId ∧ a.startKey < b.startKey) := by
  unfold compareTombstones
  rcases lt_trichotomy a.recordId b.recordId with less | same | greater
  · simp [compare_lt_iff_lt.mpr less, less]
  · simp [same, compare_lt_iff_lt]
  · simp [compare_gt_iff_gt.mpr greater, greater.not_gt, greater.ne']

theorem compareTombstones_gt {a b : RangeTombstone} : compareTombstones a b = .gt ↔
    b.recordId < a.recordId ∨ (a.recordId = b.recordId ∧ b.startKey < a.startKey) := by
  unfold compareTombstones
  rcases lt_trichotomy a.recordId b.recordId with less | same | greater
  · simp [compare_lt_iff_lt.mpr less, less.not_gt, less.ne]
  · simp [same, compare_gt_iff_gt]
  · simp [compare_gt_iff_gt.mpr greater, greater]

theorem notAfter_of_le {a b : RangeTombstone} (h : compareTombstones a b ≠ .gt) : NotAfter a b := by
  rw [Ne, compareTombstones_gt, not_or] at h
  rcases lt_or_ge a.recordId b.recordId with less | ge
  · exact Or.inl less
  · have same := le_antisymm (not_lt.mp h.1) ge
    exact Or.inr ⟨same, not_lt.mp fun start => h.2 ⟨same, start⟩⟩

theorem notAfter_of_ge {a b : RangeTombstone} (h : compareTombstones a b ≠ .lt) : NotAfter b a := by
  rw [Ne, compareTombstones_lt, not_or] at h
  rcases lt_or_ge b.recordId a.recordId with less | ge
  · exact Or.inl less
  · have same := le_antisymm ge (not_lt.mp h.1)
    exact Or.inr ⟨same.symm, not_lt.mp fun start => h.2 ⟨same, start⟩⟩

end RangeTombstone

open RangeTombstone

structure RangeTombstoneIndex where
  tombstones : List RangeTombstone := []
  sorted : tombstones.Pairwise NotAfter := by exact .nil

namespace RangeTombstoneIndex

/-- The index at which `add` inserts. -/
def position (index : RangeTombstoneIndex) (tombstone : RangeTombstone) : Nat :=
  match binarySearchBy (fun existing => compareTombstones existing tombstone) index.tombstones with
  | .ok i => i
  | .error i => i

theorem divided_compare {tombstones : List RangeTombstone} (sorted : tombstones.Pairwise NotAfter)
    (tombstone : RangeTombstone) :
    Divided (fun existing => compareTombstones existing tombstone) tombstones := by
  refine sorted.imp ?_
  intro a b order
  constructor
  · intro below
    rw [compareTombstones_lt] at below ⊢
    rcases order with less | ⟨same, start⟩
    · rcases below with less' | ⟨same', -⟩
      · exact Or.inl (less.trans less')
      · exact Or.inl (same' ▸ less)
    · rw [same]
      exact below.imp id fun ⟨same', start'⟩ => ⟨same', start.trans_lt start'⟩
  · intro above
    rw [compareTombstones_gt] at above ⊢
    rcases order with less | ⟨same, start⟩
    · rcases above with less' | ⟨same', -⟩
      · exact Or.inl (less'.trans less)
      · exact Or.inl (same' ▸ less)
    · rw [← same]
      exact above.imp id fun ⟨same', start'⟩ => ⟨same', start'.trans_le start⟩

/-- `add` inserts after what is not greater and before what is not smaller. -/
theorem position_splits (index : RangeTombstoneIndex) (tombstone : RangeTombstone) :
    (∀ existing ∈ index.tombstones.take (index.position tombstone), NotAfter existing tombstone) ∧
      ∀ existing ∈ index.tombstones.drop (index.position tombstone),
        NotAfter tombstone existing := by
  have divided := divided_compare index.sorted tombstone
  unfold position
  cases found : binarySearchBy (fun existing => compareTombstones existing tombstone)
    index.tombstones with
  | ok i =>
    obtain ⟨x, here, hit⟩ := binarySearchBy_ok found
    dsimp only
    refine ⟨?_, ?_⟩
    · intro existing member
      obtain ⟨j, bound, rfl⟩ := List.mem_iff_getElem.mp member
      have earlier : j < i := by
        rw [List.length_take] at bound
        omega
      rw [List.getElem_take]
      refine notAfter_of_le fun above => ?_
      have := divided.above (List.getElem?_eq_getElem
        (by rw [List.length_take] at bound; omega)) here earlier.le above
      rw [hit] at this
      cases this
    · intro existing member
      obtain ⟨j, bound, rfl⟩ := List.mem_iff_getElem.mp member
      rw [List.getElem_drop]
      refine notAfter_of_ge fun below => ?_
      have := divided.below here
        (List.getElem?_eq_getElem (by rw [List.length_drop] at bound; omega)) (Nat.le_add_right i j) below
      rw [hit] at this
      cases this
  | error i =>
    obtain ⟨before, after, -⟩ := binarySearchBy_error divided found
    dsimp only
    refine ⟨?_, ?_⟩
    · intro existing member
      obtain ⟨j, bound, rfl⟩ := List.mem_iff_getElem.mp member
      have earlier : j < i ∧ j < index.tombstones.length := by
        rw [List.length_take] at bound
        omega
      rw [List.getElem_take]
      refine notAfter_of_le ?_
      rw [before j _ earlier.1 (List.getElem?_eq_getElem earlier.2)]
      simp
    · intro existing member
      obtain ⟨j, bound, rfl⟩ := List.mem_iff_getElem.mp member
      have inside : i + j < index.tombstones.length := by
        rw [List.length_drop] at bound
        omega
      rw [List.getElem_drop]
      refine notAfter_of_ge ?_
      rw [after (i + j) _ (Nat.le_add_right i j) (List.getElem?_eq_getElem inside)]
      simp

def add (index : RangeTombstoneIndex) (tombstone : RangeTombstone) : RangeTombstoneIndex where
  tombstones := index.tombstones.take (index.position tombstone) ++ tombstone ::
    index.tombstones.drop (index.position tombstone)
  sorted := by
    obtain ⟨before, after⟩ := index.position_splits tombstone
    have whole := index.sorted
    rw [← List.take_append_drop (index.position tombstone) index.tombstones,
      List.pairwise_append] at whole
    obtain ⟨first, second, -⟩ := whole
    rw [List.pairwise_append, List.pairwise_cons]
    refine ⟨first, ⟨after, second⟩, ?_⟩
    intro a earlier b later
    rcases List.mem_cons.mp later with rfl | later
    · exact before a earlier
    · exact (before a earlier).trans (after b later)

theorem mem_add {index : RangeTombstoneIndex} {tombstone other : RangeTombstone} :
    other ∈ (index.add tombstone).tombstones ↔ other = tombstone ∨ other ∈ index.tombstones := by
  have parts : other ∈ index.tombstones ↔ other ∈ index.tombstones.take (index.position tombstone) ∨
      other ∈ index.tombstones.drop (index.position tombstone) := by
    rw [← List.mem_append, List.take_append_drop]
  simp only [add, List.mem_append, List.mem_cons]
  rw [parts]
  tauto

/-- From some tombstone of the record as far as its neighbours are of the record. -/
def tombstonesForRecord (index : RangeTombstoneIndex) (recordId : Bytes) : List RangeTombstone :=
  match binarySearchBy (fun ts => compare ts.recordId recordId) index.tombstones with
  | .error _ => []
  | .ok anchor =>
    ((index.tombstones.take anchor).reverse.takeWhile fun ts => ts.recordId = recordId).reverse ++
      (index.tombstones.drop anchor).takeWhile fun ts => ts.recordId = recordId

def inRange (ts : RangeTombstone) (itemKey : Bytes) : Bool :=
  ts.endKey.isEmpty ∨ itemKey < ts.endKey

def covers (index : RangeTombstoneIndex) (recordId itemKey : Bytes) (entrySequence : Nat) : Bool :=
  ((index.tombstonesForRecord recordId).takeWhile fun ts => ts.startKey ≤ itemKey).any fun ts =>
    inRange ts itemKey && ts.sequenceNumber > entrySequence

theorem records_sorted (index : RangeTombstoneIndex) :
    index.tombstones.Pairwise fun a b => a.recordId ≤ b.recordId := by
  refine index.sorted.imp ?_
  rintro a b (less | ⟨same, -⟩)
  · exact less.le
  · exact same.le

theorem tombstonesForRecord_eq (index : RangeTombstoneIndex) (recordId : Bytes) :
    index.tombstonesForRecord recordId = index.tombstones.filter fun ts => ts.recordId = recordId := by
  have records := index.records_sorted
  have divided : Divided (fun ts => compare ts.recordId recordId) index.tombstones := by
    refine records.imp ?_
    intro a b order
    simp only [compare_lt_iff_lt, compare_gt_iff_gt]
    exact ⟨order.trans_lt, fun above => lt_of_lt_of_le above order⟩
  unfold tombstonesForRecord
  cases found : binarySearchBy (fun ts => compare ts.recordId recordId) index.tombstones with
  | error i =>
    obtain ⟨before, after, -⟩ := binarySearchBy_error divided found
    symm
    rw [List.filter_eq_nil_iff]
    intro ts member same
    obtain ⟨j, bound, rfl⟩ := List.mem_iff_getElem.mp member
    have equal : compare index.tombstones[j].recordId recordId = .eq :=
      compare_eq_iff_eq.mpr (of_decide_eq_true same)
    rcases Nat.lt_or_ge j i with earlier | later
    · have := before j _ earlier (List.getElem?_eq_getElem bound)
      rw [equal] at this
      cases this
    · have := after j _ later (List.getElem?_eq_getElem bound)
      rw [equal] at this
      cases this
  | ok anchor =>
    obtain ⟨x, here, hit⟩ := binarySearchBy_ok found
    have hit := compare_eq_iff_eq.mp hit
    obtain ⟨bound, rfl⟩ := List.getElem?_eq_some_iff.mp here
    have whole := records
    rw [← List.take_append_drop anchor index.tombstones, List.pairwise_append] at whole
    obtain ⟨first, second, across⟩ := whole
    have head : index.tombstones[anchor] ∈ index.tombstones.drop anchor := by
      rw [List.drop_eq_getElem_cons bound]
      exact List.mem_cons_self
    -- below the anchor no record is greater, and from it on none is smaller
    have low : ∀ ts ∈ index.tombstones.take anchor, ts.recordId ≤ recordId :=
      fun ts member => hit ▸ across ts member _ head
    have high : ∀ ts ∈ index.tombstones.drop anchor, recordId ≤ ts.recordId := by
      intro ts member
      rw [List.drop_eq_getElem_cons bound] at member second
      rcases List.mem_cons.mp member with rfl | later
      · exact hit.ge
      · exact hit ▸ (List.pairwise_cons.mp second).1 ts later
    dsimp only
    rw [takeWhile_eq_filter, takeWhile_eq_filter, List.filter_reverse, List.reverse_reverse,
      ← List.filter_append,
      List.take_append_drop]
    · refine second.imp_of_mem ?_
      intro a b here _ order differs
      have differs := of_decide_eq_false differs
      exact decide_eq_false ((lt_of_le_of_ne (high a here) (Ne.symm differs)).trans_le order).ne'
    · rw [List.pairwise_reverse]
      refine first.imp_of_mem ?_
      intro a b _ there order differs
      have differs := of_decide_eq_false differs
      exact decide_eq_false (order.trans_lt (lt_of_le_of_ne (low b there) differs)).ne

/-- A key is covered when some tombstone of its record spans it and is newer. -/
theorem covers_iff {index : RangeTombstoneIndex} {recordId itemKey : Bytes} {entrySequence : Nat} :
    index.covers recordId itemKey entrySequence = true ↔
      ∃ ts ∈ index.tombstones, ts.recordId = recordId ∧
      ts.startKey ≤ itemKey ∧ inRange ts itemKey = true ∧ entrySequence < ts.sequenceNumber := by
  have starts : (index.tombstones.filter fun ts => ts.recordId = recordId).Pairwise fun a b =>
      decide (a.startKey ≤ itemKey) = false → decide (b.startKey ≤ itemKey) = false := by
    refine (index.sorted.sublist List.filter_sublist).imp_of_mem ?_
    intro a b first second order beyond
    have same : a.recordId = b.recordId :=
      (of_decide_eq_true (List.mem_filter.mp first).2).trans
        (of_decide_eq_true (List.mem_filter.mp second).2).symm
    rcases order with less | ⟨-, start⟩
    · exact absurd same less.ne
    · exact decide_eq_false (not_le.mpr ((not_le.mp (of_decide_eq_false beyond)).trans_le start))
  unfold covers
  rw [tombstonesForRecord_eq, takeWhile_eq_filter starts, List.any_eq_true]
  simp only [List.mem_filter, decide_eq_true_eq, Bool.and_eq_true]
  constructor
  · rintro ⟨ts, ⟨⟨member, record⟩, start⟩, range, newer⟩
    exact ⟨ts, member, record, start, range, newer⟩
  · rintro ⟨ts, member, record, start, range, newer⟩
    exact ⟨ts, ⟨⟨member, record⟩, start⟩, range, newer⟩

theorem mem_foldl_add {added : List RangeTombstone} {index : RangeTombstoneIndex}
    {ts : RangeTombstone} :
    ts ∈ (added.foldl add index).tombstones ↔ ts ∈ added ∨ ts ∈ index.tombstones := by
  induction added generalizing index with
  | nil => simp
  | cons first rest ih =>
    rw [List.foldl_cons, ih, mem_add, List.mem_cons]
    tauto

/-- In whatever order the tombstones were added, the index answers as a search of all of them. -/
theorem covers_added_iff (added : List RangeTombstone) (recordId itemKey : Bytes)
    (entrySequence : Nat) :
    (added.foldl add {}).covers recordId itemKey entrySequence = true ↔
      ∃ ts ∈ added, ts.recordId = recordId ∧
      ts.startKey ≤ itemKey ∧ (ts.endKey.data = [] ∨ itemKey < ts.endKey) ∧
        entrySequence < ts.sequenceNumber := by
  have range : ∀ ts : RangeTombstone, inRange ts itemKey = true ↔ ts.endKey.data = [] ∨
      itemKey < ts.endKey := by
    intro ts
    rw [inRange, decide_eq_true_eq, Bytes.isEmpty, List.isEmpty_iff]
  rw [covers_iff]
  constructor
  · rintro ⟨ts, member, record, start, spans, newer⟩
    rcases mem_foldl_add.mp member with listed | nothing
    · exact ⟨ts, listed, record, start, (range ts).mp spans, newer⟩
    · cases nothing
  · rintro ⟨ts, listed, record, start, spans, newer⟩
    exact ⟨ts, mem_foldl_add.mpr (Or.inl listed), record, start, (range ts).mpr spans, newer⟩

end RangeTombstoneIndex

end FlushDB
