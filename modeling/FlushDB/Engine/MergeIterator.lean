import FlushDB.Lib.Merge
import FlushDB.Types.Entry

/-!
The merge iterator: it gives the entries of several sorted sources in one order, by key
ascending and sequence descending, and with `next_deduped` the newest version of each key.
-/

namespace FlushDB
open Lib

/-- An entry as tables hold it and merges pass it on. `origin` is ghost. -/
structure MergeEntry where
  compositeKey : CompositeKey
  value : Bytes
  metadata : Bytes
  entryType : EntryType
  sequenceNumber : Nat
  origin : Nat
  deriving DecidableEq

namespace MergeEntry

def fromMemtableEntry (e : MemtableEntry) : MergeEntry where
  compositeKey := e.compositeKey
  value := e.value
  metadata := e.metadata
  entryType := e.entryType
  sequenceNumber := e.sequenceNumber
  origin := e.origin

def isTombstone (e : MergeEntry) : Bool :=
  match e.entryType with
  | .delete | .rangeDelete => true
  | .put => false

/-- By key ascending, then by sequence descending. -/
def Precedes (a b : MergeEntry) : Prop :=
  a.compositeKey < b.compositeKey ∨ (a.compositeKey = b.compositeKey ∧
    b.sequenceNumber ≤ a.sequenceNumber)

instance : DecidableRel Precedes := fun a b =>
  inferInstanceAs (Decidable (a.compositeKey < b.compositeKey ∨
    (a.compositeKey = b.compositeKey ∧ b.sequenceNumber ≤ a.sequenceNumber)))

theorem Precedes.trans {a b c : MergeEntry} (first : Precedes a b) (second : Precedes b c) :
    Precedes a c := by
  rcases first with less | ⟨same, newer⟩
  · rcases second with less' | ⟨same', -⟩
    · exact Or.inl (less.trans less')
    · exact Or.inl (same' ▸ less)
  · rcases second with less' | ⟨same', newer'⟩
    · exact Or.inl (same ▸ less')
    · exact Or.inr ⟨same.trans same', newer'.trans newer⟩

theorem Precedes.key_le {a b : MergeEntry} (h : Precedes a b) :
    a.compositeKey ≤ b.compositeKey := by
  rcases h with less | ⟨same, -⟩
  · exact less.le
  · exact same.le

/-- Of two entries with the ids of their sources, the one that is drawn first: by key ascending,
then by sequence descending, then by source ascending. -/
def DrawnBefore (a b : Nat × MergeEntry) : Prop :=
  a.2.compositeKey < b.2.compositeKey ∨ (a.2.compositeKey = b.2.compositeKey ∧
    (b.2.sequenceNumber < a.2.sequenceNumber ∨ (a.2.sequenceNumber = b.2.sequenceNumber ∧ a.1 ≤ b.1)))

instance : DecidableRel DrawnBefore := fun a b =>
  inferInstanceAs (Decidable (a.2.compositeKey < b.2.compositeKey ∨ (a.2.compositeKey = b.2.compositeKey ∧
    (b.2.sequenceNumber < a.2.sequenceNumber ∨ (a.2.sequenceNumber = b.2.sequenceNumber ∧ a.1 ≤ b.1)))))

theorem DrawnBefore.precedes {a b : Nat × MergeEntry} (h : DrawnBefore a b) : Precedes a.2 b.2 := by
  rcases h with less | ⟨same, rest⟩
  · exact Or.inl less
  · exact Or.inr ⟨same, by omega⟩

theorem Precedes.drawnBefore {a b : MergeEntry} (id : Nat) (h : Precedes a b) :
    DrawnBefore (id, a) (id, b) := by
  rcases h with less | ⟨same, newer⟩
  · exact Or.inl less
  · refine Or.inr ⟨same, ?_⟩
    dsimp only
    omega

theorem DrawnBefore.trans {a b c : Nat × MergeEntry} (first : DrawnBefore a b)
    (second : DrawnBefore b c) :
    DrawnBefore a c := by
  rcases first with less | ⟨same, rest⟩
  · exact Or.inl (less.trans_le second.precedes.key_le)
  · rcases second with less' | ⟨same', rest'⟩
    · exact Or.inl (same ▸ less')
    · exact Or.inr ⟨same.trans same', by omega⟩

end MergeEntry

/-- The entries a source has left. -/
structure VecSource where
  entries : List MergeEntry
  sourceId : Nat

namespace VecSource

def peek (s : VecSource) : Option MergeEntry := s.entries.head?

def advance (s : VecSource) : VecSource := { s with entries := s.entries.tail }

end VecSource

structure HeapItem where
  key : CompositeKey
  seq : Nat
  sourceIdx : Nat
  sourceId : Nat
  deriving DecidableEq

namespace HeapItem

/-- The smaller key is the greater item; of equal keys the higher sequence, then the lower
source id. -/
def cmp (a b : HeapItem) : Ordering :=
  match compare b.key a.key with
  | .eq =>
    match compare a.seq b.seq with
    | .eq => compare b.sourceId a.sourceId
    | ord => ord
  | ord => ord

def beats (a b : HeapItem) : Bool := a.cmp b = .gt

theorem beats_iff {a b : HeapItem} : a.beats b = true ↔
    a.key < b.key ∨ (a.key = b.key ∧ (b.seq < a.seq ∨ (a.seq = b.seq ∧ a.sourceId < b.sourceId))) := by
  unfold beats cmp
  rcases lt_trichotomy b.key a.key with less | same | greater
  · have key : compare b.key a.key = .lt := compare_lt_iff_lt.mpr less
    simp [key, less.not_gt, less.ne']
  · have key : compare b.key a.key = .eq := compare_eq_iff_eq.mpr same
    rcases lt_trichotomy a.seq b.seq with older | equal | newer
    · have seq : compare a.seq b.seq = .lt := compare_lt_iff_lt.mpr older
      simp only [seq, same, lt_self_iff_false, true_and, false_or]
      simp
      omega
    · have seq : compare a.seq b.seq = .eq := compare_eq_iff_eq.mpr equal
      simp [same, equal, compare_gt_iff_gt]
    · have seq : compare a.seq b.seq = .gt := compare_gt_iff_gt.mpr newer
      simp [seq, same, newer]
  · have key : compare b.key a.key = .gt := compare_gt_iff_gt.mpr greater
    simp [key, greater]

theorem beats_asymm (a b : HeapItem) (h : a.beats b = true) : b.beats a = false := by
  rw [Bool.eq_false_iff]
  intro back
  rw [beats_iff] at h back
  rcases h with less | ⟨same, rest⟩
  · rcases back with less' | ⟨same', -⟩
    · exact absurd (less.trans less') (lt_irrefl _)
    · exact absurd same'.symm less.ne
  · rcases back with less' | ⟨-, rest'⟩
    · exact absurd same.symm less'.ne
    · omega

theorem beats_false_trans (a b c : HeapItem) (first : b.beats a = false)
    (second : c.beats b = false) :
    c.beats a = false := by
  rw [Bool.eq_false_iff, Ne, beats_iff] at first second ⊢
  simp only [not_or, not_and, not_lt] at first second ⊢
  obtain ⟨key, seq⟩ := first
  obtain ⟨key', seq'⟩ := second
  refine ⟨key.trans key', ?_⟩
  intro same
  have tied : c.key = b.key := le_antisymm (same ▸ key) key'
  have tied' : b.key = a.key := tied.symm.trans same
  have := seq tied'
  have := seq' tied
  omega

end HeapItem

namespace MergeIterator

/-- What the heap holds: the head of every source that is not exhausted. -/
def heap (sources : List VecSource) : List HeapItem :=
  sources.zipIdx.filterMap fun (source, idx) =>
    source.peek.map fun e => ⟨e.compositeKey, e.sequenceNumber, idx, source.sourceId⟩

def nextEntry (sources : List VecSource) : Option (MergeEntry × List VecSource) := do
  let item ← maxBy HeapItem.beats (heap sources)
  let source ← sources[item.sourceIdx]?
  let entry ← source.peek
  return (entry, sources.set item.sourceIdx source.advance)

/-- Drops the entries of `key` from the front; `fuel` bounds their number. -/
def skipKey (key : CompositeKey) : Nat → List VecSource → List VecSource
  | 0, sources => sources
  | fuel + 1, sources =>
    match maxBy HeapItem.beats (heap sources) with
    | none => sources
    | some top =>
      if top.key = key then
        match nextEntry sources with
        | some (_, rest) => skipKey key fuel rest
        | none => sources
      else sources

def remaining (sources : List VecSource) : Nat := (sources.map fun s => s.entries.length).sum

def nextDeduped (sources : List VecSource) : Option (MergeEntry × List VecSource) :=
  (nextEntry sources).map fun (entry, rest) => (entry, skipKey entry.compositeKey (remaining rest) rest)

def collectFrom : Nat → List VecSource → List MergeEntry
  | 0, _ => []
  | fuel + 1, sources =>
    match nextDeduped sources with
    | none => []
    | some (entry, rest) => entry :: collectFrom fuel rest

/-- All that `next_deduped` gives until it returns `None`. -/
def collectDeduped (sources : List VecSource) : List MergeEntry :=
  collectFrom (remaining sources) sources

section Correctness
variable {sources rest : List VecSource} {e : MergeEntry}

/-- All entries that the sources have left. -/
def pending (sources : List VecSource) : List MergeEntry := (sources.map VecSource.entries).flatten

/-- All entries that the sources have left, each with the id of its source. -/
def labelled (sources : List VecSource) : List (Nat × MergeEntry) :=
  (sources.map fun s => s.entries.map (Prod.mk s.sourceId)).flatten

theorem labelled_snd (sources : List VecSource) :
    (labelled sources).map Prod.snd = pending sources := by
  simp [labelled, pending, List.map_flatten, Function.comp_def]

theorem mem_pending {sources : List VecSource} {x : MergeEntry} :
    x ∈ pending sources ↔ ∃ id, (id, x) ∈ labelled sources := by
  rw [← labelled_snd, List.mem_map]
  constructor
  · rintro ⟨⟨id, e⟩, member, rfl⟩
    exact ⟨id, member⟩
  · rintro ⟨id, member⟩
    exact ⟨(id, x), member, rfl⟩

def Sorted (sources : List VecSource) : Prop :=
  ∀ s ∈ sources, s.entries.Pairwise MergeEntry.Precedes

theorem remaining_eq (sources : List VecSource) : remaining sources = (pending sources).length := by
  simp [remaining, pending, List.length_flatten, Function.comp_def]

theorem mem_heap {item : HeapItem} :
    item ∈ heap sources ↔ ∃ source head, sources[item.sourceIdx]? = some source ∧
    source.entries.head? = some head ∧ item.key = head.compositeKey ∧
      item.seq = head.sequenceNumber ∧
      item.sourceId = source.sourceId := by
  unfold heap
  rw [List.mem_filterMap]
  constructor
  · rintro ⟨⟨source, idx⟩, listed, found⟩
    obtain ⟨head, first, rfl⟩ := Option.map_eq_some_iff.mp found
    exact ⟨source, head, List.mem_zipIdx_iff_getElem?.mp listed, first, rfl, rfl, rfl⟩
  · rintro ⟨source, head, listed, first, key, seq, id⟩
    refine ⟨(source, item.sourceIdx), List.mem_zipIdx_iff_getElem?.mpr listed, ?_⟩
    refine Option.map_eq_some_iff.mpr ⟨head, first, ?_⟩
    rw [← key, ← seq, ← id]

theorem nextEntry_of_top {top : HeapItem} (h : maxBy HeapItem.beats (heap sources) = some top) :
    ∃ source head, sources[top.sourceIdx]? = some source ∧
      source.entries = head :: source.entries.tail ∧
      head.compositeKey = top.key ∧ head.sequenceNumber = top.seq ∧
      nextEntry sources = some (head, sources.set top.sourceIdx source.advance) := by
  obtain ⟨source, head, listed, first, key, seq, -⟩ := mem_heap.mp (maxBy_mem h)
  have entries : source.entries = head :: source.entries.tail := by
    obtain ⟨tail, same⟩ := List.head?_eq_some_iff.mp first
    rw [same]
    rfl
  refine ⟨source, head, listed, entries, key.symm, seq.symm, ?_⟩
  simp [nextEntry, h, listed, VecSource.peek, first]

theorem pending_of_no_top (h : maxBy HeapItem.beats (heap sources) = none) :
    pending sources = [] := by
  have nothing := maxBy_eq_none h
  unfold pending
  rw [List.flatten_eq_nil_iff]
  intro entries listed
  obtain ⟨source, member, rfl⟩ := List.mem_map.mp listed
  cases first : source.entries with
  | nil => rfl
  | cons head tail =>
    obtain ⟨idx, found⟩ := List.getElem?_of_mem member
    have item : (⟨head.compositeKey, head.sequenceNumber, idx, source.sourceId⟩ : HeapItem) ∈
        heap sources :=
      mem_heap.mpr ⟨source, head, found, by simp [first], rfl, rfl, rfl⟩
    rw [nothing] at item
    cases item

theorem nextEntry_none (h : nextEntry sources = none) : pending sources = [] := by
  cases top : maxBy HeapItem.beats (heap sources) with
  | none => exact pending_of_no_top top
  | some item =>
    obtain ⟨source, head, -, -, -, -, next⟩ := nextEntry_of_top top
    rw [next] at h
    cases h

/-- Each call takes one entry away, and none that is left would be drawn before it. -/
theorem nextEntry_drawn (h : nextEntry sources = some (e, rest)) :
    ∃ id, (labelled sources).Perm ((id, e) :: labelled rest) ∧
    (Sorted sources → Sorted rest ∧ ∀ x ∈ labelled sources, MergeEntry.DrawnBefore (id, e) x) := by
  cases top : maxBy HeapItem.beats (heap sources) with
  | none => simp [nextEntry, top] at h
  | some item =>
    obtain ⟨source, head, listed, entries, key, seq, next⟩ := nextEntry_of_top top
    obtain ⟨source', -, listed', -, -, -, id⟩ := mem_heap.mp (maxBy_mem top)
    obtain rfl := Option.some.inj (listed.symm.trans listed')
    rw [next] at h
    obtain ⟨rfl, rfl⟩ := Prod.mk.inj (Option.some.inj h)
    refine ⟨source.sourceId, ?_, ?_⟩
    · have taken : (sources.map fun s => s.entries.map (Prod.mk s.sourceId))[item.sourceIdx]? =
          some ((source.sourceId, head) :: source.entries.tail.map (Prod.mk source.sourceId)) := by
        rw [List.getElem?_map, listed, Option.map_some, entries]
        rfl
      have perm := flatten_set_perm taken
      rwa [show (sources.map fun s => s.entries.map (Prod.mk s.sourceId)).set item.sourceIdx
          (source.entries.tail.map (Prod.mk source.sourceId)) =
        (sources.set item.sourceIdx source.advance).map fun s => s.entries.map (Prod.mk s.sourceId) by
          rw [List.map_set]
          rfl] at perm
    · intro sorted
      refine ⟨?_, ?_⟩
      · intro s member
        rcases List.mem_or_eq_of_mem_set member with old | rfl
        · exact sorted s old
        · exact (sorted source (List.mem_of_getElem? listed)).tail
      · refine le_flatten_of_le_heads (fun a b c first second => first.trans second) ?_ ?_
        · intro s member
          obtain ⟨source', inside, rfl⟩ := List.mem_map.mp member
          rw [List.pairwise_map]
          exact (sorted source' inside).imp fun order => order.drawnBefore source'.sourceId
        · intro s member y first
          obtain ⟨source', inside, rfl⟩ := List.mem_map.mp member
          rw [List.head?_map] at first
          obtain ⟨y, leads, rfl⟩ := Option.map_eq_some_iff.mp first
          obtain ⟨idx, found⟩ := List.getElem?_of_mem inside
          have other : (⟨y.compositeKey, y.sequenceNumber, idx, source'.sourceId⟩ : HeapItem) ∈
              heap sources :=
            mem_heap.mpr ⟨source', y, found, leads, rfl, rfl, rfl⟩
          have unbeaten := maxBy_unbeaten HeapItem.beats_asymm HeapItem.beats_false_trans top _ other
          rw [Bool.eq_false_iff, Ne, HeapItem.beats_iff] at unbeaten
          simp only [not_or, not_and, not_lt] at unbeaten
          obtain ⟨smaller, newer⟩ := unbeaten
          rw [← key] at smaller newer
          rw [← seq, id] at newer
          rcases smaller.lt_or_eq with less | same
          · exact Or.inl less
          · obtain ⟨newer, earlier⟩ := newer same.symm
            refine Or.inr ⟨same, ?_⟩
            dsimp only
            omega

theorem nextEntry_perm (h : nextEntry sources = some (e, rest)) :
    (pending sources).Perm (e :: pending rest) := by
  obtain ⟨id, perm, -⟩ := nextEntry_drawn h
  have mapped := perm.map Prod.snd
  rwa [List.map_cons, labelled_snd, labelled_snd] at mapped

theorem skipKey_subset (key : CompositeKey) (fuel : Nat) {x : MergeEntry}
    (h : x ∈ pending (skipKey key fuel sources)) :
    x ∈ pending sources := by
  induction fuel generalizing sources with
  | zero => exact h
  | succ fuel ih =>
    unfold skipKey at h
    split at h
    · exact h
    · split at h
      · split at h
        · rename_i taken
          exact (nextEntry_perm taken).mem_iff.mpr (List.mem_cons_of_mem _ (ih h))
        · exact h
      · exact h

theorem nextDeduped_subset (h : nextDeduped sources = some (e, rest)) :
    e ∈ pending sources ∧ ∀ x ∈ pending rest, x ∈ pending sources := by
  obtain ⟨⟨first, middle⟩, taken, same⟩ := Option.map_eq_some_iff.mp h
  obtain ⟨rfl, rfl⟩ := Prod.mk.inj same
  have perm := nextEntry_perm taken
  refine ⟨perm.mem_iff.mpr List.mem_cons_self, ?_⟩
  intro x left
  exact perm.mem_iff.mpr (List.mem_cons_of_mem _ (skipKey_subset _ _ left))

theorem collectDeduped_subset {x : MergeEntry} (h : x ∈ collectDeduped sources) :
    x ∈ pending sources := by
  have general : ∀ fuel sources, x ∈ collectFrom fuel sources → x ∈ pending sources := by
    intro fuel
    induction fuel with
    | zero =>
      intro sources member
      cases member
    | succ fuel ih =>
      intro sources member
      unfold collectFrom at member
      split at member
      · cases member
      · rename_i first left next
        obtain ⟨here, others⟩ := nextDeduped_subset next
        rcases List.mem_cons.mp member with rfl | later
        · exact here
        · exact others x (ih _ later)
  exact general _ _ h

/-- The entry that is taken precedes all that are left. -/
theorem nextEntry_spec (sorted : Sorted sources) (h : nextEntry sources = some (e, rest)) :
    (pending sources).Perm (e :: pending rest) ∧ Sorted rest ∧
      ∀ x ∈ pending sources, e.Precedes x := by
  obtain ⟨id, -, order⟩ := nextEntry_drawn h
  obtain ⟨sorted', before⟩ := order sorted
  refine ⟨nextEntry_perm h, sorted', ?_⟩
  intro x member
  obtain ⟨other, held⟩ := mem_pending.mp member
  exact (before _ held).precedes

/-- Skipping a key that is not above any entry drops exactly its entries. -/
theorem skipKey_labelled {key : CompositeKey} (fuel : Nat) (sorted : Sorted sources)
    (least : ∀ x ∈ pending sources, key ≤ x.compositeKey)
    (enough : (pending sources).length ≤ fuel) :
    (labelled (skipKey key fuel sources)).Perm ((labelled sources).filter fun x => x.2.compositeKey ≠ key) ∧
      Sorted (skipKey key fuel sources) := by
  induction fuel generalizing sources with
  | zero =>
    have nothing : pending sources = [] := List.length_eq_zero_iff.mp (Nat.le_zero.mp enough)
    have none_labelled : labelled sources = [] :=
      List.map_eq_nil_iff.mp ((labelled_snd sources).trans nothing)
    simp [skipKey, none_labelled, sorted]
  | succ fuel ih =>
    unfold skipKey
    cases top : maxBy HeapItem.beats (heap sources) with
    | none =>
      have none_labelled : labelled sources = [] :=
        List.map_eq_nil_iff.mp ((labelled_snd sources).trans (pending_of_no_top top))
      simp only
      rw [none_labelled]
      exact ⟨.refl _, sorted⟩
    | some item =>
      obtain ⟨source, head, -, -, same, -, next⟩ := nextEntry_of_top top
      obtain ⟨perm, sorted', before⟩ := nextEntry_spec sorted next
      obtain ⟨id, drawn, -⟩ := nextEntry_drawn next
      simp only
      split
      · rename_i equal
        simp only [next]
        have shorter := perm.length_eq
        simp only [List.length_cons] at shorter
        obtain ⟨rest_perm, rest_sorted⟩ := ih sorted'
          (fun x member => least x (perm.mem_iff.mpr (List.mem_cons_of_mem _ member))) (by omega)
        refine ⟨rest_perm.trans ?_, rest_sorted⟩
        have filtered := (drawn.filter fun x => x.2.compositeKey ≠ key).symm
        rwa [List.filter_cons_of_neg (by simp [same, equal])] at filtered
      · rename_i different
        refine ⟨?_, sorted⟩
        rw [List.filter_eq_self.mpr]
        intro x member
        have above := least head (perm.mem_iff.mpr List.mem_cons_self)
        rw [same] at above
        have order := (before x.2 (mem_pending.mpr ⟨x.1, member⟩)).key_le
        rw [same] at order
        have less : key < x.2.compositeKey :=
          (lt_of_le_of_ne above (fun eq => different eq.symm)).trans_le order
        simp [less.ne']

/-- `next_deduped` gives the first version of the smallest key and drops the key. -/
theorem nextDeduped_drawn (sorted : Sorted sources) (h : nextDeduped sources = some (e, rest)) :
    ∃ id, (id, e) ∈ labelled sources ∧ (∀ x ∈ labelled sources, MergeEntry.DrawnBefore (id, e) x) ∧
      (labelled rest).Perm ((labelled sources).filter fun x => x.2.compositeKey ≠ e.compositeKey) ∧
        Sorted rest := by
  obtain ⟨⟨entry, middle⟩, next, same⟩ := Option.map_eq_some_iff.mp h
  obtain ⟨rfl, rfl⟩ := Prod.mk.inj same
  obtain ⟨id, drawn, order⟩ := nextEntry_drawn next
  obtain ⟨sorted', before⟩ := order sorted
  have least : ∀ x ∈ pending middle, entry.compositeKey ≤ x.compositeKey := by
    intro x member
    obtain ⟨other, held⟩ := mem_pending.mp member
    exact (before _ (drawn.mem_iff.mpr (List.mem_cons_of_mem _ held))).precedes.key_le
  obtain ⟨skipped, sorted''⟩ := skipKey_labelled (remaining middle) sorted' least
    (remaining_eq middle).ge
  refine ⟨id, drawn.mem_iff.mpr List.mem_cons_self, before, skipped.trans ?_, sorted''⟩
  have filtered := (drawn.filter fun x => x.2.compositeKey ≠ entry.compositeKey).symm
  rwa [List.filter_cons_of_neg (by simp)] at filtered

theorem nextDeduped_spec (sorted : Sorted sources) (h : nextDeduped sources = some (e, rest)) :
    e ∈ pending sources ∧ (∀ x ∈ pending sources, x.compositeKey = e.compositeKey →
      x.sequenceNumber ≤ e.sequenceNumber) ∧
      (pending rest).Perm ((pending sources).filter fun x => x.compositeKey ≠ e.compositeKey) ∧
        Sorted rest ∧
      ∀ x ∈ pending rest, e.compositeKey < x.compositeKey := by
  obtain ⟨id, drawn, before, left, sorted'⟩ := nextDeduped_drawn sorted h
  have first : ∀ x ∈ pending sources, e.Precedes x := by
    intro x member
    obtain ⟨other, held⟩ := mem_pending.mp member
    exact (before _ held).precedes
  have perm : (pending rest).Perm ((pending sources).filter fun x => x.compositeKey ≠ e.compositeKey) := by
    have mapped := left.map Prod.snd
    rw [labelled_snd] at mapped
    rwa [← labelled_snd sources, List.filter_map]
  refine ⟨mem_pending.mpr ⟨id, drawn⟩, ?_, perm, sorted', ?_⟩
  · intro x member key
    rcases first x member with less | ⟨-, newer⟩
    · exact absurd key less.ne'
    · exact newer
  · intro x member
    obtain ⟨inside, different⟩ := List.mem_filter.mp (perm.mem_iff.mp member)
    exact lt_of_le_of_ne (first x inside).key_le (fun eq => (of_decide_eq_true different) eq.symm)

/-- The newest version of every key, in the order of the keys. -/
structure Deduped (all out : List MergeEntry) : Prop where
  ascends : out.Pairwise fun a b => a.compositeKey < b.compositeKey
  newest : ∀ x ∈ out, x ∈ all ∧ ∀ y ∈ all, y.compositeKey = x.compositeKey →
    y.sequenceNumber ≤ x.sequenceNumber
  complete : ∀ y ∈ all, ∃ x ∈ out, x.compositeKey = y.compositeKey

theorem collectFrom_deduped (fuel : Nat) (sorted : Sorted sources)
    (enough : (pending sources).length ≤ fuel) :
    Deduped (pending sources) (collectFrom fuel sources) := by
  induction fuel generalizing sources with
  | zero =>
    have nothing : pending sources = [] := List.length_eq_zero_iff.mp (Nat.le_zero.mp enough)
    exact ⟨.nil, by simp [collectFrom], by simp [nothing]⟩
  | succ fuel ih =>
    unfold collectFrom
    split
    · rename_i ended
      have nothing : pending sources = [] := nextEntry_none (Option.map_eq_none_iff.mp ended)
      exact ⟨.nil, by simp, by simp [nothing]⟩
    · rename_i entry rest next
      obtain ⟨member, newest, perm, sorted', above⟩ := nextDeduped_spec sorted next
      have inside : ∀ {x}, x ∈ pending rest ↔ x ∈ pending sources ∧
          x.compositeKey ≠ entry.compositeKey := by
        intro x
        rw [perm.mem_iff, List.mem_filter]
        simp
      have fewer : (pending rest).length ≤ fuel := by
        have := perm.length_eq
        have : ((pending sources).filter fun x => x.compositeKey ≠ entry.compositeKey).length <
          (pending sources).length :=
          List.length_filter_lt_length_iff_exists.mpr ⟨entry, member, by simp⟩
        omega
      obtain ⟨ascends, later, complete⟩ := ih sorted' fewer
      refine ⟨List.pairwise_cons.mpr ⟨fun x listed => above x (later x listed).1, ascends⟩, ?_, ?_⟩
      · intro x listed
        rcases List.mem_cons.mp listed with rfl | listed
        · exact ⟨member, newest⟩
        · obtain ⟨held, best⟩ := later x listed
          refine ⟨(inside.mp held).1, ?_⟩
          intro y present same
          exact best y (inside.mpr ⟨present, same ▸ (inside.mp held).2⟩) same
      · intro y present
        by_cases same : y.compositeKey = entry.compositeKey
        · exact ⟨entry, List.mem_cons_self, same.symm⟩
        · obtain ⟨x, listed, key⟩ := complete y (inside.mpr ⟨present, same⟩)
          exact ⟨x, List.mem_cons_of_mem _ listed, key⟩

theorem collectDeduped_spec (sorted : Sorted sources) :
    Deduped (pending sources) (collectDeduped sources) :=
  collectFrom_deduped _ sorted (remaining_eq sources).ge

end Correctness

end MergeIterator

end FlushDB
