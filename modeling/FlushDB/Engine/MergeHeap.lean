import FlushDB.Engine.MergeIterator
import FlushDB.Lib.Run
import Mathlib.Data.List.Nodup

/-!
The merge iterator with the heap it keeps: the heap holds the head of every source that is
not exhausted, so the iterator draws what a search of all heads would, and what it draws is
the sorted merge of the sources.
-/

namespace FlushDB
open Lib

/-- Which of several greatest items a heap gives up is not fixed. -/
structure BinaryHeap where
  pop : List HeapItem → Option (HeapItem × List HeapItem)
  pop_none : ∀ items, pop items = none → items = []
  pop_perm : ∀ items top rest, pop items = some (top, rest) → items.Perm (top :: rest)
  pop_max : ∀ items top rest, pop items = some (top, rest) → ∀ x ∈ items, x.beats top = false

namespace BinaryHeap

def peek (binaryHeap : BinaryHeap) (items : List HeapItem) : Option HeapItem :=
  (binaryHeap.pop items).map Prod.fst

/-- The heap that gives up the first of the greatest items. -/
def scanning : BinaryHeap where
  pop items := (maxBy HeapItem.beats items).map fun top => (top, items.erase top)
  pop_none := by
    intro items ended
    exact maxBy_eq_none (Option.map_eq_none_iff.mp ended)
  pop_perm := by
    intro items top rest popped
    obtain ⟨found, best, same⟩ := Option.map_eq_some_iff.mp popped
    obtain ⟨rfl, rfl⟩ := Prod.mk.inj same
    exact List.perm_cons_erase (maxBy_mem best)
  pop_max := by
    intro items top rest popped
    obtain ⟨found, best, same⟩ := Option.map_eq_some_iff.mp popped
    obtain ⟨rfl, rfl⟩ := Prod.mk.inj same
    exact maxBy_unbeaten HeapItem.beats_asymm HeapItem.beats_false_trans best

end BinaryHeap

structure HeapMergeIterator where
  heap : List HeapItem
  sources : List VecSource

namespace HeapMergeIterator

def new (sources : List VecSource) : HeapMergeIterator where
  heap := MergeIterator.heap sources
  sources := sources

/-- An item of the heap whose source has nothing left would be a panic, and gives `none` here. -/
def nextEntry (binaryHeap : BinaryHeap) (it : HeapMergeIterator) :
    Option (MergeEntry × HeapMergeIterator) := do
  let (item, popped) ← binaryHeap.pop it.heap
  let source ← it.sources[item.sourceIdx]?
  let entry ← source.peek
  let source := source.advance
  let heap := match source.peek with
    | some next => ⟨next.compositeKey, next.sequenceNumber, item.sourceIdx, item.sourceId⟩ :: popped
    | none => popped
  return (entry, ⟨heap, it.sources.set item.sourceIdx source⟩)

/-- Drops the entries of `key` from the front; `fuel` bounds their number. -/
def skipKey (binaryHeap : BinaryHeap) (key : CompositeKey) :
    Nat → HeapMergeIterator → HeapMergeIterator
  | 0, it => it
  | fuel + 1, it =>
    match binaryHeap.peek it.heap with
    | none => it
    | some top =>
      if top.key = key then
        match it.nextEntry binaryHeap with
        | some (_, rest) => skipKey binaryHeap key fuel rest
        | none => it
      else it

def nextDeduped (binaryHeap : BinaryHeap) (it : HeapMergeIterator) :
    Option (MergeEntry × HeapMergeIterator) :=
  (it.nextEntry binaryHeap).map fun (entry, rest) =>
    (entry, skipKey binaryHeap entry.compositeKey (MergeIterator.remaining rest.sources) rest)

section Correctness
variable {binaryHeap : BinaryHeap} {it : HeapMergeIterator} {sources : List VecSource}

/-- The heap holds the head of every source, and the ids tell the sources apart. -/
structure Heads (it : HeapMergeIterator) : Prop where
  heads : it.heap.Perm (MergeIterator.heap it.sources)
  distinct : (it.sources.map VecSource.sourceId).Nodup

theorem heads_new (distinct : (sources.map VecSource.sourceId).Nodup) : (new sources).Heads :=
  ⟨.refl _, distinct⟩

/-- What a source contributes to the heap. -/
def headItem (idx : Nat) (source : VecSource) : List HeapItem :=
  (source.peek.map fun e => ⟨e.compositeKey, e.sequenceNumber, idx, source.sourceId⟩).toList

/-- Another source in one place changes its item only. -/
theorem heap_set {i : Nat} {source : VecSource} (found : sources[i]? = some source)
    (source' : VecSource) :
    ∃ others, (MergeIterator.heap sources).Perm (headItem i source ++ others) ∧
      (MergeIterator.heap (sources.set i source')).Perm (headItem i source' ++ others) := by
  obtain ⟨bound, -⟩ := List.getElem?_eq_some_iff.mp found
  have length : (sources.take i).length = i := by
    rw [List.length_take]
    omega
  have parts : ∀ s : VecSource, MergeIterator.heap (sources.take i ++ s :: sources.drop (i + 1)) =
      MergeIterator.heap (sources.take i) ++ (headItem i s ++ (((sources.drop (i + 1)).zipIdx (i + 1)).filterMap
        fun s => s.1.peek.map fun e => ⟨e.compositeKey, e.sequenceNumber, s.2, s.1.sourceId⟩)) := by
    intro s
    unfold MergeIterator.heap headItem
    rw [List.zipIdx_append, List.filterMap_append, length, Nat.zero_add, List.zipIdx_cons,
      List.filterMap_cons]
    dsimp only
    cases s.peek <;> rfl
  refine ⟨MergeIterator.heap (sources.take i) ++ ((sources.drop (i + 1)).zipIdx (i + 1)).filterMap
    fun s => s.1.peek.map fun e => ⟨e.compositeKey, e.sequenceNumber, s.2, s.1.sourceId⟩, ?_, ?_⟩
  · conv_lhs => rw [eq_take_cons_drop found, parts]
    rw [← List.append_assoc, ← List.append_assoc]
    exact List.perm_append_comm.append_right _
  · rw [List.set_eq_take_append_cons_drop, if_pos bound, parts, ← List.append_assoc,
      ← List.append_assoc]
    exact List.perm_append_comm.append_right _

theorem top_unique (distinct : (sources.map VecSource.sourceId).Nodup) {a b : HeapItem}
    (first : a ∈ MergeIterator.heap sources) (second : b ∈ MergeIterator.heap sources)
    (unbeaten : b.beats a = false) (unbeaten' : a.beats b = false) : a = b := by
  obtain ⟨source, head, listed, leads, key, seq, id⟩ := MergeIterator.mem_heap.mp first
  obtain ⟨source', head', listed', leads', key', seq', id'⟩ := MergeIterator.mem_heap.mp second
  rw [Bool.eq_false_iff, Ne, HeapItem.beats_iff] at unbeaten unbeaten'
  simp only [not_or, not_and, not_lt] at unbeaten unbeaten'
  have same_key : a.key = b.key := le_antisymm unbeaten.1 unbeaten'.1
  have forward := unbeaten.2 same_key.symm
  have backward := unbeaten'.2 same_key
  have same_seq : a.seq = b.seq := by omega
  have same_id : a.sourceId = b.sourceId := by omega
  obtain ⟨bound, here⟩ := List.getElem?_eq_some_iff.mp listed
  obtain ⟨bound', here'⟩ := List.getElem?_eq_some_iff.mp listed'
  have same_idx : a.sourceIdx = b.sourceIdx := by
    refine (@List.Nodup.getElem_inj_iff _ _ distinct _ (by simpa using bound) _ (by simpa using bound')).mp ?_
    rw [List.getElem_map, List.getElem_map, here, here', ← id, ← id']
    exact same_id
  cases a
  cases b
  simp_all

/-- The top of the heap is the one that a search of the heads finds. -/
theorem pop_eq (holds : it.Heads) {top : HeapItem} {popped : List HeapItem}
    (h : binaryHeap.pop it.heap = some (top, popped)) :
    maxBy HeapItem.beats (MergeIterator.heap it.sources) = some top := by
  have member : top ∈ MergeIterator.heap it.sources :=
    holds.heads.mem_iff.mp ((binaryHeap.pop_perm _ _ _ h).mem_iff.mpr List.mem_cons_self)
  cases best : maxBy HeapItem.beats (MergeIterator.heap it.sources) with
  | none =>
    rw [maxBy_eq_none best] at member
    cases member
  | some found =>
    have listed := maxBy_mem best
    have unbeaten := maxBy_unbeaten HeapItem.beats_asymm HeapItem.beats_false_trans best top member
    have unbeaten' := binaryHeap.pop_max _ _ _ h found (holds.heads.mem_iff.mpr listed)
    rw [top_unique holds.distinct member listed unbeaten' unbeaten]

theorem pop_none (holds : it.Heads) (h : binaryHeap.pop it.heap = none) :
    maxBy HeapItem.beats (MergeIterator.heap it.sources) = none := by
  have empty : MergeIterator.heap it.sources = [] :=
    List.Perm.nil_eq (binaryHeap.pop_none _ h ▸ holds.heads) |>.symm
  rw [empty]
  rfl

/-- Each call draws what a search of the heads draws. -/
theorem nextEntry_sim (binaryHeap : BinaryHeap) (holds : it.Heads) :
    (it.nextEntry binaryHeap = none ∧ MergeIterator.nextEntry it.sources = none) ∨
    ∃ e it', it.nextEntry binaryHeap = some (e, it') ∧
      MergeIterator.nextEntry it.sources = some (e, it'.sources) ∧
      it'.Heads := by
  cases popped : binaryHeap.pop it.heap with
  | none =>
    left
    exact ⟨by simp [nextEntry, popped], by simp [MergeIterator.nextEntry, pop_none holds popped]⟩
  | some found =>
    right
    obtain ⟨top, rest⟩ := found
    obtain ⟨source, head, listed, entries, key, seq, next⟩ :=
      MergeIterator.nextEntry_of_top (pop_eq holds popped)
    obtain ⟨source', -, listed', -, -, -, id⟩ :=
      MergeIterator.mem_heap.mp (maxBy_mem (pop_eq holds popped))
    obtain rfl := Option.some.inj (listed.symm.trans listed')
    have peeked : source.peek = some head := by rw [VecSource.peek, entries]; rfl
    have again : it.nextEntry binaryHeap = some (head, ⟨headItem top.sourceIdx source.advance ++ rest,
        it.sources.set top.sourceIdx source.advance⟩) := by
      simp only [nextEntry, popped, listed, peeked, headItem, id, Option.bind_eq_bind,
        Option.bind_some, Option.pure_def]
      cases source.advance.peek <;> rfl
    refine ⟨_, _, again, next, ?_, ?_⟩
    · obtain ⟨others, before, after⟩ := heap_set listed source.advance
      have item : headItem top.sourceIdx source = [top] := by
        simp only [headItem, peeked, Option.map_some, Option.toList_some, key, seq, ← id]
      rw [item] at before
      have left : rest.Perm others :=
        List.Perm.cons_inv (((binaryHeap.pop_perm _ _ _ popped).symm.trans holds.heads).trans before)
      exact (left.append_left _).trans after.symm
    · have ids : (it.sources.set top.sourceIdx source.advance).map VecSource.sourceId =
          it.sources.map VecSource.sourceId := by
        obtain ⟨bound, here⟩ := List.getElem?_eq_some_iff.mp listed
        rw [List.map_set]
        refine List.ext_getElem? ?_
        intro j
        rw [List.getElem?_set]
        split
        · rename_i equal
          subst equal
          simp [bound, here, VecSource.advance]
        · rfl
      rw [ids]
      exact holds.distinct

theorem skipKey_sim (binaryHeap : BinaryHeap) (holds : it.Heads) (key : CompositeKey) (fuel : Nat) :
    (skipKey binaryHeap key fuel it).sources = MergeIterator.skipKey key fuel it.sources ∧
      (skipKey binaryHeap key fuel it).Heads := by
  induction fuel generalizing it with
  | zero => exact ⟨rfl, holds⟩
  | succ fuel ih =>
    unfold skipKey MergeIterator.skipKey BinaryHeap.peek
    cases popped : binaryHeap.pop it.heap with
    | none =>
      rw [pop_none holds popped]
      exact ⟨rfl, holds⟩
    | some found =>
      rw [pop_eq holds popped]
      dsimp only [Option.map_some]
      split
      · rcases nextEntry_sim binaryHeap holds with ⟨ended, ended'⟩ | ⟨e, it', given, given', again⟩
        · simp only [ended, ended']
          exact ⟨trivial, holds⟩
        · simp only [given, given']
          exact ih again
      · exact ⟨rfl, holds⟩

theorem nextDeduped_sim (binaryHeap : BinaryHeap) (holds : it.Heads) :
    (it.nextDeduped binaryHeap = none ∧ MergeIterator.nextDeduped it.sources = none) ∨
      ∃ e it', it.nextDeduped binaryHeap = some (e, it') ∧
        MergeIterator.nextDeduped it.sources = some (e, it'.sources) ∧
        it'.Heads := by
  rcases nextEntry_sim binaryHeap holds with ⟨ended, ended'⟩ | ⟨e, it', given, given', again⟩
  · left
    exact ⟨by simp [nextDeduped, ended], by simp [MergeIterator.nextDeduped, ended']⟩
  · right
    obtain ⟨same, holds'⟩ := skipKey_sim binaryHeap again e.compositeKey
      (MergeIterator.remaining it'.sources)
    refine ⟨e, _, by rw [nextDeduped, given]; rfl, ?_, holds'⟩
    rw [MergeIterator.nextDeduped, given', Option.map_some, same]

/-- What `next_entry` gives until it returns `None`. -/
def collectEntries (binaryHeap : BinaryHeap) (sources : List VecSource) :
    Option (List MergeEntry) :=
  drain (nextEntry binaryHeap) (MergeIterator.remaining sources + 1) (new sources)

/-- What `next_deduped` gives until it returns `None`. -/
def collectDeduped (binaryHeap : BinaryHeap) (sources : List VecSource) :
    Option (List MergeEntry) :=
  drain (nextDeduped binaryHeap) (MergeIterator.remaining sources + 1) (new sources)

/-- Drawing until nothing is left gives every entry once, in the order of the merge. -/
theorem drain_nextEntry (sorted : MergeIterator.Sorted sources) {fuel : Nat}
    (enough : (MergeIterator.labelled sources).length ≤ fuel) :
    ∃ drawn : List (Nat × MergeEntry), drain MergeIterator.nextEntry (fuel + 1) sources =
      some (drawn.map Prod.snd) ∧
      drawn.Perm (MergeIterator.labelled sources) ∧ drawn.Pairwise MergeEntry.DrawnBefore := by
  induction fuel generalizing sources with
  | zero =>
    have nothing : MergeIterator.labelled sources = [] :=
      List.length_eq_zero_iff.mp (Nat.le_zero.mp enough)
    refine ⟨[], ?_, by rw [nothing], .nil⟩
    cases next : MergeIterator.nextEntry sources with
    | none => simp [drain, next]
    | some found =>
      obtain ⟨id, perm, -⟩ := MergeIterator.nextEntry_drawn next
      rw [nothing] at perm
      cases perm.nil_eq
  | succ fuel ih =>
    cases next : MergeIterator.nextEntry sources with
    | none =>
      have nothing : MergeIterator.labelled sources = [] :=
        List.map_eq_nil_iff.mp ((MergeIterator.labelled_snd sources).trans (MergeIterator.nextEntry_none next))
      exact ⟨[], by simp [drain, next], by rw [nothing], .nil⟩
    | some found =>
      obtain ⟨e, rest⟩ := found
      obtain ⟨id, perm, order⟩ := MergeIterator.nextEntry_drawn next
      obtain ⟨sorted', before⟩ := order sorted
      have fewer := perm.length_eq
      rw [List.length_cons] at fewer
      obtain ⟨drawn, given, all, ascends⟩ := ih sorted' (by omega)
      refine ⟨(id, e) :: drawn, ?_, (all.cons _).trans perm.symm, List.pairwise_cons.mpr ⟨?_, ascends⟩⟩
      · rw [drain_cons next, given]
        rfl
      · intro x member
        exact before x (perm.mem_iff.mpr (List.mem_cons_of_mem _ (all.mem_iff.mp member)))

/-- Of every key the first version, and the keys ascend. -/
structure FirstOfKeys (all : List (Nat × MergeEntry)) (out : List MergeEntry) : Prop where
  ascends : out.Pairwise fun a b => a.compositeKey < b.compositeKey
  keys : ∀ key, (∃ e ∈ out, e.compositeKey = key) ↔ ∃ x ∈ all, x.2.compositeKey = key
  first : ∀ e ∈ out, ∃ id, (id, e) ∈ all ∧ ∀ x ∈ all, x.2.compositeKey = e.compositeKey →
    x.2.sequenceNumber < e.sequenceNumber ∨ (x.2.sequenceNumber = e.sequenceNumber ∧ id ≤ x.1)

theorem drain_nextDeduped (sorted : MergeIterator.Sorted sources) {fuel : Nat}
    (enough : (MergeIterator.labelled sources).length ≤ fuel) :
    ∃ out, drain MergeIterator.nextDeduped (fuel + 1) sources = some out ∧
      FirstOfKeys (MergeIterator.labelled sources) out := by
  induction fuel generalizing sources with
  | zero =>
    have nothing : MergeIterator.labelled sources = [] :=
      List.length_eq_zero_iff.mp (Nat.le_zero.mp enough)
    refine ⟨[], ?_, .nil, by simp [nothing], by simp⟩
    cases next : MergeIterator.nextDeduped sources with
    | none => simp [drain, next]
    | some found =>
      obtain ⟨id, member, -⟩ := MergeIterator.nextDeduped_drawn sorted next
      rw [nothing] at member
      cases member
  | succ fuel ih =>
    cases next : MergeIterator.nextDeduped sources with
    | none =>
      have nothing : MergeIterator.labelled sources = [] := List.map_eq_nil_iff.mp
        ((MergeIterator.labelled_snd sources).trans
          (MergeIterator.nextEntry_none (Option.map_eq_none_iff.mp next)))
      exact ⟨[], by simp [drain, next], .nil, by simp [nothing], by simp⟩
    | some found =>
      obtain ⟨e, rest⟩ := found
      obtain ⟨id, member, before, left, sorted'⟩ := MergeIterator.nextDeduped_drawn sorted next
      have inside : ∀ x, x ∈ MergeIterator.labelled rest ↔
          x ∈ MergeIterator.labelled sources ∧ x.2.compositeKey ≠ e.compositeKey := by
        intro x
        rw [left.mem_iff, List.mem_filter, decide_eq_true_eq]
      have fewer : (MergeIterator.labelled rest).length < (MergeIterator.labelled sources).length := by
        rw [left.length_eq]
        exact List.length_filter_lt_length_iff_exists.mpr ⟨(id, e), member, by simp⟩
      obtain ⟨out, given, ascends, keys, first⟩ := ih sorted' (by omega)
      refine ⟨e :: out, by rw [drain_cons next, given]; rfl, ?_, ?_, ?_⟩
      · refine List.pairwise_cons.mpr ⟨?_, ascends⟩
        intro x listed
        obtain ⟨other, held, -⟩ := first x listed
        obtain ⟨present, different⟩ := (inside _).mp held
        exact lt_of_le_of_ne (before _ present).precedes.key_le (Ne.symm different)
      · intro key
        by_cases same : e.compositeKey = key
        · exact ⟨fun _ => ⟨(id, e), member, same⟩, fun _ => ⟨e, List.mem_cons_self, same⟩⟩
        · have others : (∃ x ∈ MergeIterator.labelled sources, x.2.compositeKey = key) ↔
              ∃ x ∈ MergeIterator.labelled rest, x.2.compositeKey = key := by
            constructor
            · rintro ⟨x, present, at_key⟩
              exact ⟨x, (inside x).mpr ⟨present, fun equal => same (equal ▸ at_key)⟩, at_key⟩
            · rintro ⟨x, held, at_key⟩
              exact ⟨x, ((inside x).mp held).1, at_key⟩
          rw [others, ← keys]
          simp [same]
      · intro x listed
        rcases List.mem_cons.mp listed with rfl | later
        · refine ⟨id, member, ?_⟩
          intro y present at_key
          rcases before y present with less | ⟨-, order⟩
          · exact absurd at_key less.ne'
          · dsimp only at order
            omega
        · obtain ⟨other, held, best⟩ := first x later
          obtain ⟨present, different⟩ := (inside _).mp held
          refine ⟨other, present, ?_⟩
          intro y there at_key
          exact best y ((inside y).mpr ⟨there, at_key ▸ different⟩) at_key

theorem enough_calls (sources : List VecSource) :
    (MergeIterator.labelled sources).length ≤ MergeIterator.remaining sources := by
  rw [MergeIterator.remaining_eq, ← MergeIterator.labelled_snd, List.length_map]

/-- The iterator ends, `next_entry` gives the sorted merge of the sources and `next_deduped` the
first version of each key. -/
theorem collect_merges (binaryHeap : BinaryHeap) (distinct : (sources.map VecSource.sourceId).Nodup)
    (sorted : ∀ s ∈ sources, s.entries.Pairwise MergeEntry.Precedes) :
    (∃ drawn : List (Nat × MergeEntry), collectEntries binaryHeap sources = some (drawn.map Prod.snd) ∧
      drawn.Perm (MergeIterator.labelled sources) ∧ drawn.Pairwise MergeEntry.DrawnBefore) ∧
    ∃ out, collectDeduped binaryHeap sources = some out ∧
      FirstOfKeys (MergeIterator.labelled sources) out := by
  have start := heads_new distinct
  constructor
  · have same : collectEntries binaryHeap sources =
        drain MergeIterator.nextEntry (MergeIterator.remaining sources + 1) sources := by
      refine @drain_sim _ _ _ _ _ (fun it sources => it.Heads ∧ it.sources = sources) ?_ _ _
        ⟨start, rfl⟩ _
      rintro it _ ⟨holds, rfl⟩
      rcases nextEntry_sim binaryHeap holds with ended | ⟨e, it', given, given', again⟩
      · exact Or.inl ended
      · exact Or.inr ⟨e, it', it'.sources, given, given', again, rfl⟩
    rw [same]
    exact drain_nextEntry sorted (enough_calls sources)
  · have same : collectDeduped binaryHeap sources =
        drain MergeIterator.nextDeduped (MergeIterator.remaining sources + 1) sources := by
      refine @drain_sim _ _ _ _ _ (fun it sources => it.Heads ∧ it.sources = sources) ?_ _ _
        ⟨start, rfl⟩ _
      rintro it _ ⟨holds, rfl⟩
      rcases nextDeduped_sim binaryHeap holds with ended | ⟨e, it', given, given', again⟩
      · exact Or.inl ended
      · exact Or.inr ⟨e, it', it'.sources, given, given', again, rfl⟩
    rw [same]
    exact drain_nextDeduped sorted (enough_calls sources)

end Correctness

/-- Two sources that hold the same version of a key, one of them with an older version behind it. -/
def tiedSources : List VecSource :=
  let at_seq : Nat → MergeEntry :=
    fun seq => ⟨CompositeKey.encode ⟨[114]⟩ [97], ⟨[]⟩, ⟨[]⟩, .put, seq, 0⟩
  [⟨[at_seq 7, at_seq 3], 4⟩, ⟨[at_seq 7], 1⟩]

theorem collect_merges_tied :
    (tiedSources.map VecSource.sourceId).Nodup ∧
      (∀ s ∈ tiedSources, s.entries.Pairwise MergeEntry.Precedes) ∧
      ∃ out, collectDeduped .scanning tiedSources = some out ∧
        FirstOfKeys (MergeIterator.labelled tiedSources) out := by
  have distinct : (tiedSources.map VecSource.sourceId).Nodup := by decide
  have sorted : ∀ s ∈ tiedSources, s.entries.Pairwise MergeEntry.Precedes := by decide
  exact ⟨distinct, sorted, (collect_merges .scanning distinct sorted).2⟩

end HeapMergeIterator

end FlushDB
