import FlushDB.Engine.RangeScan
import FlushDB.Lib.Chain

/-!
The skip list as the memtable keeps it: nodes in one vector, the first of them a sentinel, each
with an index of its successor on every level below its height. Heights are drawn outside.
Whatever heights are drawn, the list behaves as its bottom chain does.
-/

namespace FlushDB.Linked
open Lib MemtableEntry

def maxHeight : Nat := 12

structure SkipNode where
  entry : MemtableEntry
  height : Nat
  next : Nat → Option Nat

namespace SkipNode

def new (entry : MemtableEntry) (height : Nat) : SkipNode where
  entry := entry
  height := height
  next _ := none

/-- The bytes of `__sentinel__`. -/
def sentinelId : Bytes := ⟨[95, 95, 115, 101, 110, 116, 105, 110, 101, 108, 95, 95]⟩

def sentinel : SkipNode where
  entry := ⟨CompositeKey.encode sentinelId [], ⟨[]⟩, ⟨[]⟩, .none, 0, .put, 0⟩
  height := maxHeight
  next _ := none

end SkipNode

/-- The sentinel has the index 0. -/
structure SkipList where
  nodes : List SkipNode := [.sentinel]
  height : Nat := 1
  len : Nat := 0

namespace SkipList

/-- An index behind the end would be a panic, and has no successor here. -/
def next (list : SkipList) (level idx : Nat) : Option Nat :=
  (list.nodes[idx]?).bind fun node => node.next level

def entryAt (list : SkipList) (idx : Nat) : Option MemtableEntry :=
  (list.nodes[idx]?).map SkipNode.entry

def heightAt (list : SkipList) (idx : Nat) : Nat := ((list.nodes[idx]?).map SkipNode.height).getD 0

/-- Goes right on a level while the entry of the next node passes the test. -/
def advance (list : SkipList) (less : MemtableEntry → Bool) (level current : Nat) : Nat :=
  walk (list.next level) (fun idx => (list.entryAt idx).any less) list.nodes.length current

/-- From the level below the given one down to the bottom; `update` keeps where the walk has left
each level. -/
def descend (list : SkipList) (less : MemtableEntry → Bool) :
    Nat → Nat → (Nat → Nat) → Nat × (Nat → Nat)
  | 0, current, update => (current, update)
  | level + 1, current, update =>
    let current := list.advance less level current
    descend list less level current fun l => if l = level then current else update l

/-- The new node takes over the successor of `prev` on a level and becomes its successor. -/
def link (newIdx prev level : Nat) (nodes : List SkipNode) : List SkipNode :=
  let successor := (nodes[prev]?).bind fun node => node.next level
  let set (link : Option Nat) (node : SkipNode) : SkipNode :=
    { node with next := fun l => if l = level then link else node.next l }
  (nodes.modify newIdx (set successor)).modify prev (set (some newIdx))

def insert (list : SkipList) (entry : MemtableEntry) (height : Nat) : SkipList :=
  let list := { list with height := if height > list.height then height else list.height }
  let (_, update) := list.descend (fun node => compareEntries node entry = .lt) list.height 0 fun _ => 0
  let found := (list.next 0 (update 0)).filter fun idx => (list.entryAt idx).any fun node =>
    node.compositeKey = entry.compositeKey ∧ node.sequenceNumber = entry.sequenceNumber
  match found with
  | some idx =>
    { list with nodes := list.nodes.modify idx fun node => { node with entry := { node.entry with
        value := entry.value, metadata := entry.metadata, entryType := entry.entryType,
        idempotencyKey := entry.idempotencyKey, origin := entry.origin } } }
  | none =>
    let newIdx := list.nodes.length
    { list with
      nodes := (List.range (min height maxHeight)).foldl
        (fun nodes level => link newIdx (update level) level nodes)
        (list.nodes ++ [.new entry height])
      len := list.len + 1 }

/-- Where a search from the head ends on the bottom level. -/
def search (list : SkipList) (less : MemtableEntry → Bool) : Nat :=
  (list.descend less list.height 0 fun _ => 0).1

def get (list : SkipList) (key : CompositeKey) : Option MemtableEntry :=
  let current := list.search fun node => compare node.compositeKey key = .lt
  ((list.next 0 current).bind list.entryAt).filter fun node => node.compositeKey = key

def seekTo (list : SkipList) (key : CompositeKey) : Option Nat :=
  list.next 0 (list.search fun node => node.compositeKey < key)

end SkipList

inductive StopCondition where
  | none
  | beforeKey (endKey : CompositeKey)
  | recordBoundary (recordId : Bytes)

def StopCondition.stops (stop : StopCondition) (node : MemtableEntry) : Bool :=
  match stop with
  | .none => false
  | .beforeKey endKey => endKey ≤ node.compositeKey
  | .recordBoundary recordId => node.recordId ≠ recordId

structure SkipListIterator where
  skiplist : SkipList
  current : Option Nat
  stop : StopCondition

namespace SkipListIterator

/-- An iterator that has stopped is not asked again. -/
def next (it : SkipListIterator) : Option (MemtableEntry × SkipListIterator) := do
  let idx ← it.current
  let node ← it.skiplist.entryAt idx
  if it.stop.stops node then none
  else some (node, { it with current := it.skiplist.next 0 idx })

/-- All that the iterator gives; `none` when it gives more than there are nodes. -/
def collect (it : SkipListIterator) : Option (List MemtableEntry) :=
  drain next (it.skiplist.nodes.length + 1) it

end SkipListIterator

namespace SkipList

def iter (list : SkipList) : SkipListIterator := ⟨list, list.next 0 0, .none⟩

def range (list : SkipList) (start stop : CompositeKey) : SkipListIterator :=
  ⟨list, list.seekTo start, .beforeKey stop⟩

def rangeFrom (list : SkipList) (start : CompositeKey) : SkipListIterator :=
  ⟨list, list.seekTo start, .none⟩

def scanRecord (list : SkipList) (recordId : Bytes) : SkipListIterator :=
  match CompositeKey.minKeyForRecord recordId with
  | .error _ => ⟨list, none, .none⟩
  | .ok minKey => ⟨list, list.seekTo minKey, .recordBoundary recordId⟩

/-- The indexes of the bottom chain; `none` when it has more than there are nodes. -/
def idxOrder (list : SkipList) : Option (List Nat) :=
  drain (fun current : Option Nat => current.map fun idx => (idx, list.next 0 idx))
    (list.nodes.length + 1) (list.next 0 0)

/-- Takes the nodes out of the vector one by one, each only once. -/
def takeNodes : List Nat → List (Option SkipNode) → List SkipNode
  | [], _ => []
  | idx :: rest, nodesMap =>
    match nodesMap[idx]?.join with
    | some node => node :: takeNodes rest (nodesMap.set idx none)
    | none => takeNodes rest nodesMap

def intoIter (list : SkipList) : Option (List MemtableEntry) :=
  list.idxOrder.map fun order => (takeNodes order (list.nodes.map some)).map SkipNode.entry

end SkipList

section Links
variable {nodes : List SkipNode}

def nextIn (nodes : List SkipNode) (level idx : Nat) : Option Nat :=
  (nodes[idx]?).bind fun node => node.next level

theorem link_next {newIdx prev k : Nat} (inside : newIdx < nodes.length)
    (inside' : prev < nodes.length) (apart : prev ≠ newIdx) (level idx : Nat) :
    nextIn (SkipList.link newIdx prev k nodes) level idx =
      if level = k then if idx = newIdx then nextIn nodes k prev else if idx = prev then some newIdx
        else nextIn nodes level idx
      else nextIn nodes level idx := by
  unfold nextIn SkipList.link
  simp only [List.getElem?_modify]
  by_cases new : idx = newIdx
  · subst new
    simp only [apart, if_true, if_false, List.getElem?_eq_getElem inside,
      List.getElem?_eq_getElem inside', Option.map_eq_map,
      Option.map_some, Option.bind_some]
  · by_cases old : idx = prev
    · subst old
      simp only [Ne.symm new, if_true, if_false, List.getElem?_eq_getElem inside',
        Option.map_eq_map, Option.map_some,
        Option.bind_some, new]
    · simp [Ne.symm new, Ne.symm old, new, old]

theorem link_kept {β : Type} (f : SkipNode → β)
    (kept : ∀ node next, f { node with next := next } = f node) (newIdx prev k idx : Nat) :
    ((SkipList.link newIdx prev k nodes)[idx]?).map f = (nodes[idx]?).map f := by
  unfold SkipList.link
  simp only [List.getElem?_modify]
  cases nodes[idx]? with
  | none => simp
  | some node =>
    by_cases first : newIdx = idx <;> by_cases second : prev = idx <;> simp [first, second, kept]

theorem link_length (newIdx prev k : Nat) :
    (SkipList.link newIdx prev k nodes).length = nodes.length := by
  simp [SkipList.link]

theorem links_kept {β : Type} (f : SkipNode → β)
    (kept : ∀ node next, f { node with next := next } = f node) (newIdx : Nat) (update : Nat → Nat)
    (levels : List Nat) (idx : Nat) :
    ((levels.foldl (fun nodes level => SkipList.link newIdx (update level) level nodes)
      nodes)[idx]?).map f = (nodes[idx]?).map f := by
  induction levels generalizing nodes with
  | nil => rfl
  | cons level rest ih => rw [List.foldl_cons, ih, link_kept f kept]

theorem links_length (newIdx : Nat) (update : Nat → Nat) (levels : List Nat) :
    (levels.foldl (fun nodes level => SkipList.link newIdx (update level) level nodes)
      nodes).length = nodes.length := by
  induction levels generalizing nodes with
  | nil => rfl
  | cons level rest ih => rw [List.foldl_cons, ih, link_length]

/-- The new node is linked behind `update level` on every level below its height. -/
theorem links_next {newIdx : Nat} {update : Nat → Nat} (inside : newIdx < nodes.length)
    {height : Nat} (before : ∀ level < height, update level < newIdx) (level idx : Nat) :
    nextIn ((List.range height).foldl (fun nodes level =>
      SkipList.link newIdx (update level) level nodes) nodes) level idx =
      if level < height then
        if idx = newIdx then nextIn nodes level (update level) else if idx = update level then
          some newIdx
        else nextIn nodes level idx
      else nextIn nodes level idx := by
  induction height generalizing idx with
  | zero => rfl
  | succ height ih =>
    have earlier : ∀ level < height, update level < newIdx :=
      fun level less => before level (less.trans (Nat.lt_succ_self _))
    have top := before height (Nat.lt_succ_self _)
    rw [List.range_succ, List.foldl_append, List.foldl_cons, List.foldl_nil,
      link_next (by rw [links_length]; exact inside) (by rw [links_length]; omega) (by omega)]
    by_cases here : level = height
    · subst here
      have unchanged : ∀ i, nextIn ((List.range level).foldl
          (fun nodes level => SkipList.link newIdx (update level) level nodes)
          nodes) level i = nextIn nodes level i := by
        intro i
        rw [ih earlier i, if_neg (Nat.lt_irrefl _)]
      simp only [if_true, Nat.lt_succ_self, unchanged]
    · rw [if_neg here, ih earlier idx]
      by_cases below : level < height
      · rw [if_pos below, if_pos (below.trans (Nat.lt_succ_self _))]
      · rw [if_neg below, if_neg (show ¬ level < height + 1 by omega)]

end Links

namespace SkipList
variable {list : SkipList} {order : List Nat} {stored : List MemtableEntry}

/-- The indexes of the nodes in the order of their entries; each level is linked through the nodes
that reach above it. -/
structure Ordered (list : SkipList) (order : List Nat) (stored : List MemtableEntry) : Prop where
  linked : ∀ level < maxHeight, Linked (list.next level) (list.next level 0)
    (order.filter fun idx => level < list.heightAt idx)
  inside : ∀ idx ∈ order, 0 < idx ∧ idx < list.nodes.length
  tall : ∀ idx ∈ order, 0 < list.heightAt idx
  distinct : order.Nodup
  entries : order.map list.entryAt = stored.map some
  sorted : stored.Pairwise Before
  height : 0 < list.height ∧ list.height ≤ maxHeight
  count : list.nodes.length = order.length + 1
  len : list.len = stored.length

/-- A test that fails behind an entry for which it fails. -/
def Downward (less : MemtableEntry → Bool) : Prop :=
  ∀ a b, Before a b → less a = false → less b = false

theorem downward_key (key : CompositeKey) : Downward fun node => node.compositeKey < key := by
  intro a b order fails
  refine decide_eq_false ?_
  have fails := not_lt.mp (of_decide_eq_false fails)
  rcases order with less | ⟨same, -⟩
  · exact (fails.trans less.le).not_gt
  · exact (same ▸ fails).not_gt

theorem downward_entry (entry : MemtableEntry) :
    Downward fun node => compareEntries node entry = .lt := by
  intro a b order fails
  rw [decide_eq_false_iff_not, compareEntries_lt] at fails ⊢
  exact fun less => fails (order.trans less)

theorem ordered_new : ({} : SkipList).Ordered [] [] where
  linked _ _ := rfl
  inside _ member := nomatch member
  tall _ member := nomatch member
  distinct := .nil
  entries := rfl
  sorted := .nil
  height := by decide
  count := rfl
  len := rfl

namespace Ordered

theorem bottom (h : list.Ordered order stored) : Linked (list.next 0) (list.next 0 0) order := by
  have linked := h.linked 0 (by decide)
  rwa [List.filter_eq_self.mpr fun idx member => decide_eq_true (h.tall idx member)] at linked

theorem tests (h : list.Ordered order stored) {less : MemtableEntry → Bool}
    (downward : Downward less) :
    order.Pairwise fun a b => (list.entryAt a).any less = false →
      (list.entryAt b).any less = false := by
  have entries : (order.map list.entryAt).Pairwise fun a b =>
      a.any less = false → b.any less = false := by
    rw [h.entries, List.pairwise_map]
    exact h.sorted.imp fun before => downward _ _ before
  rwa [List.pairwise_map] at entries

/-- The entries of the nodes that pass a test are the entries that pass it. -/
theorem filter_entries (h : list.Ordered order stored) (p : Option MemtableEntry → Bool) :
    (order.filter fun idx => p (list.entryAt idx)).map list.entryAt =
      (stored.filter fun e => p (some e)).map some := by
  have both : (order.map list.entryAt).filter p = (stored.map some).filter p := by rw [h.entries]
  rw [List.filter_map, List.filter_map] at both
  exact both

/-- The last node on a level that passes the test; the sentinel when there is none. -/
def lastBefore (list : SkipList) (order : List Nat) (less : MemtableEntry → Bool) (level : Nat) :
    Nat :=
  ((order.filter fun idx => level < list.heightAt idx).filter fun idx =>
    (list.entryAt idx).any less).getLast?.getD 0

theorem lastBefore_cases (list : SkipList) (order : List Nat) (less : MemtableEntry → Bool)
    (level : Nat) :
    lastBefore list order less level = 0 ∨ (lastBefore list order less level ∈ order ∧
      level < list.heightAt (lastBefore list order less level) ∧
      (list.entryAt (lastBefore list order less level)).any less = true) := by
  unfold lastBefore
  cases last : ((order.filter fun idx => level < list.heightAt idx).filter fun idx =>
    (list.entryAt idx).any less).getLast? with
  | none => exact Or.inl rfl
  | some idx =>
    have member := List.mem_of_getLast? last
    obtain ⟨reached, passes⟩ := List.mem_filter.mp member
    obtain ⟨listed, tall⟩ := List.mem_filter.mp reached
    exact Or.inr ⟨listed, of_decide_eq_true tall, passes⟩

theorem advance_eq (h : list.Ordered order stored) {less : MemtableEntry → Bool}
    (downward : Downward less) {level current : Nat} (low : level < maxHeight)
    (from_above : current = 0 ∨ (current ∈ order ∧ level < list.heightAt current ∧
      (list.entryAt current).any less = true)) :
    list.advance less level current = lastBefore list order less level := by
  refine walk_from (h.linked level low) ((h.tests downward).sublist List.filter_sublist) ?_ ?_
  · exact from_above.imp id fun ⟨member, tall, passes⟩ =>
      ⟨List.mem_filter.mpr ⟨member, decide_eq_true tall⟩, passes⟩
  · have := h.count
    have := List.length_filter_le (fun idx => decide (level < list.heightAt idx)) order
    omega

/-- The descent leaves every level at the last node that passes the test. -/
theorem descend_eq (h : list.Ordered order stored) {less : MemtableEntry → Bool}
    (downward : Downward less) {levels current : Nat} (low : levels ≤ maxHeight)
    (update : Nat → Nat)
    (from_above : current = 0 ∨ (current ∈ order ∧ levels ≤ list.heightAt current ∧
      (list.entryAt current).any less = true)) :
    ((list.descend less levels current update).1 = if levels = 0 then current
      else lastBefore list order less 0) ∧
      ∀ level, (list.descend less levels current update).2 level =
        if level < levels then lastBefore list order less level else update level := by
  induction levels generalizing current update with
  | zero => simp [descend]
  | succ levels ih =>
    have here : list.advance less levels current = lastBefore list order less levels :=
      h.advance_eq downward (show levels < maxHeight by omega) from_above
    have reached := lastBefore_cases list order less levels
    obtain ⟨final, kept⟩ := @ih (lastBefore list order less levels) (by omega)
      (fun l => if l = levels then lastBefore list order less levels else update l)
      (reached.imp id fun ⟨member, tall, passes⟩ => ⟨member, tall.le, passes⟩)
    simp only [descend, here]
    constructor
    · rw [final, if_neg (Nat.succ_ne_zero levels)]
      by_cases bottom : levels = 0
      · rw [if_pos bottom, bottom]
      · rw [if_neg bottom]
    · intro level
      rw [kept level]
      by_cases below : level < levels
      · rw [if_pos below, if_pos (below.trans (Nat.lt_succ_self _))]
      · by_cases same : level = levels
        · rw [if_neg below, if_pos same, if_pos (same ▸ Nat.lt_succ_self _), same]
        · rw [if_neg below, if_neg same, if_neg (show ¬ level < levels + 1 by omega)]

/-- Behind the node where a search ends comes the first that fails the test. -/
theorem after_search (h : list.Ordered order stored) {less : MemtableEntry → Bool}
    (downward : Downward less) :
    list.search less = lastBefore list order less 0 ∧
      Linked (list.next 0) (list.next 0 (lastBefore list order less 0))
        (order.filter fun idx => !(list.entryAt idx).any less) := by
  have found := (h.descend_eq downward h.height.2 (fun _ => 0) (Or.inl (rfl : (0 : Nat) = 0))).1
  rw [if_neg (by have := h.height.1; omega)] at found
  refine ⟨found, ?_⟩
  have whole := h.bottom
  have reach : (order.filter fun idx => decide (0 < list.heightAt idx)) = order :=
    List.filter_eq_self.mpr fun idx member => decide_eq_true (h.tall idx member)
  rw [← filter_append_filter_not (h.tests downward)] at whole
  rw [lastBefore, reach]
  exact whole.suffix

theorem collect_eq {rest : List Nat} {left : List MemtableEntry} {current : Option Nat}
    (linked : Linked (list.next 0) current rest) (entries : rest.map list.entryAt = left.map some)
    (stop : StopCondition) {fuel : Nat} (enough : rest.length < fuel) :
    drain SkipListIterator.next fuel ⟨list, current, stop⟩ =
      some (left.takeWhile fun node => !stop.stops node) := by
  induction fuel generalizing rest left current with
  | zero => omega
  | succ fuel ih =>
    cases rest with
    | nil =>
      obtain rfl : left = [] := List.map_eq_nil_iff.mp (entries.symm)
      rw [show current = none from linked]
      rfl
    | cons idx rest =>
      obtain ⟨rfl, later⟩ := linked
      cases left with
      | nil => cases entries
      | cons node left =>
        obtain ⟨here, entries⟩ := List.cons.inj entries
        by_cases stops : stop.stops node = true
        · rw [List.takeWhile_cons_of_neg (by simp [stops])]
          simp [drain, SkipListIterator.next, here, stops]
        · have given : SkipListIterator.next ⟨list, some idx, stop⟩ =
              some (node, ⟨list, list.next 0 idx, stop⟩) := by
            simp [SkipListIterator.next, here, stops]
          rw [drain_cons given, ih later
            entries (by simpa using enough), List.takeWhile_cons_of_pos (by simpa using stops)]
          rfl

theorem takeWhile_unstopped (left : List MemtableEntry) :
    left.takeWhile (fun node => !StopCondition.none.stops node) = left :=
  List.takeWhile_eq_self_iff.mpr fun _ _ => rfl

theorem iter_collect (h : list.Ordered order stored) : list.iter.collect = some stored := by
  have given := collect_eq h.bottom h.entries .none
    (show order.length < list.nodes.length + 1 by have := h.count; omega)
  rwa [takeWhile_unstopped] at given

/-- What an iterator gives that begins where a search ends. -/
theorem seek_collect (h : list.Ordered order stored) {less : MemtableEntry → Bool}
    (downward : Downward less) (stop : StopCondition) :
    SkipListIterator.collect ⟨list, list.next 0 (list.search less), stop⟩ =
      some ((stored.dropWhile less).takeWhile fun node => !stop.stops node) := by
  obtain ⟨found, linked⟩ := h.after_search downward
  have ordered : stored.Pairwise fun a b => less a = false → less b = false :=
    h.sorted.imp fun before => downward _ _ before
  have entries := h.filter_entries fun e => !e.any less
  simp only [Option.any_some] at entries
  rw [dropWhile_eq_filter ordered, found]
  refine collect_eq linked entries stop ?_
  have := h.count
  have := List.length_filter_le (fun idx => !(list.entryAt idx).any less) order
  show _ < list.nodes.length + 1
  omega

theorem range_collect (h : list.Ordered order stored) (start stop : CompositeKey) :
    (list.range start stop).collect =
    some ((stored.dropWhile fun node => node.compositeKey < start).takeWhile fun node =>
      node.compositeKey < stop) := by
  have given := h.seek_collect (downward_key start) (.beforeKey stop)
  rw [range, seekTo, given]
  congr 2
  funext node
  by_cases before : node.compositeKey < stop
  · simp [StopCondition.stops, before, before.not_ge]
  · simp [StopCondition.stops, before, not_lt.mp before]

theorem rangeFrom_collect (h : list.Ordered order stored) (start : CompositeKey) :
    (list.rangeFrom start).collect =
    some (stored.dropWhile fun node => node.compositeKey < start) := by
  have given := h.seek_collect (downward_key start) .none
  rwa [takeWhile_unstopped] at given

theorem scanRecord_collect (h : list.Ordered order stored) (recordId : Bytes) :
    (list.scanRecord recordId).collect =
    some (({ nodes := stored, sorted := h.sorted } : FlushDB.SkipList).scanRecord recordId) := by
  unfold scanRecord FlushDB.SkipList.scanRecord
  cases CompositeKey.minKeyForRecord recordId with
  | error e => rfl
  | ok minKey =>
    have given := h.seek_collect (downward_key minKey) (.recordBoundary recordId)
    dsimp only
    rw [seekTo, given]
    congr 2
    funext node
    simp [StopCondition.stops]

theorem get_eq (h : list.Ordered order stored) (key : CompositeKey) :
    list.get key = ({ nodes := stored, sorted := h.sorted } : FlushDB.SkipList).get key := by
  have same : (fun node : MemtableEntry => decide (compare node.compositeKey key = .lt)) =
      fun node => decide (node.compositeKey < key) := by
    funext node
    exact decide_eq_decide.mpr compare_lt_iff_lt
  obtain ⟨found, linked⟩ := h.after_search (downward_key key)
  have ordered : stored.Pairwise fun a b => decide (a.compositeKey < key) = false →
      decide (b.compositeKey < key) = false :=
    h.sorted.imp fun before => downward_key key _ _ before
  have entries := h.filter_entries fun e => !e.any fun node => decide (node.compositeKey < key)
  simp only [Option.any_some] at entries
  have first : (list.next 0 (list.search fun node => decide (node.compositeKey < key))).bind
      list.entryAt =
      (stored.dropWhile fun node => decide (node.compositeKey < key)).head? := by
    rw [dropWhile_eq_filter ordered, found, linked.head]
    have heads := congrArg List.head? entries
    rw [List.head?_map, List.head?_map] at heads
    cases next : (order.filter fun idx => !(list.entryAt idx).any fun node =>
      decide (node.compositeKey < key)).head? with
    | none =>
      rw [next] at heads
      exact (Option.map_eq_none_iff.mp heads.symm).symm
    | some idx =>
      rw [next, Option.map_some] at heads
      obtain ⟨e, there, entry⟩ := Option.map_eq_some_iff.mp heads.symm
      rw [there, Option.bind_some, ← entry]
  rw [SkipList.get, same, first]
  rfl

theorem idxOrder_eq (h : list.Ordered order stored) : list.idxOrder = some order := by
  have general : ∀ (rest : List Nat) (current : Option Nat) (fuel : Nat),
      Linked (list.next 0) current rest → rest.length < fuel →
      drain (fun current : Option Nat => current.map fun idx => (idx, list.next 0 idx)) fuel
        current = some rest := by
    intro rest
    induction rest with
    | nil =>
      intro current fuel linked enough
      obtain ⟨fuel, rfl⟩ := Nat.exists_eq_add_of_lt enough
      rw [show current = none from linked]
      rfl
    | cons idx rest ih =>
      intro current fuel linked enough
      obtain ⟨rfl, later⟩ := linked
      cases fuel with
      | zero => simp at enough
      | succ fuel =>
        rw [drain_cons rfl, ih _ fuel later (by simpa using enough)]
        rfl
  refine general _ _ _ h.bottom ?_
  have := h.count
  omega

/-- Each node is still there when its turn comes. -/
theorem takeNodes_eq {rest : List Nat} {nodesMap : List (Option SkipNode)} {taken : List SkipNode}
    (distinct : rest.Nodup) (there : rest.map (fun idx => nodesMap[idx]?.join) = taken.map some) :
    takeNodes rest nodesMap = taken := by
  induction rest generalizing nodesMap taken with
  | nil =>
    obtain rfl : taken = [] := List.map_eq_nil_iff.mp there.symm
    rfl
  | cons idx rest ih =>
    cases taken with
    | nil => cases there
    | cons node taken =>
      obtain ⟨here, there⟩ := List.cons.inj there
      obtain ⟨outside, distinct⟩ := List.nodup_cons.mp distinct
      have here : nodesMap[idx]?.join = some node := here
      unfold takeNodes
      rw [here]
      dsimp only
      rw [ih distinct]
      rw [← there]
      refine List.map_congr_left ?_
      intro i member
      have apart : idx ≠ i := fun same => outside (same ▸ member)
      rw [List.getElem?_set_ne apart]

theorem intoIter_eq (h : list.Ordered order stored) : list.intoIter = some stored := by
  have nodes : ∃ taken : List SkipNode, order.map (fun idx => (list.nodes.map some)[idx]?.join) =
      taken.map some ∧
      taken.map SkipNode.entry = stored := by
    have entries := h.entries
    clear h
    induction order generalizing stored with
    | nil =>
      obtain rfl : stored = [] := List.map_eq_nil_iff.mp entries.symm
      exact ⟨[], rfl, rfl⟩
    | cons idx rest ih =>
      cases stored with
      | nil => cases entries
      | cons e stored =>
        obtain ⟨here, others⟩ := List.cons.inj entries
        obtain ⟨node, there, rfl⟩ := Option.map_eq_some_iff.mp here
        obtain ⟨taken, found, rfl⟩ := ih others
        refine ⟨node :: taken, ?_, rfl⟩
        rw [List.map_cons, found, List.getElem?_map, there]
        rfl
  obtain ⟨taken, found, rfl⟩ := nodes
  rw [intoIter, h.idxOrder_eq, Option.map_some, takeNodes_eq h.distinct found]

/-- An insert leaves what is before the entry and goes on behind it. -/
theorem insertNode_split {entry : MemtableEntry} (sorted : stored.Pairwise Before) :
    FlushDB.SkipList.insertNode entry stored = (stored.filter fun node => compareEntries node entry = .lt) ++
      FlushDB.SkipList.insertNode entry (stored.filter fun node =>
        !decide (compareEntries node entry = .lt)) := by
  induction stored with
  | nil => rfl
  | cons node rest ih =>
    obtain ⟨after, sorted⟩ := List.pairwise_cons.mp sorted
    by_cases less : compareEntries node entry = .lt
    · rw [List.filter_cons_of_pos
        (by simpa using less), List.filter_cons_of_neg (by simp [less]), List.cons_append, ← ih sorted]
      simp only [FlushDB.SkipList.insertNode, less]
    · have fails : ∀ x ∈ rest, decide (compareEntries x entry = .lt) = false := fun x member =>
        downward_entry entry node x (after x member) (decide_eq_false less)
      have none_less : rest.filter (fun node => decide (compareEntries node entry = .lt)) = [] :=
        List.filter_eq_nil_iff.mpr fun x member => by simp [of_decide_eq_false (fails x member)]
      have all_left : rest.filter (fun node => !decide (compareEntries node entry = .lt)) = rest :=
        List.filter_eq_self.mpr fun x member => by simp [of_decide_eq_false (fails x member)]
      rw [List.filter_cons_of_neg
        (by simpa using less), List.filter_cons_of_pos (by simp [less]), none_less, all_left]
      rfl

/-- A node of the same key and sequence keeps its place and its links. -/
theorem overwrite (h : list.Ordered order stored) {entry node : MemtableEntry}
    {first rest : List Nat} {earlier later : List MemtableEntry} {idx : Nat}
    (split : order = first ++ idx :: rest) (split' : stored = earlier ++ node :: later)
    (firsts : first.map list.entryAt = earlier.map some) (here : list.entryAt idx = some node)
    (rests : rest.map list.entryAt = later.map some) (key : node.compositeKey = entry.compositeKey)
    (seq : node.sequenceNumber = entry.sequenceNumber) :
    Ordered { list with nodes := list.nodes.modify idx fun node => { node with entry := { node.entry with
      value := entry.value, metadata := entry.metadata, entryType := entry.entryType,
      idempotencyKey := entry.idempotencyKey, origin := entry.origin } } } order
        (earlier ++ entry :: later) := by
  obtain ⟨stored_node, there, rfl⟩ := Option.map_eq_some_iff.mp here
  generalize changed :
    ({ list with nodes := list.nodes.modify idx fun node => { node with entry := { node.entry with
      value := entry.value, metadata := entry.metadata, entryType := entry.entryType,
      idempotencyKey := entry.idempotencyKey, origin := entry.origin } } } : SkipList) = list'
  have next_same : ∀ level i, list'.next level i = list.next level i := by
    intro level i
    rw [← changed]
    simp only [next, List.getElem?_modify]
    cases list.nodes[i]? with
    | none => rfl
    | some n => by_cases same : idx = i <;> simp [same]
  have height_same : ∀ i, list'.heightAt i = list.heightAt i := by
    intro i
    rw [← changed]
    simp only [heightAt, List.getElem?_modify]
    cases list.nodes[i]? with
    | none => rfl
    | some n => by_cases same : idx = i <;> simp [same]
  have entry_other : ∀ i, idx ≠ i → list'.entryAt i = list.entryAt i := by
    intro i apart
    rw [← changed]
    simp only [entryAt, List.getElem?_modify, if_neg apart]
    cases list.nodes[i]? <;> rfl
  have entry_here : list'.entryAt idx = some entry := by
    rw [← changed]
    simp only [entryAt, List.getElem?_modify, there, if_true]
    simp [key, seq]
  have distinct := h.distinct
  rw [split, List.nodup_append] at distinct
  obtain ⟨-, distinct_rest, apart⟩ := distinct
  refine ⟨?_, ?_, ?_, h.distinct, ?_, ?_, ?_, ?_, ?_⟩
  · intro level low
    have linked := h.linked level low
    rw [next_same level 0, show (order.filter fun i => decide (level < list'.heightAt i)) =
      order.filter fun i => decide (level < list.heightAt i) by simp only [height_same]]
    exact linked.congr fun i _ => next_same level i
  · intro i member
    rw [← changed]
    simpa using h.inside i member
  · intro i member
    rw [height_same]
    exact h.tall i member
  · rw [split, List.map_append, List.map_cons, List.map_append, List.map_cons, entry_here, ← firsts,
      ← rests]
    congr 1
    · refine List.map_congr_left fun i member => entry_other i ?_
      intro same
      exact apart i member idx List.mem_cons_self same.symm
    · congr 1
      refine List.map_congr_left fun i member => entry_other i ?_
      intro same
      exact (List.nodup_cons.mp distinct_rest).1 (same ▸ member)
  · have sorted := h.sorted
    rw [split', List.pairwise_append, List.pairwise_cons] at sorted
    obtain ⟨first_sorted, ⟨after, later_sorted⟩, across⟩ := sorted
    have before_iff : ∀ x, (Before x entry ↔ Before x stored_node.entry) ∧
        (Before entry x ↔ Before stored_node.entry x) := by
      intro x
      simp only [Before, key, seq]
      trivial
    rw [List.pairwise_append, List.pairwise_cons]
    refine ⟨first_sorted, ⟨fun x member => (before_iff x).2.mpr (after x member), later_sorted⟩, ?_⟩
    intro x member y member'
    rcases List.mem_cons.mp member' with rfl | old
    · exact (before_iff x).1.mpr (across x member _ List.mem_cons_self)
    · exact across x member y (List.mem_cons_of_mem _ old)
  · rw [← changed]
    exact h.height
  · rw [← changed]
    simpa using h.count
  · rw [← changed]
    have := h.len
    rw [split'] at this
    simpa using this

/-- What changes when a node is linked behind `update level` on every level below its height. -/
structure Gains (list list' : SkipList) (entry : MemtableEntry) (height : Nat)
    (update : Nat → Nat) : Prop where
  entry_new : list'.entryAt list.nodes.length = some entry
  entry_old : ∀ i < list.nodes.length, list'.entryAt i = list.entryAt i
  height_new : list'.heightAt list.nodes.length = height
  height_old : ∀ i < list.nodes.length, list'.heightAt i = list.heightAt i
  next_new : ∀ level < height, list'.next level list.nodes.length = list.next level (update level)
  next_update : ∀ level < height, list'.next level (update level) = some list.nodes.length
  next_old : ∀ level, ∀ i < list.nodes.length, (level < height → i ≠ update level) →
    list'.next level i = list.next level i
  count : list'.nodes.length = list.nodes.length + 1
  top : list'.height = list.height
  len : list'.len = list.len + 1

theorem gains_links (list : SkipList) (entry : MemtableEntry) {height : Nat} {update : Nat → Nat}
    (old : ∀ level < height, update level < list.nodes.length) :
    Gains list { list with
      nodes := (List.range height).foldl (fun nodes level => link list.nodes.length (update level) level nodes)
        (list.nodes ++ [.new entry height])
      len := list.len + 1 } entry height update := by
  generalize changed : ({ list with
    nodes := (List.range height).foldl (fun nodes level => link list.nodes.length (update level) level nodes)
      (list.nodes ++ [.new entry height])
    len := list.len + 1 } : SkipList) = list'
  have kept : ∀ {β : Type} (f : SkipNode → β), (∀ node next, f { node with next := next } = f node) →
      ∀ i : Nat, (list'.nodes[i]?).map f = ((list.nodes ++ [SkipNode.new entry height])[i]?).map f := by
    intro β f same i
    rw [← changed]
    exact links_kept f same list.nodes.length update (List.range height) i
  have next_here : ∀ level, ∀ i < list.nodes.length,
      nextIn (list.nodes ++ [SkipNode.new entry height]) level i = list.next level i := by
    intro level i inside
    rw [nextIn, List.getElem?_append_left inside]
    rfl
  have next_eq : ∀ level i, list'.next level i = if level < height then
      if i = list.nodes.length then
        nextIn (list.nodes ++ [SkipNode.new entry height]) level (update level)
      else if i = update level then some list.nodes.length
      else nextIn (list.nodes ++ [SkipNode.new entry height]) level i
      else nextIn (list.nodes ++ [SkipNode.new entry height]) level i := by
    intro level i
    rw [← changed]
    exact links_next (by simp) old level i
  refine ⟨?_, ?_, ?_, ?_, ?_, ?_, ?_, ?_, ?_, ?_⟩
  · rw [entryAt, kept _ (fun _ _ => rfl), List.getElem?_append_right (le_refl _), Nat.sub_self]
    rfl
  · intro i inside
    rw [entryAt, kept _ (fun _ _ => rfl), List.getElem?_append_left inside]
    rfl
  · rw [heightAt, kept _ (fun _ _ => rfl), List.getElem?_append_right (le_refl _), Nat.sub_self]
    rfl
  · intro i inside
    rw [heightAt, kept _ (fun _ _ => rfl), List.getElem?_append_left inside]
    rfl
  · intro level below
    rw [next_eq, if_pos below, if_pos rfl, next_here level _ (old level below)]
  · intro level below
    rw [next_eq, if_pos below, if_neg (old level below).ne, if_pos rfl]
  · intro level i inside apart
    rw [next_eq]
    by_cases below : level < height
    · rw [if_pos below, if_neg inside.ne, if_neg (apart below), next_here level i inside]
    · rw [if_neg below, next_here level i inside]
  · rw [← changed]
    simp [links_length]
  · rw [← changed]
  · rw [← changed]

/-- The new node stands on a level behind the last node that passes the test, if it reaches the
level. -/
theorem level_linked (h : list.Ordered order stored) {list' : SkipList} {entry : MemtableEntry}
    {height : Nat} {update : Nat → Nat} (gains : Gains list list' entry height update)
    {less : MemtableEntry → Bool} (downward : Downward less)
    (updates : ∀ level < height, update level = lastBefore list order less level) {level : Nat}
    (low : level < maxHeight) :
    Linked (list'.next level) (list'.next level 0)
      (((order.filter fun idx => (list.entryAt idx).any less) ++ list.nodes.length ::
        order.filter fun idx => !(list.entryAt idx).any less).filter fun idx =>
          level < list'.heightAt idx) := by
  have linked := h.linked level low
  have reach : ∀ p : Nat → Bool, (order.filter p).filter (fun i => decide (level < list'.heightAt i)) =
      (order.filter p).filter fun i => decide (level < list.heightAt i) := by
    intro p
    refine List.filter_congr fun i member => ?_
    rw [gains.height_old i (h.inside i (List.mem_of_mem_filter member)).2]
  have parts : (order.filter fun i => decide (level < list.heightAt i)) =
      ((order.filter fun idx => (list.entryAt idx).any less).filter fun i =>
        decide (level < list.heightAt i)) ++
        (order.filter fun idx => !(list.entryAt idx).any less).filter fun i =>
          decide (level < list.heightAt i) := by
    rw [← List.filter_append, filter_append_filter_not (h.tests downward)]
  rw [List.filter_append, List.filter_cons, reach, reach, gains.height_new]
  have start_old : 0 < list.nodes.length := by
    have := h.count
    omega
  have reached_old : ∀ i ∈ order.filter (fun i => decide (level < list.heightAt i)),
      i < list.nodes.length := fun i member =>
    (h.inside i (List.mem_of_mem_filter member)).2
  have distinct : (0 :: order.filter fun i => decide (level < list.heightAt i)).Nodup := by
    refine List.nodup_cons.mpr ⟨?_, h.distinct.sublist List.filter_sublist⟩
    intro member
    exact absurd (h.inside 0 (List.mem_of_mem_filter member)).1 (Nat.lt_irrefl 0)
  rw [parts] at linked reached_old distinct
  by_cases below : level < height
  · rw [if_pos (by simpa using below)]
    have prev : ((order.filter fun idx => (list.entryAt idx).any less).filter fun i =>
        decide (level < list.heightAt i)).getLast?.getD 0 =
        update level := by
      rw [updates level below, lastBefore, List.filter_comm]
    apply linked.insert distinct
    · rw [prev]
      exact gains.next_update level below
    · rw [prev]
      exact gains.next_new level below
    · intro i member apart
      rw [prev] at apart
      apply gains.next_old level i _ fun _ => apart
      rcases List.mem_cons.mp member with rfl | later
      · exact start_old
      · exact reached_old i later
  · rw [if_neg (by simpa using below), gains.next_old level 0 start_old fun reaches => absurd reaches below]
    apply linked.congr
    intro i member
    exact gains.next_old level i (reached_old i member) fun reaches => absurd reaches below

/-- An entry between those that pass a test and those that fail it keeps the order. -/
theorem sorted_between {entry : MemtableEntry} {less : MemtableEntry → Bool}
    (sorted : stored.Pairwise Before) (before : ∀ x ∈ stored, less x = true → Before x entry)
    (after : ∀ x ∈ stored, less x = false → Before entry x) :
    (stored.filter less ++ entry :: stored.filter fun node => !less node).Pairwise Before := by
  have first : ∀ x ∈ stored.filter less, Before x entry := by
    intro x member
    obtain ⟨inside, passes⟩ := List.mem_filter.mp member
    exact before x inside passes
  have second : ∀ x ∈ stored.filter (fun node => !less node), Before entry x := by
    intro x member
    obtain ⟨inside, fails⟩ := List.mem_filter.mp member
    exact after x inside (by simpa using fails)
  rw [List.pairwise_append, List.pairwise_cons]
  refine ⟨sorted.filter _, ⟨second, sorted.filter _⟩, ?_⟩
  intro x member y member'
  rcases List.mem_cons.mp member' with rfl | old
  · exact first x member
  · exact (first x member).trans (second y old)

/-- A new node goes behind all that are less, on every level that it reaches. -/
theorem linkNew (h : list.Ordered order stored) {entry : MemtableEntry} {height : Nat}
    (low : height ≤ maxHeight) (tall : 0 < height) {less : MemtableEntry → Bool}
    (downward : Downward less) {update : Nat → Nat}
    (updates : ∀ level < height, update level = lastBefore list order less level)
    (before : ∀ x ∈ stored, less x = true → Before x entry)
    (after : ∀ x ∈ stored, less x = false → Before entry x) :
    Ordered { list with
      nodes := (List.range (min height maxHeight)).foldl
        (fun nodes level => link list.nodes.length (update level) level nodes)
        (list.nodes ++ [.new entry height])
      len := list.len + 1 }
      ((order.filter fun idx => (list.entryAt idx).any less) ++ list.nodes.length ::
        order.filter fun idx => !(list.entryAt idx).any less)
      (stored.filter less ++ entry :: stored.filter fun node => !less node) := by
  have update_old : ∀ level < height, update level < list.nodes.length := by
    intro level below
    rw [updates level below]
    have := h.count
    rcases lastBefore_cases list order less level with sentinel | ⟨member, -⟩
    · omega
    · exact (h.inside _ member).2
  rw [Nat.min_eq_left low]
  have gains := gains_links list entry update_old
  generalize ({ list with
    nodes := (List.range height).foldl (fun nodes level => link list.nodes.length (update level) level nodes)
      (list.nodes ++ [.new entry height])
    len := list.len + 1 } : SkipList) = list' at gains ⊢
  have whole := filter_append_filter_not (h.tests downward)
  have members : ∀ i, i ∈ (order.filter fun idx => (list.entryAt idx).any less) ++ list.nodes.length ::
      (order.filter fun idx => !(list.entryAt idx).any less) ↔ i = list.nodes.length ∨
        i ∈ order := by
    intro i
    conv_rhs => rw [← whole]
    simp only [List.mem_append, List.mem_cons]
    tauto
  refine ⟨fun level in_range => h.level_linked gains downward updates in_range, ?_, ?_, ?_, ?_,
    sorted_between h.sorted before after,
    gains.top ▸ h.height, ?_, ?_⟩
  · intro i member
    rw [gains.count]
    have := h.count
    rcases (members i).mp member with rfl | old
    · omega
    · have := h.inside i old
      omega
  · intro i member
    rcases (members i).mp member with rfl | old
    · rwa [gains.height_new]
    · rw [gains.height_old i (h.inside i old).2]
      exact h.tall i old
  · refine List.nodup_middle.mpr (List.nodup_cons.mpr ?_)
    rw [whole]
    exact ⟨fun member => absurd (h.inside _ member).2 (Nat.lt_irrefl _), h.distinct⟩
  · have old_entries : ∀ p : Nat → Bool, (order.filter p).map list'.entryAt =
        (order.filter p).map list.entryAt := fun p =>
      List.map_congr_left fun i member => gains.entry_old i (h.inside i (List.mem_of_mem_filter member)).2
    rw [List.map_append, List.map_cons, gains.entry_new, old_entries, old_entries,
      h.filter_entries fun e => e.any less,
      h.filter_entries fun e => !e.any less, List.map_append, List.map_cons]
    rfl
  · have parts := congrArg List.length whole
    rw [List.length_append] at parts
    rw [gains.count, List.length_append, List.length_cons]
    have := h.count
    omega
  · have both : stored.filter less ++ stored.filter (fun e => !less e) = stored :=
      filter_append_filter_not (h.sorted.imp fun order => downward _ _ order)
    have parts := congrArg List.length both
    rw [List.length_append] at parts
    rw [gains.len, List.length_append, List.length_cons]
    have := h.len
    omega

/-- When the first of some entries that are not less differs from the entry, all of them are
greater. -/
theorem greater_of_first {entry : MemtableEntry} {rest : List MemtableEntry}
    (sorted : rest.Pairwise Before) (not_less : ∀ x ∈ rest, ¬ Before x entry)
    (differs : ∀ node ∈ rest.head?, ¬ (node.compositeKey = entry.compositeKey ∧
      node.sequenceNumber = entry.sequenceNumber)) :
    ∀ x ∈ rest, Before entry x := by
  cases rest with
  | nil => exact nofun
  | cons node later =>
    have first : Before entry node := by
      cases order_cases : compareEntries node entry with
      | lt => exact absurd (compareEntries_lt.mp order_cases) (not_less node List.mem_cons_self)
      | eq => exact absurd (compareEntries_eq.mp order_cases) (differs node rfl)
      | gt => exact compareEntries_gt.mp order_cases
    intro x member
    rcases List.mem_cons.mp member with rfl | behind
    · exact first
    · exact first.trans ((List.pairwise_cons.mp sorted).1 x behind)

theorem insertNode_first {entry : MemtableEntry} {rest : List MemtableEntry}
    (greater : ∀ x ∈ rest, Before entry x) :
    FlushDB.SkipList.insertNode entry rest = entry :: rest := by
  cases rest with
  | nil => rfl
  | cons node later =>
    have gt := compareEntries_gt.mpr (greater node List.mem_cons_self)
    simp only [FlushDB.SkipList.insertNode, gt]

/-- An insert does to the list what it does to its bottom chain. -/
theorem insert (h : list.Ordered order stored) (entry : MemtableEntry) {height : Nat}
    (tall : 0 < height) (low : height ≤ maxHeight) :
    ∃ order', (list.insert entry height).Ordered order' (FlushDB.SkipList.insertNode entry stored) := by
  -- the list may get a new top level before the search, and no node reaches it yet
  have raised : Ordered { list with height := if height > list.height then height else list.height }
      order stored := by
    refine ⟨h.linked, h.inside, h.tall, h.distinct, h.entries, h.sorted, ?_, h.count, h.len⟩
    have := h.height
    dsimp only
    split <;> omega
  have reached : height ≤
      ({ list with height := if height > list.height then height else list.height } :
        SkipList).height := by
    dsimp only
    split <;> omega
  unfold SkipList.insert
  generalize ({ list with height := if height > list.height then height else list.height } :
    SkipList) = list' at raised reached
  have ordered : stored.Pairwise fun a b => decide (compareEntries a entry = .lt) = false →
      decide (compareEntries b entry = .lt) = false :=
        raised.sorted.imp fun before => downward_entry entry _ _ before
  obtain ⟨-, updates⟩ := raised.descend_eq (downward_entry entry) raised.height.2 (fun _ => 0)
    (Or.inl (rfl : (0 : Nat) = 0))
  obtain ⟨-, linked⟩ := raised.after_search (downward_entry entry)
  have bottom := updates 0
  rw [if_pos raised.height.1] at bottom
  rw [← bottom] at linked
  have entries := raised.filter_entries fun e => !e.any fun node => compareEntries node entry = .lt
  simp only [Option.any_some] at entries
  dsimp only
  generalize descended : list'.descend (fun node => decide (compareEntries node entry = .lt))
    list'.height 0 (fun _ => 0) = result at updates linked ⊢
  obtain ⟨current, update⟩ := result
  dsimp only at updates linked ⊢
  rw [linked.head, insertNode_split raised.sorted]
  split
  · rename_i idx found
    obtain ⟨first, same⟩ := Option.filter_eq_some_iff.mp found
    obtain ⟨rest, split⟩ := List.head?_eq_some_iff.mp first
    rw [split] at entries
    cases behind : stored.filter fun node => !decide (compareEntries node entry = .lt) with
    | nil =>
      rw [behind] at entries
      cases entries
    | cons node later =>
      rw [behind] at entries
      obtain ⟨here, rests⟩ := List.cons.inj entries
      rw [here, Option.any_some, decide_eq_true_eq] at same
      have equal : compareEntries node entry = .eq := compareEntries_eq.mpr same
      have placed : FlushDB.SkipList.insertNode entry (node :: later) = entry :: later := by
        simp only [FlushDB.SkipList.insertNode, equal]
      rw [placed]
      refine ⟨order, raised.overwrite ?_ ?_ (raised.filter_entries fun e =>
        e.any fun node => compareEntries node entry = .lt) here
        rests same.1 same.2⟩
      · rw [← split]
        exact (filter_append_filter_not (raised.tests (downward_entry entry))).symm
      · rw [← behind]
        exact (filter_append_filter_not ordered).symm
  · rename_i found
    -- the first node that is not less is not equal either, and so all of them are greater
    have not_less : ∀ x ∈ stored.filter (fun node => !decide (compareEntries node entry = .lt)),
        ¬ Before x entry := by
      intro x member before
      have fails := (List.mem_filter.mp member).2
      rw [compareEntries_lt.mpr before] at fails
      cases fails
    have differs : ∀ node ∈ (stored.filter fun node => !decide (compareEntries node entry = .lt)).head?,
        ¬ (node.compositeKey = entry.compositeKey ∧ node.sequenceNumber = entry.sequenceNumber) := by
      intro node first same
      have heads := congrArg List.head? entries
      rw [List.head?_map, List.head?_map, first, Option.map_some] at heads
      obtain ⟨idx, at_idx, here⟩ := Option.map_eq_some_iff.mp heads
      rw [at_idx, Option.filter_some, here, Option.any_some, if_pos (decide_eq_true same)] at found
      cases found
    have greater := greater_of_first (raised.sorted.filter _) not_less differs
    rw [insertNode_first greater]
    refine ⟨_, raised.linkNew low tall (downward_entry entry) ?_ ?_ ?_⟩
    · intro level below
      rw [updates level, if_pos (by omega)]
    · intro x _ less
      exact compareEntries_lt.mp (of_decide_eq_true less)
    · intro x member fails
      apply greater x
      exact List.mem_filter.mpr ⟨member, by rw [fails]; rfl⟩

end Ordered

/-- The list after a sequence of inserts, each with the height that is drawn for it. -/
def built (inserts : List (MemtableEntry × Nat)) : SkipList :=
  inserts.foldl (fun list p => list.insert p.1 p.2) {}

/-- The last insert under a key and a sequence number. -/
def lastInserted (inserts : List (MemtableEntry × Nat)) (key : CompositeKey) (seq : Nat) :
    Option MemtableEntry :=
  (inserts.map Prod.fst).reverse.find? fun x => x.compositeKey = key ∧ x.sequenceNumber = seq

theorem mem_insertNode_iff {entry e : MemtableEntry} (sorted : stored.Pairwise Before) :
    e ∈ FlushDB.SkipList.insertNode entry stored ↔ e = entry ∨
      (e ∈ stored ∧ ¬ (e.compositeKey = entry.compositeKey ∧ e.sequenceNumber = entry.sequenceNumber)) := by
  constructor
  · intro member
    by_cases same : e.compositeKey = entry.compositeKey ∧ e.sequenceNumber = entry.sequenceNumber
    · left
      have distinct : ((FlushDB.SkipList.insertNode entry stored).map fun x =>
          (x.compositeKey, x.sequenceNumber)).Nodup := by
        rw [List.Nodup, List.pairwise_map]
        refine (FlushDB.SkipList.insertNode_sorted sorted).imp ?_
        intro a b before equal
        obtain ⟨key, seq⟩ := Prod.mk.inj equal
        rcases before with less | ⟨-, newer⟩
        · exact less.ne key
        · omega
      exact List.inj_on_of_nodup_map distinct member (FlushDB.SkipList.mem_insertNode_self entry stored)
        (Prod.ext same.1 same.2)
    · exact (FlushDB.SkipList.mem_insertNode member).imp id fun old => ⟨old, same⟩
  · rintro (rfl | ⟨old, differs⟩)
    · exact FlushDB.SkipList.mem_insertNode_self _ _
    · exact FlushDB.SkipList.mem_insertNode_of_mem old differs

/-- After any inserts the levels are in order, and each key and sequence has one node with what was
inserted last. -/
theorem built_ordered (inserts : List (MemtableEntry × Nat))
    (heights : ∀ p ∈ inserts, 0 < p.2 ∧ p.2 ≤ maxHeight) :
    ∃ order stored, (built inserts).Ordered order stored ∧
      ∀ e, e ∈ stored ↔ lastInserted inserts e.compositeKey e.sequenceNumber = some e := by
  induction inserts using List.reverseRecOn with
  | nil => exact ⟨[], [], ordered_new, by simp [lastInserted]⟩
  | append_singleton inserts p ih =>
    obtain ⟨order, stored, ordered, contents⟩ :=
      ih fun q member => heights q (List.mem_append_left _ member)
    obtain ⟨tall, low⟩ := heights p (List.mem_append_right _ (List.mem_singleton_self p))
    obtain ⟨order', ordered'⟩ := ordered.insert p.1 tall low
    have same : built (inserts ++ [p]) = (built inserts).insert p.1 p.2 := by
      rw [built, List.foldl_append]
      rfl
    refine ⟨order', _, same ▸ ordered', ?_⟩
    intro e
    rw [mem_insertNode_iff ordered.sorted, contents, lastInserted, lastInserted, List.map_append,
      List.reverse_append]
    by_cases here : p.1.compositeKey = e.compositeKey ∧ p.1.sequenceNumber = e.sequenceNumber
    · have first : (([p].map Prod.fst).reverse ++ (inserts.map Prod.fst).reverse).find? (fun x =>
          decide (x.compositeKey = e.compositeKey ∧ x.sequenceNumber = e.sequenceNumber)) =
            some p.1 :=
        List.find?_cons_of_pos (decide_eq_true here)
      rw [first]
      constructor
      · rintro (rfl | ⟨-, differs⟩)
        · rfl
        · exact absurd ⟨here.1.symm, here.2.symm⟩ differs
      · intro equal
        exact Or.inl (Option.some.inj equal).symm
    · have later : (([p].map Prod.fst).reverse ++ (inserts.map Prod.fst).reverse).find? (fun x =>
          decide (x.compositeKey = e.compositeKey ∧ x.sequenceNumber = e.sequenceNumber)) =
          (inserts.map Prod.fst).reverse.find? fun x =>
            decide (x.compositeKey = e.compositeKey ∧ x.sequenceNumber = e.sequenceNumber) :=
        List.find?_cons_of_neg (by simpa using here)
      rw [later]
      constructor
      · rintro (rfl | ⟨found, -⟩)
        · exact absurd ⟨rfl, rfl⟩ here
        · exact found
      · intro found
        exact Or.inr ⟨found, fun equal => here ⟨equal.1.symm, equal.2.symm⟩⟩

/-- What the list shows of the nodes it has stored. No key of an accepted entry has a record id that
is not valid. -/
structure Shows (list : SkipList) (stored : List MemtableEntry) : Prop where
  iter : list.iter.collect = some stored
  sorted : stored.Pairwise Before
  len : list.len = stored.length
  get_some : ∀ key e, list.get key = some e → e ∈ stored ∧ e.compositeKey = key ∧
    ∀ x ∈ stored, x.compositeKey = key → x.sequenceNumber ≤ e.sequenceNumber
  get_none : ∀ key, list.get key = none → ∀ x ∈ stored, x.compositeKey ≠ key
  range : ∀ start stop, (list.range start stop).collect =
    some (stored.filter fun e => start ≤ e.compositeKey ∧ e.compositeKey < stop)
  rangeFrom : ∀ start, (list.rangeFrom start).collect =
    some (stored.filter fun e => start ≤ e.compositeKey)
  scanRecord : ∀ recordId, (list.scanRecord recordId).collect =
    some (stored.filter fun e => e.recordId = recordId ∧ (validateRecordId recordId).isOk)
  intoIter : list.intoIter = some stored

theorem Ordered.shows (h : list.Ordered order stored) : list.Shows stored := by
  let chain : FlushDB.SkipList := { nodes := stored, sorted := h.sorted }
  have keys : ∀ key, stored.Pairwise fun a b =>
      decide (a.compositeKey < key) = false → decide (b.compositeKey < key) = false :=
    fun key => h.sorted.imp fun before => downward_key key _ _ before
  refine ⟨h.iter_collect, h.sorted, h.len, ?_, ?_, ?_, ?_, ?_, h.intoIter_eq⟩
  · intro key e got
    rw [h.get_eq] at got
    exact FlushDB.SkipList.get_some got
  · intro key got x member same
    rw [h.get_eq, chain.get_eq, List.find?_eq_none] at got
    exact got x member (decide_eq_true same)
  · intro start stop
    rw [h.range_collect]
    exact congrArg some (chain.range_eq start stop)
  · intro start
    rw [h.rangeFrom_collect, dropWhile_eq_filter (keys start)]
    congr 2
    funext e
    rw [← decide_not]
    exact decide_eq_decide.mpr not_lt
  · intro recordId
    rw [h.scanRecord_collect]
    cases record : validateRecordId recordId with
    | error e =>
      rw [FlushDB.SkipList.scanRecord_invalid _ record]
      simp [Except.isOk, Except.toBool]
    | ok u =>
      rw [FlushDB.SkipList.scanRecord_valid _ record]
      simp [Except.isOk, Except.toBool]

/-- Whatever heights are drawn, the list shows the inserted entries in order, of each key and
sequence the one that was inserted last. -/
theorem built_shows (inserts : List (MemtableEntry × Nat))
    (heights : ∀ p ∈ inserts, 1 ≤ p.2 ∧ p.2 ≤ maxHeight) :
    ∃ stored, (built inserts).Shows stored ∧
      ∀ e, e ∈ stored ↔ lastInserted inserts e.compositeKey e.sequenceNumber = some e := by
  obtain ⟨order, stored, ordered, contents⟩ := built_ordered inserts heights
  exact ⟨stored, ordered.shows, contents⟩

/-- Three inserts at different heights, the last over the first. -/
def overwritten : List (MemtableEntry × Nat) :=
  let entry : UInt8 → Nat → UInt8 → MemtableEntry := fun item seq value =>
    ⟨CompositeKey.encode ⟨[114]⟩ [item], ⟨[value]⟩, ⟨[]⟩, .none, seq, .put, 0⟩
  [(entry 98 1 1, 1), (entry 97 2 2, 3), (entry 98 1 3, 2)]

theorem built_shows_overwritten :
    (∀ p ∈ overwritten, 1 ≤ p.2 ∧ p.2 ≤ maxHeight) ∧ ∃ stored, (built overwritten).Shows stored ∧
    ∀ e, e ∈ stored ↔ lastInserted overwritten e.compositeKey e.sequenceNumber = some e := by
  have heights : ∀ p ∈ overwritten, 1 ≤ p.2 ∧ p.2 ≤ maxHeight := by decide
  exact ⟨heights, built_shows overwritten heights⟩

end SkipList

end FlushDB.Linked
