import FlushDB.Engine.RangeTombstone
import FlushDB.Types.Entry

/-!
The skip list of a memtable, the memtable and the list of the active and the frozen memtables.
A skip list is kept as its bottom chain. When a memtable is full or old is decided outside.
-/

namespace FlushDB

def compareEntries (a b : MemtableEntry) : Ordering :=
  match compare a.compositeKey b.compositeKey with
  | .eq => compare b.sequenceNumber a.sequenceNumber
  | other => other

namespace MemtableEntry

/-- By key ascending, then by sequence descending. -/
def Before (a b : MemtableEntry) : Prop :=
  a.compositeKey < b.compositeKey ∨ (a.compositeKey = b.compositeKey ∧
    b.sequenceNumber < a.sequenceNumber)

theorem Before.trans {a b c : MemtableEntry} (first : Before a b) (second : Before b c) :
    Before a c := by
  rcases first with less | ⟨same, newer⟩
  · rcases second with less' | ⟨same', -⟩
    · exact Or.inl (less.trans less')
    · exact Or.inl (same' ▸ less)
  · rcases second with less' | ⟨same', newer'⟩
    · exact Or.inl (same ▸ less')
    · exact Or.inr ⟨same.trans same', newer'.trans newer⟩

theorem compareEntries_lt {a b : MemtableEntry} : compareEntries a b = .lt ↔ Before a b := by
  unfold compareEntries Before
  rcases lt_trichotomy a.compositeKey b.compositeKey with less | same | greater
  · simp [compare_lt_iff_lt.mpr less, less]
  · simp [same, compare_lt_iff_lt]
  · simp [compare_gt_iff_gt.mpr greater, greater.not_gt, greater.ne']

theorem compareEntries_gt {a b : MemtableEntry} : compareEntries a b = .gt ↔ Before b a := by
  unfold compareEntries Before
  rcases lt_trichotomy a.compositeKey b.compositeKey with less | same | greater
  · simp [compare_lt_iff_lt.mpr less, less.not_gt, less.ne']
  · simp [same, compare_gt_iff_gt]
  · simp [compare_gt_iff_gt.mpr greater, greater]

theorem compareEntries_eq {a b : MemtableEntry} : compareEntries a b = .eq ↔
    a.compositeKey = b.compositeKey ∧ a.sequenceNumber = b.sequenceNumber := by
  unfold compareEntries
  rcases lt_trichotomy a.compositeKey b.compositeKey with less | same | greater
  · simp [compare_lt_iff_lt.mpr less, less.ne]
  · have seq : compare b.sequenceNumber a.sequenceNumber = .eq ↔
        a.sequenceNumber = b.sequenceNumber :=
      compare_eq_iff_eq.trans eq_comm
    simpa [same] using seq
  · simp [compare_gt_iff_gt.mpr greater, greater.ne']

end MemtableEntry

open MemtableEntry

structure SkipList where
  nodes : List MemtableEntry := []
  sorted : nodes.Pairwise Before := by exact .nil

namespace SkipList

/-- A node of the same key and sequence is overwritten. -/
def insertNode (entry : MemtableEntry) : List MemtableEntry → List MemtableEntry
  | [] => [entry]
  | node :: rest =>
    match compareEntries node entry with
    | .lt => node :: insertNode entry rest
    | .eq => entry :: rest
    | .gt => entry :: node :: rest

theorem mem_insertNode {entry x : MemtableEntry} {nodes : List MemtableEntry}
    (h : x ∈ insertNode entry nodes) :
    x = entry ∨ x ∈ nodes := by
  induction nodes with
  | nil => exact Or.inl (List.mem_singleton.mp h)
  | cons node rest ih =>
    unfold insertNode at h
    split at h
    · rcases List.mem_cons.mp h with rfl | later
      · exact Or.inr List.mem_cons_self
      · exact (ih later).imp id (List.mem_cons_of_mem _)
    · rcases List.mem_cons.mp h with rfl | later
      · exact Or.inl rfl
      · exact Or.inr (List.mem_cons_of_mem _ later)
    · rcases List.mem_cons.mp h with rfl | later
      · exact Or.inl rfl
      · exact Or.inr later

theorem insertNode_sorted {entry : MemtableEntry} {nodes : List MemtableEntry}
    (sorted : nodes.Pairwise Before) :
    (insertNode entry nodes).Pairwise Before := by
  induction nodes with
  | nil => exact List.pairwise_singleton _ _
  | cons node rest ih =>
    obtain ⟨after, sorted⟩ := List.pairwise_cons.mp sorted
    unfold insertNode
    split
    · rename_i less
      refine List.pairwise_cons.mpr ⟨?_, ih sorted⟩
      intro x member
      rcases mem_insertNode member with rfl | old
      · exact compareEntries_lt.mp less
      · exact after x old
    · rename_i equal
      obtain ⟨key, seq⟩ := compareEntries_eq.mp equal
      refine List.pairwise_cons.mpr ⟨?_, sorted⟩
      intro x member
      have order := after x member
      unfold Before at order ⊢
      rw [key, seq] at order
      exact order
    · rename_i greater
      have first := compareEntries_gt.mp greater
      refine List.pairwise_cons.mpr ⟨?_, List.pairwise_cons.mpr ⟨after, sorted⟩⟩
      intro x member
      rcases List.mem_cons.mp member with rfl | later
      · exact first
      · exact first.trans (after x later)

def insert (list : SkipList) (entry : MemtableEntry) : SkipList where
  nodes := insertNode entry list.nodes
  sorted := insertNode_sorted list.sorted

def get (list : SkipList) (key : CompositeKey) : Option MemtableEntry :=
  (list.nodes.dropWhile fun node => node.compositeKey < key).head?.filter fun node =>
    node.compositeKey = key

def range (list : SkipList) (start stop : CompositeKey) : List MemtableEntry :=
  (list.nodes.dropWhile fun node => node.compositeKey < start).takeWhile fun node =>
    node.compositeKey < stop

/-- Nothing for an id that is not valid. -/
def scanRecord (list : SkipList) (recordId : Bytes) : List MemtableEntry :=
  match CompositeKey.minKeyForRecord recordId with
  | .error _ => []
  | .ok minKey =>
    (list.nodes.dropWhile fun node => node.compositeKey < minKey).takeWhile fun node =>
      node.recordId = recordId

def isEmpty (list : SkipList) : Bool := list.nodes.isEmpty

theorem mem_insertNode_self (entry : MemtableEntry) (nodes : List MemtableEntry) :
    entry ∈ insertNode entry nodes := by
  induction nodes with
  | nil => exact List.mem_singleton_self _
  | cons node rest ih =>
    unfold insertNode
    split
    · exact List.mem_cons_of_mem _ ih
    · exact List.mem_cons_self
    · exact List.mem_cons_self

/-- A node stays unless the new entry has its key and its sequence number. -/
theorem mem_insertNode_of_mem {entry x : MemtableEntry} {nodes : List MemtableEntry}
    (member : x ∈ nodes)
    (differs : ¬ (x.compositeKey = entry.compositeKey ∧ x.sequenceNumber = entry.sequenceNumber)) :
    x ∈ insertNode entry nodes := by
  induction nodes with
  | nil => cases member
  | cons node rest ih =>
    unfold insertNode
    split
    · rcases List.mem_cons.mp member with rfl | later
      · exact List.mem_cons_self
      · exact List.mem_cons_of_mem _ (ih later)
    · rename_i equal
      rcases List.mem_cons.mp member with rfl | later
      · exact absurd (compareEntries_eq.mp equal) differs
      · exact List.mem_cons_of_mem _ later
    · exact List.mem_cons_of_mem _ member

end SkipList

structure MemtableConfig where
  maxFrozenCount : Nat := 3

def IdempotencyToken.debug (token : IdempotencyToken) : String :=
  s!"IdempotencyToken \x7b data: {token.data.toList} \x7d"

structure Memtable where
  skiplist : SkipList := {}
  rangeTombstones : RangeTombstoneIndex := {}
  dedupSet : List IdempotencyToken := []
  nextSequenceNumber : Nat
  frozen : Bool := false

namespace Memtable

def checkDedup (m : Memtable) (token : IdempotencyToken) : Bool :=
  !token.isNone && m.dedupSet.contains token

def frozenError : FlushError := .resourceExhausted "memtable" "memtable is frozen"

def duplicateError (token : IdempotencyToken) : FlushError := .duplicateToken token.debug

/-- The tombstone that a range delete stands for: the item key is a mark and the first key. -/
def tombstoneOf (entry : MemtableEntry) : RangeTombstone where
  recordId := entry.recordId
  startKey := ⟨entry.itemKey.data.tail⟩
  endKey := entry.value
  sequenceNumber := entry.sequenceNumber

def insertInner (m : Memtable) (entry : MemtableEntry) : Memtable :=
  { m with
    rangeTombstones :=
      if entry.entryType = .rangeDelete then m.rangeTombstones.add (tombstoneOf entry)
        else m.rangeTombstones
    dedupSet := if entry.idempotencyKey.isNone then m.dedupSet
      else m.dedupSet.insert entry.idempotencyKey
    skiplist := m.skiplist.insert entry }

/-- The memtable gives the entry a number of its own. -/
def insertPrechecked (m : Memtable) (entry : MemtableEntry) : FlushResult (Nat × Memtable) :=
  if m.frozen then .error frozenError
  else
    let seq := m.nextSequenceNumber
    .ok (seq, { m with nextSequenceNumber := seq + 1 }.insertInner { entry with sequenceNumber := seq })

def insert (m : Memtable) (entry : MemtableEntry) : FlushResult (Nat × Memtable) :=
  if m.frozen then .error frozenError
  else if m.checkDedup entry.idempotencyKey then .error (duplicateError entry.idempotencyKey)
  else m.insertPrechecked entry

/-- The number stays the one that the engine has given. -/
def insertWithAssignedSequence (m : Memtable) (entry : MemtableEntry) :
    FlushResult (Nat × Memtable) :=
  if m.frozen then .error frozenError
  else
    let seq := entry.sequenceNumber
    .ok (seq, { m with
      nextSequenceNumber := if seq ≥ m.nextSequenceNumber then seq + 1
        else m.nextSequenceNumber }.insertInner entry)

theorem insert_ok {m : Memtable} {entry : MemtableEntry} (opened : m.frozen = false)
    (unknown : m.checkDedup entry.idempotencyKey = false) :
    m.insert entry = .ok (m.nextSequenceNumber,
      { m with nextSequenceNumber := m.nextSequenceNumber + 1 }.insertInner
      { entry with sequenceNumber := m.nextSequenceNumber }) := by
  simp [insert, insertPrechecked, opened, unknown]

/-- The newest version, unless the memtable's own tombstones cover it. -/
def get (m : Memtable) (key : CompositeKey) : Option MemtableEntry :=
  (m.skiplist.get key).filter fun node =>
    !m.rangeTombstones.covers node.recordId node.itemKey node.sequenceNumber

/-- The first node of every key, without those that the memtable's own tombstones cover. -/
def dedupAndCheckRangeTombstones (m : Memtable) :
    Option CompositeKey → List MemtableEntry → List MemtableEntry
  | _, [] => []
  | lastKey, node :: rest =>
    if lastKey = some node.compositeKey then m.dedupAndCheckRangeTombstones lastKey rest
    else if m.rangeTombstones.covers node.recordId node.itemKey node.sequenceNumber then
      m.dedupAndCheckRangeTombstones (some node.compositeKey) rest
    else node :: m.dedupAndCheckRangeTombstones (some node.compositeKey) rest

def scanWithTombstones (m : Memtable) (start stop : CompositeKey) : List MemtableEntry :=
  m.dedupAndCheckRangeTombstones none (m.skiplist.range start stop)

def scanRecordWithTombstones (m : Memtable) (recordId : Bytes) : List MemtableEntry :=
  m.dedupAndCheckRangeTombstones none (m.skiplist.scanRecord recordId)

def entryCount (m : Memtable) : Nat := m.skiplist.nodes.length

end Memtable

/-- The frozen memtables are kept newest first, each with its generation. -/
structure MemtableList where
  active : Memtable
  frozen : List (Nat × Memtable) := []
  config : MemtableConfig

namespace MemtableList

def new (config : MemtableConfig) (startingSequence : Nat) : MemtableList where
  active := { nextSequenceNumber := startingSequence }
  config := config

def knows (l : MemtableList) (token : IdempotencyToken) : Bool :=
  l.active.checkDedup token || l.frozen.any fun m => m.2.checkDedup token

def checkDedup (l : MemtableList) (token : IdempotencyToken) : FlushResult Unit :=
  if l.knows token then .error (Memtable.duplicateError token) else .ok ()

/-- The same insertion into the active memtable. -/
def insertBy (l : MemtableList) (insert : Memtable → FlushResult (Nat × Memtable)) :
    FlushResult (Nat × MemtableList) :=
  match insert l.active with
  | .error e => .error e
  | .ok (seq, active) => .ok (seq, { l with active })

def insert (l : MemtableList) (entry : MemtableEntry) : FlushResult (Nat × MemtableList) :=
  if l.knows entry.idempotencyKey then .error (Memtable.duplicateError entry.idempotencyKey)
  else l.insertBy fun m => m.insert entry

/-- An entry with an unknown token is inserted under the memtable's next number. -/
theorem insert_ok {l : MemtableList} {entry : MemtableEntry} (opened : l.active.frozen = false)
    (unknown : l.knows entry.idempotencyKey = false) :
    l.insert entry = .ok (l.active.nextSequenceNumber, { l with
      active := { l.active with nextSequenceNumber := l.active.nextSequenceNumber + 1 }.insertInner
        { entry with sequenceNumber := l.active.nextSequenceNumber } }) := by
  have fresh : l.active.checkDedup entry.idempotencyKey = false :=
    (Bool.or_eq_false_iff.mp unknown).1
  simp only [insert, unknown, insertBy, Memtable.insert_ok opened fresh]
  rfl

def insertPrechecked (l : MemtableList) (entry : MemtableEntry) :
    FlushResult (Nat × MemtableList) :=
  l.insertBy fun m => m.insertWithAssignedSequence entry

def get (l : MemtableList) (key : CompositeKey) : Option MemtableEntry :=
  (l.active.get key).or (l.frozen.findSome? fun m => m.2.get key)

def freezeActiveWithGeneration (l : MemtableList) (generation : Nat) : FlushResult MemtableList :=
  if l.frozen.length ≥ l.config.maxFrozenCount then
    .error (.resourceExhausted "memtable"
      s!"too many frozen memtables: {l.frozen.length}/{l.config.maxFrozenCount}")
  else
    .ok { l with
      active := { nextSequenceNumber := l.active.nextSequenceNumber }
      frozen := (generation, { l.active with frozen := true }) :: l.frozen }

def freezeActive (l : MemtableList) : FlushResult MemtableList := l.freezeActiveWithGeneration 0

def popOldestFrozenWithGeneration (l : MemtableList) : Option ((Nat × Memtable) × MemtableList) :=
  l.frozen.getLast?.map fun oldest => (oldest, { l with frozen := l.frozen.dropLast })

def hasFrozen (l : MemtableList) : Bool := !l.frozen.isEmpty

def activeEntryCount (l : MemtableList) : Nat := l.active.entryCount

def memtables (l : MemtableList) : List Memtable := l.active :: l.frozen.map Prod.snd

theorem get_eq (l : MemtableList) (key : CompositeKey) :
    l.get key = l.memtables.findSome? fun m => m.get key := by
  rw [get, memtables, List.findSome?_cons, List.findSome?_map]
  cases l.active.get key <;> rfl

theorem pop_memtables {l l' : MemtableList} {oldest : Nat × Memtable}
    (h : l.popOldestFrozenWithGeneration = some (oldest, l')) :
    l.frozen = l'.frozen ++ [oldest] ∧ l.memtables = l'.memtables ++ [oldest.2] := by
  obtain ⟨last, found, same⟩ := Option.map_eq_some_iff.mp h
  obtain ⟨rfl, rfl⟩ := Prod.mk.inj same
  have split : l.frozen = l.frozen.dropLast ++ [last] := by
    obtain ⟨some_frozen, is_last⟩ := List.getLast?_eq_some_iff.mp found
    rw [is_last, List.dropLast_concat]
  refine ⟨split, ?_⟩
  rw [memtables, memtables, split]
  simp

def rangeTombstoneCovers (l : MemtableList) (recordId itemKey : Bytes) (entrySequence : Nat) :
    Bool :=
  l.memtables.any fun m => m.rangeTombstones.covers recordId itemKey entrySequence

def allRangeTombstones (l : MemtableList) : List RangeTombstone :=
  l.memtables.flatMap fun m => m.rangeTombstones.tombstones

end MemtableList

end FlushDB
