import FlushDB.Engine.RangeScan
import FlushDB.Lib.Run

/-!
What a list of memtables holds, as the history of the inserts and freezes that made it. The
freezes cut the history into segments, one for each memtable, and a read of the list is told
from the last change of the key in each segment.
-/

namespace FlushDB
open Lib MemtableEntry

namespace MemtableEntry

/-- A put or a delete changes its own key, a range delete the keys of its record from its first
key up to its end. -/
def affects (key : CompositeKey) (e : MemtableEntry) : Bool :=
  match e.entryType with
  | .put | .delete => e.compositeKey = key
  | .rangeDelete => e.recordId = key.recordId ∧ e.itemKey.data.tail ≤ key.itemKey.data ∧
      (e.value.data = [] ∨ key.itemKey < e.value)

theorem affects_own {key : CompositeKey} {e : MemtableEntry} (own : e.entryType ≠ .rangeDelete) :
    e.affects key = true ↔ e.compositeKey = key := by
  unfold affects
  split
  · exact decide_eq_true_iff
  · exact decide_eq_true_iff
  · contradiction

theorem affects_range {key : CompositeKey} {e : MemtableEntry}
    (range : e.entryType = .rangeDelete) :
    e.affects key = true ↔ e.recordId = key.recordId ∧ e.itemKey.data.tail ≤ key.itemKey.data ∧
      (e.value.data = [] ∨ key.itemKey < e.value) := by
  simp [affects, range]

/-- Puts and deletes have keys without the mark of a range delete, and range deletes have it. -/
def Keyed (e : MemtableEntry) : Prop :=
  match e.entryType with
  | .put | .delete => ∃ recordId itemKey, CompositeKey.new recordId itemKey = .ok e.compositeKey ∧
      itemKey.data.head? ≠ some rangeTombstonePrefix
  | .rangeDelete =>
    ∃ recordId startKey, CompositeKey.rangeTombstoneKey recordId startKey = .ok e.compositeKey

theorem Keyed.marked_iff {e : MemtableEntry} (h : e.Keyed) :
    e.itemKey.data.head? = some rangeTombstonePrefix ↔ e.entryType = .rangeDelete := by
  unfold Keyed at h
  split at h
  all_goals rename_i type
  · obtain ⟨recordId, item, made, unmarked⟩ := h
    obtain ⟨clean, same⟩ := CompositeKey.new_ok made
    simp [MemtableEntry.itemKey, same, CompositeKey.encode_itemKey clean, unmarked, type]
  · obtain ⟨recordId, item, made, unmarked⟩ := h
    obtain ⟨clean, same⟩ := CompositeKey.new_ok made
    simp [MemtableEntry.itemKey, same, CompositeKey.encode_itemKey clean, unmarked, type]
  · obtain ⟨recordId, startKey, made⟩ := h
    obtain ⟨clean, same⟩ := CompositeKey.rangeTombstoneKey_ok made
    simp [MemtableEntry.itemKey, same, CompositeKey.encode_itemKey clean, type]

end MemtableEntry

namespace MemtableList

inductive Op where
  | insert (entry : MemtableEntry)
  | freeze

/-- A call that is refused is not a step. -/
def step (l : MemtableList) : Op → Option MemtableList
  | .insert entry =>
    match l.insert entry with
    | .ok (_, l) => some l
    | .error _ => none
  | .freeze =>
    match l.freezeActive with
    | .ok l => some l
    | .error _ => none

def Op.entry : Op → Option MemtableEntry
  | .insert entry => some entry
  | .freeze => none

/-- The inserts with the numbers they get. -/
def numbered (next : Nat) : List Op → List MemtableEntry
  | [] => []
  | .insert entry :: rest => { entry with sequenceNumber := next } :: numbered (next + 1) rest
  | .freeze :: rest => numbered next rest

/-- The numbered inserts cut at the freezes, oldest first; `current` has been inserted since the
last one. -/
def segments (next : Nat) (current : List MemtableEntry) : List Op → List (List MemtableEntry)
  | [] => [current]
  | .insert entry :: rest =>
    segments (next + 1) (current ++ [{ entry with sequenceNumber := next }]) rest
  | .freeze :: rest => current :: segments next [] rest

/-- The last entry of a history that changes the key. -/
def lastChange (key : CompositeKey) (history : List MemtableEntry) : Option MemtableEntry :=
  history.reverse.find? (MemtableEntry.affects key)

section History
variable {key : CompositeKey} {history chunk : List MemtableEntry}
  {chunks : List (List MemtableEntry)} {ops : List Op}

theorem segments_flatten (next : Nat) (current : List MemtableEntry) (ops : List Op) :
    (segments next current ops).flatten = current ++ numbered next ops := by
  induction ops generalizing next current with
  | nil => simp [segments, numbered]
  | cons op rest ih =>
    cases op with
    | insert entry => simp [segments, numbered, ih]
    | freeze => simp [segments, numbered, ih]

theorem numbered_from {e : MemtableEntry} {next : Nat} (h : e ∈ numbered next ops) :
    next ≤ e.sequenceNumber ∧ ∃ entry, Op.insert entry ∈ ops ∧
      e = { entry with sequenceNumber := e.sequenceNumber } := by
  induction ops generalizing next with
  | nil => cases h
  | cons op rest ih =>
    cases op with
    | insert entry =>
      rcases List.mem_cons.mp h with rfl | later
      · exact ⟨le_refl _, entry, List.mem_cons_self, rfl⟩
      · obtain ⟨above, entry', member, same⟩ := ih later
        exact ⟨by omega, entry', List.mem_cons_of_mem _ member, same⟩
    | freeze =>
      obtain ⟨above, entry', member, same⟩ := ih h
      exact ⟨above, entry', List.mem_cons_of_mem _ member, same⟩

theorem numbered_ascends (next : Nat) (ops : List Op) :
    (numbered next ops).Pairwise fun a b => a.sequenceNumber < b.sequenceNumber := by
  induction ops generalizing next with
  | nil => exact .nil
  | cons op rest ih =>
    cases op with
    | insert entry =>
      refine List.pairwise_cons.mpr ⟨?_, ih _⟩
      intro e member
      exact (numbered_from member).1
    | freeze => exact ih _

/-- The last change of a key in a history of ascending numbers: every other change has a smaller
number. -/
theorem lastChange_some {e : MemtableEntry}
    (ascends : history.Pairwise fun a b => a.sequenceNumber < b.sequenceNumber)
    (h : lastChange key history = some e) :
    e ∈ history ∧ e.affects key = true ∧ ∀ x ∈ history, x.affects key = true →
      x.sequenceNumber ≤ e.sequenceNumber := by
  obtain ⟨affects, before, after, split, none_after⟩ := List.find?_eq_some_iff_append.mp h
  have member : e ∈ history := List.mem_reverse.mp (List.mem_of_find?_eq_some h)
  refine ⟨member, affects, ?_⟩
  intro x inside changes
  have order : (history.reverse).Pairwise fun a b => b.sequenceNumber < a.sequenceNumber :=
    List.pairwise_reverse.mpr ascends
  rw [← List.mem_reverse, split] at inside
  rw [split] at order
  rcases List.mem_append.mp inside with early | rest
  · have := none_after x early
    rw [changes] at this
    cases this
  · rcases List.mem_cons.mp rest with rfl | late
    · exact le_refl _
    · exact ((List.pairwise_cons.mp (List.pairwise_append.mp order).2.1).1 x late).le

theorem lastChange_none (h : lastChange key history = none) :
    ∀ x ∈ history, x.affects key = false := by
  intro x member
  exact Bool.eq_false_iff.mpr (List.find?_eq_none.mp h x (List.mem_reverse.mpr member))

/-- A memtable that holds exactly the entries of a segment. -/
structure Holds (m : Memtable) (chunk : List MemtableEntry) : Prop where
  nodes : ∀ e, e ∈ m.skiplist.nodes ↔ e ∈ chunk
  tombstones : ∀ ts, ts ∈ m.rangeTombstones.tombstones ↔
    ∃ e ∈ chunk, e.entryType = .rangeDelete ∧ Memtable.tombstoneOf e = ts

theorem holds_empty (next : Nat) : Holds { nextSequenceNumber := next } [] := ⟨by simp, by simp⟩

/-- An entry with a new number is added to what the memtable holds. -/
theorem Holds.insertInner {m m' : Memtable} (h : Holds m chunk) (nodes : m'.skiplist = m.skiplist)
    (tombstones : m'.rangeTombstones = m.rangeTombstones) {e : MemtableEntry}
    (fresh : ∀ x ∈ chunk, x.sequenceNumber < e.sequenceNumber) :
    Holds (m'.insertInner e) (chunk ++ [e]) := by
  refine ⟨?_, ?_⟩
  · intro x
    rw [List.mem_append, List.mem_singleton, ← h.nodes, ← nodes]
    constructor
    · intro member
      exact (SkipList.mem_insertNode member).symm
    · rintro (old | rfl)
      · refine SkipList.mem_insertNode_of_mem old ?_
        intro same
        have := fresh x ((h.nodes x).mp (nodes ▸ old))
        omega
      · exact SkipList.mem_insertNode_self _ _
  · intro ts
    have added : ts ∈ (m'.insertInner e).rangeTombstones.tombstones ↔
        (e.entryType = .rangeDelete ∧ Memtable.tombstoneOf e = ts) ∨
          ts ∈ m.rangeTombstones.tombstones := by
      unfold Memtable.insertInner
      dsimp only
      split
      · rename_i range
        rw [RangeTombstoneIndex.mem_add, tombstones]
        simp [range, eq_comm]
      · rename_i other
        rw [tombstones]
        simp [other]
    rw [added, h.tombstones]
    constructor
    · rintro (⟨range, same⟩ | ⟨x, member, range, same⟩)
      · exact ⟨e, List.mem_append_right _ (List.mem_singleton_self e), range, same⟩
      · exact ⟨x, List.mem_append_left _ member, range, same⟩
    · rintro ⟨x, member, range, same⟩
      rcases List.mem_append.mp member with old | new
      · exact Or.inr ⟨x, old, range, same⟩
      · rw [List.mem_singleton.mp new] at range same
        exact Or.inl ⟨range, same⟩

/-- An accepted insert enters the active memtable under its next number. -/
theorem step_insert {l l' : MemtableList} {entry : MemtableEntry}
    (taken : step l (.insert entry) = some l') :
    l' = { l with
      active := { l.active with nextSequenceNumber := l.active.nextSequenceNumber + 1 }.insertInner
        { entry with sequenceNumber := l.active.nextSequenceNumber } } := by
  simp only [step] at taken
  split at taken
  · rename_i seq next accepted
    obtain rfl := Option.some.inj taken
    unfold MemtableList.insert insertBy Memtable.insert Memtable.insertPrechecked at accepted
    split at accepted
    · cases accepted
    · split at accepted
      · cases accepted
      · rename_i inserted
        dsimp only at inserted
        split at inserted
        · cases inserted
        · split at inserted
          · cases inserted
          · obtain ⟨rfl, rfl⟩ := Prod.mk.inj (Except.ok.inj inserted)
            exact (Prod.mk.inj (Except.ok.inj accepted)).2.symm
  · cases taken

theorem step_freeze {l l' : MemtableList} (taken : step l .freeze = some l') :
    l' = { l with
      active := { nextSequenceNumber := l.active.nextSequenceNumber }
      frozen := (0, { l.active with frozen := true }) :: l.frozen } := by
  simp only [step] at taken
  split at taken
  · rename_i next frozen
    obtain rfl := Option.some.inj taken
    unfold freezeActive freezeActiveWithGeneration at frozen
    split at frozen
    · cases frozen
    · exact (Except.ok.inj frozen).symm
  · cases taken

theorem exec_holds {l l' : MemtableList} {current : List MemtableEntry}
    {older : List (List MemtableEntry)} (start : List.Forall₂ Holds l.memtables (current :: older))
    (below : ∀ e ∈ current, e.sequenceNumber < l.active.nextSequenceNumber)
    (run : exec step l ops = some l') :
    List.Forall₂ Holds l'.memtables ((segments l.active.nextSequenceNumber current ops).reverse ++ older) := by
  induction ops generalizing l current older with
  | nil =>
    cases run
    exact start
  | cons op rest ih =>
    obtain ⟨mid, taken, afterwards⟩ := exec_cons run
    obtain ⟨active, others⟩ := List.forall₂_cons.mp start
    cases op with
    | insert entry =>
      have same := step_insert taken
      have memtables : mid.memtables =
          { l.active with nextSequenceNumber := l.active.nextSequenceNumber + 1 }.insertInner
          { entry with sequenceNumber := l.active.nextSequenceNumber } :: l.frozen.map Prod.snd := by
        rw [same]
        rfl
      have next : mid.active.nextSequenceNumber = l.active.nextSequenceNumber + 1 := by
        rw [same]
        rfl
      have added : Holds ({ l.active with nextSequenceNumber := l.active.nextSequenceNumber + 1 }.insertInner
          { entry with sequenceNumber := l.active.nextSequenceNumber })
          (current ++ [{ entry with sequenceNumber := l.active.nextSequenceNumber }]) := by
        apply active.insertInner
        · rfl
        · rfl
        · exact below
      have held := ih (memtables ▸ List.forall₂_cons.mpr ⟨added, others⟩) (by
        intro e member
        rw [next]
        rcases List.mem_append.mp member with old | new
        · exact (below e old).trans (Nat.lt_succ_self _)
        · rw [List.mem_singleton.mp new]
          exact Nat.lt_succ_self _) afterwards
      rwa [next] at held
    | freeze =>
      have same := step_freeze taken
      have memtables : mid.memtables = { nextSequenceNumber := l.active.nextSequenceNumber } ::
          { l.active with frozen := true } :: l.frozen.map Prod.snd := by
        rw [same]
        rfl
      have next : mid.active.nextSequenceNumber = l.active.nextSequenceNumber := by rw [same]
      have frozen : Holds { l.active with frozen := true } current :=
        ⟨active.nodes, active.tombstones⟩
      have held := ih (memtables ▸ List.forall₂_cons.mpr
        ⟨holds_empty _, List.forall₂_cons.mpr ⟨frozen, others⟩⟩) (by simp) afterwards
      rw [next] at held
      simpa [segments] using held

/-- Numbers tell the entries of a history apart. -/
theorem same_of_number (ascends : history.Pairwise fun a b => a.sequenceNumber < b.sequenceNumber)
    {a b : MemtableEntry} (first : a ∈ history) (second : b ∈ history)
    (same : a.sequenceNumber = b.sequenceNumber) : a = b := by
  have distinct : (history.map MemtableEntry.sequenceNumber).Nodup := by
    rw [List.Nodup, List.pairwise_map]
    exact ascends.imp fun less => less.ne
  exact List.inj_on_of_nodup_map distinct first second same

/-- A memtable covers a version when its segment has a later range delete of the key. -/
theorem Holds.covers_iff {m : Memtable} (h : Holds m chunk) (key : CompositeKey) (seq : Nat) :
    m.rangeTombstones.covers key.recordId key.itemKey seq = true ↔
      ∃ r ∈ chunk, r.entryType = .rangeDelete ∧ r.affects key = true ∧ seq < r.sequenceNumber := by
  have range : ∀ r : MemtableEntry, RangeTombstoneIndex.inRange
      (Memtable.tombstoneOf r) key.itemKey = true ↔
      r.value.data = [] ∨ key.itemKey < r.value := by
    intro r
    rw [RangeTombstoneIndex.inRange, decide_eq_true_eq, Bytes.isEmpty, List.isEmpty_iff]
    rfl
  rw [RangeTombstoneIndex.covers_iff]
  constructor
  · rintro ⟨ts, member, record, start, inside, newer⟩
    obtain ⟨r, listed, type, rfl⟩ := (h.tombstones ts).mp member
    exact ⟨r, listed, type, (affects_range type).mpr ⟨record, start, (range r).mp inside⟩, newer⟩
  · rintro ⟨r, listed, type, affects, newer⟩
    obtain ⟨record, start, inside⟩ := (affects_range type).mp affects
    exact ⟨_, (h.tombstones _).mpr ⟨r, listed, type, rfl⟩, record, start, (range r).mpr inside, newer⟩

/-- The node that the skip list finds is the newest of its key. -/
theorem Holds.node {m : Memtable} (h : Holds m chunk) {x : MemtableEntry}
    (found : m.skiplist.get key = some x) :
    x ∈ chunk ∧ x.compositeKey = key ∧ ∀ y ∈ chunk, y.compositeKey = key →
      y.sequenceNumber ≤ x.sequenceNumber := by
  obtain ⟨member, same, newest⟩ := SkipList.get_some found
  exact ⟨(h.nodes x).mp member, same, fun y inside => newest y ((h.nodes y).mpr inside)⟩

/-- What a memtable shows of a key is the last change of the key in its segment, unless that is a
range delete. -/
theorem Holds.get_filter {m : Memtable} (h : Holds m chunk)
    (ascends : chunk.Pairwise fun a b => a.sequenceNumber < b.sequenceNumber)
    (keyed : ∀ e ∈ chunk, e.Keyed) (key : CompositeKey) :
    (m.get key).filter (fun e => e.entryType ≠ .rangeDelete) =
      (lastChange key chunk).filter fun e => e.entryType ≠ .rangeDelete := by
  -- a version that is shown changes the key and no range delete of the segment follows it
  have shown : ∀ x, m.get key = some x → x.entryType ≠ .rangeDelete → x ∈ chunk ∧
      x.affects key = true ∧
      ∀ r ∈ chunk, r.entryType = .rangeDelete → r.affects key = true →
        r.sequenceNumber ≤ x.sequenceNumber := by
    intro x got own
    obtain ⟨found, visible⟩ := Option.filter_eq_some_iff.mp got
    obtain ⟨member, same, -⟩ := h.node found
    refine ⟨member, (affects_own own).mpr same, ?_⟩
    intro r listed type affects
    by_contra later
    have covered := (h.covers_iff key x.sequenceNumber).mpr ⟨r, listed, type, affects, not_le.mp later⟩
    rw [← same] at covered
    rw [show m.rangeTombstones.covers x.recordId x.itemKey x.sequenceNumber = true from covered] at visible
    cases visible
  cases last : lastChange key chunk with
  | none =>
    rw [Option.filter_none, Option.filter_eq_none_iff]
    intro x got own
    obtain ⟨member, affects, -⟩ := shown x got (of_decide_eq_true own)
    rw [lastChange_none last x member] at affects
    cases affects
  | some e =>
    obtain ⟨member, affects, latest⟩ := lastChange_some ascends last
    by_cases range : e.entryType = .rangeDelete
    · rw [Option.filter_some, if_neg (by simpa using range), Option.filter_eq_none_iff]
      intro x got own
      obtain ⟨inside, affects', uncovered⟩ := shown x got (of_decide_eq_true own)
      have same := same_of_number ascends inside member
        (le_antisymm (latest x inside affects') (uncovered e member range affects))
      rw [same] at own
      exact of_decide_eq_true own range
    · have own : e.compositeKey = key := (affects_own range).mp affects
      have found : m.get key = some e := by
        cases node : m.skiplist.get key with
        | none =>
          rw [SkipList.get_eq, List.find?_eq_none] at node
          exact absurd (decide_eq_true own) (node e ((h.nodes e).mpr member))
        | some x =>
          obtain ⟨inside, same, newest⟩ := h.node node
          have unmarked : x.entryType ≠ .rangeDelete := by
            rw [Ne, ← (keyed x inside).marked_iff, MemtableEntry.itemKey, same, ← own]
            exact fun marked => range ((keyed e member).marked_iff.mp marked)
          have equal := same_of_number ascends inside member
            (le_antisymm (latest x inside ((affects_own unmarked).mpr same)) (newest e member own))
          rw [Memtable.get, node, equal, Option.filter_some, if_pos]
          rw [Bool.not_eq_true', Bool.eq_false_iff]
          intro covered
          have covered : m.rangeTombstones.covers key.recordId key.itemKey e.sequenceNumber =
              true := own ▸ covered
          obtain ⟨r, listed, -, affects', newer⟩ := (h.covers_iff key e.sequenceNumber).mp covered
          have := latest r listed affects'
          omega
      rw [found]

/-- In each segment with a change of the key the last one, oldest first. -/
def outcomes (key : CompositeKey) (segments : List (List MemtableEntry)) : List MemtableEntry :=
  segments.filterMap (lastChange key)

theorem lastChange_append (first second : List MemtableEntry) :
    lastChange key (first ++ second) = (lastChange key second).or (lastChange key first) := by
  rw [lastChange, List.reverse_append, List.find?_append]
  rfl

theorem lastChange_flatten (segments : List (List MemtableEntry)) :
    lastChange key segments.flatten = (outcomes key segments).getLast? := by
  induction segments with
  | nil => rfl
  | cons first rest ih =>
    rw [List.flatten_cons, lastChange_append, ih]
    cases last : lastChange key first with
    | none =>
      have same : outcomes key (first :: rest) = outcomes key rest := List.filterMap_cons_none last
      rw [same, Option.or_none]
    | some e =>
      have same : outcomes key (first :: rest) = e :: outcomes key rest :=
        List.filterMap_cons_some last
      rw [same, List.getLast?_cons]
      cases (outcomes key rest).getLast? <;> rfl

/-- The memtables of a list hold the segments of a history. -/
structure Told (l : MemtableList) (segments : List (List MemtableEntry)) : Prop where
  held : List.Forall₂ Holds l.memtables segments.reverse
  ascends : segments.flatten.Pairwise fun a b => a.sequenceNumber < b.sequenceNumber
  keyed : ∀ e ∈ segments.flatten, e.Keyed

theorem told {config : MemtableConfig} {start : Nat} {l : MemtableList}
    (keyed : ∀ e, Op.insert e ∈ ops → e.Keyed) (run : exec step (new config start) ops = some l) :
    Told l (segments start [] ops) := by
  have whole := segments_flatten start [] ops
  rw [List.nil_append] at whole
  refine ⟨?_, ?_, ?_⟩
  · have held := @exec_holds ops (new config start) l [] []
      (List.forall₂_cons.mpr ⟨holds_empty _, .nil⟩) (by simp) run
    rwa [List.append_nil] at held
  · rw [whole]
    exact numbered_ascends start ops
  · intro e member
    rw [whole] at member
    obtain ⟨-, entry, inserted, same⟩ := numbered_from member
    rw [same]
    exact keyed entry inserted

section Reads
variable {l : MemtableList} {segs : List (List MemtableEntry)}

theorem Told.covers_iff (h : Told l segs) (key : CompositeKey) (seq : Nat) :
    l.rangeTombstoneCovers key.recordId key.itemKey seq = true ↔
      ∃ r ∈ segs.flatten, r.entryType = .rangeDelete ∧ r.affects key = true ∧
        seq < r.sequenceNumber := by
  rw [rangeTombstoneCovers, List.any_eq_true]
  constructor
  · rintro ⟨m, listed, covered⟩
    obtain ⟨chunk, member, holds⟩ := forall₂_mem_right (List.Forall₂.flip h.held) listed
    obtain ⟨r, inside, rest⟩ := (holds.covers_iff key seq).mp covered
    exact ⟨r, List.mem_flatten.mpr ⟨chunk, List.mem_reverse.mp member, inside⟩, rest⟩
  · rintro ⟨r, inside, rest⟩
    obtain ⟨chunk, member, inside⟩ := List.mem_flatten.mp inside
    obtain ⟨m, listed, holds⟩ := forall₂_mem_right h.held (List.mem_reverse.mpr member)
    exact ⟨m, listed, (holds.covers_iff key seq).mpr ⟨r, inside, rest⟩⟩

/-- What a point read of the list finds: the last outcome that is not a range delete. -/
theorem Told.get_filter (h : Told l segs) (key : CompositeKey) :
    (l.get key).filter (fun e => e.entryType ≠ .rangeDelete) =
    (outcomes key segs).reverse.find? fun e => e.entryType ≠ .rangeDelete := by
  have each : ∀ m ∈ l.memtables, ∀ e, m.get key = some e → (e.entryType = .rangeDelete ↔
      key.itemKey.data.head? = some rangeTombstonePrefix) := by
    intro m listed e got
    obtain ⟨chunk, member, holds⟩ := forall₂_mem_right (List.Forall₂.flip h.held) listed
    obtain ⟨inside, same, -⟩ := holds.node (Option.filter_eq_some_iff.mp got).1
    have keyed := h.keyed e (List.mem_flatten.mpr ⟨chunk, List.mem_reverse.mp member, inside⟩)
    rw [← keyed.marked_iff, MemtableEntry.itemKey, same]
  have pulled : (l.get key).filter (fun e => e.entryType ≠ .rangeDelete) =
      l.memtables.findSome? fun m => (m.get key).filter fun e => e.entryType ≠ .rangeDelete := by
    rw [get_eq]
    generalize l.memtables = memtables at each
    induction memtables with
    | nil => rfl
    | cons m rest ih =>
      have later := ih fun m listed => each m (List.mem_cons_of_mem _ listed)
      rw [List.findSome?_cons, List.findSome?_cons]
      cases got : m.get key with
      | none => exact later
      | some e =>
        have here := each m List.mem_cons_self e got
        by_cases range : e.entryType = .rangeDelete
        · -- the key has the mark, and all that the others show of it are range deletes
          have nothing : (rest.findSome? fun m => (m.get key).filter fun e =>
              e.entryType ≠ .rangeDelete) = none := by
            rw [List.findSome?_eq_none_iff]
            intro m' listed
            rw [Option.filter_eq_none_iff]
            intro x got' own
            exact of_decide_eq_true own ((each m' (List.mem_cons_of_mem _ listed) x got').mpr (here.mp range))
          dsimp only
          rw [Option.filter_some, if_neg (by simpa using range)]
          exact nothing.symm
        · simp [Option.filter_some, range]
  have read : (l.memtables.findSome? fun m => (m.get key).filter fun e => e.entryType ≠ .rangeDelete) =
      segs.reverse.findSome? fun chunk => (lastChange key chunk).filter fun e =>
        e.entryType ≠ .rangeDelete := by
    have ascends : ∀ chunk ∈ segs.reverse, chunk.Pairwise fun a b =>
        a.sequenceNumber < b.sequenceNumber := fun chunk member =>
      h.ascends.sublist (List.sublist_flatten_of_mem (List.mem_reverse.mp member))
    have keyed : ∀ chunk ∈ segs.reverse, ∀ e ∈ chunk, e.Keyed := fun chunk member e inside =>
      h.keyed e (List.mem_flatten.mpr ⟨chunk, List.mem_reverse.mp member, inside⟩)
    have held := h.held
    generalize l.memtables = memtables at held
    generalize segs.reverse = chunks at held ascends keyed
    induction held with
    | nil => rfl
    | cons here rest ih =>
      rw [List.findSome?_cons, List.findSome?_cons,
        here.get_filter (ascends _ List.mem_cons_self) (keyed _ List.mem_cons_self) key,
        ih (fun chunk member => ascends chunk (List.mem_cons_of_mem _ member))
          (fun chunk member => keyed chunk (List.mem_cons_of_mem _ member))]
  rw [pulled, read, ← List.head?_filterMap, ← List.filter_filterMap, List.filterMap_reverse,
    List.head?_filter]
  rfl

theorem Told.found (h : Told l segs) {e : MemtableEntry} (got : l.get key = some e)
    (own : e.entryType ≠ .rangeDelete) :
    e ∈ segs.flatten ∧ e.affects key = true ∧ e.compositeKey = key := by
  have surfaced := h.get_filter key
  rw [got, Option.filter_some, if_pos (decide_eq_true own)] at surfaced
  have listed := List.mem_reverse.mp (List.mem_of_find?_eq_some surfaced.symm)
  obtain ⟨chunk, member, last⟩ := List.mem_filterMap.mp listed
  obtain ⟨inside, affects, -⟩ :=
    lastChange_some (h.ascends.sublist (List.sublist_flatten_of_mem member)) last
  exact ⟨List.mem_flatten.mpr ⟨chunk, member, inside⟩, affects, (affects_own own).mp affects⟩

/-- When the last change is not a range delete it is what the point read finds, and nothing covers
it. -/
theorem Told.found_last (h : Told l segs) {e : MemtableEntry}
    (last : lastChange key segs.flatten = some e) (own : e.entryType ≠ .rangeDelete) :
    l.get key = some e ∧ l.rangeTombstoneCovers key.recordId key.itemKey e.sequenceNumber = false := by
  obtain ⟨-, -, latest⟩ := lastChange_some h.ascends last
  constructor
  · rw [lastChange_flatten] at last
    obtain ⟨before, split⟩ := List.getLast?_eq_some_iff.mp last
    have surfaced := h.get_filter key
    rw [split, List.reverse_append, List.reverse_singleton, List.singleton_append,
      List.find?_cons_of_pos (by simpa using own)] at surfaced
    exact (Option.filter_eq_some_iff.mp surfaced).1
  · rw [Bool.eq_false_iff]
    intro covered
    obtain ⟨r, member, -, affects, newer⟩ := (h.covers_iff key _).mp covered
    have := latest r member affects
    omega

/-- Behind a last change that is a range delete only covered versions are found. -/
theorem Told.covered_of_last (h : Told l segs) {e r : MemtableEntry} (got : l.get key = some e)
    (own : e.entryType ≠ .rangeDelete) (last : lastChange key segs.flatten = some r)
    (range : r.entryType = .rangeDelete) :
    l.rangeTombstoneCovers key.recordId key.itemKey e.sequenceNumber = true := by
  obtain ⟨inside, affects, -⟩ := h.found got own
  obtain ⟨member, affects', latest⟩ := lastChange_some h.ascends last
  refine (h.covers_iff key _).mpr ⟨r, member, range, affects', ?_⟩
  refine lt_of_le_of_ne (latest e inside affects) ?_
  intro same
  exact own (same_of_number h.ascends inside member same ▸ range)

theorem Told.answer_eq (h : Told l segs) (key : CompositeKey) :
    ((l.get key).bind fun e => ReadPath.answer l key (MergeEntry.fromMemtableEntry e)) =
      ((lastChange key segs.flatten).filter fun e => e.entryType = .put).map
        MergeEntry.fromMemtableEntry := by
  -- what is found without a last change, or behind a range delete, gives no answer
  have hidden : (∀ e, l.get key = some e → e.entryType = .put →
      l.rangeTombstoneCovers key.recordId key.itemKey e.sequenceNumber = true) →
      ((l.get key).bind fun e => ReadPath.answer l key (MergeEntry.fromMemtableEntry e)) = none := by
    intro all_covered
    cases got : l.get key with
    | none => rfl
    | some e =>
      rw [Option.bind_some, ReadPath.answer]
      cases type : e.entryType with
      | put =>
        have covered := all_covered e got type
        simp only [MergeEntry.isTombstone, MergeEntry.fromMemtableEntry, type, covered]
        rfl
      | delete => simp [MergeEntry.isTombstone, MergeEntry.fromMemtableEntry, type]
      | rangeDelete => simp [MergeEntry.isTombstone, MergeEntry.fromMemtableEntry, type]
  cases last : lastChange key segs.flatten with
  | none =>
    refine hidden ?_
    intro e got put
    obtain ⟨inside, affects, -⟩ := h.found got (by simp [put])
    rw [lastChange_none last e inside] at affects
    cases affects
  | some e =>
    cases type : e.entryType with
    | put =>
      obtain ⟨got, uncovered⟩ := h.found_last last (by simp [type])
      rw [got, Option.filter_some, if_pos (decide_eq_true type), Option.bind_some, ReadPath.answer]
      simp [MergeEntry.isTombstone, MergeEntry.fromMemtableEntry, type, uncovered]
    | delete =>
      obtain ⟨got, -⟩ := h.found_last last (by simp [type])
      rw [got, Option.filter_some, if_neg (by simp [type]), Option.bind_some, ReadPath.answer]
      simp [MergeEntry.isTombstone, MergeEntry.fromMemtableEntry, type]
    | rangeDelete =>
      rw [Option.filter_some, if_neg (by simp [type])]
      refine hidden ?_
      intro x got put
      exact h.covered_of_last got (by simp [put]) last type

end Reads

/-- A point read followed by the tests of the engine answers with the last change of the key when
that is a put, and with nothing otherwise. -/
theorem last_writer_wins {config : MemtableConfig} {start : Nat} {l : MemtableList}
    (keyed : ∀ e, Op.insert e ∈ ops → e.Keyed) (run : exec step (new config start) ops = some l)
    (key : CompositeKey) :
    ((l.get key).bind fun e => ReadPath.answer l key (MergeEntry.fromMemtableEntry e)) =
      ((lastChange key (numbered start ops)).filter fun e => e.entryType = .put).map
        MergeEntry.fromMemtableEntry := by
  have answered := (told keyed run).answer_eq key
  rwa [segments_flatten, List.nil_append] at answered

end History

/-- Of the record `r`: a put of `a`, a freeze, a delete of all keys from `a` on, a put of `a`. -/
def rewritten : List Op :=
  let entry : EntryType → List UInt8 → List UInt8 → MemtableEntry := fun type item value =>
    ⟨CompositeKey.encode ⟨[114]⟩ item, ⟨value⟩, ⟨[]⟩, .none, 0, type, 0⟩
  [.insert (entry .put [97] [1]), .freeze, .insert (entry .rangeDelete [rangeTombstonePrefix, 97] []),
    .insert (entry .put [97] [2])]

theorem rewritten_keyed : ∀ e, Op.insert e ∈ rewritten → e.Keyed := by
  intro e member
  simp only [rewritten, List.mem_cons, Op.insert.injEq, reduceCtorEq, List.not_mem_nil, or_false,
    false_or] at member
  rcases member with rfl | rfl | rfl
  · exact ⟨⟨[114]⟩, ⟨[97]⟩, by decide, by decide⟩
  · exact ⟨⟨[114]⟩, ⟨[97]⟩, by decide⟩
  · exact ⟨⟨[114]⟩, ⟨[97]⟩, by decide, by decide⟩

theorem last_writer_wins_rewritten : ∃ l, exec step (new {} 1) rewritten = some l ∧
    ((l.get (CompositeKey.encode ⟨[114]⟩ [97])).bind fun e =>
      ReadPath.answer l (CompositeKey.encode ⟨[114]⟩ [97]) (MergeEntry.fromMemtableEntry e)) =
    some ⟨CompositeKey.encode ⟨[114]⟩ [97], ⟨[2]⟩, ⟨[]⟩, .put, 3, 0⟩ := by
  have accepted : (exec step (new {} 1) rewritten).isSome = true := by decide
  obtain ⟨l, run⟩ := Option.isSome_iff_exists.mp accepted
  refine ⟨l, run, ?_⟩
  rw [last_writer_wins rewritten_keyed run]
  decide

end MemtableList

end FlushDB
