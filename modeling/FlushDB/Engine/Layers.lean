import FlushDB.Engine.Arrangement
import FlushDB.Lib.Versioned

/-!
The layers of an open engine: the memtable above the tables of L0, these above the levels further
down. What a reader is shown of a key is the version with the highest number; a flush and a
compaction leave what is shown, and an entry that is inserted is written over it.
-/

namespace FlushDB
open Lib ManifestBucket

/-- What a version says of its key; a tombstone says that there is nothing. -/
def MergeEntry.shown (e : MergeEntry) : Option (Bytes × Bytes) :=
  if e.isTombstone then none else some (e.value, e.metadata)

/-- What the newest version of a key says. -/
def readNewest (entries : List MergeEntry) (key : CompositeKey) : Option (Bytes × Bytes) :=
  ((Levels.newest entries key).map MergeEntry.shown).getD none

abbrev ShownBy (versions : MergeEntry → Prop) (base view : CompositeKey → Option (Bytes × Bytes)) :
    Prop :=
  Shows MergeEntry.compositeKey MergeEntry.sequenceNumber MergeEntry.shown versions base view

theorem readNewest_shown (entries : List MergeEntry) :
    ShownBy (· ∈ entries) (fun _ => none) (readNewest entries) :=
  Shows.ofArgmax

theorem Levels.visible_eq (m : Manifest) (tables : Tables) :
    Levels.visible m tables = readNewest (allEntries m tables) := by
  funext key
  unfold visible readNewest MergeEntry.shown
  cases newest (allEntries m tables) key <;> rfl

namespace Lists
variable {lists lists' : Lists} {tables tables' : Tables}

def entriesAt (lists : Lists) (tables : Tables) (level : Level) : List MergeEntry :=
  (lists level).flatMap fun t => tables.entries (t.sstPath level)

def entries (lists : Lists) (tables : Tables) : List MergeEntry :=
  Level.all.flatMap (lists.entriesAt tables)

/-- The level invariants: a level that is further down has older versions, and no version is listed
twice. -/
structure Ok (lists : Lists) (tables : Tables) : Prop where
  distinct : lists.ids.Nodup
  stored : ∀ level, ∀ t ∈ lists level, ∃ entries, tables.get (t.sstPath level) = some entries ∧
    TableOk t entries
  disjoint : ∀ level, level ≠ .L0 → (lists level).Pairwise fun a b => a.maxKey < b.minKey
  newer : ∀ lower higher : Level, lower.asU8 < higher.asU8 → ∀ a ∈ lists.entriesAt tables lower,
    ∀ b ∈ lists.entriesAt tables higher, a.compositeKey = b.compositeKey →
      b.sequenceNumber < a.sequenceNumber
  sequences : (lists.entries tables).Pairwise Levels.Distinguished

theorem ok_iff {m : Manifest} : Levels.Ok m tables ↔ Lists.Ok m.sstablesAtLevel tables := by
  constructor
  · intro ok
    have distinct := ok.distinct
    rw [Levels.ids_eq] at distinct
    exact ⟨distinct, ok.stored, ok.disjoint, ok.newer, ok.sequences⟩
  · intro ok
    refine ⟨?_, ok.stored, ok.disjoint, ok.newer, ok.sequences⟩
    rw [Levels.ids_eq]
    exact ok.distinct

theorem ok_empty (tables : Tables) : Ok (fun _ => []) tables := by
  refine ⟨List.nodup_nil, ?_, fun _ _ => .nil, ?_, .nil⟩
  · intro level t member
    cases member
  · intro lower higher _ a member
    cases member

theorem mem_entries {e : MergeEntry} : e ∈ lists.entries tables ↔ lists.Holds tables e := by
  constructor
  · intro member
    obtain ⟨level, -, member⟩ := List.mem_flatMap.mp member
    obtain ⟨t, listed, inside⟩ := List.mem_flatMap.mp member
    exact ⟨level, t, listed, inside⟩
  · rintro ⟨level, t, listed, inside⟩
    exact List.mem_flatMap.mpr ⟨level, level.mem_all, List.mem_flatMap.mpr ⟨t, listed, inside⟩⟩

theorem Ok.told (ok : lists.Ok tables) :
    Told MergeEntry.compositeKey MergeEntry.sequenceNumber (· ∈ lists.entries tables) :=
  fun _ _ first second key number => Levels.eq_of_same_version ok.sequences first second key number

/-- A table above all others is put into L0. -/
theorem Ok.stacked (ok : lists.Ok tables) (extend : ObjectStore.Extends tables tables')
    {t : SSTableMeta} {contents : List MergeEntry} (top : (lists' .L0).Perm (lists .L0 ++ [t]))
    (below : ∀ level, level ≠ .L0 → lists' level = lists level) (distinct : lists'.ids.Nodup)
    (object : tables'.get (t.sstPath .L0) = some contents) (good : TableOk t contents)
    (told : contents.Pairwise Levels.Distinguished)
    (above : ∀ a ∈ contents, ∀ b ∈ lists.entries tables, b.sequenceNumber < a.sequenceNumber) :
    lists'.Ok tables' := by
  have same : ∀ level, ∀ u ∈ lists level, tables'.entries (u.sstPath level) =
      tables.entries (u.sstPath level) := by
    intro level u listed
    obtain ⟨entries, found, -⟩ := ok.stored level u listed
    rw [Tables.entries, Tables.entries, extend _ _ found, found]
  have lower : ∀ level, level ≠ .L0 → lists'.entriesAt tables' level =
      lists.entriesAt tables level := by
    intro level other
    unfold entriesAt
    rw [below level other]
    exact List.flatMap_congr fun u listed => same level u listed
  have first : (lists'.entriesAt tables' .L0).Perm (lists.entriesAt tables .L0 ++ contents) := by
    refine (List.Perm.flatMap_right _ top).trans ?_
    rw [List.flatMap_append, List.flatMap_singleton, Tables.entries, object]
    rw [List.flatMap_congr fun u listed => same .L0 u listed]
    exact List.Perm.refl _
  have inside : ∀ level, ∀ e ∈ lists.entriesAt tables level, e ∈ lists.entries tables :=
    fun level e member =>
    List.mem_flatMap.mpr ⟨level, level.mem_all, member⟩
  refine ⟨distinct, ?_, ?_, ?_, ?_⟩
  · intro level u listed
    have old : u ∈ lists level → ∃ entries, tables'.get (u.sstPath level) = some entries ∧
        TableOk u entries := by
      intro before
      obtain ⟨entries, found, good⟩ := ok.stored level u before
      exact ⟨entries, extend _ _ found, good⟩
    by_cases zero : level = .L0
    · subst zero
      rcases List.mem_append.mp (top.mem_iff.mp listed) with before | new
      · exact old before
      · rw [List.mem_singleton.mp new]
        exact ⟨contents, object, good⟩
    · exact old (below level zero ▸ listed)
  · intro level other
    rw [below level other]
    exact ok.disjoint level other
  · intro low high order a first_a b second key
    have deep : high ≠ .L0 := by
      rintro rfl
      exact Nat.not_lt_zero _ order
    rw [lower high deep] at second
    by_cases zero : low = .L0
    · subst zero
      rcases List.mem_append.mp (first.mem_iff.mp first_a) with old | new
      · exact ok.newer .L0 high order a old b second key
      · exact above a new b (inside high b second)
    · rw [lower low zero] at first_a
      exact ok.newer low high order a first_a b second key
  · have all : (lists'.entries tables').Perm (lists.entries tables ++ contents) := by
      show (lists'.entriesAt tables' .L0 ++ (lists'.entriesAt tables' .L1 ++ (lists'.entriesAt tables' .L2 ++
        (lists'.entriesAt tables' .L3 ++ [])))).Perm
          ((lists.entriesAt tables .L0 ++ (lists.entriesAt tables .L1 ++
        (lists.entriesAt tables .L2 ++ (lists.entriesAt tables .L3 ++ [])))) ++ contents)
      rw [lower .L1 (by decide), lower .L2 (by decide), lower .L3 (by decide)]
      refine (first.append_right _).trans ?_
      rw [List.append_assoc, List.append_assoc]
      exact List.perm_append_comm.append_left _
    refine all.pairwise_iff (R := Levels.Distinguished) (fun pair => Std.Symm.symm _ _ pair) |>.mpr ?_
    refine List.pairwise_append.mpr ⟨ok.sequences, told, ?_⟩
    intro b old a new _ number
    have := above a new b old
    omega

end Lists

/-- What the tables show. -/
def Stored.visible (st : Stored) : CompositeKey → Option (Bytes × Bytes) := readNewest st.listed

/-- An entry as a write of its key. -/
def MemtableEntry.write (x : MemtableEntry) : CompositeKey × Option (Bytes × Bytes) :=
  (x.compositeKey, (MergeEntry.fromMemtableEntry x).shown)

namespace Engine
variable {env : Env} {s t : Engine}

/-- The versions of the memtable and of the tables. -/
def versions (s : Engine) : List MergeEntry := s.nodes.map MergeEntry.fromMemtableEntry ++ s.listed

/-- What an open engine shows. -/
def contents (s : Engine) : CompositeKey → Option (Bytes × Bytes) := readNewest s.versions

theorem mem_versions {e : MergeEntry} :
    e ∈ s.versions ↔ (∃ x ∈ s.nodes, MergeEntry.fromMemtableEntry x = e) ∨ s.Copy e := by
  rw [versions, List.mem_append, List.mem_map, Stored.mem_listed]

/-- The levels are in order, and the memtable holds puts and deletes that are newer than what is
flushed. -/
structure Layered (s : Engine) : Prop where
  ok : Lists.Ok (tablesAt s.manifests) s.tables
  flushed : ∀ c, s.Copy c → c.sequenceNumber ≤ watermark s.manifests
  above : ∀ x ∈ s.nodes, watermark s.manifests < x.sequenceNumber
  points : ∀ x ∈ s.nodes, x.entryType ≠ .rangeDelete
  bare : s.memtableList.active.rangeTombstones.tombstones = []
  mark : watermark s.manifests < s.memtableNext

theorem nodes_distinguished (list : SkipList) :
    (list.nodes.map MergeEntry.fromMemtableEntry).Pairwise Levels.Distinguished := by
  refine List.pairwise_map.mpr (list.sorted.imp ?_)
  intro a b order same
  rcases order with less | ⟨-, newer⟩
  · exact absurd same less.ne
  · exact newer.ne'

theorem Layered.distinguished (h : Layered s) : s.versions.Pairwise Levels.Distinguished := by
  refine List.pairwise_append.mpr ⟨nodes_distinguished _, h.ok.sequences, ?_⟩
  intro a inside b listed _ number
  obtain ⟨x, member, rfl⟩ := List.mem_map.mp inside
  have low := h.flushed b (Stored.mem_listed.mp listed)
  have high : watermark s.manifests < (MergeEntry.fromMemtableEntry x).sequenceNumber :=
    h.above x member
  omega

theorem Layered.told (h : Layered s) :
    Told MergeEntry.compositeKey MergeEntry.sequenceNumber (· ∈ s.versions) :=
  fun _ _ first second key number => Levels.eq_of_same_version h.distinguished first second key number

/-- The memtable is shown over the tables. -/
theorem Layered.contents_eq (h : Layered s) : s.contents =
    fun key => ((Levels.newest (s.nodes.map MergeEntry.fromMemtableEntry) key).map
      MergeEntry.shown).getD (s.visible key) := by
  refine Shows.unique h.told (readNewest_shown _)
    (Shows.congr ?_ (Shows.layer ?_ (readNewest_shown _) Shows.ofArgmax))
  · intro e
    exact List.mem_append
  · intro a b inside listed
    obtain ⟨x, member, rfl⟩ := List.mem_map.mp inside
    exact (h.flushed b (Stored.mem_listed.mp listed)).trans (h.above x member).le

theorem ok_current (ready : Ready env s) :
    Lists.Ok (tablesAt s.manifests) s.tables ↔ Levels.Ok s.manifestManager.current s.tables := by
  rw [show tablesAt s.manifests = _ from funext ready.latest.tablesAt_eq]
  exact Lists.ok_iff.symm

theorem visible_current (ready : Ready env s) :
    s.visible = Levels.visible s.manifestManager.current s.tables := by
  rw [Levels.visible_eq, Stored.visible, Stored.listed,
    show tablesAt s.manifests = _ from funext ready.latest.tablesAt_eq]
  rfl

/-- A state that follows another by inserts of new entries, flushes and compactions. -/
structure Advances (s : Engine) (new : List MemtableEntry) (t : Engine) : Prop where
  layered : Layered t
  next : ∀ n, s.memtableNext ≤ n → (∀ x ∈ new, x.sequenceNumber < n) → t.memtableNext ≤ n
  shown : t.dropped = false → s.dropped = false ∧
    t.contents = written s.contents (new.map MemtableEntry.write)

theorem inserted_advances (layered : Layered s) (ready : Ready env s) {entry : MemtableEntry}
    (later : s.memtableNext ≤ entry.sequenceNumber) (point : entry.entryType ≠ .rangeDelete) :
    Advances s [entry]
      { s with memtableList := { s.memtableList with
                                 active := insertAssigned s.memtableList.active entry } } := by
  generalize made : ({ s with
    memtableList := { s.memtableList with
      active := insertAssigned s.memtableList.active entry } } : Engine) = t
  have nodes : t.nodes = SkipList.insertNode entry s.nodes := by
    rw [← made]
    rfl
  have stored : t.toStored = s.toStored := by rw [← made]
  have next : t.memtableNext = entry.sequenceNumber + 1 := by
    rw [← made]
    exact if_pos later
  have mark := layered.mark
  have only : ∀ x ∈ t.nodes, x = entry ∨ x ∈ s.nodes := by
    intro x member
    rw [nodes] at member
    exact SkipList.mem_insertNode member
  have kept : ∀ x ∈ s.nodes, x ∈ t.nodes := by
    intro x member
    rw [nodes]
    refine SkipList.mem_insertNode_of_mem member ?_
    rintro ⟨-, number⟩
    have := ready.below x member
    omega
  have here : entry ∈ t.nodes := by
    rw [nodes]
    exact SkipList.mem_insertNode_self _ _
  have layered_t : Layered t := by
    refine ⟨?_, ?_, ?_, ?_, ?_, ?_⟩
    · rw [stored]
      exact layered.ok
    · rw [stored]
      exact layered.flushed
    · intro x member
      rw [stored]
      rcases only x member with rfl | old
      · omega
      · exact layered.above x old
    · intro x member
      rcases only x member with rfl | old
      · exact point
      · exact layered.points x old
    · rw [← made]
      show (insertAssigned s.memtableList.active entry).rangeTombstones.tombstones = []
      refine List.eq_nil_iff_forall_not_mem.mpr fun ts member => ?_
      rcases ((insertAssigned_took s.memtableList.active entry).tombstones ts).mp
        member with old | ⟨x, new, deletes, -⟩
      · rw [layered.bare] at old
        cases old
      · exact point (List.mem_singleton.mp new ▸ deletes)
    · rw [stored, next]
      omega
  refine ⟨layered_t, ?_, ?_⟩
  · intro n _ below
    rw [next]
    exact below entry List.mem_cons_self
  · intro undropped
    refine ⟨by rw [← made] at undropped; exact undropped, ?_⟩
    refine Shows.unique layered_t.told (readNewest_shown _) ?_
    refine @Shows.insert _ _ _ _ _ _ (· ∈ s.versions) _ _ s.contents _
      (MergeEntry.fromMemtableEntry entry) ?_ ?_ ?_ ?_
      (readNewest_shown _)
    · intro e member
      rcases mem_versions.mp member with ⟨x, inside, rfl⟩ | copy
      · rcases only x inside with rfl | old
        · exact Or.inl rfl
        · exact Or.inr (mem_versions.mpr (Or.inl ⟨x, old, rfl⟩))
      · rw [stored] at copy
        exact Or.inr (mem_versions.mpr (Or.inr copy))
    · exact mem_versions.mpr (Or.inl ⟨entry, here, rfl⟩)
    · intro e member
      rcases mem_versions.mp member with ⟨x, inside, rfl⟩ | copy
      · exact mem_versions.mpr (Or.inl ⟨x, kept x inside, rfl⟩)
      · rw [← stored] at copy
        exact mem_versions.mpr (Or.inr copy)
    · intro e member
      show e.sequenceNumber ≤ entry.sequenceNumber
      rcases mem_versions.mp member with ⟨x, inside, rfl⟩ | copy
      · have : x.sequenceNumber < s.memtableNext := ready.below x inside
        show x.sequenceNumber ≤ _
        omega
      · have := layered.flushed e copy
        omega

theorem nodes_popped (same : t.memtableList = s.popped.memtableList) :
    t.nodes = [] ∧ t.memtableNext = s.memtableNext ∧
      t.memtableList.active.rangeTombstones.tombstones = [] := by
  rw [nodes, memtableNext, same]
  exact ⟨rfl, rfl, rfl⟩

/-- Without a memtable the tables are all that is shown. -/
theorem contents_visible (none_left : s.nodes = []) : s.contents = s.visible := by
  rw [contents, versions, none_left]
  rfl

theorem compacted_advances (unique : Function.Injective env.ulid) (layered : Layered s)
    (ready : Ready env s) (ready' : Ready env t) {draw : Nat → CompactionDraw}
    {r : FlushResult Unit} (compacts : maybeCompact env draw s = (r, t)) :
    Advances s [] t ∧ t.visible = s.visible := by
  have compacted := maybeCompact_compacted unique ready.toSound ready.latest compacts
  obtain ⟨-, -, next, -, nodes⟩ := compacted.unchanged
  have mark := compacted.watermark
  obtain ⟨ok, shown⟩ := maybeCompact_keeps unique
    (P := fun c => Levels.Ok c.manifest.manager.current c.tables ∧
      Levels.visible c.manifest.manager.current c.tables =
        Levels.visible s.manifestManager.current s.tables)
    (fun _ kept => kept.1.arranged) (by
      intro task _ d c c' ends kept
      obtain ⟨ok, same⟩ := ends.visible kept.1
      exact ⟨ok, (funext same).trans kept.2⟩)
    ready.standing ⟨(ok_current ready).mp layered.ok, rfl⟩ compacts
  have visible : t.visible = s.visible := by
    rw [visible_current ready', visible_current ready]
    exact shown
  have layered_t : Layered t := by
    refine ⟨(ok_current ready').mpr ok, ?_, ?_, ?_, by rw [compacted.frame]; exact layered.bare, ?_⟩
    · intro c copy
      rw [mark]
      exact layered.flushed c (compacted.copies c copy)
    · rw [nodes, mark]
      exact layered.above
    · rw [nodes]
      exact layered.points
    · rw [next, mark]
      exact layered.mark
  refine ⟨⟨layered_t, fun n low _ => next ▸ low, ?_⟩, visible⟩
  intro undropped
  refine ⟨by rw [compacted.frame] at undropped; exact undropped, ?_⟩
  rw [layered_t.contents_eq, nodes, visible]
  exact layered.contents_eq.symm

theorem committed_advances (unique : Function.Injective env.ulid) (layered : Layered s)
    (ready : Ready env s) (ready' : Ready env t) {draw : FlushDraw} {table : SSTableMeta}
    (nonempty : s.nodes ≠ [])
    (flushed : flush env { s.memtableList.active with frozen := true } draw s.popped = (.ok table, t)) :
    Advances s [] t := by
  have popped := popped_ready ready
  have put := flush_flushed unique popped.standing flushed
  have outcome := flush_outcome unique popped.toSound popped.latest nonempty flushed
  have frame := outcome.frame
  have list : t.memtableList = s.popped.memtableList := by rw [frame]
  obtain ⟨none_left, next, bare⟩ := nodes_popped list
  rcases outcome.outcome with ⟨e, impossible, -⟩ | ⟨-, rises, copies, highest, top, attained, number⟩
  · cases impossible
  have lists : tablesAt t.manifests = t.manifestManager.current.sstablesAtLevel :=
    funext ready'.latest.tablesAt_eq
  have lists' : tablesAt s.manifests = s.manifestManager.current.sstablesAtLevel :=
    funext ready.latest.tablesAt_eq
  have ok : Lists.Ok (tablesAt t.manifests) t.tables := by
    have distinct := ready'.shelf.distinct
    refine layered.ok.stacked put.extend (lists ▸ lists' ▸ put.top) ?_ distinct put.object ?_
      (nodes_distinguished _) ?_
    · intro level below
      rw [lists, lists']
      exact put.below level below
    · refine ⟨put.sorted.sorted, put.sorted.first, put.sorted.last, ?_⟩
      intro e member
      obtain ⟨x, inside, rfl⟩ := List.mem_map.mp member
      exact layered.points x inside
    · intro a inside b listed
      obtain ⟨x, member, rfl⟩ := List.mem_map.mp inside
      exact (layered.flushed b (Lists.mem_entries.mp listed)).trans_lt (layered.above x member)
  have layered_t : Layered t := by
    refine ⟨ok, ?_, ?_, ?_, bare, ?_⟩
    · intro c copy
      rcases (copies c).mp copy with old | ⟨x, inside, rfl⟩
      · exact (layered.flushed c old).trans rises
      · exact highest x inside
    · rw [none_left]
      intro x member
      cases member
    · rw [none_left]
      intro x member
      cases member
    · rw [next, ← number]
      exact ready.below top attained
  refine ⟨layered_t, fun n low _ => next ▸ low, ?_⟩
  intro undropped
  refine ⟨by rw [frame] at undropped; exact undropped, ?_⟩
  refine Shows.unique layered_t.told (readNewest_shown _) (Shows.congr ?_ (readNewest_shown s.versions))
  intro e
  rw [mem_versions, mem_versions, none_left, copies]
  constructor
  · rintro (⟨x, ⟨⟩, -⟩ | old | ⟨x, inside, rfl⟩)
    · exact Or.inr old
    · exact Or.inl ⟨x, inside, rfl⟩
  · rintro (⟨x, inside, rfl⟩ | old)
    · exact Or.inr (Or.inr ⟨x, inside, rfl⟩)
    · exact Or.inr (Or.inl old)

/-- A flush that fails takes the memtable away and leaves what the tables show. -/
theorem dropped_layered (unique : Function.Injective env.ulid) (layered : Layered s)
    (ready : Ready env s) (ready' : Ready env t) {draw : FlushDraw} {e : FlushError}
    (nonempty : s.nodes ≠ [])
    (failed : flush env { s.memtableList.active with frozen := true } draw s.popped = (.error e, t)) :
    Layered t ∧ t.memtableNext = s.memtableNext ∧ t.visible = s.visible := by
  have popped := popped_ready ready
  obtain ⟨manager, extend⟩ := flush_failed_extends unique popped.standing failed
  have outcome := flush_outcome unique popped.toSound popped.latest nonempty failed
  have frame := outcome.frame
  have list : t.memtableList = s.popped.memtableList := by rw [frame]
  obtain ⟨none_left, next, bare⟩ := nodes_popped list
  rcases outcome.outcome with ⟨-, -, mark, copies⟩ | ⟨⟨table, impossible⟩, -⟩
  · have current : t.manifestManager = s.manifestManager := manager
    obtain ⟨ok, shown⟩ := ((ok_current ready).mp layered.ok).extends extend
    have mark : watermark t.manifests = watermark s.manifests := mark
    refine ⟨⟨?_, ?_, ?_, ?_, bare, ?_⟩, next, ?_⟩
    · rw [ok_current ready', current]
      exact ok
    · intro c copy
      rw [mark]
      exact layered.flushed c ((copies c).mp copy)
    · rw [none_left]
      intro x member
      cases member
    · rw [none_left]
      intro x member
      cases member
    · rw [next, mark]
      exact layered.mark
    · rw [visible_current ready', visible_current ready, current]
      exact funext shown
  · cases impossible

/-- Every change keeps the layers, and what is shown changes with what is inserted. -/
theorem Change.advances (unique : Function.Injective env.ulid) {new : List MemtableEntry}
    (change : Change env s new t) (layered : Layered s) (ready : Ready env s) (ready' : Ready env t)
    (fresh : ∀ x ∈ new, s.memtableNext ≤ x.sequenceNumber ∧ x.entryType ≠ .rangeDelete) :
    Advances s new t := by
  cases change with
  | aside frame =>
    rw [frame]
    exact ⟨⟨layered.ok, layered.flushed, layered.above, layered.points, layered.bare, layered.mark⟩,
      fun _ low _ => low,
      fun undropped => ⟨undropped, rfl⟩⟩
  | inserted entry =>
    obtain ⟨later, point⟩ := fresh entry List.mem_cons_self
    exact inserted_advances layered ready later point
  | committed nonempty flushed =>
    exact committed_advances unique layered ready ready' nonempty flushed
  | @dropped draw e t nonempty failed =>
    have ready_t : Ready env t :=
      ⟨ready'.toSound, ready'.latest, ready'.opened, ready'.noneFrozen, ready'.activeOpen, ready'.below⟩
    obtain ⟨kept, next, -⟩ := dropped_layered unique layered ready ready_t nonempty failed
    exact ⟨⟨kept.ok, kept.flushed, kept.above, kept.points, kept.bare, kept.mark⟩,
      fun _ low _ => next ▸ low, by rintro ⟨⟩⟩
  | compacted compacts => exact (compacted_advances unique layered ready ready' compacts).1

/-- A chain of changes whose entries are numbered upwards from the memtable's counter. -/
theorem Changes.advances (unique : Function.Injective env.ulid) {done : List MemtableEntry}
    (chain : Changes env s done t) (layered : Layered s) (ready : Ready env s)
    (fresh : ∀ x ∈ done, s.memtableNext ≤ x.sequenceNumber ∧ x.entryType ≠ .rangeDelete)
    (ascends : done.Pairwise fun a b => a.sequenceNumber < b.sequenceNumber) :
    Advances s done t := by
  induction chain with
  | refl => exact ⟨layered, fun _ low _ => low, fun undropped => ⟨undropped, rfl⟩⟩
  | @head s mid u new more change ready_mid rest ih =>
    obtain ⟨-, later, order⟩ := List.pairwise_append.mp ascends
    have first := change.advances unique layered ready ready_mid fun x member =>
      fresh x (List.mem_append_left _ member)
    have second := ih first.layered ready_mid (by
      intro x member
      obtain ⟨high, point⟩ := fresh x (List.mem_append_right _ member)
      exact ⟨first.next _ high fun y inside => order y inside x member, point⟩) later
    refine ⟨second.layered, ?_, ?_⟩
    · intro n low below
      exact second.next n (first.next n low fun x member => below x (List.mem_append_left _ member))
        fun x member => below x (List.mem_append_right _ member)
    · intro undropped
      obtain ⟨undropped, shown⟩ := second.shown undropped
      obtain ⟨undropped, shown'⟩ := first.shown undropped
      refine ⟨undropped, ?_⟩
      rw [shown, shown', List.map_append, written_append]

end Engine

end FlushDB
