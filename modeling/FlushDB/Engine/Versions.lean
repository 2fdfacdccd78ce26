import FlushDB.Engine.Found
import FlushDB.Engine.Writes

/-!
All versions that an engine's objects and memtables hold, listed in the manifest or not: flushes
and compactions make none up, and writes number theirs from the memtable's counter.
-/

namespace FlushDB
open Lib

namespace Tables
variable {tables : Tables} {e : MergeEntry}

theorem has_put {path : SstPath} {xs : List MergeEntry} (h : Has (tables.put path xs) e) :
    Has tables e ∨ e ∈ xs := by
  obtain ⟨other, entries, found, member⟩ := h
  rw [ObjectStore.get_put] at found
  split at found
  · obtain rfl := Option.some.inj found
    exact Or.inr member
  · exact Or.inl ⟨other, entries, found, member⟩

theorem has_delete {path : SstPath} (h : Has (tables.delete path) e) : Has tables e := by
  obtain ⟨other, entries, found, member⟩ := h
  exact ⟨other, entries, ObjectStore.get_of_delete found, member⟩

end Tables

namespace CompactionExecutor
variable {tables tables' : Tables} {e : MergeEntry}

theorem copyTables_has {source target : Level} {inputs : List SSTableMeta} {r : FlushResult Unit}
    (h : copyTables source target inputs tables = (r, tables')) (held : tables'.Has e) :
    tables.Has e := by
  induction inputs generalizing tables with
  | nil =>
    obtain ⟨-, rfl⟩ := Prod.mk.inj h
    exact held
  | cons t rest ih =>
    unfold copyTables at h
    split at h
    · obtain ⟨-, rfl⟩ := Prod.mk.inj h
      exact held
    · rename_i data found
      rcases Tables.has_put (ih h) with old | copied
      · exact old
      · exact ⟨_, data, found, copied⟩

theorem deleteTables_has {source : Level} {inputs : List SSTableMeta}
    (held : Tables.Has (inputs.foldl (fun tables t => tables.delete (t.sstPath source)) tables) e) :
    tables.Has e := by
  induction inputs generalizing tables with
  | nil => exact held
  | cons t rest ih => exact Tables.has_delete (ih held)

theorem readTables_has {task : CompactionTask} {ts : List SSTableMeta}
    {contents : List (List MergeEntry)} (h : readTables tables task ts = .ok contents)
    {entries : List MergeEntry} (read : entries ∈ contents) (member : e ∈ entries) :
    tables.Has e := by
  induction ts generalizing contents with
  | nil =>
    obtain rfl := Except.ok.inj h
    cases read
  | cons t rest ih =>
    simp only [readTables] at h
    split at h
    · cases h
    · rename_i data found
      split at h
      · cases h
      · rename_i others later
        obtain rfl := Except.ok.inj h
        rcases List.mem_cons.mp read with rfl | after
        · exact ⟨_, entries, found, member⟩
        · exact ih later after

theorem writeTables_has {level : Level} {outs : List (SSTableMeta × List MergeEntry)}
    (held : (writeTables level outs tables).Has e) : tables.Has e ∨ ∃ out ∈ outs, e ∈ out.2 := by
  unfold writeTables at held
  induction outs generalizing tables with
  | nil => exact Or.inl held
  | cons out rest ih =>
    rw [List.foldl_cons] at held
    rcases ih held with before | ⟨other, listed, member⟩
    · rcases Tables.has_put before with old | written
      · exact Or.inl old
      · exact Or.inr ⟨out, List.mem_cons_self, written⟩
    · exact Or.inr ⟨other, List.mem_cons_of_mem _ listed, member⟩

/-- What a compaction writes it has read, whether it succeeds or not. -/
theorem execute_has {config : CompactionConfig} {fileSize : List MergeEntry → Nat}
    {serializedLen : Manifest → Nat} {drawn : Drawn} {task : CompactionTask}
    {s left : CompactionState} {r : FlushResult CompactionResult}
    (h : execute config fileSize serializedLen drawn task s = (r, left))
    (held : left.tables.Has e) : s.tables.Has e := by
  have written : ∀ {contents : List (List MergeEntry)} {outs : List (SSTableMeta × List MergeEntry)},
      readTables s.tables task (task.inputSSTables ++ task.targetSSTables) = .ok contents →
      outs.Sublist (outputs fileSize drawn config.targetFragmentSize
        (merge task.targetLevel.isBottom contents)) →
      (writeTables task.targetLevel outs s.tables).Has e → s.tables.Has e := by
    intro contents outs read part held
    rcases writeTables_has held with old | ⟨out, listed, member⟩
    · exact old
    · have merged : e ∈ merge task.targetLevel.isBottom contents := by
        rw [← outputs_flatten fileSize drawn config.targetFragmentSize
          (merge task.targetLevel.isBottom contents)]
        exact List.mem_flatMap.mpr ⟨out, part.subset listed, member⟩
      have pending := MergeIterator.collectDeduped_subset (List.mem_filter.mp merged).1
      rw [pending_mergeSources] at pending
      obtain ⟨entries, inside, member⟩ := List.mem_flatten.mp pending
      exact readTables_has read inside member
  unfold execute at h
  split at h
  · cases moveTrivially_outcome h with
    | uncommitted part copies => exact copyTables_has copies held
    | committed copies => exact copyTables_has copies (deleteTables_has held)
  · cases mergeInputs_outcome h with
    | unread => exact held
    | uncommitted read => exact written read (doneBefore_sublist _ _) held
    | committed read cut =>
      rw [← cut] at held
      exact written read (List.Sublist.refl _) held

end CompactionExecutor

namespace Engine
variable {env : Env} {s s' : Engine} {e : MergeEntry} {r : FlushResult Unit}

theorem compact_has {draw : CompactionDraw} {task : CompactionTask}
    (h : compact env draw task s = (r, s')) (held : s'.tables.Has e) : s.tables.Has e := by
  obtain ⟨result, left, levels, pending, executed, rfl⟩ := compact_frame h
  exact CompactionExecutor.execute_has executed held

theorem compactAll_has {draw : Nat → CompactionDraw} {tasks : List CompactionTask}
    (h : compactAll env draw tasks s = (r, s')) (held : s'.tables.Has e) : s.tables.Has e := by
  refine @compactAll_keeps env (fun t => t.tables.Has e → s.tables.Has e) draw tasks ?_ s s' r id h held
  intro task member i t r u before first held
  exact before (compact_has first held)

theorem flush_has {frozen : Memtable} {draw : FlushDraw} {r : FlushResult SSTableMeta}
    (h : flush env frozen draw s = (r, s')) (held : s'.tables.Has e) :
    s.tables.Has e ∨ ∃ x ∈ frozen.skiplist.nodes, e = MergeEntry.fromMemtableEntry x := by
  have written : ∀ {path first rest}, frozen.skiplist.nodes.map MergeEntry.fromMemtableEntry =
      first :: rest →
      Tables.Has (s.tables.put path (first :: rest)) e →
        s.tables.Has e ∨ ∃ x ∈ frozen.skiplist.nodes, e = MergeEntry.fromMemtableEntry x := by
    intro path first rest nodes has
    rcases Tables.has_put has with old | member
    · exact Or.inl old
    · rw [← nodes] at member
      obtain ⟨x, inside, same⟩ := List.mem_map.mp member
      exact Or.inr ⟨x, inside, same.symm⟩
  cases flush_ends h with
  | empty => exact Or.inl held
  | unwritten => exact Or.inl held
  | written nodes => exact written nodes held
  | refused nodes => exact written nodes held
  | committed nodes => exact written nodes held

theorem finishFlush_has {generation : Nat} {table : SSTableMeta} {draw : FlushDraw}
    (h : finishFlush env generation table draw s = (r, s')) (held : s'.tables.Has e) :
    s.tables.Has e := by
  obtain ⟨removed, t, cleans, last⟩ := finishFlush_cases h
  have tables : t.tables = s.tables := by
    rw [← (Prod.mk.inj cleans).2]
  rw [← tables]
  rcases last with rfl | ⟨handle, compacts⟩
  · exact held
  · exact @compactAll_has env { t with levels := pushHandle handle t.levels } s' e r _ _ compacts held

/-- A version in an object or in a memtable. -/
def Has (s : Engine) (e : MergeEntry) : Prop := s.tables.Has e ∨ s.memtableList.Has e

theorem has_active (noneFrozen : s.memtableList.frozen = []) :
    s.Has e ↔ s.tables.Has e ∨ ∃ x ∈ s.nodes, e = MergeEntry.fromMemtableEntry x := by
  simp [Has, MemtableList.Has, MemtableList.memtables, noneFrozen]

/-- A memtable that is frozen and flushed leaves an empty one with its counter, and no version
that was not there. -/
theorem roll_has {f : Engine} (noneFrozen : s.memtableList.frozen = [])
    (froze : freezeActive s = (.ok (), f)) {draw : FlushDraw}
    (h : flushFrozen env draw f = (r, s')) :
    s'.memtableList = s.popped.memtableList ∧ ∀ e, s'.Has e → s.Has e := by
  rw [flushFrozen_frozen noneFrozen froze] at h
  generalize flushed : flush env { s.memtableList.active with frozen := true } draw s.popped = left at h
  obtain ⟨result, t⟩ := left
  have list : t.memtableList = s.popped.memtableList := by
    rw [← flush_memtableList env { s.memtableList.active with frozen := true } draw s.popped, flushed]
  have stored : ∀ e, t.tables.Has e → s.Has e := by
    intro e held
    rw [has_active noneFrozen]
    rcases flush_has flushed held with object | frozen
    · exact Or.inl object
    · exact Or.inr frozen
  have none_held : ∀ e, ¬ s.popped.memtableList.Has e := by
    rintro e ⟨m, listed, x, member, -⟩
    rw [show s.popped.memtableList.memtables = [{ nextSequenceNumber := s.memtableNext }] by
      simp [popped, MemtableList.memtables, noneFrozen], List.mem_singleton] at listed
    rw [listed] at member
    cases member
  have list' : s'.memtableList = s.popped.memtableList := by
    cases result with
    | error err =>
      obtain ⟨-, rfl⟩ := Prod.mk.inj h
      exact list
    | ok table =>
      rw [← list, ← finishFlush_memtableList env s.generationCounter table draw t]
      exact congrArg (fun pair : FlushResult Unit × Engine => pair.2.memtableList) h.symm
  refine ⟨list', ?_⟩
  intro e held
  rcases held with object | held
  · refine stored e ?_
    cases result with
    | error err =>
      obtain ⟨-, rfl⟩ := Prod.mk.inj h
      exact object
    | ok table => exact finishFlush_has h object
  · rw [list'] at held
    exact absurd held (none_held e)

/-- Between two calls: one memtable, which is open, and a counter above every version's number. -/
structure Numbered (s : Engine) : Prop where
  noneFrozen : s.memtableList.frozen = []
  activeOpen : s.memtableList.active.frozen = false
  below : ∀ e, s.Has e → e.sequenceNumber < s.memtableNext

theorem MayFlush.numbered {due : Bool} {draw : FlushDraw} (h : MayFlush env due draw r s s')
    (numbered : s.Numbered) :
    s'.Numbered := by
  rcases h with ⟨rfl, -⟩ | ⟨-, f, froze, flushed⟩
  · exact numbered
  · obtain ⟨list, has⟩ := roll_has numbered.noneFrozen froze flushed
    refine ⟨?_, ?_, ?_⟩
    · rw [list]
      exact numbered.noneFrozen
    · rw [list]
      rfl
    · intro e held
      rw [memtableNext, list]
      exact numbered.below e (has e held)

/-- Compactions leave the memtables as they were. -/
theorem maybeCompact_numbered {draw : Nat → CompactionDraw} (h : maybeCompact env draw s = (r, s'))
    (numbered : s.Numbered) :
    s'.memtableList = s.memtableList ∧ (∀ e, s'.Has e → s.Has e) ∧ s'.Numbered := by
  have list : s'.memtableList = s.memtableList := by
    rw [← compactAll_memtableList env draw (CompactionScheduler.checkTriggers env.config.compactionConfig
      s.manifestManager.current) s]
    exact congrArg (fun pair : FlushResult Unit × Engine => pair.2.memtableList) h.symm
  have has : ∀ e, s'.Has e → s.Has e := by
    intro e held
    rcases held with object | held
    · exact Or.inl (compactAll_has h object)
    · exact Or.inr (list ▸ held)
  refine ⟨list, has, ?_, ?_, ?_⟩
  · rw [list]
    exact numbered.noneFrozen
  · rw [list]
    exact numbered.activeOpen
  · intro e held
    rw [memtableNext, list]
    exact numbered.below e (has e held)

end Engine

namespace Memtable

/-- The memtable has taken up `kept`. -/
structure Took (kept : List MemtableEntry) (m m' : Memtable) : Prop where
  frozen : m'.frozen = m.frozen
  only : ∀ x ∈ m'.skiplist.nodes, x ∈ m.skiplist.nodes ∨ x ∈ kept
  below : ∀ x ∈ kept, x.sequenceNumber < m'.nextSequenceNumber
  counter : m.nextSequenceNumber ≤ m'.nextSequenceNumber
  tombstones : ∀ ts, ts ∈ m'.rangeTombstones.tombstones ↔ ts ∈ m.rangeTombstones.tombstones ∨
    ∃ x ∈ kept, x.entryType = .rangeDelete ∧ ts = tombstoneOf x

theorem took_insertInner {m : Memtable} {x : MemtableEntry} {next : Nat}
    (above : x.sequenceNumber < next) (le : m.nextSequenceNumber ≤ next) :
    Took [x] m ({ m with nextSequenceNumber := next }.insertInner x) := by
  refine ⟨rfl, ?_, ?_, le, ?_⟩
  · intro y member
    rcases SkipList.mem_insertNode member with rfl | old
    · exact Or.inr (List.mem_singleton_self _)
    · exact Or.inl old
  · intro y member
    rw [List.mem_singleton.mp member]
    exact above
  · intro ts
    by_cases deletes : x.entryType = .rangeDelete
    · simp only [insertInner, deletes, if_true, RangeTombstoneIndex.mem_add, List.mem_singleton,
        exists_eq_left]
      tauto
    · simp only [insertInner, deletes, if_false, List.mem_singleton, exists_eq_left, false_and,
        or_false]

theorem Took.trans {first second : List MemtableEntry} {m m' m'' : Memtable} (h : Took first m m')
    (h' : Took second m' m'') :
    Took (first ++ second) m m'' := by
  refine ⟨h'.frozen.trans h.frozen, ?_, ?_, h.counter.trans h'.counter, ?_⟩
  · intro x member
    rcases h'.only x member with middle | new
    · rcases h.only x middle with old | new
      · exact Or.inl old
      · exact Or.inr (List.mem_append_left _ new)
    · exact Or.inr (List.mem_append_right _ new)
  · intro x member
    rcases List.mem_append.mp member with early | late
    · exact (h.below x early).trans_le h'.counter
    · exact h'.below x late
  · intro ts
    rw [h'.tombstones, h.tombstones]
    simp only [List.mem_append, or_and_right, exists_or, or_assoc]

end Memtable

namespace Engine
variable {env : Env} {s s' : Engine} {e : MergeEntry}

/-- The active memtable has taken up `kept`; all else that is read is as it was. -/
structure Took (kept : List MemtableEntry) (s t : Engine) : Prop where
  tables : t.tables = s.tables
  frozen : t.memtableList.frozen = s.memtableList.frozen
  active : Memtable.Took kept s.memtableList.active t.memtableList.active

namespace Took
variable {kept : List MemtableEntry} {t : Engine}

theorem has (h : Took kept s t) (numbered : s.Numbered) (held : t.Has e) :
    s.Has e ∨ ∃ x ∈ kept, e = MergeEntry.fromMemtableEntry x := by
  rw [has_active (h.frozen.trans numbered.noneFrozen)] at held
  rw [has_active numbered.noneFrozen, ← h.tables]
  rcases held with object | ⟨x, member, rfl⟩
  · exact Or.inl (Or.inl object)
  · rcases h.active.only x member with old | new
    · exact Or.inl (Or.inr ⟨x, old, rfl⟩)
    · exact Or.inr ⟨x, new, rfl⟩

theorem numbered (h : Took kept s t) (numbered : s.Numbered) : t.Numbered := by
  refine ⟨h.frozen.trans numbered.noneFrozen, h.active.frozen.trans numbered.activeOpen, ?_⟩
  intro e held
  rcases h.has numbered held with old | ⟨x, new, rfl⟩
  · exact (numbered.below e old).trans_le h.active.counter
  · exact h.active.below x new

end Took

theorem appendWal_frame {entries : List MemtableEntry} {late : Bool} {u : Engine}
    (h : appendWal env entries late s = .ok u) :
    u.tables = s.tables ∧ u.memtableList = s.memtableList := by
  unfold appendWal at h
  dsimp only at h
  split at h
  · cases h
  · obtain rfl := Except.ok.inj h
    exact ⟨rfl, rfl⟩

/-- A write whose entry does not reach the memtable fails; else its flush decides. -/
theorem writeEntry_took {entry : MemtableEntry} {draw : WriteDraw} {r : FlushResult Nat}
    (numbered : s.Numbered) (unknown : s.memtableList.knows entry.idempotencyKey = false)
    (h : writeEntry env entry draw s = (r, s')) :
    (∃ err, r = .error err ∧ s' = s) ∨
      ∃ t rolled, Took [{ entry with sequenceNumber := s.memtableNext }] s t ∧
        MayFlush env draw.freeze draw.flush rolled t s' ∧
          r = rolled.map fun _ => entry.sequenceNumber := by
  unfold writeEntry at h
  split at h
  · obtain ⟨rfl, rfl⟩ := Prod.mk.inj h
    exact Or.inl ⟨_, rfl, rfl⟩
  rename_i u appended
  obtain ⟨tables, list⟩ := appendWal_frame appended
  dsimp only at h
  rw [list, MemtableList.insert_ok numbered.activeOpen unknown] at h
  dsimp only at h
  generalize t_eq : ({ u with
    memtableList := { s.memtableList with
      active := { s.memtableList.active with nextSequenceNumber := s.memtableNext + 1 }.insertInner
        { entry with sequenceNumber := s.memtableNext } }
    nextSequence := u.nextSequence + 1 } : Engine) = t at h
  have took : Took [{ entry with sequenceNumber := s.memtableNext }] s t := by
    rw [← t_eq]
    exact ⟨tables, rfl, Memtable.took_insertInner (Nat.lt_succ_self _) (Nat.le_succ _)⟩
  split at h
  · rename_i err t' rolls
    obtain ⟨rfl, rfl⟩ := Prod.mk.inj h
    exact Or.inr ⟨t, .error err, took, maybeFreezeAndFlush_mayFlush rolls, rfl⟩
  · rename_i t' rolls
    obtain ⟨rfl, rfl⟩ := Prod.mk.inj h
    exact Or.inr ⟨t, .ok (), took, maybeFreezeAndFlush_mayFlush rolls, rfl⟩

theorem insertAssigned_took (m : Memtable) (entry : MemtableEntry) :
    Memtable.Took [entry] m (insertAssigned m entry) := by
  refine Memtable.took_insertInner ?_ ?_
  · split <;> omega
  · split <;> omega

/-- A batch that freezes no memtable succeeds. -/
theorem insertBatch_took {draws : Nat → ItemDraw} {entries : List MemtableEntry}
    (numbered : s.Numbered) (idle : ∀ i < entries.length, (draws i).freeze = false) :
    ∃ t, insertBatch env draws entries s = (.ok (), t) ∧ Took entries s t := by
  induction entries generalizing s with
  | nil =>
    refine ⟨s, rfl, rfl, rfl, rfl, fun x member => Or.inl member, ?_, le_refl _, ?_⟩
    · intro x member
      cases member
    · simp
  | cons entry rest ih =>
    have first : Took [entry] s
        { s with memtableList := { s.memtableList with active := insertAssigned s.memtableList.active entry } } :=
      ⟨rfl, rfl, insertAssigned_took _ _⟩
    have numbered' := first.numbered numbered
    obtain ⟨t, inserted, later⟩ := ih numbered' (fun i bound => idle i (Nat.lt_succ_of_lt bound))
    refine ⟨t, ?_, later.tables.trans first.tables, later.frozen.trans first.frozen,
      first.active.trans later.active⟩
    rw [insertBatch]
    simp only [insertPrechecked_ok numbered.activeOpen]
    rw [enforce_idle numbered'.noneFrozen (idle rest.length (Nat.lt_succ_self _))]
    exact inserted

theorem insertBatch_numbered {draws : Nat → ItemDraw} {entries : List MemtableEntry}
    {r : FlushResult Unit} (numbered : s.Numbered) (h : insertBatch env draws entries s = (r, s')) :
    s'.Numbered := by
  induction entries generalizing s with
  | nil =>
    obtain ⟨-, rfl⟩ := Prod.mk.inj h
    exact numbered
  | cons entry rest ih =>
    have first : Took [entry] s
        { s with memtableList := { s.memtableList with active := insertAssigned s.memtableList.active entry } } :=
      ⟨rfl, rfl, insertAssigned_took _ _⟩
    have numbered' := first.numbered numbered
    rw [insertBatch] at h
    simp only [insertPrechecked_ok numbered.activeOpen] at h
    split at h
    · rename_i err t enforced
      obtain ⟨-, rfl⟩ := Prod.mk.inj h
      exact (enforce_mayFlush numbered'.noneFrozen enforced).numbered numbered'
    · rename_i t enforced
      exact ih ((enforce_mayFlush numbered'.noneFrozen enforced).numbered numbered') h

end Engine

end FlushDB
