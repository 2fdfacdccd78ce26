import FlushDB.Engine.Effects

/-!
What a write call does: it is refused, or its entries are added to the log and to the memtable
and the memtable may then be flushed.
-/

namespace FlushDB
open Lib ManifestBucket

namespace Engine

/-- The entries as they are logged, before the writer numbers them. -/
def logged (env : Env) (entries : List MemtableEntry) : List WalEntry :=
  entries.map fun e => WalEntry.fromMemtableEntry e (Bytes.ofString env.config.ns)

/-- `entries` were logged, and stand in the memtable as `kept`. -/
structure Wrote (env : Env) (entries kept : List MemtableEntry) (s t : Engine) : Prop where
  frame : t = { s with
    wal := t.wal
    walManager := t.walManager
    nextSequence := t.nextSequence
    memtableList := { s.memtableList with active := t.memtableList.active } }
  holds : ∀ e, t.wal.Holds e ↔ s.wal.Holds e ∨ e ∈ WalWriter.assign s.walNext (logged env entries)
  walNext : t.walNext = s.walNext + entries.length
  nextSequence : t.nextSequence = s.nextSequence + entries.length
  only : ∀ x ∈ t.nodes, x ∈ s.nodes ∨ x ∈ kept
  added : ∀ x ∈ kept, x ∈ t.nodes
  stays : ∀ x ∈ s.nodes,
    (∀ y ∈ kept, ¬ (x.compositeKey = y.compositeKey ∧ x.sequenceNumber = y.sequenceNumber)) →
      x ∈ t.nodes
  ordered : t.wal.Ordered
  opened : t.walManager.writer.Open t.wal
  activeOpen : t.memtableList.active.frozen = false
  below : ∀ e ∈ t.nodes, e.sequenceNumber < t.memtableNext
  appended : ∃ late, s.walManager.append s.wal (logged env entries) s.generationCounter late =
    .ok (t.walManager, t.wal)

theorem Wrote.ready {env : Env} {entries kept : List MemtableEntry} {s t : Engine}
    (h : Wrote env entries kept s t) (ready : Ready env s) : Ready env t := by
  have manifests : t.manifests = s.manifests := by rw [h.frame]
  have frozen : t.memtableList.frozen = s.memtableList.frozen := by rw [h.frame]
  refine ⟨⟨manifests ▸ ready.keyed, h.ordered, ?_⟩, ?_, h.opened, frozen.trans ready.noneFrozen,
    h.activeOpen, h.below⟩
  · rw [h.frame]
    exact ready.shelf
  · rw [h.frame]
    exact ready.latest

/-- The call ended as it stood, dropped the memtable and failed, or committed it. -/
def Rolled (commits : Bool) (r : FlushResult Unit) (t s' : Engine) : Prop :=
  s' = t ∨ (Dropped t s' ∧ ∃ e, r = .error e) ∨ (Committed t s' ∧ commits = true)

section Rolls
variable {env : Env}

theorem freezeActive_cases (s : Engine) :
    (∃ e, freezeActive s = (.error e, s)) ∨ ∃ f, freezeActive s = (.ok (), f) := by
  unfold freezeActive
  split
  · exact Or.inl ⟨_, rfl⟩
  · exact Or.inr ⟨_, rfl⟩

theorem freezeActive_ok {s f : Engine} (froze : freezeActive s = (.ok (), f)) :
    f = { s with
      memtableList :=
        { s.memtableList with
          active := { nextSequenceNumber := s.memtableNext }
          frozen := (s.generationCounter, { s.memtableList.active with frozen := true }) ::
            s.memtableList.frozen }
      generationCounter := s.generationCounter + 1 } := by
  unfold freezeActive MemtableList.freezeActiveWithGeneration at froze
  split at froze
  · cases froze
  · rename_i list made
    split at made
    · cases made
    · obtain rfl := Except.ok.inj made
      exact (Prod.mk.inj froze).2.symm

theorem flushAllFrozen_none {s : Engine} (noneFrozen : s.memtableList.frozen = [])
    (draw : Nat → FlushDraw) :
    flushAllFrozen env draw s.memtableList.frozen.length s = (.ok (), s) := by
  rw [noneFrozen]
  rfl

section Frames
variable (env : Env)

theorem compact_memtableList (draw : CompactionDraw) (task : CompactionTask) (s : Engine) :
    (compact env draw task s).2.memtableList = s.memtableList := by
  obtain ⟨-, left, levels, pending, -, frame⟩ :=
    @compact_frame env draw task s _ _ (Prod.eta _).symm
  rw [frame]
  rfl

theorem compactAll_memtableList (draw : Nat → CompactionDraw) (tasks : List CompactionTask)
    (s : Engine) :
    (compactAll env draw tasks s).2.memtableList = s.memtableList := by
  refine @compactAll_keeps env (fun t => t.memtableList = s.memtableList) draw tasks ?_ s _ _ rfl
    (Prod.eta _).symm
  intro task member i t r u before done
  rw [← before, ← compact_memtableList env (draw i) task t, done]

theorem finishFlush_memtableList (generation : Nat) (table : SSTableMeta) (draw : FlushDraw)
    (s : Engine) :
    (finishFlush env generation table draw s).2.memtableList = s.memtableList := by
  obtain ⟨removed, t, cleans, last⟩ := @finishFlush_cases env generation table draw s _ _
    (Prod.eta _).symm
  have same : t.memtableList = s.memtableList := by
    rw [← (Prod.mk.inj cleans).2]
  rcases last with none_opened | ⟨handle, compacts⟩
  · rw [none_opened, same]
  · rw [← same, ← congrArg Prod.snd compacts]
    exact compactAll_memtableList env _ _ _

theorem flush_memtableList (frozen : Memtable) (draw : FlushDraw) (s : Engine) :
    (flush env frozen draw s).2.memtableList = s.memtableList := by
  have ends := @flush_ends env frozen draw s _ _ (Prod.eta _).symm
  generalize (flush env frozen draw s).1 = r, (flush env frozen draw s).2 = t at ends
  cases ends <;> rfl

theorem flushFrozen_noneFrozen {s : Engine} (draw : FlushDraw) {oldest : Nat × Memtable}
    (one : s.memtableList.frozen = [oldest]) :
    (flushFrozen env draw s).2.memtableList.frozen = [] := by
  unfold flushFrozen
  simp only [MemtableList.popOldestFrozenWithGeneration, one, List.getLast?_singleton, Option.map_some,
    List.dropLast_singleton]
  generalize left : ({ s with memtableList := { s.memtableList with frozen := [] } } : Engine) = t
  have none_left : t.memtableList.frozen = [] := by rw [← left]
  have same := flush_memtableList env oldest.2 draw t
  split
  · rename_i e s' flushed
    rw [flushed] at same
    rw [show ({ s' with dropped := true } : Engine).memtableList = s'.memtableList from rfl, same]
    exact none_left
  · rename_i table s' flushed
    rw [flushed] at same
    rw [finishFlush_memtableList, same]
    exact none_left

end Frames

theorem nonempty_of_count {s : Engine} (h : s.memtableList.activeEntryCount > 0) :
    s.nodes ≠ [] := by
  intro empty
  rw [MemtableList.activeEntryCount, Memtable.entryCount,
    show s.memtableList.active.skiplist.nodes = [] from empty] at h
  cases h

/-- The call ends as it stood, or it freezes the memtable and flushes it. -/
def MayFlush (env : Env) (due : Bool) (draw : FlushDraw) (r : FlushResult Unit) (s s' : Engine) :
    Prop :=
  (s' = s ∧ (due = false → r = .ok ())) ∨
    (due = true ∧ ∃ f, freezeActive s = (.ok (), f) ∧ flushFrozen env draw f = (r, s'))

/-- A call whose first step has failed, or whose second step does nothing. -/
theorem chain_eq (first : FlushResult Unit × Engine) (next : Engine → FlushResult Unit × Engine) :
    (first.1 = .ok () → next first.2 = (.ok (), first.2)) →
    (match first with
      | (.error e, s) => (.error e, s)
      | (.ok (), s) => next s) = first := by
  intro idle
  obtain ⟨result, t⟩ := first
  cases result with
  | error e => rfl
  | ok u => exact idle rfl

/-- A call that answers with a number when its first step has succeeded. -/
theorem chain_answers {first : FlushResult Unit × Engine} {answer : Nat} {r : FlushResult Nat}
    {s' : Engine}
    (h : (match first with | (.error e, s) => (.error e, s) | (.ok (), s) => (.ok answer, s)) = (r, s')) :
    r = first.1.map (fun _ => answer) ∧ s' = first.2 := by
  obtain ⟨result, t⟩ := first
  cases result with
  | error e =>
    cases h
    exact ⟨rfl, rfl⟩
  | ok u =>
    cases h
    exact ⟨rfl, rfl⟩

theorem frozen_one {s f : Engine} (noneFrozen : s.memtableList.frozen = [])
    (froze : freezeActive s = (.ok (), f)) :
    f.memtableList.frozen = [(s.generationCounter, { s.memtableList.active with frozen := true })] := by
  rw [freezeActive_ok froze]
  simp [noneFrozen]

theorem mayFlush_of_due {s s' : Engine} {draw : FlushDraw} {r : FlushResult Unit}
    (next : Engine → FlushResult Unit × Engine)
    (flushes : ∀ f, freezeActive s = (.ok (), f) → next f = flushFrozen env draw f)
    (h : (match freezeActive s with
      | (.error e, s) => (.error e, s)
      | (.ok (), s) => next s) = (r, s')) : MayFlush env true draw r s s' := by
  rcases freezeActive_cases s with ⟨e, refused⟩ | ⟨f, froze⟩
  · rw [refused] at h
    obtain ⟨-, rfl⟩ := Prod.mk.inj h
    exact Or.inl ⟨rfl, fun idle => by cases idle⟩
  · rw [froze] at h
    exact Or.inr ⟨rfl, f, froze, (flushes f froze).symm.trans h⟩

theorem mayFlush_idle {s s' : Engine} {due : Bool} {draw : FlushDraw} {r : FlushResult Unit}
    (h : (.ok (), s) = (r, s')) :
    MayFlush env due draw r s s' := by
  obtain ⟨rfl, rfl⟩ := Prod.mk.inj h
  exact Or.inl ⟨rfl, fun _ => rfl⟩

theorem maybeFreezeAndFlush_mayFlush {s s' : Engine} {freeze : Bool} {draw : FlushDraw}
    {r : FlushResult Unit} (h : maybeFreezeAndFlush env freeze draw s = (r, s')) :
    MayFlush env freeze draw r s s' := by
  unfold maybeFreezeAndFlush at h
  split at h
  · rename_i freezes
    rw [freezes]
    exact mayFlush_of_due (flushFrozen env draw) (fun f _ => rfl) h
  · exact mayFlush_idle h

/-- The only frozen memtable is flushed, and none is left. -/
theorem flushAllFrozen_one {f : Engine} {oldest : Nat × Memtable}
    (one : f.memtableList.frozen = [oldest]) (draw : Nat → FlushDraw) :
    flushAllFrozen env draw f.memtableList.frozen.length f = flushFrozen env (draw 0) f := by
  rw [one, List.length_singleton, flushAllFrozen, if_pos (by simp [MemtableList.hasFrozen, one])]
  exact chain_eq _ (flushAllFrozen env draw 0) fun _ => rfl

theorem runMaintenance_mayFlush {s s' : Engine} (noneFrozen : s.memtableList.frozen = [])
    {aged : Bool} {draw : Nat → FlushDraw} {r : FlushResult Unit}
    (h : runMaintenance env aged draw s = (r, s')) :
    MayFlush env (s.memtableList.activeEntryCount > 0 && aged) (draw 0) r s s' := by
  unfold runMaintenance at h
  split at h
  · rename_i due
    rw [due]
    exact mayFlush_of_due (fun f => flushAllFrozen env draw f.memtableList.frozen.length f)
      (fun f froze => flushAllFrozen_one (frozen_one noneFrozen froze) draw) h
  · rw [flushAllFrozen_none noneFrozen] at h
    exact mayFlush_idle h

theorem close_mayFlush {s s' : Engine} (noneFrozen : s.memtableList.frozen = [])
    {draw : Nat → FlushDraw} {r : FlushResult Unit} (h : close env draw s = (r, s')) :
    MayFlush env (s.memtableList.activeEntryCount > 0) (draw 0) r s s' := by
  unfold close at h
  split at h
  · rename_i due
    rw [decide_eq_true due]
    refine mayFlush_of_due (fun f =>
      match flushFrozen env (draw (f.memtableList.frozen.length - 1)) f with
      | (.error e, s) => (.error e, s)
      | (.ok (), s) => flushAllFrozen env draw s.memtableList.frozen.length s) ?_ h
    intro f froze
    have one := frozen_one noneFrozen froze
    rw [one, List.length_singleton]
    exact chain_eq _ _ fun _ => flushAllFrozen_none (flushFrozen_noneFrozen env (draw 0) one) draw
  · rw [flushAllFrozen_none noneFrozen] at h
    exact mayFlush_idle h

theorem enforce_mayFlush {s s' : Engine} (noneFrozen : s.memtableList.frozen = []) {draw : ItemDraw}
    {r : FlushResult Unit} (h : enforceBatchMemtableLimits env draw s = (r, s')) :
    MayFlush env (s.memtableList.activeEntryCount > 0 && draw.freeze) (draw.flush 0) r s s' := by
  unfold enforceBatchMemtableLimits at h
  split at h
  · rename_i due
    rw [due]
    refine mayFlush_of_due (fun f =>
      flushWhile env draw.pressured draw.flush f.memtableList.frozen.length true f) ?_ h
    intro f froze
    have one := frozen_one noneFrozen froze
    rw [one, List.length_singleton, flushWhile, if_pos (by simp [MemtableList.hasFrozen, one])]
    exact chain_eq _ _ fun _ => rfl
  · rw [noneFrozen] at h
    exact mayFlush_idle h

theorem MayFlush.rolled (unique : Function.Injective env.ulid) {due commits : Bool}
    {draw : FlushDraw} {r : FlushResult Unit} {s s' : Engine} (h : MayFlush env due draw r s s')
    (ready : Ready env s) (nonempty : due = true → s.nodes ≠ [])
    (commit : due = true → draw.fails = false → commits = true) :
    Ready env s' ∧ Rolled commits r s s' := by
  rcases h with ⟨rfl, -⟩ | ⟨dueNow, f, froze, flushed⟩
  · exact ⟨ready, Or.inl rfl⟩
  · obtain ⟨ready', outcome⟩ := roll_outcome unique ready (nonempty dueNow) froze flushed
    exact ⟨ready', Or.inr (outcome.imp id fun ⟨committed, succeeds⟩ => ⟨committed, commit dueNow succeeds⟩)⟩

end Rolls

section Write
variable {env : Env}

theorem appendWal_spec {s : Engine} (ready : Ready env s) (entries : List MemtableEntry)
    (late : Bool) :
    ∃ t, appendWal env entries late s = .ok t ∧ t =
      { s with walManager := t.walManager, wal := t.wal } ∧
      t.wal.Ordered ∧ t.walManager.writer.Open t.wal ∧ t.walNext = s.walNext + entries.length ∧
      ∀ e, t.wal.Holds e ↔ s.wal.Holds e ∨ e ∈ WalWriter.assign s.walNext (logged env entries) := by
  obtain ⟨writer, wal, appended, ordered, opened, next, -, holds⟩ :=
    WalWriter.appendBatch_spec ready.ordered ready.opened (logged env entries)
  refine ⟨{ s with walManager := ⟨writer, s.walManager.dirtyTracker.recordWrite
    (if late then writer.currentSegment else s.walManager.writer.currentSegment)
      s.generationCounter⟩, wal }, ?_, rfl,
    ordered, opened, ?_, holds⟩
  · have same : entries.map (fun e => WalEntry.fromMemtableEntry e (Bytes.ofString env.config.ns)) =
        logged env entries := rfl
    simp only [appendWal, same, WalManager.append, appended]
  · show writer.nextSequenceNumber = _
    rw [next, logged, List.length_map]

theorem appendWal_ok {entries : List MemtableEntry} {late : Bool} {s t : Engine}
    (h : appendWal env entries late s = .ok t) :
    s.walManager.append s.wal (logged env entries) s.generationCounter late =
      .ok (t.walManager, t.wal) := by
  unfold appendWal at h
  dsimp only at h
  split at h
  · cases h
  · rename_i manager wal appended
    obtain rfl := Except.ok.inj h
    exact appended

theorem writeEntry_wrote (unique : Function.Injective env.ulid) {s s' : Engine}
    (ready : Ready env s) {entry : MemtableEntry}
    (unknown : s.memtableList.knows entry.idempotencyKey = false) {draw : WriteDraw}
    {r : FlushResult Nat} (h : writeEntry env entry draw s = (r, s')) :
    ∃ t rolled, Wrote env [entry] [{ entry with sequenceNumber := s.memtableNext }] s t ∧
      t.memtableNext = s.memtableNext + 1 ∧ Ready env t ∧ Ready env s' ∧
      Rolled (draw.freeze && !draw.flush.fails) rolled t s' ∧
        r = rolled.map fun _ => entry.sequenceNumber := by
  obtain ⟨u, appended, frame, ordered, opened, next, holds⟩ :=
    appendWal_spec ready [entry] draw.late
  have list : u.memtableList = s.memtableList := by rw [frame]
  generalize inserted : ({ s.memtableList.active with nextSequenceNumber := s.memtableNext + 1 }.insertInner
    { entry with sequenceNumber := s.memtableNext } : Memtable) = active
  have insert_eq : s.memtableList.insert entry =
      .ok (s.memtableNext, { s.memtableList with active }) := by
    rw [MemtableList.insert_ok ready.activeOpen unknown, ← inserted]
  simp only [writeEntry, appended, list, insert_eq] at h
  generalize t_eq : ({ u with
    memtableList := { s.memtableList with active }
    nextSequence := u.nextSequence + 1 } : Engine) = t at h
  have nodes_eq : t.nodes = SkipList.insertNode
      { entry with sequenceNumber := s.memtableNext } s.nodes := by
    rw [← t_eq, ← inserted]
    rfl
  have next_eq : t.memtableNext = s.memtableNext + 1 := by
    rw [← t_eq, ← inserted]
    rfl
  have wrote : Wrote env [entry] [{ entry with sequenceNumber := s.memtableNext }] s t := by
    refine ⟨?_, ?_, ?_, ?_, ?_, ?_, ?_, ?_, ?_, ?_, ?_, ?_⟩
    · rw [← t_eq]
      dsimp only
      rw [frame]
    · rw [← t_eq]
      exact holds
    · rw [← t_eq]
      exact next
    · rw [← t_eq]
      show u.nextSequence + 1 = s.nextSequence + 1
      rw [frame]
    · intro x member
      rw [nodes_eq] at member
      rcases SkipList.mem_insertNode member with rfl | old
      · exact Or.inr (List.mem_singleton_self _)
      · exact Or.inl old
    · intro x member
      rw [nodes_eq, List.mem_singleton.mp member]
      exact SkipList.mem_insertNode_self _ _
    · intro x member differs
      rw [nodes_eq]
      exact SkipList.mem_insertNode_of_mem member (differs _ (List.mem_singleton_self _))
    · rw [← t_eq]
      exact ordered
    · rw [← t_eq]
      exact opened
    · rw [← t_eq, ← inserted]
      exact ready.activeOpen
    · intro x member
      rw [nodes_eq] at member
      rw [next_eq]
      rcases SkipList.mem_insertNode member with rfl | old
      · exact Nat.lt_succ_self _
      · exact Nat.lt_succ_of_lt (ready.below x old)
    · have logs := appendWal_ok appended
      rw [← t_eq]
      exact ⟨draw.late, logs⟩
  have ready_t := wrote.ready ready
  have nonempty : t.nodes ≠ [] := List.ne_nil_of_mem (wrote.added _ (List.mem_singleton_self _))
  cases rolls : maybeFreezeAndFlush env draw.freeze draw.flush t with
  | mk result left =>
    rw [rolls] at h
    obtain ⟨rfl, rfl⟩ := chain_answers h
    obtain ⟨ready', rolled⟩ := (maybeFreezeAndFlush_mayFlush rolls).rolled unique ready_t
      (fun _ => nonempty)
      (fun due succeeds => show (draw.freeze && !draw.flush.fails) = true by rw [due, succeeds]; rfl)
    exact ⟨t, result, wrote, next_eq, ready_t, ready', rolled, rfl⟩

end Write

section Batch
variable {env : Env}

/-- One entry of a batch in the memtable. -/
def insertAssigned (m : Memtable) (entry : MemtableEntry) : Memtable :=
  { m with
    nextSequenceNumber :=
      if entry.sequenceNumber ≥ m.nextSequenceNumber then entry.sequenceNumber + 1 else
        m.nextSequenceNumber }.insertInner entry

def insertAll (m : Memtable) (entries : List MemtableEntry) : Memtable :=
  entries.foldl insertAssigned m

theorem insertAll_frozen (m : Memtable) (entries : List MemtableEntry) :
    (insertAll m entries).frozen = m.frozen := by
  induction entries generalizing m with
  | nil => rfl
  | cons entry rest ih => exact ih (insertAssigned m entry)

theorem insertPrechecked_ok {l : MemtableList} (opened : l.active.frozen = false)
    (entry : MemtableEntry) :
    l.insertPrechecked entry = .ok (entry.sequenceNumber,
      { l with active := insertAssigned l.active entry }) := by
  unfold MemtableList.insertPrechecked MemtableList.insertBy Memtable.insertWithAssignedSequence
  dsimp only
  rw [if_neg (by simp [opened])]
  rfl

theorem enforce_idle {s : Engine} (noneFrozen : s.memtableList.frozen = []) {draw : ItemDraw}
    (idle : draw.freeze = false) :
    enforceBatchMemtableLimits env draw s = (.ok (), s) := by
  simp only [enforceBatchMemtableLimits, idle, Bool.and_false, noneFrozen, List.length_nil]
  rfl

/-- Where only the last entry may roll the memtable, the entries are inserted first. -/
theorem insertBatch_eq {draws : Nat → ItemDraw} (first : MemtableEntry) (rest : List MemtableEntry)
    (whole : ∀ i ≤ rest.length, 0 < i → (draws i).freeze = false) {s : Engine}
    (noneFrozen : s.memtableList.frozen = []) (opened : s.memtableList.active.frozen = false) :
    insertBatch env draws (first :: rest) s = enforceBatchMemtableLimits env (draws 0)
      { s with memtableList := { s.memtableList with active := insertAll s.memtableList.active (first :: rest) } } := by
  induction rest generalizing first s with
  | nil =>
    simp only [insertBatch, insertPrechecked_ok opened, List.length_nil]
    rw [show insertAll s.memtableList.active [first] = insertAssigned s.memtableList.active first from rfl]
    generalize enforceBatchMemtableLimits env (draws 0)
      { s with memtableList := { s.memtableList with active := insertAssigned s.memtableList.active first } } = left
    obtain ⟨result, t⟩ := left
    cases result with
    | error e => rfl
    | ok u => rfl
  | cons second rest ih =>
    have idle := @enforce_idle env
      { s with memtableList := { s.memtableList with
                                 active := insertAssigned s.memtableList.active first } } noneFrozen _
      (whole (second :: rest).length (le_refl _) (Nat.succ_pos _))
    rw [insertBatch]
    simp only [insertPrechecked_ok opened]
    rw [idle]
    refine ih second (fun i bound => whole i ?_) noneFrozen opened
    rw [List.length_cons]
    omega

theorem insertAll_spec (entries : List MemtableEntry) (m : Memtable)
    (distinct : entries.Pairwise fun a b => a.sequenceNumber ≠ b.sequenceNumber)
    (below : ∀ e ∈ m.skiplist.nodes, e.sequenceNumber < m.nextSequenceNumber) :
    (∀ x ∈ (insertAll m entries).skiplist.nodes, x ∈ m.skiplist.nodes ∨ x ∈ entries) ∧
      (∀ x ∈ entries, x ∈ (insertAll m entries).skiplist.nodes) ∧
      (∀ x ∈ m.skiplist.nodes,
        (∀ y ∈ entries, ¬ (x.compositeKey = y.compositeKey ∧ x.sequenceNumber = y.sequenceNumber)) →
          x ∈ (insertAll m entries).skiplist.nodes) ∧
      ∀ e ∈ (insertAll m entries).skiplist.nodes,
        e.sequenceNumber < (insertAll m entries).nextSequenceNumber := by
  induction entries generalizing m with
  | nil => exact ⟨fun x member => Or.inl member, by simp, fun x member _ => member, below⟩
  | cons entry rest ih =>
    obtain ⟨unlike, distinct⟩ := List.pairwise_cons.mp distinct
    have nodes_eq : (insertAssigned m entry).skiplist.nodes =
        SkipList.insertNode entry m.skiplist.nodes := rfl
    have next_eq : (insertAssigned m entry).nextSequenceNumber =
        if entry.sequenceNumber ≥ m.nextSequenceNumber then entry.sequenceNumber + 1
          else m.nextSequenceNumber := rfl
    have below' : ∀ e ∈ (insertAssigned m entry).skiplist.nodes,
        e.sequenceNumber < (insertAssigned m entry).nextSequenceNumber := by
      intro e member
      rw [next_eq]
      rcases SkipList.mem_insertNode member with rfl | old
      · split <;> omega
      · have := below e old
        split <;> omega
    obtain ⟨only, added, stays, final⟩ := ih (insertAssigned m entry) distinct below'
    refine ⟨?_, ?_, ?_, final⟩
    · intro x member
      rcases only x member with inside | later
      · rcases SkipList.mem_insertNode inside with rfl | old
        · exact Or.inr List.mem_cons_self
        · exact Or.inl old
      · exact Or.inr (List.mem_cons_of_mem _ later)
    · intro x member
      rcases List.mem_cons.mp member with rfl | later
      · refine stays x ?_ ?_
        · rw [nodes_eq]
          exact SkipList.mem_insertNode_self _ _
        · intro y other same
          exact unlike y other same.2
      · exact added x later
    · intro x member differs
      refine stays x ?_ fun y other => differs y (List.mem_cons_of_mem _ other)
      rw [nodes_eq]
      exact SkipList.mem_insertNode_of_mem member (differs entry List.mem_cons_self)

/-- The counter after consecutive numbers from `next` on. -/
theorem insertAll_next (entries : List MemtableEntry) (m : Memtable) (next : Nat)
    (numbers : entries.map MemtableEntry.sequenceNumber = List.range' next entries.length)
    (some_left : entries ≠ []) :
    (insertAll m entries).nextSequenceNumber = max m.nextSequenceNumber (next + entries.length) := by
  induction entries generalizing m next with
  | nil => exact absurd rfl some_left
  | cons entry rest ih =>
    rw [List.length_cons, List.range'_succ, List.map_cons, List.cons.injEq] at numbers
    have next_eq : (insertAssigned m entry).nextSequenceNumber =
        max m.nextSequenceNumber (next + 1) := by
      show (if entry.sequenceNumber ≥ m.nextSequenceNumber then entry.sequenceNumber + 1
        else m.nextSequenceNumber) = _
      split <;> omega
    cases rest with
    | nil => exact next_eq
    | cons second rest =>
      have later := ih (insertAssigned m entry) (next + 1) numbers.2 (by simp)
      rw [next_eq] at later
      show (insertAll (insertAssigned m entry) (second :: rest)).nextSequenceNumber = _
      rw [later]
      simp only [List.length_cons]
      omega

theorem batchEntries_numbers {l : MemtableList} {recordId : Bytes} {items : List PutBatchItem}
    {seen : List IdempotencyToken} {origin next : Nat} {entries : List MemtableEntry}
    (h : batchEntries l recordId seen origin next items = .ok entries) :
    entries.map MemtableEntry.sequenceNumber = List.range' next entries.length ∧
      entries.map MemtableEntry.origin = List.range' origin entries.length := by
  induction items generalizing seen origin next entries with
  | nil =>
    obtain rfl := Except.ok.inj h
    exact ⟨rfl, rfl⟩
  | cons item rest ih =>
    unfold batchEntries at h
    split at h
    · exact ih h
    · split at h
      · cases h
      · dsimp only at h
        split at h
        · cases h
        · rename_i later made
          obtain rfl := Except.ok.inj h
          obtain ⟨numbers, origins⟩ := ih made
          rw [List.length_cons, List.range'_succ, List.range'_succ, List.map_cons, List.map_cons,
            numbers, origins]
          exact ⟨rfl, rfl⟩

theorem batchEntries_put {l : MemtableList} {recordId : Bytes} {items : List PutBatchItem}
    {seen : List IdempotencyToken} {origin next : Nat} {entries : List MemtableEntry}
    (h : batchEntries l recordId seen origin next items = .ok entries) :
    ∀ e ∈ entries, e.entryType = .put ∧ ∃ itemKey,
      CompositeKey.new recordId itemKey = .ok e.compositeKey := by
  induction items generalizing seen origin next entries with
  | nil =>
    obtain rfl := Except.ok.inj h
    intro e member
    cases member
  | cons item rest ih =>
    unfold batchEntries at h
    split at h
    · exact ih h
    · split at h
      · cases h
      · rename_i compositeKey made
        dsimp only at h
        split at h
        · cases h
        · rename_i later entriesMade
          obtain rfl := Except.ok.inj h
          intro e member
          rcases List.mem_cons.mp member with rfl | after
          · exact ⟨rfl, item.itemKey, made⟩
          · exact ih entriesMade e after

theorem batchEntries_length {l : MemtableList} {recordId : Bytes} {items : List PutBatchItem}
    {seen : List IdempotencyToken} {origin next : Nat} {entries : List MemtableEntry}
    (h : batchEntries l recordId seen origin next items = .ok entries) :
    entries.length ≤ items.length := by
  induction items generalizing seen origin next entries with
  | nil =>
    obtain rfl := Except.ok.inj h
    exact le_refl _
  | cons item rest ih =>
    unfold batchEntries at h
    split at h
    · exact (ih h).trans (Nat.le_succ _)
    · split at h
      · cases h
      · dsimp only at h
        split at h
        · cases h
        · rename_i later made
          obtain rfl := Except.ok.inj h
          exact Nat.succ_le_succ (ih made)

theorem prepareBatch_ok {origin : Nat} {recordId : Bytes} {items : List PutBatchItem}
    {pressured : Bool} {s : Engine} {entries : List MemtableEntry}
    (h : prepareBatch env origin recordId items pressured s = .ok entries) :
    batchEntries s.memtableList recordId [] origin s.nextSequence items = .ok entries := by
  unfold prepareBatch at h
  split at h
  · rename_i empty
    rw [List.isEmpty_iff.mp empty]
    exact h
  · cases stall : checkWriteStall env pressured s with
    | error e =>
      rw [stall] at h
      cases h
    | ok u =>
      rw [stall] at h
      exact h

theorem prepareBatch_numbers {origin : Nat} {recordId : Bytes} {items : List PutBatchItem}
    {pressured : Bool} {s : Engine} {entries : List MemtableEntry}
    (h : prepareBatch env origin recordId items pressured s = .ok entries) :
    entries.map MemtableEntry.sequenceNumber = List.range' s.nextSequence entries.length ∧
      entries.map MemtableEntry.origin = List.range' origin entries.length ∧
        entries.length ≤ items.length := by
  obtain ⟨numbers, origins⟩ := batchEntries_numbers (prepareBatch_ok h)
  exact ⟨numbers, origins, batchEntries_length (prepareBatch_ok h)⟩

theorem prepareBatch_put {origin : Nat} {recordId : Bytes} {items : List PutBatchItem}
    {pressured : Bool} {s : Engine} {entries : List MemtableEntry}
    (h : prepareBatch env origin recordId items pressured s = .ok entries) :
    ∀ e ∈ entries, e.entryType = .put ∧ ∃ itemKey,
      CompositeKey.new recordId itemKey = .ok e.compositeKey :=
  batchEntries_put (prepareBatch_ok h)

theorem putBatch_wrote (unique : Function.Injective env.ulid) {s s' : Engine} (ready : Ready env s)
    {origin : Nat}
    {recordId : Bytes} {items : List PutBatchItem} {pressured late : Bool} {draws : Nat → ItemDraw}
    {entries : List MemtableEntry} (whole : ∀ i < entries.length, 0 < i → (draws i).freeze = false)
    (prepared : prepareBatch env origin recordId items pressured s = .ok entries)
      (some_left : entries ≠ [])
    {r : FlushResult Nat} (h : putBatch env origin recordId items pressured late draws s = (r, s'))
    :
    ∃ t rolled, Wrote env entries entries s t ∧ t.memtableNext =
      max s.memtableNext (s.nextSequence + entries.length) ∧
      Ready env t ∧ Ready env s' ∧ Rolled ((draws 0).freeze && !((draws 0).flush 0).fails) rolled t s' ∧
      r = rolled.map fun _ => entries.length := by
  obtain ⟨first, rest, rfl⟩ := List.exists_cons_of_ne_nil some_left
  obtain ⟨numbers, -, -⟩ := prepareBatch_numbers prepared
  have distinct : (first :: rest).Pairwise fun a b => a.sequenceNumber ≠ b.sequenceNumber := by
    have ascends : ((first :: rest).map MemtableEntry.sequenceNumber).Pairwise (· ≠ ·) := by
      rw [numbers]
      exact List.nodup_range'
    exact List.pairwise_map.mp ascends
  obtain ⟨u, appended, frame, ordered, opened, next, holds⟩ :=
    appendWal_spec ready (first :: rest) late
  have list : u.memtableList = s.memtableList := by rw [frame]
  simp only [putBatch, prepared, appended] at h
  have inserts := @insertBatch_eq env draws first rest
    (fun i bound => whole i (Nat.lt_succ_of_le bound))
      { u with nextSequence := u.nextSequence + (first :: rest).length }
    (by rw [list]; exact ready.noneFrozen) (by rw [list]; exact ready.activeOpen)
  rw [inserts] at h
  generalize t_eq : ({ u with
    memtableList := { u.memtableList with active := insertAll u.memtableList.active (first :: rest) }
    nextSequence := u.nextSequence + (first :: rest).length } : Engine) = t at h
  have active : t.memtableList.active = insertAll s.memtableList.active (first :: rest) := by
    rw [← t_eq, ← list]
  obtain ⟨only, added, stays, below⟩ := insertAll_spec
    (first :: rest) s.memtableList.active distinct ready.below
  have wrote : Wrote env (first :: rest) (first :: rest) s t := by
    refine ⟨?_, ?_, ?_, ?_, ?_, ?_, ?_, ?_, ?_, ?_, ?_, ?_⟩
    · rw [← t_eq]
      dsimp only
      rw [frame]
    · rw [← t_eq]
      exact holds
    · rw [← t_eq]
      exact next
    · rw [← t_eq]
      show u.nextSequence + _ = _
      rw [frame]
    · show ∀ x ∈ t.memtableList.active.skiplist.nodes, _
      rw [active]
      exact only
    · show ∀ x ∈ first :: rest, x ∈ t.memtableList.active.skiplist.nodes
      rw [active]
      exact added
    · show ∀ x ∈ s.nodes, _ → x ∈ t.memtableList.active.skiplist.nodes
      rw [active]
      exact stays
    · rw [← t_eq]
      exact ordered
    · rw [← t_eq]
      exact opened
    · rw [active, insertAll_frozen]
      exact ready.activeOpen
    · show ∀ e ∈ t.memtableList.active.skiplist.nodes,
        e.sequenceNumber < t.memtableList.active.nextSequenceNumber
      rw [active]
      exact below
    · have logs := appendWal_ok appended
      rw [← t_eq]
      exact ⟨late, logs⟩
  have next_eq : t.memtableNext = max s.memtableNext (s.nextSequence + (first :: rest).length) := by
    rw [memtableNext, active]
    exact insertAll_next _ _ _ numbers (by simp)
  have ready_t := wrote.ready ready
  cases rolls : enforceBatchMemtableLimits env (draws 0) t with
  | mk result left =>
    rw [rolls] at h
    obtain ⟨rfl, rfl⟩ := chain_answers h
    obtain ⟨ready', rolled⟩ := (enforce_mayFlush ready_t.noneFrozen rolls).rolled unique ready_t
      (fun due => nonempty_of_count (of_decide_eq_true (Bool.and_eq_true_iff.mp due).1))
      (fun due succeeds => show ((draws 0).freeze && !((draws 0).flush 0).fails) = true by
        rw [(Bool.and_eq_true_iff.mp due).2, succeeds]; rfl)
    exact ⟨t, result, wrote, next_eq, ready_t, ready', rolled, rfl⟩

end Batch

end Engine

end FlushDB
