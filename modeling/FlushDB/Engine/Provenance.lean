import FlushDB.Engine.Contents
import FlushDB.Engine.Paging
import FlushDB.Engine.RangeDeletes
import FlushDB.Engine.Reclamation

/-!
Where versions come from. Flushes, compactions, crashes and openings move versions and drop them,
and make none up: whatever fails, all that the log, the objects and the memtable hold was entered by
a write, and so was all that a read gives.
-/

namespace FlushDB
open Lib ManifestBucket

def MergeEntry.write (e : MergeEntry) : CompositeKey × Option (Bytes × Bytes) :=
  (e.compositeKey, e.shown)

/-- A log entry that a write has made says what the write says. -/
theorem WalEntry.mem_assign_write {env : Env} {first : Nat} {entries : List MemtableEntry}
    {e : WalEntry} (member : e ∈ WalWriter.assign first (Engine.logged env entries)) :
    e.write ∈ entries.map MemtableEntry.write := by
  rw [← assign_writes]
  exact List.mem_map_of_mem member

theorem named_writes (origin : Nat) (entries : List MemtableEntry) :
    (World.named origin entries).map MemtableEntry.write = entries.map MemtableEntry.write := by
  rw [World.named_eq]
  refine List.ext_getElem (by simp) ?_
  intro i _ _
  simp only [List.getElem_map, List.getElem_mapIdx]
  rfl

/-- What a replay inserts says what its log entry says. -/
theorem replay_sourced {history : List (CompositeKey × Option (Bytes × Bytes))}
    {rest : List WalEntry} {highest highest' : Nat} {l l' : MemtableList}
    (opened : l.active.frozen = false) (held : ∀ x ∈ l.active.skiplist.nodes, x.write ∈ history)
    (told : ∀ e ∈ rest, e.write ∈ history) (h : replay rest highest l = .ok (highest', l')) :
    ∀ x ∈ l'.active.skiplist.nodes, x.write ∈ history := by
  induction rest generalizing highest l with
  | nil =>
    cases h
    exact held
  | cons e rest ih =>
    have later : ∀ e ∈ rest, e.write ∈ history :=
      fun e member => told e (List.mem_cons_of_mem _ member)
    unfold replay at h
    split at h
    · cases h
    rename_i entry converted
    by_cases known : l.knows entry.idempotencyKey = true
    · simp only [MemtableList.insert, known, if_true, Memtable.duplicateError] at h
      exact ih opened held later h
    · rw [MemtableList.insert_ok opened (Bool.eq_false_iff.mpr known)] at h
      refine ih ?_ ?_ later h
      · exact opened
      · intro x member
        rcases SkipList.mem_insertNode member with rfl | old
        · have same : entry.write = e.write := (WalEntry.replays_of_converted converted).write_eq.1
          show entry.write ∈ history
          rw [same]
          exact told e List.mem_cons_self
        · exact held x old

section Log
variable {env : Env}

namespace Engine
variable {s t : Engine} {e : WalEntry}

theorem insertBatch_holds (unique : Function.Injective env.ulid) {draws : Nat → ItemDraw}
    {entries : List MemtableEntry} {r : FlushResult Unit} (ready : Ready env s)
    (h : insertBatch env draws entries s = (r, t)) (held : t.wal.Holds e) :
    s.wal.Holds e := by
  induction entries generalizing s with
  | nil =>
    cases h
    exact held
  | cons entry rest ih =>
    have inserted := ready.inserted entry
    rw [insertBatch] at h
    simp only [insertPrechecked_ok ready.activeOpen] at h
    generalize limits : enforceBatchMemtableLimits env (draws rest.length) { s with
        memtableList := { s.memtableList with active := insertAssigned s.memtableList.active entry } } = left at h
    obtain ⟨result, u⟩ := left
    obtain ⟨ready_u, rolled⟩ := @MayFlush.rolled env unique _ true _ _ _ _
      (enforce_mayFlush inserted.noneFrozen limits) inserted
      (fun _ => List.ne_nil_of_mem (mem_insertAssigned _ _)) fun _ _ => rfl
    cases result with
    | error err =>
      cases h
      exact rolled.holds held
    | ok done => exact rolled.holds (ih ready_u h)

theorem putBatch_holds (unique : Function.Injective env.ulid) (ready : Ready env s) {origin : Nat}
    {recordId : Bytes} {items : List PutBatchItem} {pressured late : Bool} {draws : Nat → ItemDraw}
    (held : (putBatch env origin recordId items pressured late draws s).2.wal.Holds e) :
    s.wal.Holds e ∨ ∃ entries, prepareBatch env origin recordId items pressured s = .ok entries ∧
      e ∈ WalWriter.assign s.walNext (logged env entries) := by
  unfold putBatch at held
  split at held
  · exact Or.inl held
  · exact Or.inl held
  rename_i first rest made
  obtain ⟨u, appended, -, -, -, -, holds⟩ := appendWal_spec ready (first :: rest) late
  have ready_u := appendWal_ready ready appended (u.nextSequence + (first :: rest).length)
  rw [appended] at held
  dsimp only at held
  generalize inserts : insertBatch env draws (first :: rest) _ = result at held
  obtain ⟨r, v⟩ := result
  have before : u.wal.Holds e := by
    apply insertBatch_holds unique ready_u inserts
    cases r with
    | error err => exact held
    | ok done => exact held
  exact ((holds e).mp before).imp id fun new => ⟨_, made, new⟩

theorem writePrepared_holds (unique : Function.Injective env.ulid) (ready : Ready env s)
    {result : FlushResult MemtableEntry} {draw : WriteDraw}
    (unknown : ∀ entry, result = .ok entry → s.memtableList.knows entry.idempotencyKey = false)
    (held : (writePrepared env result draw s).2.wal.Holds e) :
    s.wal.Holds e ∨ e ∈ WalWriter.assign s.walNext (logged env result.toOption.toList) := by
  cases result with
  | error err => exact Or.inl held
  | ok entry =>
    obtain ⟨u, appended, frame, -, -, -, holds⟩ := appendWal_spec ready [entry] draw.late
    have ready_u := appendWal_ready ready appended (u.nextSequence + 1)
    have list : u.memtableList = s.memtableList := by rw [frame]
    have inserted := @insert_assigned u.memtableList entry ready_u.activeOpen (list ▸ unknown entry rfl)
    have ready_t := ready_u.inserted { entry with sequenceNumber := u.memtableNext }
    apply (holds e).mp
    unfold writePrepared writeEntry at held
    dsimp only at held
    rw [appended] at held
    dsimp only at held
    rw [inserted] at held
    dsimp only at held
    generalize rolls : maybeFreezeAndFlush env draw.freeze draw.flush _ = result at held
    obtain ⟨r, v⟩ := result
    have rolled := (@MayFlush.rolled env unique _ true _ _ _ _ (maybeFreezeAndFlush_mayFlush rolls) ready_t
      (fun _ => List.ne_nil_of_mem (mem_insertAssigned _ _)) fun _ _ => rfl).2
    cases r with
    | error err => exact rolled.holds held
    | ok done => exact rolled.holds held

end Engine

end Log

section Reads
variable {renv : ReadEnv} {draw : ReadDraw} {s : Engine} {key : CompositeKey} {recordId itemKey : Bytes}

theorem ReadPath.answer_some {l : MemtableList} {e found : MergeEntry}
    (h : answer l key e = some found) :
    found = e ∧ e.shown = some (e.value, e.metadata) := by
  unfold answer at h
  split at h
  · cases h
  split at h
  · cases h
  · rename_i point _
    exact ⟨(Option.some.inj h).symm, if_neg point⟩

/-- A read that gives something gives a version of the key that the engine has, and no tombstone. -/
structure Engine.Gave (s : Engine) (key : CompositeKey) (e : MergeEntry) : Prop where
  has : s.Has e
  same : e.compositeKey = key
  shown : e.shown = some (e.value, e.metadata)

theorem Engine.gave_of_memtable {x : MemtableEntry} {e : MergeEntry}
    (got : s.memtableList.get key = some x)
    (answered : ReadPath.answer s.memtableList key (MergeEntry.fromMemtableEntry x) = some e) :
    s.Gave key e := by
  obtain ⟨held, same⟩ := MemtableList.get_found got
  obtain ⟨rfl, shown⟩ := ReadPath.answer_some answered
  exact ⟨Or.inr held, same, shown⟩

theorem Engine.gave_of_tables {best : Option MergeEntry} {e : MergeEntry}
    (found : ∀ x, best = some x → none = some x ∨ (s.tables.Has x ∧ x.compositeKey = key))
    (answered : best.bind (ReadPath.answer s.memtableList key) = some e) : s.Gave key e := by
  obtain ⟨x, here, answered⟩ := Option.bind_eq_some_iff.mp answered
  obtain ⟨object, same⟩ := (found x here).resolve_left (fun impossible => by cases impossible)
  obtain ⟨rfl, shown⟩ := ReadPath.answer_some answered
  exact ⟨Or.inl object, same, shown⟩

theorem Engine.pointRead_gave {e : MergeEntry}
    (read : ReadPath.pointRead renv draw key s.memtableList s.tables s.levels = .ok (some e)) :
    s.Gave key e := by
  unfold ReadPath.pointRead at read
  split at read
  · rename_i x got
    exact gave_of_memtable got (Except.ok.inj read)
  · generalize searched : ReadPath.searchHandles renv draw s.tables key
      (s.levels.flatMap fun level => level.findCandidatesForKey renv s.tables key) none = left at read
    cases left with
    | error err => cases read
    | ok best =>
      refine gave_of_tables ?_ (Except.ok.inj read)
      rintro x rfl
      exact ReadPath.searchHandles_found searched

theorem Engine.get_gave {found : GetResult}
    (read : s.get renv draw recordId itemKey = .ok (some found)) :
    ∃ key e, CompositeKey.new recordId itemKey = .ok key ∧ s.Gave key e ∧
      found = GetResult.fromMergeEntry e := by
  unfold Engine.get at read
  cases made : CompositeKey.new recordId itemKey with
  | error err =>
    simp only [made, bind, Except.bind] at read
    cases read
  | ok key =>
    simp only [made, bind, Except.bind, pure, Except.pure] at read
    split at read
    · rename_i x got
      obtain ⟨e, answered, same⟩ := Option.map_eq_some_iff.mp (Except.ok.inj read)
      exact ⟨key, e, rfl, gave_of_memtable got answered, same.symm⟩
    · split at read
      · cases read
      · rename_i best searched
        obtain ⟨e, answered, same⟩ := Option.map_eq_some_iff.mp (Except.ok.inj read)
        refine ⟨key, e, rfl, gave_of_tables ?_ answered, same.symm⟩
        rintro x rfl
        exact searchLevels_found searched

theorem Engine.multiGet_gave {keys : List Bytes} {results : List (Option MergeEntry)}
    (read : ReadPath.multiGet renv draw recordId s.memtableList s.tables s.levels keys = .ok results)
    {i : Nat} {e : MergeEntry} (gave : results[i]? = some (some e)) :
    ∃ itemKey key, keys[i]? = some itemKey ∧ CompositeKey.new recordId itemKey = .ok key ∧
      s.Gave key e := by
  induction keys generalizing results i with
  | nil =>
    obtain rfl := Except.ok.inj read
    cases gave
  | cons first rest ih =>
    unfold ReadPath.multiGet at read
    simp only [bind, Except.bind, pure, Except.pure] at read
    split at read
    · cases read
    rename_i key made
    split at read
    · cases read
    rename_i entry found
    split at read
    · cases read
    rename_i others later
    obtain rfl := Except.ok.inj read
    cases i with
    | zero =>
      obtain rfl := Option.some.inj gave
      exact ⟨first, key, rfl, made, pointRead_gave found⟩
    | succ i => exact ih later gave

/-- A page takes versions of the record from its sources, and no tombstones. -/
theorem ReadPath.collect_gave {options : RangeReadOptions} {fuel : Nat} {p : Page} {x : MergeEntry}
    (taken : x ∈ (collect recordId options fuel p).entries) :
    x ∈ p.entries ∨ (x ∈ MergeIterator.pending p.sources ∧ x.compositeKey.recordId = recordId ∧
      x.shown = some (x.value, x.metadata)) := by
  induction fuel generalizing p with
  | zero => exact Or.inl taken
  | succ fuel ih =>
    unfold collect at taken
    split at taken
    · exact Or.inl taken
    rename_i e sources next
    obtain ⟨here, later⟩ := MergeIterator.nextDeduped_subset next
    have visited : x ∈ (visit recordId options e { p with sources }).entries →
        x ∈ p.entries ∨ (x ∈ MergeIterator.pending p.sources ∧ x.compositeKey.recordId = recordId ∧
          x.shown = some (x.value, x.metadata)) := by
      intro member
      unfold visit at member
      split at member
      · exact Or.inl member
      split at member
      · exact Or.inl member
      rename_i own
      split at member
      · exact Or.inl member
      split at member
      · exact Or.inl member
      rename_i point
      split at member
      · exact Or.inl member
      rcases List.mem_append.mp member with old | new
      · exact Or.inl old
      · obtain rfl := List.mem_singleton.mp new
        exact Or.inr ⟨here, not_not.mp own, if_neg point⟩
    dsimp only at taken
    split at taken
    · exact visited taken
    · rcases ih taken with shown | ⟨left, rest⟩
      · exact visited shown
      · rw [visit_sources] at left
        exact Or.inr ⟨later x left, rest⟩

theorem Engine.scan_gave {startKey endKey : Option Bytes} {options : RangeReadOptions}
    {result : RangeReadResult}
    (read : s.scan renv draw recordId startKey endKey options = .ok result) {e : MergeEntry}
    (listed : e ∈ result.entries) :
    s.Gave e.compositeKey e ∧ e.compositeKey.recordId = recordId ∧ ∃ start stop,
      ReadPath.startBound recordId startKey options = .ok start ∧
        ReadPath.endBound recordId endKey = .ok stop ∧
      start ≤ e.compositeKey ∧ e.compositeKey < stop := by
  obtain ⟨start, stop, sources, first, last, sourced, entries, -⟩ := ReadPath.rangeRead_eq read
  rw [entries] at listed
  rcases ReadPath.collect_gave listed with none | ⟨pending, own, shown⟩
  · cases none
  · exact ⟨⟨ReadPath.readSources_found sourced pending, rfl, shown⟩, own, start, stop, first, last,
      ReadPath.readSources_bounds sourced pending⟩

end Reads

namespace Engine
variable {env : Env} {s t : Engine} {new : List MemtableEntry}

/-- A change adds no version but those that it inserts. -/
theorem Change.gains (change : Change env s new t) (ready : Ready env s) {e : MergeEntry}
    (held : t.Has e) :
    s.Has e ∨ ∃ x ∈ new, e = MergeEntry.fromMemtableEntry x := by
  have flushed : ∀ {draw r u}, flush env { s.memtableList.active with frozen := true } draw
      s.popped = (r, u) → u.Has e → s.Has e := by
    intro draw r u flushes held
    have list : u.memtableList = s.popped.memtableList := by
      rw [← flush_memtableList env { s.memtableList.active with frozen := true } draw s.popped, flushes]
    rw [has_active (by rw [list]; exact ready.noneFrozen)] at held
    apply (has_active ready.noneFrozen).mpr
    rcases held with object | ⟨x, member, -⟩
    · exact @flush_has env s.popped u e _ _ _ flushes object
    · rw [nodes, list] at member
      cases member
  cases change with
  | aside frame =>
    rw [frame] at held
    exact Or.inl held
  | inserted entry =>
    rcases (has_active (ready.inserted entry).noneFrozen).mp held with object | ⟨x, member, rfl⟩
    · exact Or.inl (Or.inl object)
    · rcases SkipList.mem_insertNode member with rfl | old
      · exact Or.inr ⟨x, List.mem_singleton_self _, rfl⟩
      · exact Or.inl ((has_active ready.noneFrozen).mpr (Or.inr ⟨x, old, rfl⟩))
  | committed nonempty flushes => exact Or.inl (flushed flushes held)
  | dropped nonempty failed => exact Or.inl (flushed failed held)
  | @compacted draw r _ compacts =>
    have list := compactAll_memtableList env draw
      (CompactionScheduler.checkTriggers env.config.compactionConfig
      s.manifestManager.current) s
    rw [show compactAll env draw _ s = (r, t) from compacts] at list
    rcases held with object | buffered
    · exact Or.inl (Or.inl (compactAll_has compacts object))
    · exact Or.inl (Or.inr (list ▸ buffered))

theorem Changes.gains (chain : Changes env s new t) (ready : Ready env s) {e : MergeEntry}
    (held : t.Has e) :
    s.Has e ∨ ∃ x ∈ new, e = MergeEntry.fromMemtableEntry x := by
  induction chain with
  | refl => exact Or.inl held
  | head change ready' _ ih =>
    rcases ih ready' held with earlier | ⟨x, member, same⟩
    · rcases change.gains ready earlier with old | ⟨x, member, same⟩
      · exact Or.inl old
      · exact Or.inr ⟨x, List.mem_append_left _ member, same⟩
    · exact Or.inr ⟨x, List.mem_append_right _ member, same⟩

end Engine

namespace World
variable {env : Env} {w w' : World} {a : Label} {s : Engine}
  {history : List (CompositeKey × Option (Bytes × Bytes))}

theorem call_holds (unique : Function.Injective env.ulid) (call : a.isCall)
    (active : w.engine = some s) (ready : s.Ready env) (taken : step env w a = some w')
    {e : WalEntry} (held : w'.disk.wal.Holds e) :
    s.wal.Holds e ∨ e ∈ WalWriter.assign s.walNext (Engine.logged env (prepared env w s a)) := by
  have flushed : ∀ {due draw r s'}, w'.engine = some s' → Engine.MayFlush env due draw r s s' →
      (due = true → s.nodes ≠ []) →
      s.wal.Holds e ∨ e ∈ WalWriter.assign s.walNext (Engine.logged env (prepared env w s a)) := by
    intro due draw r s' engine flushes nonempty
    rw [disk_of_engine engine] at held
    exact Or.inl ((@Engine.MayFlush.rolled env unique due true draw r s s' flushes ready nonempty
      fun _ _ => rfl).2.holds held)
  cases a with
  | openEngine | crash => cases call
  | put recordId itemKey value metadata token draw =>
    simp only [step, active, Option.map_some, Option.some.injEq] at taken
    subst taken
    refine Engine.writePrepared_holds unique ready ?_ held
    intro entry made
    obtain ⟨compositeKey, -, unknown, same⟩ := preparePut_ok made
    rw [same]
    exact unknown
  | putBatch recordId items pressured late draws =>
    simp only [step, active, Option.map_some, Option.some.injEq] at taken
    subst taken
    rcases Engine.putBatch_holds unique ready held with old | ⟨entries, made, new⟩
    · exact Or.inl old
    · rw [prepared, made]
      exact Or.inr new
  | delete recordId itemKey draw =>
    simp only [step, active, Option.map_some, Option.some.injEq] at taken
    subst taken
    refine Engine.writePrepared_holds unique ready ?_ held
    intro entry made
    obtain ⟨compositeKey, -, same⟩ := prepareDelete_ok made
    rw [same]
    exact knows_none _
  | deleteRange recordId startKey endKey draw =>
    simp only [step, active, Option.map_some, Option.some.injEq] at taken
    subst taken
    refine Engine.writePrepared_holds unique ready ?_ held
    intro entry made
    obtain ⟨compositeKey, -, same⟩ := prepareDeleteRange_ok made
    rw [same]
    exact knows_none _
  | maybeFlush draw =>
    simp only [step, active, Option.map_some, Option.some.injEq] at taken
    subst taken
    have nothing : Engine.maybeFlush env draw s = (.ok (), s) := by
      simp [Engine.maybeFlush, MemtableList.hasFrozen, ready.noneFrozen]
    rw [nothing] at held
    exact Or.inl held
  | runMaintenance aged draw =>
    simp only [step, active, Option.map_some, Option.some.injEq] at taken
    subst taken
    refine flushed rfl (Engine.runMaintenance_mayFlush ready.noneFrozen rfl) ?_
    exact fun due => Engine.nonempty_of_count (of_decide_eq_true (Bool.and_eq_true_iff.mp due).1)
  | maybeCompact draw =>
    simp only [step, active, Option.map_some, Option.some.injEq] at taken
    subst taken
    have compacted := Engine.maybeCompact_compacted unique ready.toSound ready.latest
      (show Engine.maybeCompact env draw s = (_, _) from rfl)
    exact Or.inl (compacted.unchanged.1 ▸ held)
  | close draw =>
    simp only [step, active, Option.map_some, Option.some.injEq] at taken
    subst taken
    refine flushed rfl (Engine.close_mayFlush ready.noneFrozen rfl) ?_
    exact fun due => Engine.nonempty_of_count (of_decide_eq_true due)

/-- All that the storage and the memtable hold is from the history. -/
structure Sourced (history : List (CompositeKey × Option (Bytes × Bytes))) (w : World) : Prop where
  log : ∀ e, w.disk.wal.Holds e → e.write ∈ history
  stored : w.engine = none → ∀ e, w.stored.tables.Has e → e.write ∈ history
  engine : ∀ s, w.engine = some s → ∀ e, s.Has e → e.write ∈ history

/-- A step adds to the history what it enters, and nothing else to the storage and the memtable. -/
theorem sourced_step (unique : Function.Injective env.ulid) (ready : Ready env w)
    (h : Sourced history w) (taken : step env w a = some w') :
    Sourced (history ++ writesOf env w a) w' := by
  have earlier : ∀ {c}, c ∈ history → c ∈ history ++ writesOf env w a :=
    fun member => List.mem_append_left _ member
  cases a with
  | openEngine nowMs fault =>
    obtain ⟨closed, opening⟩ := openEngine_cases ready.stored taken
    have logged := h.log
    rw [disk_closed closed] at logged
    rcases opening with ⟨st, reloaded, rfl⟩ | ⟨s, launched, rfl⟩
    · have disk : World.disk { w with stored := st } = st := disk_closed closed
      refine ⟨?_, ?_, ?_⟩
      · intro e held
        rw [disk, reloaded.frame] at held
        exact earlier (logged e held)
      · intro _ e held
        have held : st.tables.Has e := held
        rw [reloaded.frame] at held
        exact earlier (h.stored closed e held)
      · intro s active
        rw [show w.engine = some s from active] at closed
        cases closed
    · refine ⟨?_, by rintro ⟨⟩, ?_⟩
      · intro e held
        exact earlier (logged e ((launched.holds e).mp held))
      · intro t same e held
        obtain rfl := Option.some.inj same
        obtain ⟨highest, replays, -⟩ := launched.replayed
        rcases (Engine.has_active launched.ready.noneFrozen).mp held with object | ⟨x, member, rfl⟩
        · rw [launched.tables] at object
          exact earlier (h.stored closed e object)
        · refine earlier (replay_sourced rfl ?_ ?_ replays x member)
          · intro x member
            cases member
          · intro e replayed
            exact logged e ((WalReader.mem_replayFrom (ready.stored closed).ordered).mp replayed).1
  | crash torn =>
    obtain ⟨s, active, rfl⟩ := Option.map_eq_some_iff.mp taken
    have logged := h.log
    rw [disk_of_engine active] at logged
    obtain ⟨segment, found, -⟩ := (ready.engine s active).opened.current
    refine ⟨?_, ?_, by rintro s ⟨⟩⟩
    · intro e held
      rcases (WalWriter.holds_writeEntries found).mp held with old | new
      · exact earlier (logged e old)
      · have torn := WalEntry.mem_assign_write new
        rw [named_writes] at torn
        exact List.mem_append_right _ torn
    · intro _ e held
      exact earlier (h.engine s active e (Or.inl held))
  | _ =>
    obtain ⟨s, active, -⟩ := Option.map_eq_some_iff.mp taken
    have ready_s := ready.engine s active
    obtain ⟨s', done, active', -, part, chain, -⟩ := call_changes unique rfl active ready_s taken
    have logged := h.log
    rw [disk_of_engine active] at logged
    refine ⟨?_, ?_, ?_⟩
    · intro e held
      rcases call_holds unique rfl active ready_s taken held with old | new
      · exact earlier (logged e old)
      · rw [writesOf, entered_call rfl active]
        exact List.mem_append_right _ (WalEntry.mem_assign_write new)
    · intro closed
      rw [active'] at closed
      cases closed
    · intro t same e held
      obtain rfl := Option.some.inj (active'.symm.trans same)
      rcases chain.gains ready_s held with old | ⟨x, member, rfl⟩
      · exact earlier (h.engine s active e old)
      · rw [writesOf, entered_call rfl active, ← placed_writes]
        exact List.mem_append_right _ (List.mem_map_of_mem (part.subset member))

theorem exec_sourced (unique : Function.Injective env.ulid) {labels : List Label}
    (fits : Admits (step env) (Fits env) {} labels) (run : exec (step env) {} labels = some w) :
    Sourced (recorded (step env) (writesOf env) {} labels) w := by
  have keep : ∀ w a w' seen, Ready env w ∧ Sourced seen w → Fits env w a → step env w a = some w' →
      Ready env w' ∧ Sourced (seen ++ writesOf env w a) w' :=
    fun w a w' seen before _ taken =>
      ⟨step_ready unique before.1 taken, sourced_step unique before.1 before.2 taken⟩
  have start : Ready env {} ∧ Sourced [] {} := by
    refine ⟨ready_empty env, ?_, ?_, by rintro s ⟨⟩⟩
    · rintro e ⟨k, segment, found, -⟩
      cases found
    · rintro _ e ⟨path, entries, found, -⟩
      cases found
  exact (exec_recorded keep start fits run).2

/-- In every run whose written fields fit the widths of the log, whatever fails: what a read gives
is the value of a write to the key that the run has made, and no delete, whether a point read gives
it, one of many, or the page of a range. -/
theorem reads_were_written {env : Env} (unique : Function.Injective env.ulid) {labels : List Label}
    {w : World} {s : Engine} (fits : Admits (step env) (Fits env) {} labels)
    (run : exec (step env) {} labels = some w) (active : w.engine = some s) (renv : ReadEnv)
    (draw : ReadDraw) (recordId : Bytes) :
    (∀ itemKey found, s.get renv draw recordId itemKey = .ok (some found) →
      CompositeKey.new recordId itemKey = .ok found.key ∧
        (found.key, some (found.value, found.metadata)) ∈
          recorded (step env) (writesOf env) {} labels) ∧
      (∀ keys results, s.multiGet renv draw recordId keys = .ok results →
        ∀ (i : Nat) found, results[i]? = some (some found) →
        ∃ itemKey, keys[i]? = some itemKey ∧ CompositeKey.new recordId itemKey = .ok found.key ∧
          (found.key, some (found.value, found.metadata)) ∈
            recorded (step env) (writesOf env) {} labels) ∧
      ∀ startKey endKey options result, s.scan renv draw recordId startKey endKey options =
        .ok result → ∀ e ∈ result.entries,
        e.compositeKey.recordId = recordId ∧
          (∃ start stop, ReadPath.startBound recordId startKey options = .ok start ∧
          ReadPath.endBound recordId endKey = .ok stop ∧ start ≤ e.compositeKey ∧
            e.compositeKey < stop) ∧
        (e.compositeKey, some (e.value, e.metadata)) ∈
          recorded (step env) (writesOf env) {} labels := by
  have sourced := (exec_sourced unique fits run).engine s active
  have written : ∀ {key e}, s.Gave key e →
      (key, some (e.value, e.metadata)) ∈ recorded (step env) (writesOf env) {} labels := by
    intro key e gave
    rw [← gave.same, ← gave.shown]
    exact sourced e gave.has
  refine ⟨?_, ?_, ?_⟩
  · intro itemKey found read
    obtain ⟨key, e, made, gave, rfl⟩ := Engine.get_gave read
    have same : (GetResult.fromMergeEntry e).key = key := gave.same
    rw [same]
    exact ⟨made, written gave⟩
  · intro keys results read i found here
    unfold Engine.multiGet at read
    generalize reads : ReadPath.multiGet renv draw recordId s.memtableList s.tables s.levels keys =
      left at read
    cases left with
    | error err => cases read
    | ok entries =>
      obtain rfl := Except.ok.inj read
      rw [List.getElem?_map] at here
      obtain ⟨entry, listed, shown⟩ := Option.map_eq_some_iff.mp here
      obtain ⟨e, rfl, rfl⟩ := Option.map_eq_some_iff.mp shown
      obtain ⟨itemKey, key, asked, made, gave⟩ := Engine.multiGet_gave reads listed
      have same : (GetResult.fromMergeEntry e).key = key := gave.same
      rw [same]
      exact ⟨itemKey, asked, made, written gave⟩
  · intro startKey endKey options result read e listed
    obtain ⟨gave, own, bounds⟩ := Engine.scan_gave read listed
    exact ⟨own, bounds, written gave⟩

section Example

/-- A session that replays, a compaction that stops before its commit and a flush that drops the
memtable. -/
def brokenRun : List Label :=
  [.openEngine 0 none, samplePut 1 1 true, .crash [], .openEngine 0 none, samplePut 3 1 true,
    .maybeCompact fun _ => { fault := some .updateManifest }, failingPut 6, samplePut 7 1 true,
      samplePut 1 2 false]

theorem reads_were_written_broken :
    ∃ w s found result, exec (step conflictEnv) {} brokenRun = some w ∧ w.engine = some s ∧
      s.get sampleReads {} ⟨[114]⟩ ⟨[3]⟩ = .ok (some found) ∧
      s.scan sampleReads {} ⟨[114]⟩ none none {} = .ok result ∧ result.entries.length = 3 ∧
      (found.key, some (found.value, found.metadata)) ∈
        recorded (step conflictEnv) (writesOf conflictEnv) {} brokenRun ∧
      ∀ e ∈ result.entries, (e.compositeKey, some (e.value, e.metadata)) ∈
        recorded (step conflictEnv) (writesOf conflictEnv) {} brokenRun := by
  have summary : ((exec (step conflictEnv) {} brokenRun).bind World.engine).map (fun s =>
      (((s.get sampleReads {} ⟨[114]⟩ ⟨[3]⟩).toOption.bind id).isSome,
        (s.scan sampleReads {} ⟨[114]⟩ none none {}).toOption.map fun result =>
          result.entries.length)) = some (true, some 3) := by
    decide +kernel
  obtain ⟨s, active, read⟩ := Option.map_eq_some_iff.mp summary
  obtain ⟨w, run, active⟩ := Option.bind_eq_some_iff.mp active
  obtain ⟨got, scanned⟩ := Prod.mk.inj read
  obtain ⟨found, got⟩ := Option.isSome_iff_exists.mp got
  obtain ⟨answer, got, same⟩ := Option.bind_eq_some_iff.mp got
  obtain rfl : answer = some found := same
  obtain ⟨result, scanned, count⟩ := Option.map_eq_some_iff.mp scanned
  have got := FlushResult.ok_of_toOption got
  have scanned := FlushResult.ok_of_toOption scanned
  have fits : Admits (step conflictEnv) (Fits conflictEnv) {} brokenRun := by decide +kernel
  obtain ⟨gets, -, scans⟩ :=
    @reads_were_written conflictEnv (sampleEnv_unique 100) _ _ _ fits run active sampleReads {} ⟨[114]⟩
  exact ⟨w, s, found, result, run, active, got, scanned, count, (gets _ _ got).2,
    fun e listed => (scans _ _ _ _ scanned e listed).2.2⟩

end Example

end World

end FlushDB
