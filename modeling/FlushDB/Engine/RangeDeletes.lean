import FlushDB.Engine.Steps
import FlushDB.Engine.Versions

/-!
Range deletes hide older versions as long as their tombstones stay in the active memtable. A
memtable that is flushed takes its tombstones along into a table, where reads do not look for
them.
-/

namespace FlushDB
open Lib

namespace Engine

/-- No read gives the key. -/
structure Unseen (s : Engine) (recordId itemKey : Bytes) : Prop where
  get : ∀ renv draw result, get renv draw recordId itemKey s = .ok result → result = none
  multiGet : ∀ renv draw keys results, multiGet renv draw recordId keys s = .ok results →
    ∀ i : Nat, keys[i]? = some itemKey → results[i]? = some none
  scan : ∀ renv draw scanned startKey endKey options result,
    scan renv draw scanned startKey endKey options s = .ok result →
    ∀ e ∈ result.entries, ¬ (e.compositeKey.recordId = recordId ∧ e.compositeKey.itemKey = itemKey)

/-- A range tombstone of the active memtable spans the key and is newer than all its versions. -/
def Hides (s : Engine) (key : CompositeKey) : Prop :=
  ∃ ts ∈ s.memtableList.active.rangeTombstones.tombstones, ts.Spans key.recordId key.itemKey ∧
    ∀ e, s.Has e → e.compositeKey = key → e.sequenceNumber < ts.sequenceNumber

namespace Hides
variable {s : Engine} {key : CompositeKey} {renv : ReadEnv} {draw : ReadDraw}

theorem answer (h : s.Hides key) {e : MergeEntry} (held : s.Has e) (same : e.compositeKey = key) :
    ReadPath.answer s.memtableList key e = none := by
  obtain ⟨ts, member, spans, newer⟩ := h
  have covers : s.memtableList.rangeTombstoneCovers key.recordId key.itemKey e.sequenceNumber = true :=
    List.any_eq_true.mpr ⟨_, List.mem_cons_self,
      RangeTombstoneIndex.covers_of_spans member spans (newer e held same)⟩
  unfold ReadPath.answer
  rw [covers]
  split <;> rfl

/-- What the tables give is not an answer. -/
theorem answer_best (h : s.Hides key) {best : Option MergeEntry}
    (stored : ∀ e, best = some e → s.tables.Has e ∧ e.compositeKey = key) :
    best.bind (ReadPath.answer s.memtableList key) = none := by
  cases best with
  | none => rfl
  | some e =>
    obtain ⟨object, same⟩ := stored e rfl
    exact h.answer (Or.inl object) same

theorem get {recordId itemKey : Bytes} (h : s.Hides key)
    (new : CompositeKey.new recordId itemKey = .ok key) {result : Option GetResult}
    (read : Engine.get renv draw recordId itemKey s = .ok result) : result = none := by
  simp only [Engine.get, new, bind, Except.bind, pure, Except.pure] at read
  split at read
  · rename_i x found
    obtain ⟨held, same⟩ := MemtableList.get_found found
    rw [h.answer (Or.inr held) same] at read
    exact (Except.ok.inj read).symm
  · split at read
    · cases read
    · rename_i best searched
      rw [h.answer_best ?_] at read
      · exact (Except.ok.inj read).symm
      · intro e same
        rw [same] at searched
        exact (searchLevels_found searched).resolve_left (fun impossible => by cases impossible)

theorem pointRead (h : s.Hides key) {result : Option MergeEntry}
    (read : ReadPath.pointRead renv draw key s.memtableList s.tables s.levels = .ok result) :
    result = none := by
  unfold ReadPath.pointRead at read
  split at read
  · rename_i x found
    obtain ⟨held, same⟩ := MemtableList.get_found found
    rw [h.answer (Or.inr held) same] at read
    exact (Except.ok.inj read).symm
  · generalize searched : ReadPath.searchHandles renv draw s.tables key
      (s.levels.flatMap fun level => level.findCandidatesForKey renv s.tables key) none = left at read
    cases left with
    | error err => cases read
    | ok best =>
      refine (Except.ok.inj read).symm.trans (h.answer_best ?_)
      intro e same
      rw [same] at searched
      exact (ReadPath.searchHandles_found searched).resolve_left (fun impossible => by cases impossible)

theorem multiGet {recordId itemKey : Bytes}
    (h : ∀ key, CompositeKey.new recordId itemKey = .ok key → s.Hides key) {keys : List Bytes}
    {results : List (Option MergeEntry)}
    (read : ReadPath.multiGet renv draw recordId s.memtableList s.tables s.levels keys = .ok results)
    {i : Nat} (asked : keys[i]? = some itemKey) : results[i]? = some none := by
  induction keys generalizing results i with
  | nil => cases asked
  | cons first rest ih =>
    unfold ReadPath.multiGet at read
    simp only [bind, Except.bind, pure, Except.pure] at read
    split at read
    · cases read
    rename_i firstKey made
    split at read
    · cases read
    rename_i entry found
    split at read
    · cases read
    rename_i others later
    obtain rfl := Except.ok.inj read
    cases i with
    | zero =>
      obtain rfl := Option.some.inj asked
      rw [List.getElem?_cons_zero, (h firstKey made).pointRead found]
    | succ i => exact ih later asked

theorem scan (h : s.Hides key) {recordId : Bytes} {startKey endKey : Option Bytes}
    {options : RangeReadOptions} {result : RangeReadResult}
    (read : Engine.scan renv draw recordId startKey endKey options s = .ok result) {e : MergeEntry}
    (listed : e ∈ result.entries) : e.compositeKey ≠ key := by
  rintro rfl
  obtain ⟨ts, member, spans, newer⟩ := h
  unfold Engine.scan ReadPath.rangeRead at read
  simp only [bind, Except.bind, pure, Except.pure] at read
  split at read
  · cases read
  split at read
  · cases read
  split at read
  · cases read
  rename_i sources sourced
  obtain rfl := Except.ok.inj read
  have known : ts ∈ (s.memtableList.allRangeTombstones.foldl RangeTombstoneIndex.add {}).tombstones :=
    RangeTombstoneIndex.mem_foldl_add.mpr (Or.inl (List.mem_flatMap.mpr ⟨_, List.mem_cons_self, member⟩))
  rcases ReadPath.collect_entries known listed with none | ⟨pending, uncovered⟩
  · cases none
  · exact uncovered ⟨spans, newer e (ReadPath.readSources_found sourced pending) rfl⟩

theorem unseen {recordId itemKey : Bytes}
    (h : s.Hides (CompositeKey.encode recordId itemKey.data)) :
    s.Unseen recordId itemKey := by
  have made : ∀ key, CompositeKey.new recordId itemKey = .ok key → s.Hides key := by
    intro key new
    rw [(CompositeKey.new_ok new).2]
    exact h
  refine ⟨?_, ?_, ?_⟩
  · intro renv draw result read
    cases new : CompositeKey.new recordId itemKey with
    | error err =>
      simp only [Engine.get, new, bind, Except.bind] at read
      cases read
    | ok key => exact (made key new).get new read
  · intro renv draw keys results read i asked
    unfold Engine.multiGet at read
    generalize reads : ReadPath.multiGet renv draw recordId s.memtableList s.tables s.levels keys =
      left at read
    cases left with
    | error err => cases read
    | ok entries =>
      obtain rfl := Except.ok.inj read
      rw [List.getElem?_map, multiGet made reads asked]
      rfl
  · intro renv draw scanned startKey endKey options result read e listed same
    refine h.scan read listed ?_
    rw [← CompositeKey.encode_parts e.compositeKey, same.1, same.2]

end Hides

end Engine

/-- A range delete that has been acknowledged and spans the key. -/
def Acked.Deletes (d : Acked) (recordId itemKey : Bytes) : Prop :=
  d.entry.entryType = .rangeDelete ∧ (Memtable.tombstoneOf d.entry).Spans recordId itemKey

/-- An acknowledged point write to the key. -/
def Acked.Writes (a : Acked) (recordId itemKey : Bytes) : Prop :=
  a.entry.entryType ≠ .rangeDelete ∧ a.entry.recordId = recordId ∧ a.entry.itemKey = itemKey

namespace World

/-- The memtable of the open engine holds no range tombstone. -/
def NoTombstones (w : World) : Prop :=
  ∀ s ∈ w.engine, s.memtableList.active.rangeTombstones.tombstones = []

instance (w : World) : Decidable w.NoTombstones :=
  inferInstanceAs (Decidable (∀ s ∈ w.engine, s.memtableList.active.rangeTombstones.tombstones = []))

def Label.isCrash : Label → Bool
  | .crash _ => true
  | _ => false

/-- No memtable that holds a range tombstone is frozen. -/
def Keeps (w : World) : Label → Prop
  | .put _ _ _ _ _ draw | .delete _ _ draw => draw.freeze = true → w.NoTombstones
  | .deleteRange _ _ _ draw => draw.freeze = false
  | .putBatch _ items _ _ draws => (∃ i < items.length, (draws i).freeze = true) → w.NoTombstones
  | .runMaintenance aged _ => aged = true → w.NoTombstones
  | .close _ => w.NoTombstones
  | .openEngine _ _ | .maybeFlush _ | .maybeCompact _ | .crash _ => True

instance (w : World) : (a : Label) → Decidable (Keeps w a)
  | .put _ _ _ _ _ draw | .delete _ _ draw =>
    inferInstanceAs (Decidable (draw.freeze = true → w.NoTombstones))
  | .deleteRange _ _ _ draw => inferInstanceAs (Decidable (draw.freeze = false))
  | .putBatch _ items _ _ draws =>
    inferInstanceAs (Decidable ((∃ i < items.length, (draws i).freeze = true) → w.NoTombstones))
  | .runMaintenance aged _ => inferInstanceAs (Decidable (aged = true → w.NoTombstones))
  | .close _ => inferInstanceAs (Decidable w.NoTombstones)
  | .openEngine _ _ | .maybeFlush _ | .maybeCompact _ | .crash _ => isTrue trivial

/-- Every acknowledged range delete has its tombstone in the memtable, above all versions of keys
that no later write was acknowledged for. -/
structure Guarded (w : World) (s : Engine) : Prop where
  numbered : s.Numbered
  marked : ∀ d ∈ w.acked, d.entry.entryType = .rangeDelete →
    d.entry.itemKey.data.head? = some rangeTombstonePrefix
  effective : ∀ before d after, w.acked = before ++ d :: after → d.entry.entryType = .rangeDelete →
    ∃ n, { Memtable.tombstoneOf d.entry with sequenceNumber := n } ∈
      s.memtableList.active.rangeTombstones.tombstones ∧
      ∀ e, s.Has e → e.compositeKey ≠ d.entry.compositeKey →
        (∀ a ∈ after, a.entry.compositeKey ≠ e.compositeKey) → e.sequenceNumber < n

section Guard
variable {env : Env} {w w' : World} {s t : Engine}

theorem mem_ackedFrom {reported : Option Nat} {first : Nat} {entries : List MemtableEntry}
    {a : Acked} (h : a ∈ ackedFrom reported first entries) : a.entry ∈ entries := by
  rw [ackedFrom_eq] at h
  obtain ⟨i, bound, rfl⟩ := List.mem_mapIdx.mp h
  exact List.getElem_mem bound

theorem acked_of_mem {reported : Option Nat} {first : Nat} {entries : List MemtableEntry}
    {y : MemtableEntry} (h : y ∈ entries) :
    ∃ a ∈ ackedFrom reported first entries, a.entry = y := by
  obtain ⟨i, bound, rfl⟩ := List.mem_iff_getElem.mp h
  refine ⟨⟨entries[i], first + i, reported⟩, ?_, rfl⟩
  rw [ackedFrom_eq]
  exact List.mem_mapIdx.mpr ⟨i, bound, rfl⟩

theorem split_append {a b before after : List Acked} {d : Acked}
    (h : a ++ b = before ++ d :: after) :
    (∃ middle, a = before ++ d :: middle ∧ after = middle ++ b) ∨
      ∃ earlier, b = earlier ++ d :: after := by
  rcases List.append_eq_append_iff.mp h with ⟨earlier, -, rest⟩ | ⟨middle, old, rest⟩
  · exact Or.inr ⟨earlier, rest⟩
  · cases middle with
    | nil => exact Or.inr ⟨[], rest.symm⟩
    | cons head tail =>
      obtain ⟨rfl, rfl⟩ := List.cons.inj rest
      exact Or.inl ⟨tail, old, rfl⟩

/-- Nothing was written, and the memtable is the same. -/
theorem Guarded.still (h : Guarded w s) (acked : w'.acked = w.acked) (numbered : t.Numbered)
    (list : t.memtableList = s.memtableList) (has : ∀ e, t.Has e → s.Has e) : Guarded w' t := by
  refine ⟨numbered, acked ▸ h.marked, ?_⟩
  intro before d after split deletes
  obtain ⟨n, member, newer⟩ := h.effective before d after (acked ▸ split) deletes
  exact ⟨n, list ▸ member, fun e held => newer e (has e held)⟩

theorem guarded_of_points (numbered : s.Numbered)
    (points : ∀ d ∈ w.acked, d.entry.entryType ≠ .rangeDelete) : Guarded w s := by
  refine ⟨numbered, ?_, ?_⟩
  · intro d member deletes
    exact absurd deletes (points d member)
  · intro before d after split deletes
    exact absurd deletes (points d (by simp [split]))

theorem Guarded.points (h : Guarded w s)
    (none : s.memtableList.active.rangeTombstones.tombstones = []) :
    ∀ d ∈ w.acked, d.entry.entryType ≠ .rangeDelete := by
  intro d member deletes
  obtain ⟨before, after, split⟩ := List.append_of_mem member
  obtain ⟨n, tombstone, -⟩ := h.effective before d after split deletes
  rw [none] at tombstone
  cases tombstone

/-- The written entries are in the memtable and acknowledged. A range delete comes alone. -/
theorem Guarded.took (h : Guarded w s) {entries kept : List MemtableEntry} (took : s.Took kept t)
    {reported : Option Nat} {first : Nat}
    (acked : w'.acked = w.acked ++ ackedFrom reported first entries)
    (keys : ∀ x ∈ kept, ∃ y ∈ entries, y.compositeKey = x.compositeKey)
    (alone : ∀ y ∈ entries, y.entryType = .rangeDelete →
      y.itemKey.data.head? = some rangeTombstonePrefix ∧ entries = [y] ∧
        kept = [{ y with sequenceNumber := s.memtableNext }]) :
    Guarded w' t := by
  refine ⟨took.numbered h.numbered, ?_, ?_⟩
  · intro d member deletes
    rw [acked] at member
    rcases List.mem_append.mp member with old | new
    · exact h.marked d old deletes
    · exact (alone d.entry (mem_ackedFrom new) deletes).1
  · intro before d after split deletes
    rw [acked] at split
    rcases split_append split with ⟨middle, old, rfl⟩ | ⟨earlier, new⟩
    · obtain ⟨n, member, newer⟩ := h.effective before d middle old deletes
      refine ⟨n, (took.active.tombstones _).mpr (Or.inl member), ?_⟩
      intro e held other later
      rcases took.has h.numbered held with stored | ⟨x, inside, rfl⟩
      · exact newer e stored other fun a member => later a (List.mem_append_left _ member)
      · obtain ⟨y, written, same⟩ := keys x inside
        obtain ⟨a, acknowledged, rfl⟩ := @acked_of_mem reported first entries y written
        exact absurd same (later a (List.mem_append_right _ acknowledged))
    · have written : d ∈ ackedFrom reported first entries := by simp [new]
      obtain ⟨-, -, kept_eq⟩ := alone d.entry (mem_ackedFrom written) deletes
      have inside : { d.entry with sequenceNumber := s.memtableNext } ∈ kept :=
        kept_eq ▸ List.mem_singleton_self _
      refine ⟨s.memtableNext, (took.active.tombstones _).mpr (Or.inr ⟨_, inside, deletes, rfl⟩), ?_⟩
      intro e held other _
      rcases took.has h.numbered held with stored | ⟨x, member, rfl⟩
      · exact h.numbered.below e stored
      · rw [kept_eq, List.mem_singleton] at member
        exact absurd (by rw [member]; rfl) other

/-- What a call has written, when its entry reached the memtable and no memtable was frozen. -/
theorem Guarded.write (h : Guarded w s) {result : FlushResult MemtableEntry} {draw : WriteDraw}
    (unknown : ∀ entry, result = .ok entry → s.memtableList.knows entry.idempotencyKey = false)
    (kind : ∀ entry, result = .ok entry → entry.entryType = .rangeDelete →
      entry.itemKey.data.head? = some rangeTombstonePrefix ∧ draw.freeze = false)
    (keeps : draw.freeze = true → s.memtableList.active.rangeTombstones.tombstones = []) :
    Guarded (w.wrote s result.toOption.toList ((Engine.writePrepared env result draw s).1.map some)
      (Engine.writePrepared env result draw s).2) (Engine.writePrepared env result draw s).2 := by
  cases result with
  | error err => exact h.still rfl h.numbered rfl fun e held => held
  | ok entry =>
    simp only [Engine.writePrepared, Except.toOption, Option.toList_some]
    generalize call : Engine.writeEntry env entry draw s = left
    obtain ⟨r, s'⟩ := left
    rcases Engine.writeEntry_took h.numbered (unknown entry rfl)
      call with ⟨err, rfl, rfl⟩ | ⟨t, rolled, took, flushes, rfl⟩
    · exact h.still rfl h.numbered rfl fun e held => held
    · cases freezes : draw.freeze with
      | true =>
        have points := h.points (keeps freezes)
        have point : entry.entryType ≠ .rangeDelete := by
          intro deletes
          rw [(kind entry rfl deletes).2] at freezes
          cases freezes
        refine guarded_of_points (flushes.numbered (took.numbered h.numbered)) ?_
        intro d member
        cases rolled with
        | error err => exact points d member
        | ok done =>
          rcases List.mem_append.mp member with old | new
          · exact points d old
          · rw [List.mem_singleton.mp (mem_ackedFrom new)]
            exact point
      | false =>
        rw [freezes] at flushes
        rcases flushes with ⟨rfl, succeeds⟩ | ⟨due, -⟩
        · rw [succeeds rfl]
          refine h.took took rfl ?_ ?_
          · intro x member
            rw [List.mem_singleton.mp member]
            exact ⟨entry, List.mem_singleton_self _, rfl⟩
          · intro y member deletes
            rw [List.mem_singleton.mp member] at deletes ⊢
            exact ⟨(kind entry rfl deletes).1, rfl, rfl⟩
        · cases due

theorem Guarded.flush (h : Guarded w s) {due : Bool} {draw : FlushDraw} {r : FlushResult Unit}
    (flushes : Engine.MayFlush env due draw r s t) (acked : w'.acked = w.acked)
    (keeps : due = true → s.memtableList.active.rangeTombstones.tombstones = []) :
    Guarded w' t := by
  have numbered := flushes.numbered h.numbered
  rcases flushes with ⟨rfl, -⟩ | ⟨dueNow, -⟩
  · exact h.still acked numbered rfl fun e held => held
  · exact guarded_of_points numbered (acked ▸ h.points (keeps dueNow))

theorem Guarded.batch (h : Guarded w s) {recordId : Bytes} {items : List PutBatchItem}
    {pressured late : Bool} {draws : Nat → Engine.ItemDraw}
    (keeps : (∃ i < items.length, (draws i).freeze = true) →
      s.memtableList.active.rangeTombstones.tombstones = []) :
    Guarded (w.wrote s (prepared env w s (.putBatch recordId items pressured late draws))
        ((Engine.putBatch env w.writes recordId items pressured late draws s).1.map fun _ => none)
        (Engine.putBatch env w.writes recordId items pressured late draws s).2)
      (Engine.putBatch env w.writes recordId items pressured late draws s).2 := by
  cases prepares : Engine.prepareBatch env w.writes recordId items pressured s with
  | error err =>
    simp only [prepared, Engine.putBatch, prepares]
    exact h.still rfl h.numbered rfl fun e held => held
  | ok entries =>
    have puts := Engine.prepareBatch_put prepares
    obtain ⟨-, -, few⟩ := Engine.prepareBatch_numbers prepares
    cases entries with
    | nil =>
      simp only [prepared, Engine.putBatch, prepares]
      exact h.still (List.append_nil _) h.numbered rfl fun e held => held
    | cons head rest =>
      simp only [prepared, Engine.putBatch, prepares, Except.toOption, Option.getD_some]
      split
      · exact h.still rfl h.numbered rfl fun e held => held
      rename_i u appended
      obtain ⟨tables, list⟩ := Engine.appendWal_frame appended
      generalize ready_eq : ({ u with nextSequence := u.nextSequence + (head :: rest).length } :
        Engine) = v
      have list_v : v.memtableList = s.memtableList := by rw [← ready_eq]; exact list
      have tables_v : v.tables = s.tables := by rw [← ready_eq]; exact tables
      have has_v : ∀ e, v.Has e → s.Has e := by
        intro e held
        rw [Engine.Has, list_v, tables_v] at held
        exact held
      have numbered_v : v.Numbered := by
        refine ⟨list_v ▸ h.numbered.noneFrozen, list_v ▸ h.numbered.activeOpen, ?_⟩
        intro e held
        rw [Engine.memtableNext, list_v]
        exact h.numbered.below e (has_v e held)
      by_cases freezes : ∃ i < items.length, (draws i).freeze = true
      · -- no range delete has been acknowledged, and a batch adds none
        have points := h.points (keeps freezes)
        generalize inserts : Engine.insertBatch env draws (head :: rest) v = left
        obtain ⟨r, s'⟩ := left
        have numbered' := Engine.insertBatch_numbered numbered_v inserts
        cases r with
        | error err => exact guarded_of_points numbered' points
        | ok done =>
          refine guarded_of_points numbered' ?_
          intro d member
          rcases List.mem_append.mp member with old | new
          · exact points d old
          · rw [(puts d.entry (mem_ackedFrom new)).1]
            intro impossible
            cases impossible
      · have idle : ∀ i < (head :: rest).length, (draws i).freeze = false := by
          intro i bound
          rw [Bool.eq_false_iff]
          exact fun froze => freezes ⟨i, by omega, froze⟩
        obtain ⟨t, inserted, took⟩ := @Engine.insertBatch_took env v draws
          (head :: rest) numbered_v idle
        rw [inserted]
        refine h.took (t := t) ⟨took.tables.trans tables_v, ?_, list_v ▸ took.active⟩ rfl ?_ ?_
        · rw [took.frozen, list_v]
        · intro x member
          exact ⟨x, member, rfl⟩
        · intro y member deletes
          rw [(puts y member).1] at deletes
          cases deletes

/-- Every step of the session that freezes no tombstone keeps the guard. -/
theorem guarded_step (active : w.engine = some s) (h : Guarded w s) {a : Label}
    (session : a.isCrash = false) (keeps : Keeps w a) (taken : step env w a = some w') :
    ∃ s', w'.engine = some s' ∧ Guarded w' s' := by
  have none_held : w.NoTombstones → s.memtableList.active.rangeTombstones.tombstones = [] :=
    fun none => none s active
  cases a with
  | openEngine nowMs fault =>
    simp only [step, active] at taken
    cases taken
  | crash torn => cases session
  | put recordId itemKey value metadata token draw =>
    simp only [step, active, Option.map_some, Option.some.injEq] at taken
    subst taken
    refine ⟨_, rfl, h.write ?_ ?_ fun freezes => none_held (keeps freezes)⟩
    · intro entry made
      obtain ⟨compositeKey, -, unknown, rfl⟩ := preparePut_ok made
      exact unknown
    · intro entry made deletes
      obtain ⟨compositeKey, -, -, rfl⟩ := preparePut_ok made
      cases deletes
  | delete recordId itemKey draw =>
    simp only [step, active, Option.map_some, Option.some.injEq] at taken
    subst taken
    refine ⟨_, rfl, h.write ?_ ?_ fun freezes => none_held (keeps freezes)⟩
    · intro entry made
      obtain ⟨compositeKey, -, rfl⟩ := prepareDelete_ok made
      exact knows_none _
    · intro entry made deletes
      obtain ⟨compositeKey, -, rfl⟩ := prepareDelete_ok made
      cases deletes
  | deleteRange recordId startKey endKey draw =>
    simp only [step, active, Option.map_some, Option.some.injEq] at taken
    subst taken
    have kept : draw.freeze = false := keeps
    refine ⟨_, rfl, h.write ?_ ?_ fun freezes => by rw [kept] at freezes; cases freezes⟩
    · intro entry made
      obtain ⟨compositeKey, -, rfl⟩ := prepareDeleteRange_ok made
      exact knows_none _
    · intro entry made _
      obtain ⟨compositeKey, key, rfl⟩ := prepareDeleteRange_ok made
      obtain ⟨clean, rfl⟩ := CompositeKey.rangeTombstoneKey_ok key
      refine ⟨?_, kept⟩
      show (CompositeKey.itemKey _).data.head? = _
      rw [CompositeKey.encode_itemKey clean]
      rfl
  | putBatch recordId items pressured late draws =>
    simp only [step, active, Option.map_some, Option.some.injEq] at taken
    subst taken
    exact ⟨_, rfl, h.batch fun freezes => none_held (keeps freezes)⟩
  | maybeFlush draw =>
    simp only [step, active, Option.map_some, Option.some.injEq] at taken
    subst taken
    have nothing : Engine.maybeFlush env draw s = (.ok (), s) := by
      simp [Engine.maybeFlush, MemtableList.hasFrozen, h.numbered.noneFrozen]
    rw [nothing]
    exact ⟨s, rfl, h.still rfl h.numbered rfl fun e held => held⟩
  | runMaintenance aged draw =>
    simp only [step, active, Option.map_some, Option.some.injEq] at taken
    subst taken
    refine ⟨_, rfl, h.flush (Engine.runMaintenance_mayFlush h.numbered.noneFrozen rfl) rfl ?_⟩
    intro due
    exact none_held (keeps (Bool.and_eq_true_iff.mp due).2)
  | maybeCompact draw =>
    simp only [step, active, Option.map_some, Option.some.injEq] at taken
    subst taken
    obtain ⟨list, has, numbered⟩ := @Engine.maybeCompact_numbered env s _ _ draw rfl h.numbered
    exact ⟨_, rfl, h.still rfl numbered list has⟩
  | close draw =>
    simp only [step, active, Option.map_some, Option.some.injEq] at taken
    subst taken
    exact ⟨_, rfl, h.flush (Engine.close_mayFlush h.numbered.noneFrozen rfl) rfl fun _ => none_held keeps⟩

/-- The key that a range delete spans is hidden unless it was written again. -/
theorem Guarded.hides (h : Guarded w s) {before after : List Acked} {d : Acked}
    (acked : w.acked = before ++ d :: after) {recordId itemKey : Bytes}
    (deletes : d.Deletes recordId itemKey) (data : itemKey.data.head? ≠ some rangeTombstonePrefix)
    (newest : ∀ a ∈ after, ¬ a.Writes recordId itemKey) :
    s.Hides (CompositeKey.encode recordId itemKey.data) := by
  have clean : separator ∉ recordId.data := deletes.2.1 ▸ CompositeKey.recordId_clean
    d.entry.compositeKey
  have listed : ∀ a ∈ after, a ∈ w.acked := by
    intro a member
    rw [acked]
    exact List.mem_append_right _ (List.mem_cons_of_mem _ member)
  -- a range delete has a key of another shape
  have other : ∀ a ∈ w.acked, a.entry.entryType = .rangeDelete →
      a.entry.compositeKey ≠ CompositeKey.encode recordId itemKey.data := by
    intro a member isDelete same
    have mark := h.marked a member isDelete
    rw [MemtableEntry.itemKey, same, CompositeKey.encode_itemKey clean] at mark
    exact data mark
  obtain ⟨n, member, newer⟩ := h.effective before d after acked deletes.1
  refine ⟨_, member, ?_, ?_⟩
  · rw [CompositeKey.encode_recordId clean, CompositeKey.encode_itemKey clean]
    exact deletes.2
  · intro e held same
    refine newer e held ?_ ?_
    · rw [same]
      exact (other d (by simp [acked]) deletes.1).symm
    · intro a inside written
      rw [same] at written
      refine newest a inside ⟨fun isDelete => other a (listed a inside) isDelete written, ?_, ?_⟩
      · rw [MemtableEntry.recordId, written, CompositeKey.encode_recordId clean]
      · rw [MemtableEntry.itemKey, written, CompositeKey.encode_itemKey clean]

end Guard

/-- A range delete spans the keys of its record from its first key up to its last. -/
theorem deletes_iff {env : Env} {origin : Nat} {recordId startKey endKey : Bytes} {pressured : Bool}
    {s : Engine} {d : Acked}
    (made : Engine.prepareDeleteRange env origin recordId startKey endKey pressured s = .ok d.entry)
    (itemKey : Bytes) :
    d.Deletes recordId itemKey ↔ startKey ≤ itemKey ∧
      (endKey.isEmpty = true ∨ itemKey < endKey) := by
  obtain ⟨compositeKey, key, entry⟩ := prepareDeleteRange_ok made
  obtain ⟨clean, rfl⟩ := CompositeKey.rangeTombstoneKey_ok key
  simp only [Acked.Deletes, entry, RangeTombstone.Spans, Memtable.tombstoneOf,
    MemtableEntry.recordId, MemtableEntry.itemKey,
    CompositeKey.encode_recordId clean, CompositeKey.encode_itemKey clean, List.tail_cons,
      RangeTombstoneIndex.inRange,
    decide_eq_true_eq, true_and]

/-- An engine that opens on tables below the watermark numbers its versions above them. -/
theorem opened_numbered {env : Env} {st : Stored} {s : Engine} (opened : s.Opened env st)
    (below : ∀ e, st.tables.Has e → e.sequenceNumber ≤ ManifestBucket.watermark st.manifests) :
    s.Numbered := by
  refine ⟨opened.ready.noneFrozen, opened.ready.activeOpen, ?_⟩
  intro e held
  rw [Engine.has_active opened.ready.noneFrozen] at held
  rcases held with object | ⟨x, member, rfl⟩
  · rw [opened.tables] at object
    have first := below e object
    have next := opened.replayed.next
    show _ < s.memtableList.active.nextSequenceNumber
    omega
  · exact opened.ready.below x member

/-- In a session that freezes no memtable with a range tombstone, a key that an acknowledged range
delete spans and that no later acknowledged write is for is not seen by any read. -/
theorem range_deletes_hold {env : Env} {w₀ w : World} {s₀ s : Engine} {labels : List Label}
    (opened : w₀.engine = some s₀) (numbered : s₀.Numbered) (fresh : w₀.acked = [])
    (admitted : Admits (step env) (fun w a => a.isCrash = false ∧ Keeps w a) w₀ labels)
    (run : exec (step env) w₀ labels = some w) (active : w.engine = some s)
    {before after : List Acked} {d : Acked} (acked : w.acked = before ++ d :: after)
    {recordId itemKey : Bytes} (deletes : d.Deletes recordId itemKey)
    (data : itemKey.data.head? ≠ some rangeTombstonePrefix)
    (newest : ∀ a ∈ after, ¬ a.Writes recordId itemKey) :
    s.Unseen recordId itemKey := by
  have start : ∃ s, w₀.engine = some s ∧ Guarded w₀ s := by
    refine ⟨s₀, opened, guarded_of_points numbered ?_⟩
    rw [fresh]
    intro d member
    cases member
  obtain ⟨s', same, guarded⟩ := @exec_invariant _ _ (step env)
    (fun w a => a.isCrash = false ∧ Keeps w a)
    (fun w => ∃ s, w.engine = some s ∧ Guarded w s)
    (fun w a w' ⟨s, active, h⟩ ⟨session, keeps⟩ taken => guarded_step active h session keeps taken)
      w₀ w labels start admitted run
  obtain rfl := Option.some.inj (active.symm.trans same)
  exact (guarded.hides acked deletes data newest).unseen

section Example

def sampleReads : ReadEnv where
  blockSizeTarget := 4096
  getBudgetPerRead := 8
  maybeContains ids id := ids.contains id

/-- A range delete of the first of two written keys; its memtable may be flushed. -/
def deleteRun (freeze : Bool) : List Label :=
  [samplePut 1 1 false, samplePut 2 1 false, .deleteRange ⟨[114]⟩ ⟨[1]⟩ ⟨[2]⟩ { freeze }]

/-- The last acknowledged write of the run is the range delete. -/
theorem deleteRun_acked {w : World}
    (acks : w.acked.map (fun a => (a.entry.entryType, Memtable.tombstoneOf a.entry)) =
      [(.put, ⟨⟨[114]⟩, ⟨[]⟩, ⟨[1]⟩, 1⟩), (.put, ⟨⟨[114]⟩, ⟨[]⟩, ⟨[1]⟩, 2⟩),
        (.rangeDelete, ⟨⟨[114]⟩, ⟨[1]⟩, ⟨[2]⟩, 3⟩)]) :
    ∃ before d, w.acked = before ++ [d] ∧ d.Deletes ⟨[114]⟩ ⟨[1]⟩ := by
  obtain ⟨first, rest, split, -, later⟩ := List.map_eq_cons_iff.mp acks
  obtain ⟨second, rest, rfl, -, later⟩ := List.map_eq_cons_iff.mp later
  obtain ⟨d, rest, rfl, shape, nothing⟩ := List.map_eq_cons_iff.mp later
  obtain rfl := List.map_eq_nil_iff.mp nothing
  obtain ⟨deletes, tombstone⟩ := Prod.mk.inj shape
  refine ⟨[first, second], d, split, deletes, ?_⟩
  rw [tombstone]
  exact ⟨rfl, by decide, by decide⟩

theorem range_deletes_hold_kept :
    ∃ w₀ w s, step (sampleEnv 1000) {} (.openEngine 0 none) = some w₀ ∧
      exec (step (sampleEnv 1000)) w₀ (deleteRun false) = some w ∧
      w.engine = some s ∧ s.Unseen ⟨[114]⟩ ⟨[1]⟩ := by
  have plain : Plain {} (.openEngine 0 none) := by decide +kernel
  have opens : (step (sampleEnv 1000) {} (.openEngine 0 none)).map
      (fun w => (w.engine.isSome, w.acked.length)) = some (true, 0) := by
    decide +kernel
  obtain ⟨w₀, taken, summary⟩ := Option.map_eq_some_iff.mp opens
  obtain ⟨active, fresh⟩ := Prod.mk.inj summary
  obtain ⟨s₀, active⟩ := Option.isSome_iff_exists.mp active
  have numbered : s₀.Numbered := by
    have sound : Stored.Sound (sampleEnv 1000) {} := (ready_empty (sampleEnv 1000)).stored rfl
    simp only [step] at taken
    split at taken
    · cases (Option.some.inj taken)
      cases active
    · rename_i s st opened
      cases (Option.some.inj taken)
      cases active
      rcases Engine.openStored_spec sound plain opened with ⟨err, failed, -⟩ | ⟨t, same, opened⟩
      · cases failed
      · obtain rfl := Except.ok.inj same
        refine opened_numbered opened ?_
        rintro e ⟨path, entries, found, -⟩
        cases found
  have admitted : Admits (step (sampleEnv 1000)) (fun w a => a.isCrash = false ∧ Keeps w a) {}
      (.openEngine 0 none :: deleteRun false) := by decide +kernel
  have ends : (exec (step (sampleEnv 1000)) {} (.openEngine 0 none :: deleteRun false)).map (fun w =>
      (w.engine.isSome, w.acked.map fun a => (a.entry.entryType, Memtable.tombstoneOf a.entry))) =
        some (true, [(.put, ⟨⟨[114]⟩, ⟨[]⟩, ⟨[1]⟩, 1⟩), (.put, ⟨⟨[114]⟩, ⟨[]⟩, ⟨[1]⟩, 2⟩),
          (.rangeDelete, ⟨⟨[114]⟩, ⟨[1]⟩, ⟨[2]⟩, 3⟩)]) := by decide +kernel
  obtain ⟨w, whole, summary⟩ := Option.map_eq_some_iff.mp ends
  obtain ⟨held, acks⟩ := Prod.mk.inj summary
  obtain ⟨s, held⟩ := Option.isSome_iff_exists.mp held
  obtain ⟨mid, taken', run⟩ := exec_cons whole
  obtain rfl := Option.some.inj (taken.symm.trans taken')
  obtain ⟨before, d, split, deletes⟩ := deleteRun_acked acks
  exact ⟨w₀, w, s, taken, run, held, range_deletes_hold active numbered (List.length_eq_zero_iff.mp fresh)
    (admitted.2 w₀ taken) run held split deletes (by decide) (fun a member => by cases member)⟩

/-- The range delete fills the memtable. Its tombstone is flushed, and the deleted key is read
again. -/
theorem flushedDelete_seen :
    ∃ w s before d, exec (step (sampleEnv 1000)) {} (.openEngine 0 none :: deleteRun true) =
      some w ∧ w.engine = some s ∧
      w.acked = before ++ [d] ∧ d.Deletes ⟨[114]⟩ ⟨[1]⟩ ∧ ¬ s.Unseen ⟨[114]⟩ ⟨[1]⟩ := by
  have ends : (exec (step (sampleEnv 1000)) {} (.openEngine 0 none :: deleteRun true)).map (fun w =>
      (w.engine.map fun s => (s.get sampleReads {} ⟨[114]⟩ ⟨[1]⟩).toOption.map fun found =>
        found.map GetResult.value,
        w.acked.map fun a => (a.entry.entryType, Memtable.tombstoneOf a.entry))) =
        some (some (some (some ⟨[1]⟩)), [(.put, ⟨⟨[114]⟩, ⟨[]⟩, ⟨[1]⟩, 1⟩), (.put, ⟨⟨[114]⟩, ⟨[]⟩, ⟨[1]⟩, 2⟩),
          (.rangeDelete, ⟨⟨[114]⟩, ⟨[1]⟩, ⟨[2]⟩, 3⟩)]) := by decide +kernel
  obtain ⟨w, run, summary⟩ := Option.map_eq_some_iff.mp ends
  obtain ⟨reads, acks⟩ := Prod.mk.inj summary
  obtain ⟨s, held, found⟩ := Option.map_eq_some_iff.mp reads
  obtain ⟨before, d, split, deletes⟩ := deleteRun_acked acks
  refine ⟨w, s, before, d, run, held, split, deletes, ?_⟩
  intro unseen
  obtain ⟨result, read, value⟩ := Option.map_eq_some_iff.mp found
  cases answer : s.get sampleReads {} ⟨[114]⟩ ⟨[1]⟩ with
  | error err =>
    rw [answer] at read
    cases read
  | ok result' =>
    rw [answer] at read
    obtain rfl := Option.some.inj read
    rw [unseen.get _ _ _ answer] at value
    cases value

end Example

end World

end FlushDB
