import FlushDB.Engine.Reach

/-!
The calls of one session, for invariants that hold between its calls: what an append, the insertion
of an entry, a flush and a compaction keep, every call keeps. A batch may freeze and flush the
memtable after any of its entries.
-/

namespace FlushDB
open Lib ManifestBucket

namespace Engine

/-- `logged` holds while a write has logged its entries and not yet inserted one. `fresh` is what
the origins of new entries have, and `timely` what is asked of the moment at which a write reads the
segment number. -/
structure Keeps (env : Env) (d : Draws) (fresh : Nat → Prop) (timely : Engine → Bool → Prop)
    (logged idle : Engine → Prop) :
    Prop where
  append : ∀ s t entries late, Ready env s → idle s → (∀ e ∈ entries, fresh e.origin) →
    timely s late →
    appendWal env entries late s = .ok t → logged t
  number : ∀ s next, logged s → logged { s with nextSequence := next }
  insert : ∀ s entry, Ready env s → fresh entry.origin → logged s →
    idle { s with memtableList := { s.memtableList with active := insertAssigned s.memtableList.active entry } }
  weaken : ∀ s, idle s → logged s
  flush : ∀ s s' due draw r, Ready env s → idle s → (due = true → s.nodes ≠ []) → d.flush draw →
    MayFlush env due draw r s s' → idle s'
  compact : ∀ s s', idle s → Compacted env s s' → idle s'

section
variable {env : Env} {d : Draws} {fresh : Nat → Prop} {timely : Engine → Bool → Prop}
  {logged idle : Engine → Prop}

/-- An entry that gets its number from the memtable. -/
theorem insert_assigned {l : MemtableList} {entry : MemtableEntry}
    (opened : l.active.frozen = false) (unknown : l.knows entry.idempotencyKey = false) :
    l.insert entry = .ok (l.active.nextSequenceNumber,
      { l with active := insertAssigned l.active { entry with sequenceNumber := l.active.nextSequenceNumber } }) := by
  rw [MemtableList.insert_ok opened unknown]
  simp [insertAssigned]

theorem mem_insertAssigned (m : Memtable) (entry : MemtableEntry) :
    entry ∈ (insertAssigned m entry).skiplist.nodes :=
  SkipList.mem_insertNode_self _ _

theorem Keeps.writeEntry (keeps : Keeps env d fresh timely logged idle) {s : Engine}
    (ready : Ready env s) (start : idle s) {entry : MemtableEntry} {draw : WriteDraw}
    (unknown : s.memtableList.knows entry.idempotencyKey = false) (new : fresh entry.origin)
    (allowed : d.flush draw.flush) (inTime : timely s draw.late) :
    idle (writeEntry env entry draw s).2 := by
  obtain ⟨u, appended, frame, -⟩ := appendWal_spec ready [entry] draw.late
  have ready_u := appendWal_ready ready appended (u.nextSequence + 1)
  have kept : logged { u with nextSequence := u.nextSequence + 1 } := by
    apply keeps.number
    refine keeps.append s u [entry] draw.late ready start ?_ inTime appended
    intro e member
    rw [List.mem_singleton.mp member]
    exact new
  have list : u.memtableList = s.memtableList := by rw [frame]
  have inserted := @insert_assigned u.memtableList entry ready_u.activeOpen (list ▸ unknown)
  have ready_t := ready_u.inserted { entry with sequenceNumber := u.memtableNext }
  have idle_t := keeps.insert _ { entry with sequenceNumber := u.memtableNext } ready_u new kept
  unfold Engine.writeEntry
  rw [appended]
  dsimp only
  rw [inserted]
  dsimp only
  generalize rolls : maybeFreezeAndFlush env draw.freeze draw.flush _ = result
  obtain ⟨r, t⟩ := result
  have flushed : idle t := by
    refine keeps.flush _ _ _ _ _ ready_t idle_t ?_ allowed (maybeFreezeAndFlush_mayFlush rolls)
    exact fun _ => List.ne_nil_of_mem (mem_insertAssigned _ _)
  cases r with
  | error e => exact flushed
  | ok done => exact flushed

theorem Keeps.writePrepared (keeps : Keeps env d fresh timely logged idle) {s : Engine}
    (ready : Ready env s) (start : idle s) {prepared : FlushResult MemtableEntry} {draw : WriteDraw}
    (good : ∀ entry, prepared = .ok entry → fresh entry.origin ∧
      s.memtableList.knows entry.idempotencyKey = false)
    (allowed : d.flush draw.flush) (inTime : timely s draw.late) :
    idle (writePrepared env prepared draw s).2 := by
  cases prepared with
  | error e => exact start
  | ok entry =>
    obtain ⟨new, unknown⟩ := good entry rfl
    exact keeps.writeEntry ready start unknown new allowed inTime

theorem Keeps.insertBatch (keeps : Keeps env d fresh timely logged idle)
    (unique : Function.Injective env.ulid) {draws : Nat → ItemDraw} {entries : List MemtableEntry}
    {s s' : Engine} {r : FlushResult Unit} (ready : Ready env s) (pending : logged s)
    (done : entries = [] → idle s) (new : ∀ e ∈ entries, fresh e.origin)
    (allowed : ∀ i j, d.flush ((draws i).flush j)) (h : insertBatch env draws entries s = (r, s')) :
    idle s' := by
  induction entries generalizing s with
  | nil =>
    obtain ⟨-, rfl⟩ := Prod.mk.inj h
    exact done rfl
  | cons entry rest ih =>
    have ready_t := ready.inserted entry
    have idle_t := keeps.insert s entry ready (new entry List.mem_cons_self) pending
    rw [Engine.insertBatch] at h
    simp only [insertPrechecked_ok ready.activeOpen] at h
    have enforced : ∀ {r' t}, enforceBatchMemtableLimits env (draws rest.length) { s with
        memtableList := { s.memtableList with active := insertAssigned s.memtableList.active entry } } = (r', t) →
        Ready env t ∧ idle t := by
      intro r' t limits
      have flushes := enforce_mayFlush ready_t.noneFrozen limits
      have nonempty : (insertAssigned s.memtableList.active entry).skiplist.nodes ≠ [] :=
        List.ne_nil_of_mem (mem_insertAssigned _ _)
      refine ⟨(@MayFlush.rolled env unique _ true _ _ _ _ flushes ready_t (fun _ => nonempty)
        fun _ _ => rfl).1, ?_⟩
      exact keeps.flush _ _ _ _ _ ready_t idle_t (fun _ => nonempty) (allowed _ _) flushes
    split at h
    · rename_i e t limits
      obtain ⟨-, rfl⟩ := Prod.mk.inj h
      exact (enforced limits).2
    · rename_i t limits
      obtain ⟨ready', idle'⟩ := enforced limits
      exact ih ready' (keeps.weaken t idle') (fun _ => idle')
        (fun e member => new e (List.mem_cons_of_mem _ member)) h

theorem Keeps.putBatch (keeps : Keeps env d fresh timely logged idle)
    (unique : Function.Injective env.ulid) {s : Engine} (ready : Ready env s) (start : idle s)
    (origin : Nat) (recordId : Bytes) (items : List PutBatchItem) (pressured late : Bool)
    (draws : Nat → ItemDraw)
    (new : ∀ entries, prepareBatch env origin recordId items pressured s = .ok entries →
      ∀ e ∈ entries, fresh e.origin)
    (allowed : ∀ i j, d.flush ((draws i).flush j)) (inTime : timely s late) :
    idle (putBatch env origin recordId items pressured late draws s).2 := by
  unfold Engine.putBatch
  split
  · exact start
  · exact start
  rename_i first rest made
  obtain ⟨t, appended, -⟩ := appendWal_spec ready (first :: rest) late
  rw [appended]
  have ready_t := appendWal_ready ready appended (t.nextSequence + (first :: rest).length)
  have kept := keeps.number t (t.nextSequence + (first :: rest).length)
    (keeps.append s t (first :: rest) late ready start (new _ made) inTime appended)
  dsimp only
  generalize inserts : Engine.insertBatch env draws (first :: rest) _ = result
  obtain ⟨r, u⟩ := result
  have nonempty : first :: rest ≠ [] := List.cons_ne_nil _ _
  have left := keeps.insertBatch unique ready_t kept (fun empty => absurd empty nonempty)
    (new _ made) allowed inserts
  cases r with
  | error e => exact left
  | ok done => exact left

end

end Engine

namespace World

/-- The segment number is read after the loop has rotated. -/
def Label.late : Label → Bool
  | .put _ _ _ _ _ draw | .delete _ _ draw | .deleteRange _ _ _ draw => draw.late
  | .putBatch _ _ _ late _ => late
  | .openEngine _ _ | .maybeFlush _ | .runMaintenance _ _ | .maybeCompact _ | .close _ | .crash _ =>
    false

/-- A call of the open engine. -/
def Label.isCall : Label → Bool
  | .openEngine _ _ | .crash _ => false
  | _ => true

section
variable {env : Env} {d : Engine.Draws} {fresh : Nat → Prop} {timely : Engine → Bool → Prop}
  {logged idle : Engine → Prop}

theorem call_keeps (keeps : Engine.Keeps env d fresh timely logged idle)
    (unique : Function.Injective env.ulid) {w w' : World} {a : Label} {s : Engine} (call : a.isCall)
    (active : w.engine = some s) (ready : s.Ready env) (start : idle s)
    (new : ∀ e ∈ prepared env w s a, fresh e.origin) (within : a.Within d)
    (inTime : timely s a.late) (taken : step env w a = some w') :
    ∃ s', w'.engine = some s' ∧ idle s' := by
  have maintained : ∀ due draw r s', d.flush draw → (due = true → s.nodes ≠ []) →
      Engine.MayFlush env due draw r s s' → idle s' :=
    fun due draw r s' allowed nonempty flushes =>
      keeps.flush s s' due draw r ready start nonempty allowed flushes
  -- the entry of a write is the one that was prepared
  have prepares : ∀ {result : FlushResult MemtableEntry},
      prepared env w s a = result.toOption.toList →
      ∀ entry, result = .ok entry → fresh entry.origin := by
    rintro result same entry rfl
    apply new entry
    rw [same]
    exact List.mem_singleton_self _
  cases a with
  | openEngine nowMs fault => cases call
  | crash torn => cases call
  | put recordId itemKey value metadata token draw =>
    simp only [step, active, Option.map_some, Option.some.injEq] at taken
    subst taken
    refine ⟨_, rfl, keeps.writePrepared ready start ?_ within inTime⟩
    intro entry made
    obtain ⟨compositeKey, -, unknown, same⟩ := preparePut_ok made
    exact ⟨prepares rfl entry made, by rw [same]; exact unknown⟩
  | putBatch recordId items pressured late draws =>
    simp only [step, active, Option.map_some, Option.some.injEq] at taken
    subst taken
    refine ⟨_, rfl, keeps.putBatch unique ready start w.writes recordId items pressured late draws
      ?_ within inTime⟩
    intro entries made e member
    apply new e
    simp only [prepared, made]
    exact member
  | delete recordId itemKey draw =>
    simp only [step, active, Option.map_some, Option.some.injEq] at taken
    subst taken
    refine ⟨_, rfl, keeps.writePrepared ready start ?_ within inTime⟩
    intro entry made
    obtain ⟨compositeKey, -, same⟩ := prepareDelete_ok made
    exact ⟨prepares rfl entry made, by rw [same]; exact knows_none _⟩
  | deleteRange recordId startKey endKey draw =>
    simp only [step, active, Option.map_some, Option.some.injEq] at taken
    subst taken
    refine ⟨_, rfl, keeps.writePrepared ready start ?_ within inTime⟩
    intro entry made
    obtain ⟨compositeKey, -, same⟩ := prepareDeleteRange_ok made
    exact ⟨prepares rfl entry made, by rw [same]; exact knows_none _⟩
  | maybeFlush draw =>
    simp only [step, active, Option.map_some, Option.some.injEq] at taken
    subst taken
    have nothing : Engine.maybeFlush env draw s = (.ok (), s) := by
      simp [Engine.maybeFlush, MemtableList.hasFrozen, ready.noneFrozen]
    exact ⟨_, rfl, by rw [nothing]; exact start⟩
  | runMaintenance aged draw =>
    simp only [step, active, Option.map_some, Option.some.injEq] at taken
    subst taken
    refine ⟨_, rfl, maintained _ _ _ _ (within 0) ?_ (Engine.runMaintenance_mayFlush ready.noneFrozen rfl)⟩
    exact fun due => Engine.nonempty_of_count (of_decide_eq_true (Bool.and_eq_true_iff.mp due).1)
  | maybeCompact draw =>
    simp only [step, active, Option.map_some, Option.some.injEq] at taken
    subst taken
    refine ⟨_, rfl, keeps.compact s _ start ?_⟩
    exact Engine.maybeCompact_compacted unique ready.toSound ready.latest
      (show Engine.maybeCompact env draw s = (_, _) from rfl)
  | close draw =>
    simp only [step, active, Option.map_some, Option.some.injEq] at taken
    subst taken
    refine ⟨_, rfl, maintained _ _ _ _ (within 0) ?_ (Engine.close_mayFlush ready.noneFrozen rfl)⟩
    exact fun due => Engine.nonempty_of_count (of_decide_eq_true due)

end

end World

end FlushDB
