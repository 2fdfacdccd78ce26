import FlushDB.Engine.Session

/-!
The calls of an open engine as chains of changes: an entry is inserted, the memtable becomes a table
or is dropped, the due compactions run, or only the log and the counters change. The entries that a
call inserts can be read off its chain.
-/

namespace FlushDB
open Lib ManifestBucket

namespace Engine

/-- One change, and the entries that it inserts. -/
inductive Change (env : Env) (s : Engine) : List MemtableEntry → Engine → Prop
  | aside {t : Engine}
      (frame : t = { s with wal := t.wal, walManager := t.walManager,
                            nextSequence := t.nextSequence, levels := t.levels }) :
      Change env s [] t
  | inserted (entry : MemtableEntry) :
      Change env s [entry]
        { s with memtableList := { s.memtableList with active := insertAssigned s.memtableList.active entry } }
  | committed {draw : FlushDraw} {table : SSTableMeta} {t : Engine} (nonempty : s.nodes ≠ [])
      (flushed : flush env { s.memtableList.active with frozen := true } draw s.popped =
        (.ok table, t)) : Change env s [] t
  | dropped {draw : FlushDraw} {e : FlushError} {t : Engine} (nonempty : s.nodes ≠ [])
      (failed : flush env { s.memtableList.active with frozen := true } draw s.popped = (.error e, t)) :
      Change env s [] { t with dropped := true }
  | compacted {draw : Nat → CompactionDraw} {r : FlushResult Unit} {t : Engine}
      (compacts : maybeCompact env draw s = (r, t)) :
      Change env s [] t

/-- A chain of changes through states that are ready, and all entries that it inserts. -/
inductive Changes (env : Env) : Engine → List MemtableEntry → Engine → Prop
  | refl {s : Engine} : Changes env s [] s
  | head {s t u : Engine} {new more : List MemtableEntry} (change : Change env s new t)
      (ready : Ready env t)
      (rest : Changes env t more u) : Changes env s (new ++ more) u

section
variable {env : Env} {s t u : Engine} {new more : List MemtableEntry}

theorem Changes.single (change : Change env s new t) (ready : Ready env t) :
    Changes env s new t := by
  have chain := Changes.head change ready .refl
  rwa [List.append_nil] at chain

theorem Changes.quiet (change : Change env s [] t) (ready : Ready env t)
    (rest : Changes env t more u) : Changes env s more u :=
  .head change ready rest

theorem Changes.trans (first : Changes env s new t) (second : Changes env t more u) :
    Changes env s (new ++ more) u := by
  induction first with
  | refl => exact second
  | head change ready rest ih =>
    rw [List.append_assoc]
    exact .head change ready (ih second)

/-- What every change keeps, a chain keeps. -/
theorem Changes.keeps {P : Engine → Prop}
    (keeps : ∀ s t new, Ready env s → Ready env t → Change env s new t → P s → P t)
    (h : Changes env s new t) (ready : Ready env s) (start : P s) : P t := by
  induction h with
  | refl => exact start
  | head change ready' rest ih => exact ih ready' (keeps _ _ _ ready ready' change start)

theorem finishFlush_changes (unique : Function.Injective env.ulid) {generation : Nat}
    {table : SSTableMeta} {draw : FlushDraw} {r : FlushResult Unit} (ready : Ready env s)
    (h : finishFlush env generation table draw s = (r, t)) : Changes env s [] t := by
  obtain ⟨removed, v, cleans, rfl | ⟨handle, compacts⟩⟩ := finishFlush_cases h
  · have cleaned := cleanupSegments_cleaned ready.ordered ready.opened cleans
    refine .single (.aside ?_) (cleaned.ready ready)
    rw [cleaned.frame]
  · have cleaned := cleanupSegments_cleaned ready.ordered ready.opened cleans
    have ready_v : Ready env { v with levels := pushHandle handle v.levels } :=
      ready.of_memtableList (by rw [cleaned.frame]) (by
        have sound := cleaned.sound ready.toSound
        exact ⟨sound.keyed, sound.ordered, sound.shelf⟩) (cleaned.latest ready.latest) (by
        show v.walManager.writer.Open v.wal
        rw [cleaned.writer]
        exact cleaned.opened)
    have after := (maybeCompact_compacted unique ready_v.toSound ready_v.latest compacts).ready ready_v
    refine .quiet (.aside ?_) ready_v (.single (.compacted compacts) after)
    rw [cleaned.frame]

/-- A flush drops the memtable, or commits it and finishes. -/
theorem MayFlush.changes (unique : Function.Injective env.ulid) {due : Bool} {draw : FlushDraw}
    {r : FlushResult Unit} (h : MayFlush env due draw r s t) (ready : Ready env s)
    (nonempty : due = true → s.nodes ≠ []) : Changes env s [] t := by
  rcases h with ⟨rfl, -⟩ | ⟨dueNow, f, froze, flushed⟩
  · exact .refl
  · have held := nonempty dueNow
    rw [flushFrozen_frozen ready.noneFrozen froze] at flushed
    have popped := popped_ready ready
    generalize flushes : flush env { s.memtableList.active with frozen := true } draw s.popped =
      left at flushed
    obtain ⟨result, v⟩ := left
    have ready_v := (flush_outcome unique popped.toSound popped.latest held flushes).ready popped
    cases result with
    | error e =>
      cases flushed
      exact .single (.dropped held flushes)
        ⟨ready_v.toSound, ready_v.latest, ready_v.opened, ready_v.noneFrozen, ready_v.activeOpen,
          ready_v.below⟩
    | ok table =>
      exact .quiet (.committed held flushes) ready_v (finishFlush_changes unique ready_v flushed)

/-- A logged append is followed by counters only. -/
theorem appendWal_change (ready : Ready env s) {entries : List MemtableEntry} {late : Bool}
    (appended : appendWal env entries late s = .ok t) (next : Nat) :
    Change env s [] { t with nextSequence := next } ∧
      Ready env { t with nextSequence := next } := by
  obtain ⟨v, again, frame, -⟩ := appendWal_spec ready entries late
  obtain rfl := Except.ok.inj (again.symm.trans appended)
  refine ⟨.aside ?_, appendWal_ready ready appended next⟩
  rw [frame]

theorem insert_change (ready : Ready env s) (entry : MemtableEntry) : Changes env s [entry]
    { s with memtableList := { s.memtableList with active := insertAssigned s.memtableList.active entry } } :=
  .single (.inserted entry) (ready.inserted entry)

/-- A single write gets its number from the memtable. -/
theorem writeEntry_changes (unique : Function.Injective env.ulid) (ready : Ready env s)
    {entry : MemtableEntry} {draw : WriteDraw}
    (unknown : s.memtableList.knows entry.idempotencyKey = false) :
    Changes env s [{ entry with sequenceNumber := s.memtableNext }]
      (writeEntry env entry draw s).2 := by
  obtain ⟨v, appended, frame, -⟩ := appendWal_spec ready [entry] draw.late
  obtain ⟨change, ready_v⟩ := appendWal_change ready appended (v.nextSequence + 1)
  have list : v.memtableList = s.memtableList := by rw [frame]
  have number : s.memtableNext = v.memtableNext := by rw [memtableNext, memtableNext, list]
  have inserted := @insert_assigned v.memtableList entry ready_v.activeOpen (list ▸ unknown)
  have ready_t := ready_v.inserted { entry with sequenceNumber := v.memtableNext }
  have inserts := insert_change ready_v { entry with sequenceNumber := v.memtableNext }
  unfold writeEntry
  rw [appended]
  dsimp only
  rw [inserted]
  dsimp only
  generalize rolls : maybeFreezeAndFlush env draw.freeze draw.flush _ = result
  obtain ⟨r, w⟩ := result
  have flushes := (maybeFreezeAndFlush_mayFlush rolls).changes unique ready_t fun _ =>
    List.ne_nil_of_mem (mem_insertAssigned _ _)
  rw [number]
  have whole : Changes env s [{ entry with sequenceNumber := v.memtableNext }] w :=
    .head change ready_v (inserts.trans flushes)
  cases r with
  | error e => exact whole
  | ok done => exact whole

/-- A batch inserts a first part of its entries, and all where only the last may freeze the
memtable. -/
theorem insertBatch_changes (unique : Function.Injective env.ulid) {draws : Nat → ItemDraw}
    {entries : List MemtableEntry} {r : FlushResult Unit} (ready : Ready env s)
    (h : insertBatch env draws entries s = (r, t)) :
    ∃ done, done <+: entries ∧ Changes env s done t ∧
      ((∀ i < entries.length, 0 < i → (draws i).freeze = false) → done = entries) := by
  induction entries generalizing s with
  | nil =>
    cases h
    exact ⟨[], List.prefix_refl _, .refl, fun _ => rfl⟩
  | cons entry rest ih =>
    have ready_v := ready.inserted entry
    have inserts := insert_change ready entry
    rw [insertBatch] at h
    simp only [insertPrechecked_ok ready.activeOpen] at h
    generalize limits : enforceBatchMemtableLimits env (draws rest.length) { s with
        memtableList := { s.memtableList with active := insertAssigned s.memtableList.active entry } } = left at h
    obtain ⟨result, w⟩ := left
    have flushes := enforce_mayFlush ready_v.noneFrozen limits
    have nonempty : (insertAssigned s.memtableList.active entry).skiplist.nodes ≠ [] :=
      List.ne_nil_of_mem (mem_insertAssigned _ _)
    have ready_w := (@MayFlush.rolled env unique _ true _ _ _ _ flushes ready_v (fun _ => nonempty)
      fun _ _ => rfl).1
    have first : Changes env s [entry] w := inserts.trans
      (flushes.changes unique ready_v fun _ => nonempty)
    cases result with
    | error e =>
      cases h
      refine ⟨[entry], List.prefix_append [entry] rest, first, ?_⟩
      intro whole
      cases rest with
      | nil => rfl
      | cons second others =>
        -- nothing is due after an entry that is not the last
        have idle := @enforce_idle env { s with
          memtableList := { s.memtableList with
            active := insertAssigned s.memtableList.active entry } } ready_v.noneFrozen _
          (whole (second :: others).length (Nat.lt_succ_self _) (Nat.succ_pos _))
        rw [idle] at limits
        cases limits
    | ok done =>
      obtain ⟨later, part, chain, all⟩ := ih ready_w h
      refine ⟨entry :: later, List.cons_prefix_cons.mpr ⟨rfl, part⟩, first.trans chain, ?_⟩
      intro whole
      rw [all fun i bound => whole i (Nat.lt_succ_of_lt bound)]

theorem putBatch_changes (unique : Function.Injective env.ulid) (ready : Ready env s) (origin : Nat)
    (recordId : Bytes) (items : List PutBatchItem) (pressured late : Bool)
    (draws : Nat → ItemDraw) :
    ∃ done, done <+: ((prepareBatch env origin recordId items pressured s).toOption).getD [] ∧
      Changes env s done (putBatch env origin recordId items pressured late draws s).2 ∧
      ((∀ i < items.length, 0 < i → (draws i).freeze = false) →
        done = ((prepareBatch env origin recordId items pressured s).toOption).getD []) := by
  cases made : prepareBatch env origin recordId items pressured s with
  | error e =>
    refine ⟨[], List.nil_prefix, ?_, fun _ => rfl⟩
    unfold putBatch
    rw [made]
    exact .refl
  | ok entries =>
    obtain ⟨-, -, few⟩ := prepareBatch_numbers made
    cases entries with
    | nil =>
      refine ⟨[], List.nil_prefix, ?_, fun _ => rfl⟩
      unfold putBatch
      rw [made]
      exact .refl
    | cons first rest =>
      obtain ⟨v, appended, -⟩ := appendWal_spec ready (first :: rest) late
      obtain ⟨change, ready_v⟩ := appendWal_change ready appended
        (v.nextSequence + (first :: rest).length)
      generalize inserts : insertBatch env draws (first :: rest)
        { v with nextSequence := v.nextSequence + (first :: rest).length } = result
      obtain ⟨r, w⟩ := result
      obtain ⟨done, part, chain, all⟩ := insertBatch_changes unique ready_v inserts
      refine ⟨done, part, ?_, fun whole => all fun i bound => whole i (bound.trans_le few)⟩
      have left : (putBatch env origin recordId items pressured late draws s).2 = w := by
        unfold putBatch
        rw [made]
        dsimp only
        rw [appended]
        dsimp only
        rw [inserts]
        cases r <;> rfl
      rw [left]
      exact .quiet change ready_v chain

end

end Engine

namespace World
open Engine
variable {env : Env} {w w' : World} {a : Label} {s : Engine}

/-- The entries of the call as they stand in the memtable: a single write is numbered by the
memtable. -/
def placed (env : Env) (w : World) (s : Engine) (a : Label) : List MemtableEntry :=
  if a.isBatch then prepared env w s a else renumber s.memtableNext (prepared env w s a)

theorem writePrepared_changes (unique : Function.Injective env.ulid) (ready : s.Ready env)
    {result : FlushResult MemtableEntry} (single : a.isBatch = false)
    (made : prepared env w s a = result.toOption.toList) {draw : WriteDraw}
    (unknown : ∀ entry, result = .ok entry → s.memtableList.knows entry.idempotencyKey = false) :
    Changes env s (placed env w s a) (writePrepared env result draw s).2 := by
  rw [placed, single, if_neg Bool.false_ne_true, made]
  cases result with
  | error e => exact .refl
  | ok entry => exact writeEntry_changes unique ready (unknown entry rfl)

/-- Calls are made of an open engine. -/
theorem call_active (call : a.isCall) (taken : step env w a = some w') :
    ∃ s, w.engine = some s := by
  cases active : w.engine with
  | some s => exact ⟨s, rfl⟩
  | none =>
    cases a with
    | openEngine | crash => cases call
    | _ =>
      simp only [step, active, Option.map_none] at taken
      cases taken

/-- A write that is refused leaves everything as it was. -/
theorem write_refused (write : a.isWrite = true) (active : w.engine = some s)
    (nothing : prepared env w s a = []) (taken : step env w a = some w') : w' = w := by
  have single : ∀ {result : FlushResult MemtableEntry} {draw : WriteDraw},
      result.toOption.toList = [] →
      w.wrote s [] ((Engine.writePrepared env result draw s).1.map some)
        (Engine.writePrepared env result draw s).2 = w := by
    intro result draw empty
    cases result with
    | error e => exact wrote_nothing active _
    | ok entry => cases empty
  cases a with
  | openEngine | crash | maybeFlush | runMaintenance | maybeCompact | close => cases write
  | putBatch recordId items pressured late draws =>
    simp only [step, active, Option.map_some, Option.some.injEq] at taken
    rw [nothing] at taken
    subst taken
    have same : (Engine.putBatch env w.writes recordId items pressured late draws s).2 = s := by
      unfold Engine.putBatch
      cases made : Engine.prepareBatch env w.writes recordId items pressured s with
      | error e => rfl
      | ok entries =>
        have empty : entries = [] := by
          rw [prepared, made] at nothing
          exact nothing
        rw [empty]
    rw [same]
    exact wrote_nothing active _
  | _ =>
    simp only [step, active, Option.map_some, Option.some.injEq] at taken
    rw [nothing] at taken
    subst taken
    exact single nothing

/-- A call of the open engine is a chain of changes that inserts a first part of what the call has
prepared, and all of it where only the last entry of a batch may freeze the memtable. -/
theorem call_changes (unique : Function.Injective env.ulid) (call : a.isCall)
    (active : w.engine = some s) (ready : s.Ready env) (taken : step env w a = some w') :
    ∃ s' done, w'.engine = some s' ∧ s'.Ready env ∧ done <+: placed env w s a ∧
      Changes env s done s' ∧
      (Plain w a → done = placed env w s a) := by
  have after : ∀ {s' : Engine} {done : List MemtableEntry}, Changes env s done s' → s'.Ready env :=
    fun chain => chain.keeps (P := Engine.Ready env) (fun _ _ _ _ ready' _ _ => ready') ready ready
  have whole : ∀ {s' : Engine}, w'.engine = some s' → Changes env s (placed env w s a) s' →
      ∃ s' done, w'.engine = some s' ∧ s'.Ready env ∧ done <+: placed env w s a ∧
        Changes env s done s' ∧
        (Plain w a → done = placed env w s a) :=
    fun engine chain => ⟨_, _, engine, after chain, List.prefix_refl _, chain, fun _ => rfl⟩
  have maintained : ∀ {due : Bool} {draw : FlushDraw} {r : FlushResult Unit} {s' : Engine},
      w'.engine = some s' →
      placed env w s a = [] → MayFlush env due draw r s s' → (due = true → s.nodes ≠ []) →
      ∃ s' done, w'.engine = some s' ∧ s'.Ready env ∧ done <+: placed env w s a ∧
        Changes env s done s' ∧
        (Plain w a → done = placed env w s a) := by
    intro due draw r s' engine nothing flushes nonempty
    refine whole engine ?_
    rw [nothing]
    exact flushes.changes unique ready nonempty
  cases a with
  | openEngine nowMs fault => cases call
  | crash torn => cases call
  | put recordId itemKey value metadata token draw =>
    simp only [step, active, Option.map_some, Option.some.injEq] at taken
    subst taken
    refine whole rfl (writePrepared_changes unique ready rfl rfl ?_)
    intro entry made
    obtain ⟨compositeKey, -, unknown, same⟩ := preparePut_ok made
    rw [same]
    exact unknown
  | putBatch recordId items pressured late draws =>
    simp only [step, active, Option.map_some, Option.some.injEq] at taken
    subst taken
    obtain ⟨done, part, chain, all⟩ := putBatch_changes unique ready w.writes recordId items
      pressured late draws
    exact ⟨_, done, rfl, after chain, part, chain, all⟩
  | delete recordId itemKey draw =>
    simp only [step, active, Option.map_some, Option.some.injEq] at taken
    subst taken
    refine whole rfl (writePrepared_changes unique ready rfl rfl ?_)
    intro entry made
    obtain ⟨compositeKey, -, same⟩ := prepareDelete_ok made
    rw [same]
    exact knows_none _
  | deleteRange recordId startKey endKey draw =>
    simp only [step, active, Option.map_some, Option.some.injEq] at taken
    subst taken
    refine whole rfl (writePrepared_changes unique ready rfl rfl ?_)
    intro entry made
    obtain ⟨compositeKey, -, same⟩ := prepareDeleteRange_ok made
    rw [same]
    exact knows_none _
  | maybeFlush draw =>
    simp only [step, active, Option.map_some, Option.some.injEq] at taken
    subst taken
    have nothing : Engine.maybeFlush env draw s = (.ok (), s) := by
      simp [Engine.maybeFlush, MemtableList.hasFrozen, ready.noneFrozen]
    rw [nothing] at whole ⊢
    exact whole rfl .refl
  | runMaintenance aged draw =>
    simp only [step, active, Option.map_some, Option.some.injEq] at taken
    subst taken
    refine maintained rfl rfl (runMaintenance_mayFlush ready.noneFrozen rfl) ?_
    exact fun due => nonempty_of_count (of_decide_eq_true (Bool.and_eq_true_iff.mp due).1)
  | maybeCompact draw =>
    simp only [step, active, Option.map_some, Option.some.injEq] at taken
    subst taken
    have compacts : Engine.maybeCompact env draw s = (_, _) := (Prod.eta _).symm
    refine whole rfl (.single (.compacted compacts) ?_)
    exact (maybeCompact_compacted unique ready.toSound ready.latest compacts).ready ready
  | close draw =>
    simp only [step, active, Option.map_some, Option.some.injEq] at taken
    subst taken
    refine maintained rfl rfl (close_mayFlush ready.noneFrozen rfl) ?_
    exact fun due => nonempty_of_count (of_decide_eq_true due)

end World

end FlushDB
