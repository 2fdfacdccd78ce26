import FlushDB.Engine.Opening
import FlushDB.Engine.Writes

/-!
What one step of a run does, said once for all the invariants of runs.
-/

namespace FlushDB
open Lib ManifestBucket

/-- The entries under consecutive numbers from `first` on. -/
def renumber (first : Nat) (entries : List MemtableEntry) : List MemtableEntry :=
  entries.mapIdx fun i e => { e with sequenceNumber := first + i }

theorem renumber_self {entries : List MemtableEntry} {first : Nat}
    (numbers : entries.map MemtableEntry.sequenceNumber = List.range' first entries.length) :
    renumber first entries = entries := by
  refine List.ext_getElem (by simp [renumber]) ?_
  intro i _ bound
  have number : entries[i].sequenceNumber = first + i := by
    have same := congrArg (fun l => l[i]?) numbers
    simpa [List.getElem?_map, List.getElem?_range', bound] using same
  simp only [renumber, List.getElem_mapIdx]
  rw [← number]

theorem WalWriter.assign_eq (first : Nat) (entries : List WalEntry) :
    assign first entries = entries.mapIdx fun i e => { e with sequenceNumber := first + i } := by
  induction entries generalizing first with
  | nil => rfl
  | cons e rest ih =>
    rw [assign, ih, List.mapIdx_cons, Nat.add_zero]
    congr 2
    funext i e
    rw [Nat.add_assoc, Nat.add_comm 1]

theorem World.ackedFrom_eq (reported : Option Nat) (first : Nat) (entries : List MemtableEntry) :
    ackedFrom reported first entries = entries.mapIdx fun i e => ⟨e, first + i, reported⟩ := by
  induction entries generalizing first with
  | nil => rfl
  | cons e rest ih =>
    rw [ackedFrom, ih, List.mapIdx_cons, Nat.add_zero]
    congr 2
    funext i e
    rw [Nat.add_assoc, Nat.add_comm 1]

theorem World.named_eq (origin : Nat) (entries : List MemtableEntry) :
    named origin entries = entries.mapIdx fun i e => { e with origin := origin + i } := by
  induction entries generalizing origin with
  | nil => rfl
  | cons e rest ih =>
    rw [named, ih, List.mapIdx_cons, Nat.add_zero]
    congr 2
    funext i e
    rw [Nat.add_assoc, Nat.add_comm 1]

namespace Engine

/-- A version that the tables or the memtables hold. -/
def Stores (s : Engine) (c : MergeEntry) : Prop :=
  s.Copy c ∨ ∃ m ∈ s.memtableList.memtables, ∃ x ∈ m.skiplist.nodes,
    c = MergeEntry.fromMemtableEntry x

section Stores
variable {env : Env} {s t : Engine} {c : MergeEntry}

/-- Between two calls only the active memtable holds entries. -/
theorem Ready.stores_iff (h : s.Ready env) :
    s.Stores c ↔ s.Copy c ∨ ∃ x ∈ s.nodes, c = MergeEntry.fromMemtableEntry x := by
  simp [Stores, MemtableList.memtables, h.noneFrozen]

theorem nodes_reset {l : MemtableList}
    (list : s.memtableList = { l with active := { nextSequenceNumber := l.active.nextSequenceNumber } }) :
    s.nodes = [] ∧ s.memtableNext = l.active.nextSequenceNumber := by
  rw [nodes, memtableNext, list]
  exact ⟨rfl, rfl⟩

theorem Rolled.stores {commits : Bool} {r : FlushResult Unit} (h : Rolled commits r s t)
    (before : s.Ready env) (after : t.Ready env) (held : t.Stores c) : s.Stores c := by
  rcases h with rfl | ⟨dropped, -⟩ | ⟨committed, -⟩
  · exact held
  · rw [after.stores_iff, (nodes_reset dropped.memtableList).1] at held
    rcases held with copy | ⟨x, member, -⟩
    · exact before.stores_iff.mpr (Or.inl ((dropped.copies c).mp copy))
    · cases member
  · rw [after.stores_iff, (nodes_reset committed.memtableList).1] at held
    rcases held with copy | ⟨x, member, -⟩
    · exact before.stores_iff.mpr (committed.copies c copy)
    · cases member

theorem Compacted.stores (h : Compacted env s t) (held : t.Stores c) : s.Stores c := by
  have list : t.memtableList = s.memtableList := by rw [h.frame]
  unfold Stores at held ⊢
  rw [list] at held
  exact held.imp (h.copies c) id

theorem Wrote.copy_iff {entries kept : List MemtableEntry} (h : Wrote env entries kept s t) :
    t.Copy c ↔ s.Copy c := by
  rw [h.frame]
  exact Iff.rfl

theorem Wrote.stores {entries kept : List MemtableEntry} (h : Wrote env entries kept s t)
    (before : s.Ready env) (held : t.Stores c) :
    s.Stores c ∨ ∃ x ∈ kept, c = MergeEntry.fromMemtableEntry x := by
  rw [(h.ready before).stores_iff] at held
  rw [before.stores_iff]
  rcases held with copy | ⟨x, member, rfl⟩
  · exact Or.inl (Or.inl (h.copy_iff.mp copy))
  · rcases h.only x member with old | new
    · exact Or.inl (Or.inr ⟨x, old, rfl⟩)
    · exact Or.inr ⟨x, new, rfl⟩

/-- What rolls and compactions keep of the log. -/
theorem Rolled.holds {commits : Bool} {r : FlushResult Unit} (h : Rolled commits r s t)
    {e : WalEntry} (held : t.wal.Holds e) : s.wal.Holds e := by
  rcases h with rfl | ⟨dropped, -⟩ | ⟨committed, -⟩
  · exact held
  · exact dropped.wal ▸ held
  · exact committed.holds e held

theorem Rolled.counters {commits : Bool} {r : FlushResult Unit} (h : Rolled commits r s t) :
    t.walNext = s.walNext ∧ t.memtableNext = s.memtableNext ∧ t.nextSequence = s.nextSequence := by
  rcases h with rfl | ⟨dropped, -⟩ | ⟨committed, -⟩
  · exact ⟨rfl, rfl, rfl⟩
  · exact ⟨by rw [walNext, dropped.writer], (nodes_reset dropped.memtableList).2, dropped.nextSequence⟩
  · exact ⟨by rw [walNext, committed.writer], (nodes_reset committed.memtableList).2, committed.nextSequence⟩

theorem Rolled.compactions {commits : Bool} {r : FlushResult Unit} (h : Rolled commits r s t) :
    s.compactions ≤ t.compactions := by
  rcases h with rfl | ⟨dropped, -⟩ | ⟨committed, -⟩
  · exact le_refl _
  · exact dropped.compactions.ge
  · exact committed.compactions

theorem Compacted.unchanged (h : Compacted env s t) :
    t.wal = s.wal ∧ t.walNext = s.walNext ∧ t.memtableNext = s.memtableNext ∧
    t.nextSequence = s.nextSequence ∧ t.nodes = s.nodes := by
  rw [h.frame]
  exact ⟨rfl, rfl, rfl, rfl, rfl⟩

end Stores

end Engine

namespace World

/-- A version that the tables or the memtables hold. -/
def Stores (w : World) (c : MergeEntry) : Prop :=
  match w.engine with
  | some s => s.Stores c
  | none => w.stored.Copy c

namespace Label

/-- A flush is due after the call, and does not fail before its commit. -/
def commits : Label → Bool
  | .put _ _ _ _ _ draw | .delete _ _ draw | .deleteRange _ _ _ draw =>
    draw.freeze && !draw.flush.fails
  | .putBatch _ _ _ _ draws => (draws 0).freeze && !((draws 0).flush 0).fails
  | .runMaintenance aged draw => aged && !(draw 0).fails
  | .close draw => !(draw 0).fails
  | .openEngine _ _ | .maybeFlush _ | .maybeCompact _ | .crash _ => false

def isBatch : Label → Bool
  | .putBatch _ _ _ _ _ => true
  | _ => false

def isWrite : Label → Bool
  | .put _ _ _ _ _ _ | .putBatch _ _ _ _ _ | .delete _ _ _ | .deleteRange _ _ _ _ => true
  | .openEngine _ _ | .maybeFlush _ | .runMaintenance _ _ | .maybeCompact _ | .close _ | .crash _ =>
    false

end Label

section
variable (env : Env)

/-- An opening finds no token twice in the log that it replays, and a batch does not freeze the
memtable before its last entry. -/
def Plain (w : World) : Label → Prop
  | .openEngine _ _ => DistinctTokens w.stored.replayLog
  | .putBatch _ items _ _ draws => ∀ i < items.length, 0 < i → (draws i).freeze = false
  | _ => True

instance (w : World) : (a : Label) → Decidable (Plain w a)
  | .openEngine _ _ => inferInstanceAs (Decidable (DistinctTokens _))
  | .putBatch _ items _ _ draws =>
    inferInstanceAs (Decidable (∀ i < items.length, 0 < i → (draws i).freeze = false))
  | .put ..
  | .delete ..
  | .deleteRange .. | .maybeFlush _ | .runMaintenance .. | .maybeCompact _ | .close _ | .crash _ =>
    isTrue trivial

/-- The entries that a step may log fit their length prefixes, so that they can be read back. -/
def Fits (w : World) : Label → Prop
  | .crash torn => ∀ e ∈ torn, (WalEntry.fromMemtableEntry e (Bytes.ofString env.config.ns)).Fits
  | a =>
    ∀ s ∈ w.engine, ∀ e ∈ prepared env w s a,
      (WalEntry.fromMemtableEntry e (Bytes.ofString env.config.ns)).Fits

instance (w : World) : (a : Label) → Decidable (Fits env w a)
  | .crash torn => inferInstanceAs (Decidable (∀ e ∈ torn, (WalEntry.fromMemtableEntry e _).Fits))
  | .openEngine ..
  | .put .. | .putBatch .. | .delete .. | .deleteRange .. | .maybeFlush _ | .runMaintenance ..
  | .maybeCompact _ | .close _ =>
    inferInstanceAs (Decidable (∀ s ∈ w.engine, ∀ e ∈ prepared env w s _,
      (WalEntry.fromMemtableEntry e _).Fits))

structure Ready (w : World) : Prop where
  engine : ∀ s, w.engine = some s → s.Ready env
  stored : w.engine = none → w.stored.Sound env

/-- A call has logged `entries` and put them into the memtable under the numbers from `first` on:
those of the memtable, or for a batch those of the engine. -/
structure Written (a : Label) (w : World) (s : Engine) (entries : List MemtableEntry) (first : Nat)
    (t : Engine) : Prop where
  nonempty : entries ≠ []
  made : entries = prepared env w s a
  origins : entries.map MemtableEntry.origin = List.range' w.writes entries.length
  numbers : entries.map MemtableEntry.sequenceNumber = List.range' s.nextSequence entries.length
  wrote : s.Wrote env entries (renumber first entries) t
  memtableNext : t.memtableNext = max s.memtableNext (first + entries.length)
  place : first = s.memtableNext ∨ (a.isBatch = true ∧ first = s.nextSequence)

/-- What a step does. -/
inductive Effect (a : Label) (w : World) : World → Prop
  | idle : Effect a w w
  | reloaded {st : Stored} : w.engine = none → Reloaded w.stored st →
      Effect a w { w with stored := st }
  | opened {nowMs : Nat} {fault : Option OpenFault} {st : Stored} {s : Engine} :
      a = .openEngine nowMs fault →
    w.engine = none → s.Opened env w.stored → Effect a w { w with stored := st, engine := some s }
  | crashed {s : Engine} {wal : WalDir} {torn : List MemtableEntry} : w.engine = some s →
    (∀ e, wal.Holds e ↔ s.wal.Holds e ∨ e ∈ WalWriter.assign s.walNext
      (Engine.logged env (named w.writes torn))) →
    Effect a w { w with engine := none, stored := { s.toStored with wal },
                        writes := w.writes + torn.length }
  | rolled {s s' : Engine} {r : FlushResult Unit} : w.engine = some s → a.isWrite = false →
    Engine.Rolled a.commits r s s' → Effect a w { w with engine := some s' }
  | compacted {s s' : Engine} : w.engine = some s → Engine.Compacted env s s' →
      Effect a w { w with engine := some s' }
  | wrote {s t s' : Engine} {entries : List MemtableEntry} {first : Nat} {rolled : FlushResult Unit}
      {reported : Option Nat} :
    w.engine = some s → Written env a w s entries first t → Engine.Rolled a.commits rolled t s' →
    (reported = none ∨ (entries.length = 1 ∧ reported = some s.nextSequence)) →
    Effect a w (w.wrote s entries (rolled.map fun _ => reported) s')

end

section Inversion
variable {env : Env}

theorem ready_of_engine {w : World} {s : Engine} (active : w.engine = some s) (h : s.Ready env) :
    Ready env w := by
  refine ⟨?_, ?_⟩
  · intro t same
    obtain rfl := Option.some.inj (active.symm.trans same)
    exact h
  · intro closed
    rw [active] at closed
    cases closed

theorem wrote_nothing {w : World} {s : Engine} (active : w.engine = some s)
    (r : FlushResult (Option Nat)) :
    w.wrote s [] r s = w := by
  unfold wrote
  cases r with
  | error e => rw [← active]; rfl
  | ok reported =>
    rw [← active]
    simp [ackedFrom]

theorem write_effect (unique : Function.Injective env.ulid) {w : World} {s s' : Engine}
    (active : w.engine = some s) (ready : s.Ready env) {a : Label} {draw : WriteDraw}
    (commits : a.commits = (draw.freeze && !draw.flush.fails)) {entry : MemtableEntry}
    (made : prepared env w s a = [entry]) (origin : entry.origin = w.writes)
    (number : entry.sequenceNumber = s.nextSequence)
    (unknown : s.memtableList.knows entry.idempotencyKey = false) {r : FlushResult Nat}
    (h : Engine.writeEntry env entry draw s = (r, s')) :
    Effect env a w (w.wrote s [entry] (r.map some) s') ∧
      Ready env (w.wrote s [entry] (r.map some) s') := by
  obtain ⟨t, rolled, wrote, next, -, ready', rolls, rfl⟩ :=
    Engine.writeEntry_wrote unique ready unknown h
  have result : (rolled.map fun _ => entry.sequenceNumber).map some =
      rolled.map fun _ => some entry.sequenceNumber := by
    cases rolled <;> rfl
  rw [result]
  refine ⟨.wrote active
    ⟨by simp, made.symm, by simp [origin], by simp [number], wrote, ?_, Or.inl rfl⟩ (commits ▸ rolls)
    (Or.inr ⟨rfl, by rw [number]⟩), ready_of_engine rfl ready'⟩
  rw [next]
  exact (Nat.max_eq_right (Nat.le_succ _)).symm

theorem knows_none (l : MemtableList) : l.knows .none = false := by
  simp [MemtableList.knows, Memtable.checkDedup, IdempotencyToken.isNone]

theorem preparePut_ok {origin : Nat} {recordId itemKey value metadata : Bytes}
    {token : Option IdempotencyToken} {pressured : Bool} {s : Engine} {entry : MemtableEntry}
    (h : Engine.preparePut env origin recordId itemKey value metadata token pressured s = .ok entry) :
    ∃ compositeKey, CompositeKey.new recordId itemKey = .ok compositeKey ∧
      s.memtableList.knows (token.getD .none) = false ∧
      entry = ⟨compositeKey, value, metadata, token.getD .none, s.nextSequence, .put, origin⟩ := by
  unfold Engine.preparePut at h
  cases stall : Engine.checkWriteStall env pressured s with
  | error e => simp [stall, bind, Except.bind] at h
  | ok u =>
    cases key : CompositeKey.new recordId itemKey with
    | error e => simp [stall, key, bind, Except.bind] at h
    | ok compositeKey =>
      cases known : s.memtableList.checkDedup (token.getD .none) with
      | error e => simp [stall, key, known, bind, Except.bind] at h
      | ok v =>
        simp only [stall, key, known, bind, Except.bind, pure, Except.pure, Except.ok.injEq] at h
        refine ⟨compositeKey, rfl, ?_, h.symm⟩
        unfold MemtableList.checkDedup at known
        split at known
        · cases known
        · rename_i unknown
          exact Bool.eq_false_iff.mpr unknown

theorem prepareDelete_ok {origin : Nat} {recordId itemKey : Bytes} {pressured : Bool} {s : Engine}
    {entry : MemtableEntry}
    (h : Engine.prepareDelete env origin recordId itemKey pressured s = .ok entry) :
    ∃ compositeKey, CompositeKey.new recordId itemKey = .ok compositeKey ∧
      entry = ⟨compositeKey, .new, .new, .none, s.nextSequence, .delete, origin⟩ := by
  unfold Engine.prepareDelete at h
  cases stall : Engine.checkWriteStall env pressured s with
  | error e => simp [stall, bind, Except.bind] at h
  | ok u =>
    cases key : CompositeKey.new recordId itemKey with
    | error e => simp [stall, key, bind, Except.bind] at h
    | ok compositeKey =>
      simp only [stall, key, bind, Except.bind, pure, Except.pure, Except.ok.injEq] at h
      exact ⟨compositeKey, rfl, h.symm⟩

theorem prepareDeleteRange_ok {origin : Nat} {recordId startKey endKey : Bytes} {pressured : Bool}
    {s : Engine} {entry : MemtableEntry}
    (h : Engine.prepareDeleteRange env origin recordId startKey endKey pressured s = .ok entry) :
    ∃ compositeKey, CompositeKey.rangeTombstoneKey recordId startKey = .ok compositeKey ∧
      entry = ⟨compositeKey, endKey, .new, .none, s.nextSequence, .rangeDelete, origin⟩ := by
  unfold Engine.prepareDeleteRange at h
  cases stall : Engine.checkWriteStall env pressured s with
  | error e => simp [stall, bind, Except.bind] at h
  | ok u =>
    cases key : CompositeKey.rangeTombstoneKey recordId startKey with
    | error e => simp [stall, key, bind, Except.bind] at h
    | ok compositeKey =>
      simp only [stall, key, bind, Except.bind, pure, Except.pure, Except.ok.injEq] at h
      exact ⟨compositeKey, rfl, h.symm⟩

/-- `put`, `delete` and `delete_range`, from what their preparation guarantees. -/
theorem writePrepared_effect (unique : Function.Injective env.ulid) {w : World} {s : Engine}
    (active : w.engine = some s) (ready : s.Ready env) {a : Label} {draw : WriteDraw}
    (commits : a.commits = (draw.freeze && !draw.flush.fails)) {result : FlushResult MemtableEntry}
    (made : prepared env w s a = result.toOption.toList)
    (good : ∀ entry, result = .ok entry → entry.origin = w.writes ∧
      entry.sequenceNumber = s.nextSequence ∧ s.memtableList.knows entry.idempotencyKey = false)
    {w' : World}
    (h : w' = w.wrote s (prepared env w s a) ((Engine.writePrepared env result draw s).1.map some)
      (Engine.writePrepared env result draw s).2) :
    Effect env a w w' ∧ Ready env w' := by
  rw [made] at h
  cases result with
  | error e =>
    obtain rfl : w' = w := h.trans (wrote_nothing active _)
    exact ⟨.idle, ready_of_engine active ready⟩
  | ok entry =>
    obtain ⟨origin, number, unknown⟩ := good entry rfl
    rw [h]
    exact write_effect unique active ready commits made origin number unknown rfl

theorem putBatch_effect (unique : Function.Injective env.ulid) {w : World} {s : Engine}
    (active : w.engine = some s) (ready : s.Ready env) {recordId : Bytes}
    {items : List PutBatchItem} {pressured late : Bool} {draws : Nat → Engine.ItemDraw}
    (whole : ∀ i < items.length, 0 < i → (draws i).freeze = false) {w' : World}
    (h : step env w (.putBatch recordId items pressured late draws) = some w') :
    Effect env (.putBatch recordId items pressured late draws) w w' ∧ Ready env w' := by
  simp only [step, active, Option.map_some, Option.some.injEq] at h
  cases prepares : Engine.prepareBatch env w.writes recordId items pressured s with
  | error e =>
    have refused : Engine.putBatch env w.writes recordId items pressured late draws s =
        (.error e, s) := by
      simp only [Engine.putBatch, prepares]
    simp only [prepared, prepares, refused] at h
    obtain rfl : w' = w := h.symm.trans (wrote_nothing active _)
    exact ⟨.idle, ready_of_engine active ready⟩
  | ok entries =>
    have same : prepared env w s (.putBatch recordId items pressured late draws) = entries := by
      simp only [prepared, prepares]
      rfl
    cases left : entries with
    | nil =>
      have nothing : Engine.putBatch env w.writes recordId items pressured late draws s =
          (.ok 0, s) := by
        simp only [Engine.putBatch, prepares, left]
      rw [same, nothing, left] at h
      obtain rfl : w' = w := h.symm.trans (wrote_nothing active _)
      exact ⟨.idle, ready_of_engine active ready⟩
    | cons head rest =>
      have nonempty : entries ≠ [] := by simp [left]
      obtain ⟨numbers, origins, few⟩ := Engine.prepareBatch_numbers prepares
      generalize call : Engine.putBatch env w.writes recordId items pressured late draws s = result at h
      obtain ⟨r, s'⟩ := result
      obtain ⟨t, rolled, wrote, next, -, ready', rolls, rfl⟩ := Engine.putBatch_wrote unique ready
        (fun i bound => whole i (by omega)) prepares nonempty call
      have outcome : (rolled.map fun _ => entries.length).map (fun _ => (none : Option Nat)) =
          rolled.map fun _ => (none : Option Nat) := by
        cases rolled <;> rfl
      dsimp only at h
      rw [same, outcome] at h
      rw [← h]
      refine ⟨.wrote active ⟨nonempty, same.symm, origins, numbers, ?_, next, Or.inr ⟨rfl, rfl⟩⟩
        rolls (Or.inl rfl),
        ready_of_engine rfl ready'⟩
      rw [renumber_self numbers]
      exact wrote

theorem maintenance_effect {w : World} {s s' : Engine} (active : w.engine = some s) {a : Label}
    (other : a.isWrite = false) {r : FlushResult Unit}
    (h : s'.Ready env ∧ Engine.Rolled a.commits r s s') :
    Effect env a w { w with engine := some s' } ∧ Ready env { w with engine := some s' } :=
  ⟨.rolled active other h.2, ready_of_engine rfl h.1⟩

/-- Every step has one of the effects, and leaves a world that is ready for the next. -/
theorem step_effect (unique : Function.Injective env.ulid) {w w' : World} {a : Label}
    (ready : Ready env w) (plain : Plain w a) (h : step env w a = some w') :
    Effect env a w w' ∧ Ready env w' := by
  cases a with
  | openEngine nowMs fault =>
    obtain ⟨closed, ⟨st, reloaded, rfl⟩ | ⟨s, launched, rfl⟩⟩ := openEngine_cases ready.stored h
    · refine ⟨.reloaded closed reloaded, ?_, fun _ => reloaded.sound (ready.stored closed)⟩
      intro s active
      rw [show w.engine = some s from active] at closed
      cases closed
    · exact ⟨.opened rfl closed (launched.opened (ready.stored closed) plain),
        ready_of_engine rfl launched.ready⟩
  | crash torn =>
    obtain ⟨s, active, rfl⟩ := Option.map_eq_some_iff.mp h
    have ready_s := ready.engine s active
    obtain ⟨segment, found, -⟩ := ready_s.opened.current
    refine ⟨.crashed active fun e => WalWriter.holds_writeEntries found, ?_,
      fun _ => ⟨ready_s.keyed, ?_, ready_s.shelf⟩⟩
    · rintro t ⟨⟩
    · exact WalWriter.ordered_writeEntries ready_s.ordered ready_s.opened
  | put recordId itemKey value metadata token draw =>
    obtain ⟨s, active, rfl⟩ := Option.map_eq_some_iff.mp h
    refine writePrepared_effect unique active (ready.engine s active) rfl rfl ?_ rfl
    intro entry made
    obtain ⟨compositeKey, -, unknown, rfl⟩ := preparePut_ok made
    exact ⟨rfl, rfl, unknown⟩
  | putBatch recordId items pressured late draws =>
    obtain ⟨s, active, -⟩ := Option.map_eq_some_iff.mp h
    exact putBatch_effect unique active (ready.engine s active) plain h
  | delete recordId itemKey draw =>
    obtain ⟨s, active, rfl⟩ := Option.map_eq_some_iff.mp h
    refine writePrepared_effect unique active (ready.engine s active) rfl rfl ?_ rfl
    intro entry made
    obtain ⟨compositeKey, -, rfl⟩ := prepareDelete_ok made
    exact ⟨rfl, rfl, knows_none _⟩
  | deleteRange recordId startKey endKey draw =>
    obtain ⟨s, active, rfl⟩ := Option.map_eq_some_iff.mp h
    refine writePrepared_effect unique active (ready.engine s active) rfl rfl ?_ rfl
    intro entry made
    obtain ⟨compositeKey, -, rfl⟩ := prepareDeleteRange_ok made
    exact ⟨rfl, rfl, knows_none _⟩
  | maybeFlush draw =>
    obtain ⟨s, active, rfl⟩ := Option.map_eq_some_iff.mp h
    have ready_s := ready.engine s active
    have nothing : Engine.maybeFlush env draw s = (.ok (), s) := by
      simp [Engine.maybeFlush, MemtableList.hasFrozen, ready_s.noneFrozen]
    rw [nothing, ← active]
    exact ⟨.idle, ready⟩
  | runMaintenance aged draw =>
    obtain ⟨s, active, rfl⟩ := Option.map_eq_some_iff.mp h
    have ready_s := ready.engine s active
    refine maintenance_effect active rfl
      ((Engine.runMaintenance_mayFlush ready_s.noneFrozen rfl).rolled unique ready_s ?_ ?_)
    · intro due
      exact Engine.nonempty_of_count (of_decide_eq_true (Bool.and_eq_true_iff.mp due).1)
    · intro due succeeds
      show (aged && !(draw 0).fails) = true
      rw [(Bool.and_eq_true_iff.mp due).2, succeeds]
      rfl
  | maybeCompact draw =>
    obtain ⟨s, active, rfl⟩ := Option.map_eq_some_iff.mp h
    have ready_s := ready.engine s active
    have compacted := Engine.maybeCompact_compacted unique ready_s.toSound ready_s.latest
      (show Engine.maybeCompact env draw s = (_, _) from rfl)
    exact ⟨.compacted active compacted, ready_of_engine rfl (compacted.ready ready_s)⟩
  | close draw =>
    obtain ⟨s, active, rfl⟩ := Option.map_eq_some_iff.mp h
    have ready_s := ready.engine s active
    refine maintenance_effect active rfl
      ((Engine.close_mayFlush ready_s.noneFrozen rfl).rolled unique ready_s ?_ ?_)
    · intro due
      exact Engine.nonempty_of_count (of_decide_eq_true due)
    · intro due succeeds
      show (!(draw 0).fails) = true
      rw [succeeds]
      rfl


theorem ready_empty (env : Env) : Ready env {} := by
  refine ⟨by rintro s ⟨⟩, fun _ => ⟨keyed_empty, WalDir.ordered_empty, ?_⟩⟩
  refine ⟨List.nodup_nil, ?_, ?_, ?_⟩
  · intro level t listed
    cases listed
  · intro path found
    cases found
  · intro a b id xs ys found
    cases found

end Inversion

section Example

/-- An environment with segments of the given size. -/
def sampleEnv (segmentSizeTarget : Nat) : Env where
  config := { ns := "ns", walConfig := { segmentSizeTarget } }
  ulid n := String.ofList (List.replicate n 'x')
  fileSize _ := 100
  serializedLen _ := 0

theorem sampleEnv_unique (segmentSizeTarget : Nat) :
    Function.Injective (sampleEnv segmentSizeTarget).ulid := by
  intro a b same
  have lists := String.ofList_injective same
  simpa using congrArg List.length lists

/-- A write to one record; it may be followed by a flush. -/
def samplePut (item value : UInt8) (freeze : Bool) : Label :=
  .put ⟨[114]⟩ ⟨[item]⟩ ⟨[value]⟩ ⟨[]⟩ none { freeze }

def sampleBatch (items : List UInt8) : Label :=
  .putBatch ⟨[114]⟩ (items.map fun item => ⟨⟨[item]⟩, ⟨[1]⟩, ⟨[]⟩, .none⟩) false false fun _ => {}

end Example

end World

end FlushDB
