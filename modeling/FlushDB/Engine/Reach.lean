import FlushDB.Engine.Moves
import FlushDB.Engine.Steps
import FlushDB.Engine.Versions

/-!
Every state that a run reaches is sound: the manifests, the log and the tables are in order, and
an open engine is ready for its next call. No condition on the run is needed.
-/

namespace FlushDB
open Lib ManifestBucket

namespace Engine
variable {env : Env}

theorem Ready.inserted {s : Engine} (h : Ready env s) (entry : MemtableEntry) :
    Ready env { s with
      memtableList := { s.memtableList with
        active := insertAssigned s.memtableList.active entry } } := by
  have took := insertAssigned_took s.memtableList.active entry
  refine ⟨h.toSound, h.latest, h.opened, h.noneFrozen, took.frozen.trans h.activeOpen, ?_⟩
  intro x member
  rcases took.only x member with old | new
  · exact (h.below x old).trans_le took.counter
  · exact took.below x new

/-- A batch may freeze and flush after any of its entries. -/
theorem insertBatch_ready (unique : Function.Injective env.ulid) {draws : Nat → ItemDraw}
    {entries : List MemtableEntry} {s s' : Engine} {r : FlushResult Unit} (ready : Ready env s)
    (h : insertBatch env draws entries s = (r, s')) :
    Ready env s' := by
  induction entries generalizing s with
  | nil =>
    obtain ⟨-, rfl⟩ := Prod.mk.inj h
    exact ready
  | cons entry rest ih =>
    have inserted := ready.inserted entry
    rw [insertBatch] at h
    simp only [insertPrechecked_ok ready.activeOpen] at h
    have enforced : ∀ {r' t}, enforceBatchMemtableLimits env (draws rest.length) { s with
        memtableList := { s.memtableList with
          active := insertAssigned s.memtableList.active entry } } = (r', t) → Ready env t := by
      intro r' t limits
      have flushes := enforce_mayFlush inserted.noneFrozen limits
      refine (@MayFlush.rolled env unique _ true _ _ _ _ flushes inserted ?_ fun _ _ => rfl).1
      intro due
      exact nonempty_of_count (of_decide_eq_true (Bool.and_eq_true_iff.mp due).1)
    split at h
    · rename_i err t limits
      obtain ⟨-, rfl⟩ := Prod.mk.inj h
      exact enforced limits
    · rename_i t limits
      exact ih (enforced limits) h

/-- The engine after an append, whatever number it goes on with. -/
theorem appendWal_ready {s t : Engine} (ready : Ready env s) {entries : List MemtableEntry}
    {late : Bool} (appended : appendWal env entries late s = .ok t) (next : Nat) :
    Ready env { t with nextSequence := next } := by
  obtain ⟨u, again, frame, ordered, opened, -, -⟩ := appendWal_spec ready entries late
  obtain rfl := Except.ok.inj (again.symm.trans appended)
  refine ⟨⟨?_, ordered, ?_⟩, ?_, opened, ?_, ?_, ?_⟩
  · rw [frame]
    exact ready.keyed
  · rw [frame]
    exact ready.shelf
  · rw [frame]
    exact ready.latest
  · rw [frame]
    exact ready.noneFrozen
  · rw [frame]
    exact ready.activeOpen
  · rw [frame]
    exact ready.below

theorem putBatch_ready (unique : Function.Injective env.ulid) {s : Engine} (ready : Ready env s)
    (origin : Nat) (recordId : Bytes) (items : List PutBatchItem) (pressured late : Bool)
    (draws : Nat → ItemDraw) :
    Ready env (putBatch env origin recordId items pressured late draws s).2 := by
  unfold putBatch
  split
  · exact ready
  · exact ready
  rename_i first rest made
  obtain ⟨t, appended, -⟩ := appendWal_spec ready (first :: rest) late
  rw [appended]
  have logged := appendWal_ready ready appended (t.nextSequence + (first :: rest).length)
  dsimp only
  generalize inserts : insertBatch env draws (first :: rest) _ = result
  obtain ⟨r, u⟩ := result
  have left := insertBatch_ready unique logged inserts
  cases r with
  | error e => exact left
  | ok done => exact left

end Engine

namespace World
variable {env : Env}

theorem step_ready (unique : Function.Injective env.ulid) {w w' : World} {a : Label}
    (ready : Ready env w) (taken : step env w a = some w') : Ready env w' := by
  cases a with
  | openEngine nowMs fault =>
    obtain ⟨closed, ⟨st, reloaded, rfl⟩ | ⟨s, launched, rfl⟩⟩ := openEngine_cases ready.stored taken
    · refine ⟨?_, fun _ => reloaded.sound (ready.stored closed)⟩
      intro s active
      rw [show w.engine = some s from active] at closed
      cases closed
    · exact ready_of_engine rfl launched.ready
  | putBatch recordId items pressured late draws =>
    obtain ⟨s, active, rfl⟩ := Option.map_eq_some_iff.mp taken
    exact ready_of_engine rfl (Engine.putBatch_ready unique (ready.engine s active) _ _ _ _ _ _)
  | put | delete | deleteRange | maybeFlush | runMaintenance | maybeCompact | close | crash =>
    refine (step_effect unique ready ?_ taken).2
    trivial

theorem exec_ready (unique : Function.Injective env.ulid) {labels : List Label} {w : World}
    (run : exec (step env) {} labels = some w) : Ready env w :=
  exec_keeps (fun _ _ _ kept taken => step_ready unique kept taken) (ready_empty env) run

end World

end FlushDB
