import Mathlib.Logic.Relation
import FlushDB.Engine.World

/-!
The calls of an engine as sequences of single changes, for invariants that hold in every run:
what every change keeps, every call keeps.
-/

namespace FlushDB
open Lib

namespace Engine

/-- What follows the commit of a flush, up to its compactions. -/
def settle (generation : Nat) (table : SSTableMeta) (draw : FlushDraw) (s : Engine) :
    FlushResult Unit × Engine :=
  let (deletable, walManager) := s.walManager.markGenerationFlushed generation
  match cleanupSegments draw.failing deletable { s with walManager } with
  | (.error e, s) => (.error e, s)
  | (.ok (), s) =>
    if draw.fault = some .openTable then (.error (.io "get_range"), s)
    else
      match openTable s.tables .L0 table with
      | .error e => (.error e, s)
      | .ok handle => (.ok (), { s with levels := pushHandle handle s.levels })

/-- A restriction of what flushes and compactions find outside. -/
structure Draws where
  flush : FlushDraw → Prop
  compaction : CompactionDraw → Prop
  compactions : ∀ draw, flush draw → ∀ i, compaction (draw.compaction i)

/-- No restriction. -/
def Draws.any : Draws := ⟨fun _ => True, fun _ => True, fun _ _ _ => trivial⟩

/-- One change. -/
inductive Move (env : Env) (d : Draws) (s : Engine) : Engine → Prop
  | logged {entries : List MemtableEntry} {late : Bool} {t : Engine} :
      appendWal env entries late s = .ok t → Move env d s t
  | numbered (count : Nat) : Move env d s { s with nextSequence := s.nextSequence + count }
  | inserted {entry : MemtableEntry} {n : Nat} {l : MemtableList} :
      s.memtableList.insert entry = .ok (n, l) →
    Move env d s { s with memtableList := l }
  | assigned {entry : MemtableEntry} {n : Nat} {l : MemtableList} :
      s.memtableList.insertPrechecked entry = .ok (n, l) →
    Move env d s { s with memtableList := l }
  | froze {t : Engine} : freezeActive s = (.ok (), t) → Move env d s t
  | dropped {generation : Nat} {frozen : Memtable} {l : MemtableList} {draw : FlushDraw}
      {e : FlushError} {t : Engine} :
    s.memtableList.popOldestFrozenWithGeneration = some ((generation, frozen), l) →
    flush env frozen draw { s with memtableList := l } = (.error e, t) →
      Move env d s { t with dropped := true }
  | settled {generation : Nat} {frozen : Memtable} {l : MemtableList} {draw : FlushDraw}
      {table : SSTableMeta} {t u : Engine}
    {r : FlushResult Unit} : d.flush draw → s.memtableList.popOldestFrozenWithGeneration =
      some ((generation, frozen), l) →
    flush env frozen draw { s with memtableList := l } = (.ok table, t) →
      settle generation table draw t = (r, u) →
    Move env d s u
  | compacted {draw : CompactionDraw} {task : CompactionTask} {r : FlushResult Unit} {t : Engine} :
      d.compaction draw →
    (∃ m, task ∈ CompactionScheduler.checkTriggers env.config.compactionConfig m) →
      compact env draw task s = (r, t) →
    Move env d s t

abbrev Moves (env : Env) (d : Draws) : Engine → Engine → Prop := Relation.ReflTransGen (Move env d)

section Calls
variable {env : Env} {d : Draws}

theorem compactAll_moves {draw : Nat → CompactionDraw} {tasks : List CompactionTask} {m : Manifest}
    (allowed : ∀ i, d.compaction (draw i))
    (asked : ∀ task ∈ tasks, task ∈ CompactionScheduler.checkTriggers env.config.compactionConfig m)
    (s : Engine) :
    Moves env d s (compactAll env draw tasks s).2 := by
  refine compactAll_keeps ?_ .refl (Prod.eta _).symm
  intro task member i t r u moved done
  exact moved.tail (.compacted (allowed i) ⟨m, asked task member⟩ done)

theorem maybeCompact_moves {draw : Nat → CompactionDraw} (allowed : ∀ i, d.compaction (draw i))
    (s : Engine) : Moves env d s (maybeCompact env draw s).2 :=
  compactAll_moves allowed (fun _ asked => asked) s

theorem finishFlush_eq (generation : Nat) (table : SSTableMeta) (draw : FlushDraw) (s : Engine) :
    finishFlush env generation table draw s =
      match settle generation table draw s with
      | (.error e, s) => (.error e, s)
      | (.ok (), s) => maybeCompact env draw.compaction s := by
  unfold finishFlush settle
  dsimp only
  generalize cleanupSegments draw.failing _ _ = cleaned
  obtain ⟨result, t⟩ := cleaned
  cases result with
  | error e => rfl
  | ok u =>
    dsimp only
    by_cases fails : draw.fault = some .openTable
    · simp only [fails, if_true]
    · simp only [fails, if_false]
      cases openTable t.tables .L0 table with
      | error e => rfl
      | ok handle => rfl

theorem finishFlush_moves (generation : Nat) (table : SSTableMeta) {draw : FlushDraw}
    (allowed : d.flush draw) (s : Engine) :
    Moves env d (settle generation table draw s).2 (finishFlush env generation table draw s).2 := by
  rw [finishFlush_eq]
  generalize settle generation table draw s = settled
  obtain ⟨result, t⟩ := settled
  cases result with
  | error e => exact .refl
  | ok u => exact maybeCompact_moves (d.compactions draw allowed) t

theorem flushFrozen_moves {draw : FlushDraw} (allowed : d.flush draw) (s : Engine) :
    Moves env d s (flushFrozen env draw s).2 := by
  unfold flushFrozen
  split
  · exact .refl
  rename_i generation frozen l popped
  split
  · rename_i e t failed
    exact .single (.dropped popped failed)
  · rename_i table t flushed
    exact .head (.settled allowed popped flushed rfl) (finishFlush_moves generation table allowed t)

theorem freezeActive_moves {s : Engine} {r : FlushResult Unit} {t : Engine}
    (h : freezeActive s = (r, t)) : Moves env d s t := by
  cases r with
  | ok u => exact .single (.froze h)
  | error e =>
    unfold freezeActive at h
    split at h
    · cases h
      exact .refl
    · cases h

theorem flushAllFrozen_moves {draw : Nat → FlushDraw} (allowed : ∀ i, d.flush (draw i)) (fuel : Nat)
    (s : Engine) :
    Moves env d s (flushAllFrozen env draw fuel s).2 := by
  induction fuel generalizing s with
  | zero => exact .refl
  | succ fuel ih =>
    have one := @flushFrozen_moves env d _ (allowed fuel) s
    unfold flushAllFrozen
    split
    · split
      · rename_i e t flushed
        rw [flushed] at one
        exact one
      · rename_i t flushed
        rw [flushed] at one
        exact one.trans (ih t)
    · exact .refl

theorem flushWhile_moves (pressured : Nat → Bool) {draw : Nat → FlushDraw}
    (allowed : ∀ i, d.flush (draw i)) (fuel : Nat) (shouldFlush : Bool) (s : Engine) :
    Moves env d s (flushWhile env pressured draw fuel shouldFlush s).2 := by
  induction fuel generalizing s shouldFlush with
  | zero => exact .refl
  | succ fuel ih =>
    have one := @flushFrozen_moves env d _ (allowed fuel) s
    unfold flushWhile
    split
    · split
      · rename_i e t flushed
        rw [flushed] at one
        exact one
      · rename_i t flushed
        rw [flushed] at one
        exact one.trans (ih false t)
    · exact .refl

theorem maybeFreezeAndFlush_moves (freeze : Bool) {draw : FlushDraw} (allowed : d.flush draw)
    (s : Engine) :
    Moves env d s (maybeFreezeAndFlush env freeze draw s).2 := by
  unfold maybeFreezeAndFlush
  split
  · split
    · rename_i e t refused
      exact freezeActive_moves refused
    · rename_i t froze
      exact (freezeActive_moves froze).trans (flushFrozen_moves allowed t)
  · exact .refl

theorem writeEntry_moves (entry : MemtableEntry) {draw : WriteDraw} (allowed : d.flush draw.flush)
    (s : Engine) :
    Moves env d s (writeEntry env entry draw s).2 := by
  unfold writeEntry
  split
  · exact .refl
  rename_i t appended
  have logged : Moves env d s { t with nextSequence := t.nextSequence + 1 } :=
    .tail (.single (.logged appended)) (.numbered 1)
  dsimp only
  split
  · exact logged
  rename_i n l taken
  have inserted := logged.tail (.inserted taken)
  have rolled := inserted.trans (maybeFreezeAndFlush_moves draw.freeze allowed _)
  split
  · rename_i e u rolls
    rw [rolls] at rolled
    exact rolled
  · rename_i u rolls
    rw [rolls] at rolled
    exact rolled

theorem writePrepared_moves (prepared : FlushResult MemtableEntry) {draw : WriteDraw}
    (allowed : d.flush draw.flush) (s : Engine) :
    Moves env d s (writePrepared env prepared draw s).2 := by
  cases prepared with
  | error e => exact .refl
  | ok entry => exact writeEntry_moves entry allowed s

theorem enforceBatchMemtableLimits_moves {draw : ItemDraw} (allowed : ∀ i, d.flush (draw.flush i))
    (s : Engine) :
    Moves env d s (enforceBatchMemtableLimits env draw s).2 := by
  unfold enforceBatchMemtableLimits
  split
  · split
    · rename_i e t refused
      exact freezeActive_moves refused
    · rename_i t froze
      exact (freezeActive_moves froze).trans (flushWhile_moves _ allowed _ _ t)
  · exact flushWhile_moves _ allowed _ _ s

theorem insertBatch_moves {draws : Nat → ItemDraw} (allowed : ∀ i j, d.flush ((draws i).flush j))
    (entries : List MemtableEntry) (s : Engine) :
    Moves env d s (insertBatch env draws entries s).2 := by
  induction entries generalizing s with
  | nil => exact .refl
  | cons entry rest ih =>
    unfold insertBatch
    split
    · exact .refl
    rename_i n l taken
    have inserted : Moves env d s { s with memtableList := l } := .single (.assigned taken)
    have enforced := inserted.trans (enforceBatchMemtableLimits_moves (allowed rest.length) _)
    split
    · rename_i e t limits
      rw [limits] at enforced
      exact enforced
    · rename_i t limits
      rw [limits] at enforced
      exact enforced.trans (ih t)

theorem putBatch_moves (origin : Nat) (recordId : Bytes) (items : List PutBatchItem)
    (pressured late : Bool) {draws : Nat → ItemDraw} (allowed : ∀ i j, d.flush ((draws i).flush j))
    (s : Engine) :
    Moves env d s (putBatch env origin recordId items pressured late draws s).2 := by
  unfold putBatch
  split
  · exact .refl
  · exact .refl
  rename_i first rest made
  split
  · exact .refl
  rename_i t appended
  have logged : Moves env d s { t with nextSequence := t.nextSequence + (first :: rest).length } :=
    .tail (.single (.logged appended)) (.numbered _)
  have all := logged.trans (insertBatch_moves allowed (first :: rest) _)
  split
  · rename_i e u inserts
    rw [inserts] at all
    exact all
  · rename_i u inserts
    rw [inserts] at all
    exact all

theorem maybeFlush_moves {draw : FlushDraw} (allowed : d.flush draw) (s : Engine) :
    Moves env d s (maybeFlush env draw s).2 := by
  unfold maybeFlush
  split
  · exact flushFrozen_moves allowed s
  · exact .refl

theorem runMaintenance_moves (aged : Bool) {draw : Nat → FlushDraw}
    (allowed : ∀ i, d.flush (draw i)) (s : Engine) :
    Moves env d s (runMaintenance env aged draw s).2 := by
  unfold runMaintenance
  split
  · split
    · rename_i e t refused
      exact freezeActive_moves refused
    · rename_i t froze
      exact (freezeActive_moves froze).trans (flushAllFrozen_moves allowed _ t)
  · exact flushAllFrozen_moves allowed _ s

theorem close_moves {draw : Nat → FlushDraw} (allowed : ∀ i, d.flush (draw i)) (s : Engine) :
    Moves env d s (close env draw s).2 := by
  unfold close
  split
  · split
    · rename_i e t refused
      exact freezeActive_moves refused
    · rename_i t froze
      have one := (@freezeActive_moves env d _ _ _ froze).trans
        (flushFrozen_moves (allowed (t.memtableList.frozen.length - 1)) t)
      split
      · rename_i e u flushed
        rw [flushed] at one
        exact one
      · rename_i u flushed
        rw [flushed] at one
        exact one.trans (flushAllFrozen_moves allowed _ u)
  · exact flushAllFrozen_moves allowed _ s

end Calls

end Engine

namespace World
variable {env : Env} {d : Engine.Draws}

/-- What the flushes and compactions of the call find outside is within the restriction. -/
def Label.Within (d : Engine.Draws) : Label → Prop
  | .put _ _ _ _ _ draw | .delete _ _ draw | .deleteRange _ _ _ draw => d.flush draw.flush
  | .putBatch _ _ _ _ draws => ∀ i j, d.flush ((draws i).flush j)
  | .maybeFlush draw => d.flush draw
  | .runMaintenance _ draw | .close draw => ∀ i, d.flush (draw i)
  | .maybeCompact draw => ∀ i, d.compaction (draw i)
  | .openEngine _ _ | .crash _ => True

theorem Label.within_any (a : Label) : a.Within .any := by
  cases a with
  | put | delete | deleteRange | maybeFlush | openEngine | crash => exact trivial
  | putBatch => exact fun _ _ => trivial
  | runMaintenance | close | maybeCompact => exact fun _ => trivial

/-- A step opens an engine, leaves none, or moves the open one. -/
theorem step_moves {w w' : World} {a : Label} (within : a.Within d)
    (taken : step env w a = some w') :
    w'.engine = none ∨
    (∃ nowMs fault s st, w.engine = none ∧ Engine.openStored env nowMs fault w.stored =
      (.ok s, st) ∧ w'.engine = some s) ∨
    ∃ s s', w.engine = some s ∧ w'.engine = some s' ∧ Engine.Moves env d s s' := by
  cases a with
  | openEngine nowMs fault =>
    unfold step at taken
    dsimp only at taken
    split at taken
    · cases taken
    · rename_i closed
      split at taken
      · obtain rfl := Option.some.inj taken
        exact Or.inl closed
      · rename_i s st opened
        obtain rfl := Option.some.inj taken
        exact Or.inr (Or.inl ⟨nowMs, fault, s, st, closed, opened, rfl⟩)
  | crash torn =>
    obtain ⟨s, active, rfl⟩ := Option.map_eq_some_iff.mp taken
    exact Or.inl rfl
  | put recordId itemKey value metadata token draw =>
    obtain ⟨s, active, rfl⟩ := Option.map_eq_some_iff.mp taken
    exact Or.inr (Or.inr ⟨s, _, active, rfl, Engine.writePrepared_moves _ within s⟩)
  | putBatch recordId items pressured late draws =>
    obtain ⟨s, active, rfl⟩ := Option.map_eq_some_iff.mp taken
    exact Or.inr (Or.inr ⟨s, _, active, rfl, Engine.putBatch_moves _ recordId items pressured late within s⟩)
  | delete recordId itemKey draw =>
    obtain ⟨s, active, rfl⟩ := Option.map_eq_some_iff.mp taken
    exact Or.inr (Or.inr ⟨s, _, active, rfl, Engine.writePrepared_moves _ within s⟩)
  | deleteRange recordId startKey endKey draw =>
    obtain ⟨s, active, rfl⟩ := Option.map_eq_some_iff.mp taken
    exact Or.inr (Or.inr ⟨s, _, active, rfl, Engine.writePrepared_moves _ within s⟩)
  | maybeFlush draw =>
    obtain ⟨s, active, rfl⟩ := Option.map_eq_some_iff.mp taken
    exact Or.inr (Or.inr ⟨s, _, active, rfl, Engine.maybeFlush_moves within s⟩)
  | runMaintenance aged draw =>
    obtain ⟨s, active, rfl⟩ := Option.map_eq_some_iff.mp taken
    exact Or.inr (Or.inr ⟨s, _, active, rfl, Engine.runMaintenance_moves aged within s⟩)
  | maybeCompact draw =>
    obtain ⟨s, active, rfl⟩ := Option.map_eq_some_iff.mp taken
    exact Or.inr (Or.inr ⟨s, _, active, rfl, Engine.maybeCompact_moves within s⟩)
  | close draw =>
    obtain ⟨s, active, rfl⟩ := Option.map_eq_some_iff.mp taken
    exact Or.inr (Or.inr ⟨s, _, active, rfl, Engine.close_moves within s⟩)

/-- What an engine has that is opened and every change keeps, the engine has after the step. -/
theorem step_engine {inv : Engine → Prop} {w w' : World} {a : Label}
    (opened : ∀ nowMs fault s st, w.engine = none →
      Engine.openStored env nowMs fault w.stored = (.ok s, st) → inv s)
    (keep : ∀ s t, Engine.Move env d s t → inv s → inv t) (within : a.Within d)
    (taken : step env w a = some w') (before : ∀ s, w.engine = some s → inv s) :
    ∀ s, w'.engine = some s → inv s := by
  intro s active
  rcases step_moves within taken with closed | ⟨nowMs, fault, t, st, idle, opens, active'⟩ | ⟨t, t',
    old, new, moves⟩
  · rw [closed] at active
    cases active
  · obtain rfl := Option.some.inj (active'.symm.trans active)
    exact opened _ _ _ _ idle opens
  · obtain rfl := Option.some.inj (new.symm.trans active)
    have start := before t old
    clear taken active new old
    induction moves with
    | refl => exact start
    | tail _ move ih => exact keep _ _ move ih

/-- What every opened engine has and every change keeps holds of the open engine in every run. -/
theorem exec_engine {inv : Engine → Prop}
    (opened : ∀ nowMs fault st s st', Engine.openStored env nowMs fault st = (.ok s, st') → inv s)
    (keep : ∀ s t, Engine.Move env .any s t → inv s → inv t) {w : World} {labels : List Label}
    (run : exec (step env) {} labels = some w) : ∀ s, w.engine = some s → inv s := by
  refine @exec_keeps _ _ (step env) (fun w => ∀ s, w.engine = some s → inv s) ?_ _ _ _ ?_ run
  · intro w a w' kept taken
    exact step_engine (fun nowMs fault s st _ => opened nowMs fault w.stored s st) keep a.within_any
      taken kept
  · rintro s ⟨⟩

end World

end FlushDB
