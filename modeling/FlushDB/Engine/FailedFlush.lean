import FlushDB.Engine.RangeScan
import FlushDB.Engine.SharedRuns
import FlushDB.Engine.Steps

/-!
What a failing flush takes from memory. The oldest frozen memtable is taken out of the list before
anything is written, and no failure puts it back.
-/

namespace FlushDB
open Lib

/-- What a flush of the memtable writes. -/
def Memtable.contents (m : Memtable) : List MergeEntry :=
  m.skiplist.nodes.map MergeEntry.fromMemtableEntry

/-- Everything in the memtable that is flushed next is in another memtable too. -/
def MemtableList.Repeated (l : MemtableList) : Prop :=
  ∀ oldest l', l.popOldestFrozenWithGeneration = some (oldest, l') →
    ∀ e ∈ oldest.2.contents, ∃ m ∈ l'.memtables, e ∈ m.contents

namespace Engine

/-- What a failing call must not take: the values that reads return, and what a later flush can
write. -/
structure KeepsMemory (s s' : Engine) : Prop where
  gets : ∀ renv draw recordId itemKey result, get renv draw recordId itemKey s = .ok (some result) →
    get renv draw recordId itemKey s' = .ok (some result)
  writable : ∀ m ∈ s.memtableList.memtables, ∀ e ∈ m.contents, ∃ m' ∈ s'.memtableList.memtables,
    e ∈ m'.contents

/-- No open table has the name that is drawn next. -/
def NewName (env : Env) (s : Engine) : Prop :=
  Levels.Owned (fun id => id ≠ .single (env.ulid s.drawn)) s.levels

/-- `FlushPipeline::flush` fails on the memtable that has been popped. -/
def FlushFails (env : Env) (draw : FlushDraw) (s : Engine) (e : FlushError) (t : Engine) : Prop :=
  ∃ oldest l, s.memtableList.popOldestFrozenWithGeneration = some (oldest, l) ∧
    flush env oldest.2 draw { s with memtableList := l } = (.error e, t)

end Engine

section Memtables
variable {l l' : MemtableList} {key : CompositeKey}

/-- A memtable that has the key and does not give it has deleted all its versions. -/
theorem Memtable.covers_of_get_none {m : Memtable} {x : MemtableEntry}
    (member : x ∈ m.skiplist.nodes) (hidden : m.get x.compositeKey = none) :
    m.rangeTombstones.covers x.recordId x.itemKey x.sequenceNumber = true := by
  unfold Memtable.get at hidden
  rw [SkipList.get_eq] at hidden
  cases found : m.skiplist.nodes.find? fun node => node.compositeKey = x.compositeKey with
  | none => exact absurd (decide_eq_true rfl) (List.find?_eq_none.mp found x member)
  | some first =>
    obtain ⟨same, before, after, split, early⟩ := List.find?_eq_some_iff_append.mp found
    have key := of_decide_eq_true same
    rw [found, Option.filter_eq_none_iff] at hidden
    have covered : m.rangeTombstones.covers first.recordId first.itemKey first.sequenceNumber =
        true := by
      simpa using hidden
    have newer : x.sequenceNumber ≤ first.sequenceNumber := by
      have sorted := m.skiplist.sorted
      rw [split] at sorted member
      rcases List.mem_append.mp member with earlier | later
      · have other := early x earlier
        simp at other
      · rcases List.mem_cons.mp later with rfl | behind
        · exact le_refl _
        · obtain ⟨-, tail, -⟩ := List.pairwise_append.mp sorted
          rcases (List.pairwise_cons.mp tail).1 x behind with less | ⟨-, newer⟩
          · exact absurd key less.ne
          · exact newer.le
    rw [RangeTombstoneIndex.covers_iff] at covered ⊢
    obtain ⟨ts, listed, record, start, range, above⟩ := covered
    unfold MemtableEntry.recordId at record
    unfold MemtableEntry.itemKey at start range
    rw [key] at record start range
    exact ⟨ts, listed, record, start, range, by omega⟩

theorem MemtableList.covers_subset (subset : ∀ m ∈ l'.memtables, m ∈ l.memtables)
    {recordId itemKey : Bytes} {entrySequence : Nat}
    (uncovered : l.rangeTombstoneCovers recordId itemKey entrySequence = false) :
    l'.rangeTombstoneCovers recordId itemKey entrySequence = false := by
  unfold MemtableList.rangeTombstoneCovers at uncovered ⊢
  rw [List.any_eq_false] at uncovered ⊢
  exact fun m member => uncovered m (subset m member)

theorem answer_subset (subset : ∀ m ∈ l'.memtables, m ∈ l.memtables) {e found : MergeEntry}
    (answered : ReadPath.answer l key e = some found) : ReadPath.answer l' key e = some found := by
  unfold ReadPath.answer at answered ⊢
  split at answered
  · cases answered
  · rename_i kept
    rw [if_neg kept]
    split at answered
    · cases answered
    · rename_i uncovered
      rw [if_neg]
      · exact answered
      · rw [MemtableList.covers_subset subset (Bool.eq_false_iff.mpr uncovered)]
        decide

/-- The memtables when the active one has been frozen. -/
theorem MemtableList.frozen_get (l : MemtableList) (next generation : Nat) (key : CompositeKey) :
    ({ l with
        active := { nextSequenceNumber := next }
        frozen := (generation, { l.active with frozen := true }) :: l.frozen } : MemtableList).get
          key = l.get key := by
  rw [MemtableList.get_eq, MemtableList.get_eq]
  simp only [MemtableList.memtables, List.map_cons, List.findSome?_cons]
  rfl

theorem frozen_answer (l : MemtableList) (next generation : Nat) (key : CompositeKey)
    (e : MergeEntry) :
    ReadPath.answer { l with
        active := { nextSequenceNumber := next }
        frozen := (generation, { l.active with frozen := true }) :: l.frozen } key e =
          ReadPath.answer l key e := by
  have none : ∀ recordId itemKey n, ({} : RangeTombstoneIndex).covers recordId itemKey n = false :=
    RangeTombstoneIndex.covers_empty rfl
  have same : ∀ recordId itemKey n, ({ l with
      active := { nextSequenceNumber := next }
      frozen := (generation, { l.active with frozen := true }) :: l.frozen } :
        MemtableList).rangeTombstoneCovers recordId itemKey n =
        l.rangeTombstoneCovers recordId itemKey n := by
    intro recordId itemKey n
    simp only [MemtableList.rangeTombstoneCovers, MemtableList.memtables, List.map_cons,
      List.any_cons, none, Bool.false_or]
  unfold ReadPath.answer
  rw [same]

end Memtables

namespace Engine

section Failing
variable {env : Env}

/-- A failing flush leaves the memtables, the levels, and all objects but the one it may have
put. -/
theorem flush_failed {frozen : Memtable} {draw : FlushDraw} {s t : Engine} {e : FlushError}
    (h : flush env frozen draw s = (.error e, t)) :
    t.memtableList = s.memtableList ∧ t.levels = s.levels ∧
      Tables.Beside (fun id => id ≠ .single (env.ulid s.drawn)) t.tables s.tables t.tables := by
  have same : Tables.Beside (fun id => id ≠ .single (env.ulid s.drawn)) s.tables s.tables
      s.tables := .refl _ _
  have put : ∀ contents, Tables.Beside (fun id => id ≠ .single (env.ulid s.drawn))
      (s.withObject env contents).tables s.tables
      (s.withObject env contents).tables := by
    intro contents
    refine ⟨fun p other => ObjectStore.get_put_ne _ _ ?_, fun _ _ => rfl⟩
    rintro rfl
    exact other rfl
  cases flush_ends h with
  | empty => exact ⟨rfl, rfl, same⟩
  | unwritten => exact ⟨rfl, rfl, same⟩
  | written => exact ⟨rfl, rfl, put _⟩
  | refused => exact ⟨rfl, rfl, put _⟩

/-- A version that stands only where it is hidden elsewhere is not read. -/
theorem hidden_elsewhere {l l' : MemtableList} {oldest : Nat × Memtable}
    (popped : l.popOldestFrozenWithGeneration = some (oldest, l')) (repeated : l.Repeated)
    {key : CompositeKey} {entry : MemtableEntry} (kept : l'.get key = none)
    (alone : oldest.2.get key = some entry) {x : MergeEntry} :
    ReadPath.answer l key (MergeEntry.fromMemtableEntry entry) ≠ some x := by
  intro answered
  have inside : entry ∈ oldest.2.skiplist.nodes ∧ entry.compositeKey = key := by
    have found := (Option.filter_eq_some_iff.mp alone).1
    rw [SkipList.get_eq] at found
    exact ⟨List.mem_of_find?_eq_some found, by simpa using List.find?_some found⟩
  obtain ⟨m, member, again⟩ := repeated oldest l' popped _ (List.mem_map_of_mem inside.1)
  obtain ⟨y, listed, same⟩ := List.mem_map.mp again
  have key_y : y.compositeKey = key := (congrArg MergeEntry.compositeKey same).trans inside.2
  have number : y.sequenceNumber = entry.sequenceNumber := congrArg MergeEntry.sequenceNumber same
  have hidden : m.get y.compositeKey = none := by
    rw [MemtableList.get_eq, List.findSome?_eq_none_iff] at kept
    rw [key_y]
    exact kept m member
  have covered := Memtable.covers_of_get_none listed hidden
  have covers : l.rangeTombstoneCovers key.recordId key.itemKey
      (MergeEntry.fromMemtableEntry entry).sequenceNumber = true := by
    unfold MemtableEntry.recordId MemtableEntry.itemKey at covered
    rw [key_y, number] at covered
    refine List.any_eq_true.mpr ⟨m, ?_, covered⟩
    rw [(MemtableList.pop_memtables popped).2]
    exact List.mem_append_left _ member
  unfold ReadPath.answer at answered
  rw [if_pos covers, ite_self] at answered
  cases answered

/-- What a read has found is found when the popped memtable is gone, if it held nothing alone. -/
theorem get_without {s t : Engine} {oldest : Nat × Memtable} {l : MemtableList}
    (popped : s.memtableList.popOldestFrozenWithGeneration = some (oldest, l))
    (left : t.memtableList = l) (levels : t.levels = s.levels) (new : NewName env s)
    (beside : Tables.Beside (fun id => id ≠ .single (env.ulid s.drawn)) t.tables s.tables t.tables)
    (repeated : s.memtableList.Repeated) {renv : ReadEnv} {draw : ReadDraw}
    {recordId itemKey : Bytes} {result : GetResult}
    (found : get renv draw recordId itemKey s = .ok (some result)) :
    get renv draw recordId itemKey t = .ok (some result) := by
  obtain ⟨-, memtables⟩ := MemtableList.pop_memtables popped
  have subset : ∀ m ∈ l.memtables, m ∈ s.memtableList.memtables := by
    intro m member
    rw [memtables]
    exact List.mem_append_left _ member
  unfold get at found ⊢
  cases made : CompositeKey.new recordId itemKey with
  | error e =>
    rw [made] at found
    cases found
  | ok key =>
    rw [made] at found
    simp only [bind, Except.bind, pure, Except.pure] at found ⊢
    have newest : s.memtableList.get key = (l.get key).or (oldest.2.get key) := by
      rw [MemtableList.get_eq, memtables, List.findSome?_append, ← MemtableList.get_eq]
      simp
    rw [left, levels, searchLevels_beside renv draw beside new]
    cases kept : l.get key with
    | some entry =>
      rw [newest, kept, Option.some_or] at found
      dsimp only at found ⊢
      obtain ⟨x, answered, same⟩ := Option.map_eq_some_iff.mp (Except.ok.inj found)
      rw [answer_subset subset answered, Option.map_some, same]
    | none =>
      rw [newest, kept, Option.none_or] at found
      cases alone : oldest.2.get key with
      | none =>
        rw [alone] at found
        dsimp only at found ⊢
        cases searched : searchLevels renv draw s.tables key s.levels none
          { remaining := renv.getBudgetPerRead } with
        | error e =>
          rw [searched] at found
          cases found
        | ok best =>
          rw [searched] at found
          obtain ⟨x, answered, same⟩ := Option.map_eq_some_iff.mp (Except.ok.inj found)
          obtain ⟨e, stored, given⟩ := Option.bind_eq_some_iff.mp answered
          simp only [stored, Option.bind_some, answer_subset subset given, Option.map_some, same]
      | some entry =>
        rw [alone] at found
        obtain ⟨x, answered, -⟩ := Option.map_eq_some_iff.mp (Except.ok.inj found)
        exact absurd answered (hidden_elsewhere popped repeated kept alone)

/-- A failing flush keeps what is in memory exactly when the popped memtable held nothing alone. -/
theorem keepsMemory_iff {draw : FlushDraw} {s t : Engine} {e : FlushError} (new : NewName env s)
    (fails : FlushFails env draw s e t) :
    flushFrozen env draw s = (.error e, { t with dropped := true }) ∧
      (KeepsMemory s { t with dropped := true } ↔ s.memtableList.Repeated) := by
  obtain ⟨oldest, l, popped, failed⟩ := fails
  obtain ⟨left, levels, beside⟩ := flush_failed failed
  obtain ⟨-, memtables⟩ := MemtableList.pop_memtables popped
  refine ⟨by simp only [flushFrozen, popped, failed], ?_⟩
  constructor
  · intro keeps other l' again e member
    obtain ⟨rfl, rfl⟩ := Prod.mk.inj (Option.some.inj (again.symm.trans popped))
    obtain ⟨m, here, inside⟩ := keeps.writable other.2 (by rw [memtables]; simp) e member
    rw [show ({ t with dropped := true } : Engine).memtableList = l' from left] at here
    exact ⟨m, here, inside⟩
  · intro repeated
    refine ⟨fun renv draw recordId itemKey result found => ?_, ?_⟩
    · exact get_without popped (t := { t with dropped := true }) left levels new beside repeated found
    · intro m member e inside
      rw [show ({ t with dropped := true } : Engine).memtableList = l from left]
      rw [memtables] at member
      rcases List.mem_append.mp member with kept | gone
      · exact ⟨m, kept, inside⟩
      · rw [List.mem_singleton.mp gone] at inside
        exact repeated oldest l popped e inside

theorem freezeActive_keeps {s f : Engine} (h : freezeActive s = (.ok (), f)) :
    (∀ renv draw recordId itemKey, get renv draw recordId itemKey f = get renv draw recordId itemKey s) ∧
      ∀ e, (∃ m ∈ f.memtableList.memtables, e ∈ m.contents) ↔
        ∃ m ∈ s.memtableList.memtables, e ∈ m.contents := by
  rw [freezeActive_ok h]
  constructor
  · intro renv draw recordId itemKey
    unfold get
    simp only [MemtableList.frozen_get, frozen_answer]
  · intro e
    simp [MemtableList.memtables, Memtable.contents]

/-- Calls of `flush_frozen` that succeed one after the other. -/
inductive Flushing (env : Env) : Engine → Engine → Prop where
  | refl (s : Engine) : Flushing env s s
  | step {s t u : Engine} (draw : FlushDraw) (flushed : flushFrozen env draw s = (.ok (), t))
      (rest : Flushing env t u) : Flushing env s u

theorem flushAllFrozen_failed {draws : Nat → FlushDraw} {fuel : Nat} {s s' : Engine}
    {e : FlushError} (h : flushAllFrozen env draws fuel s = (.error e, s')) :
    ∃ t draw, Flushing env s t ∧ flushFrozen env draw t = (.error e, s') := by
  induction fuel generalizing s with
  | zero => cases h
  | succ fuel ih =>
    unfold flushAllFrozen at h
    split at h
    · cases flushed : flushFrozen env (draws fuel) s with
      | mk r t =>
        rw [flushed] at h
        cases r with
        | error e' =>
          exact ⟨s, draws fuel, .refl s, flushed.trans h⟩
        | ok =>
          obtain ⟨u, draw, rest, failed⟩ := ih h
          exact ⟨u, draw, .step _ flushed rest, failed⟩
    · cases h

/-- A close fails before it has changed anything, or in one of its flushes. -/
theorem close_failed {draws : Nat → FlushDraw} {s s' : Engine} {e : FlushError}
    (h : close env draws s = (.error e, s')) :
    s' = s ∨ ∃ f t draw, (f = s ∨ freezeActive s = (.ok (), f)) ∧ Flushing env f t ∧
      flushFrozen env draw t = (.error e, s') := by
  unfold close at h
  split at h
  · rcases freezeActive_cases s with ⟨refusal, refused⟩ | ⟨f, froze⟩
    · rw [refused] at h
      exact Or.inl (Prod.mk.inj h).2.symm
    · rw [froze] at h
      dsimp only at h
      cases flushed : flushFrozen env (draws (f.memtableList.frozen.length - 1)) f with
      | mk r t =>
        rw [flushed] at h
        cases r with
        | error e' =>
          exact Or.inr ⟨f, f, _, Or.inr froze, .refl f, flushed.trans h⟩
        | ok =>
          obtain ⟨u, draw, rest, failed⟩ := flushAllFrozen_failed h
          exact Or.inr ⟨f, u, draw, Or.inr froze, .step _ flushed rest, failed⟩
  · obtain ⟨t, draw, rest, failed⟩ := flushAllFrozen_failed h
    exact Or.inr ⟨s, t, draw, Or.inl rfl, rest, failed⟩

theorem KeepsMemory.of_frozen {s f u : Engine} (froze : f = s ∨ freezeActive s = (.ok (), f)) :
    KeepsMemory s u ↔ KeepsMemory f u := by
  rcases froze with rfl | froze
  · exact Iff.rfl
  · obtain ⟨reads, entries⟩ := freezeActive_keeps froze
    constructor
    · intro keeps
      refine ⟨fun renv draw recordId itemKey result found => ?_, fun m member e inside => ?_⟩
      · exact keeps.gets renv draw recordId itemKey result (reads renv draw recordId itemKey ▸ found)
      · obtain ⟨m', member', inside'⟩ := (entries e).mp ⟨m, member, inside⟩
        exact keeps.writable m' member' e inside'
    · intro keeps
      refine ⟨fun renv draw recordId itemKey result found => ?_, fun m member e inside => ?_⟩
      · exact keeps.gets renv draw recordId itemKey result
          ((reads renv draw recordId itemKey).symm ▸ found)
      · obtain ⟨m', member', inside'⟩ := (entries e).mpr ⟨m, member, inside⟩
        exact keeps.writable m' member' e inside'

end Failing

/-- When the pipeline fails, `flush_frozen` and `maybe_flush` keep what is in memory exactly when
the oldest frozen memtable holds nothing alone. A close that fails has changed nothing, or fails in
a flush, and takes from memory what that flush takes. -/
theorem failed_flush_keeps_iff (env : Env) (s : Engine) (new : NewName env s) :
    (∀ draw e t, FlushFails env draw s e t → ∃ s', flushFrozen env draw s = (.error e, s') ∧
      maybeFlush env draw s = (.error e, s') ∧
      (KeepsMemory s s' ↔ s.memtableList.Repeated)) ∧
    ∀ draws e s', close env draws s = (.error e, s') → s' = s ∨
      ∃ f t draw, (f = s ∨ freezeActive s = (.ok (), f)) ∧ Flushing env f t ∧
        flushFrozen env draw t = (.error e, s') ∧
        ∀ e' u, FlushFails env draw t e' u →
          (t = f → (KeepsMemory s s' ↔ t.memtableList.Repeated)) ∧
          (NewName env t → (KeepsMemory t s' ↔ t.memtableList.Repeated)) := by
  constructor
  · intro draw e t fails
    obtain ⟨failed, keeps⟩ := keepsMemory_iff new fails
    refine ⟨_, failed, ?_, keeps⟩
    obtain ⟨oldest, l, popped, -⟩ := fails
    have frozen : s.memtableList.hasFrozen = true := by
      rw [MemtableList.hasFrozen, (MemtableList.pop_memtables popped).1]
      simp
    rw [maybeFlush, if_pos frozen, failed]
  · intro draws e s' h
    refine (close_failed h).imp id ?_
    rintro ⟨f, t, draw, froze, rest, failed⟩
    refine ⟨f, t, draw, froze, rest, failed, fun e' u fails => ⟨?_, fun new' => ?_⟩⟩
    · rintro rfl
      have new' : NewName env t := by
        rcases froze with rfl | froze
        · exact new
        · rw [freezeActive_ok froze]
          exact new
      obtain ⟨same, keeps⟩ := keepsMemory_iff new' fails
      obtain ⟨-, rfl⟩ := Prod.mk.inj (failed.symm.trans same)
      exact (KeepsMemory.of_frozen froze).trans keeps
    · obtain ⟨same, keeps⟩ := keepsMemory_iff new' fails
      obtain ⟨-, rfl⟩ := Prod.mk.inj (failed.symm.trans same)
      exact keeps

end Engine

namespace World

section Example

/-- One put in the memtable, and a flush whose object cannot be put. -/
def heldRun : List Label := [.openEngine 0 none, samplePut 1 7 false]

def failingDraw : FlushDraw := { fault := some .putTable }

theorem failed_flush_sample :
    ∃ w s f s', exec (step (sampleEnv 1000)) {} heldRun = some w ∧ w.engine = some s ∧
      Engine.freezeActive s = (.ok (), f) ∧
      Engine.maybeFlush (sampleEnv 1000) failingDraw f = (.error (.io "put"), s') ∧
        ¬ Engine.KeepsMemory f s' := by
  have ends : ((exec (step (sampleEnv 1000)) {} heldRun).bind World.engine).map (fun s =>
      ((Engine.freezeActive s).1,
        ((Engine.freezeActive s).2.levels.flatMap LevelState.handles).length)) =
          some (.ok (), 0) := by
    decide +kernel
  have pops : ((exec (step (sampleEnv 1000)) {} heldRun).bind World.engine).bind (fun s =>
      let f := (Engine.freezeActive s).2
      f.memtableList.popOldestFrozenWithGeneration.map (fun popped =>
        (popped.1.2.contents.length, (popped.2.memtables.flatMap Memtable.contents).length,
          (Engine.flush (sampleEnv 1000) popped.1.2 failingDraw
            { f with memtableList := popped.2 }).1.map fun _ => ()))) =
      some (1, 0, .error (.io "put")) := by decide +kernel
  obtain ⟨s, found, held⟩ := Option.map_eq_some_iff.mp ends
  rw [found] at pops
  obtain ⟨w, run, active⟩ := Option.bind_eq_some_iff.mp found
  obtain ⟨froze, no_tables⟩ := Prod.mk.inj held
  obtain ⟨⟨oldest, l⟩, popped, rest⟩ := Option.map_eq_some_iff.mp pops
  obtain ⟨one, rest⟩ := Prod.mk.inj rest
  obtain ⟨none_left, failed⟩ := Prod.mk.inj rest
  have new : Engine.NewName (sampleEnv 1000) (Engine.freezeActive s).2 := by
    intro level listed h member
    have somewhere := List.mem_flatMap.mpr ⟨level, listed, member⟩
    rw [List.length_eq_zero_iff.mp no_tables] at somewhere
    cases somewhere
  have alone : ¬ (Engine.freezeActive s).2.memtableList.Repeated := by
    intro repeated
    obtain ⟨e, held⟩ := List.length_eq_one_iff.mp one
    obtain ⟨m, member, inside⟩ := repeated oldest l popped
      e (by rw [held]; exact List.mem_singleton_self e)
    have somewhere := List.mem_flatMap.mpr ⟨m, member, inside⟩
    rw [List.length_eq_zero_iff.mp none_left] at somewhere
    cases somewhere
  cases flushed : Engine.flush (sampleEnv 1000) oldest.2 failingDraw
    { (Engine.freezeActive s).2 with memtableList := l } with
  | mk r t =>
    cases r with
    | ok table =>
      rw [flushed] at failed
      cases failed
    | error e =>
      rw [flushed] at failed
      cases failed
      obtain ⟨s', -, same, keeps⟩ :=
        (Engine.failed_flush_keeps_iff (sampleEnv 1000) _ new).1 failingDraw _ t
          ⟨oldest, l, popped, flushed⟩
      exact ⟨w, s, _, s', run, active, Prod.ext froze rfl, same, fun kept => alone (keeps.mp kept)⟩

/-- A close whose flush fails takes the put from memory. -/
theorem closed_loses :
    ∃ w s, exec (step (sampleEnv 1000)) {} heldRun = some w ∧ w.engine = some s ∧
      (Engine.close (sampleEnv 1000) (fun _ => failingDraw) s).1 = .error (.io "put") ∧
      (Engine.get ⟨4096, 10, fun _ _ => true⟩ {} ⟨[114]⟩ ⟨[1]⟩ s).map
        (fun r => r.map GetResult.value) = .ok (some ⟨[7]⟩) ∧
      (Engine.get ⟨4096, 10, fun _ _ => true⟩ {} ⟨[114]⟩ ⟨[1]⟩
        (Engine.close (sampleEnv 1000) (fun _ => failingDraw) s).2).map
          (fun r => r.map GetResult.value) = .ok none ∧
      ¬ Engine.KeepsMemory s (Engine.close (sampleEnv 1000) (fun _ => failingDraw) s).2 := by
  have ends : ((exec (step (sampleEnv 1000)) {} heldRun).bind World.engine).map (fun s =>
      ((Engine.close (sampleEnv 1000) (fun _ => failingDraw) s).1,
        (Engine.get ⟨4096, 10, fun _ _ => true⟩ {} ⟨[114]⟩ ⟨[1]⟩ s).map
          (fun r => r.map GetResult.value),
        (Engine.get ⟨4096, 10, fun _ _ => true⟩ {} ⟨[114]⟩ ⟨[1]⟩
          (Engine.close (sampleEnv 1000) (fun _ => failingDraw) s).2).map
            (fun r => r.map GetResult.value))) =
      some (.error (.io "put"), .ok (some ⟨[7]⟩), .ok none) := by decide +kernel
  obtain ⟨s, found, held⟩ := Option.map_eq_some_iff.mp ends
  obtain ⟨w, run, active⟩ := Option.bind_eq_some_iff.mp found
  obtain ⟨failed, rest⟩ := Prod.mk.inj held
  obtain ⟨before, after⟩ := Prod.mk.inj rest
  refine ⟨w, s, run, active, failed, before, after, ?_⟩
  intro keeps
  cases read : Engine.get ⟨4096, 10, fun _ _ => true⟩ {} ⟨[114]⟩ ⟨[1]⟩ s with
  | error e =>
    rw [read] at before
    cases before
  | ok r =>
    rw [read] at before
    cases r with
    | none => cases Except.ok.inj before
    | some result =>
      rw [keeps.gets _ _ _ _ result read] at after
      cases Except.ok.inj after

end Example

end World

end FlushDB
