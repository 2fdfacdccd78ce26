import FlushDB.Engine.Reads
import FlushDB.Engine.Sharing

/-!
Reads and whole steps of an engine beside others: what the caller is told is what the engine would
say alone.
-/

namespace FlushDB
open Lib

variable {own : SstId → Prop} {base : Tables}

section Reads
variable (renv : ReadEnv) (draw : ReadDraw) {a b : Tables} {key : CompositeKey}

namespace SSTableHandle
variable {x : SSTableHandle}

theorem mayContainRecord_beside (h : Tables.Beside own base a b) (mine : own x.path.file)
    (recordId : Bytes) :
    x.mayContainRecord renv b recordId = x.mayContainRecord renv a recordId := by
  unfold mayContainRecord Tables.entries
  rw [h.mine x.path mine]

theorem index_beside (h : Tables.Beside own base a b) (mine : own x.path.file) :
    x.index renv b = x.index renv a := by
  unfold index
  rw [h.mine x.path mine]

theorem get_beside (h : Tables.Beside own base a b) (mine : own x.path.file) :
    x.get renv draw b key = x.get renv draw a key := by
  unfold get
  rw [mayContainRecord_beside renv h mine, index_beside renv h mine]

theorem getBudgeted_beside (h : Tables.Beside own base a b) (mine : own x.path.file)
    (budget : ReadBudget) :
    x.getBudgeted renv draw b key budget = x.getBudgeted renv draw a key budget := by
  unfold getBudgeted
  rw [mayContainRecord_beside renv h mine, index_beside renv h mine]

theorem scan_beside (h : Tables.Beside own base a b) (mine : own x.path.file) (start : CompositeKey)
    (stop : Option CompositeKey) :
    x.scan renv draw b start stop = x.scan renv draw a start stop := by
  unfold scan
  rw [index_beside renv h mine]

end SSTableHandle

namespace LevelState
variable {l : LevelState}

theorem findCandidatesForKey_beside (h : Tables.Beside own base a b)
    (mine : ∀ x ∈ l.handles, own x.path.file) :
    l.findCandidatesForKey renv b key = l.findCandidatesForKey renv a key := by
  unfold findCandidatesForKey
  split
  · refine List.filter_congr ?_
    intro x member
    rw [SSTableHandle.mayContainRecord_beside renv h (mine x member)]
  · rfl

theorem findCandidatesForKey_subset {x : SSTableHandle}
    (member : x ∈ l.findCandidatesForKey renv a key) : x ∈ l.handles := by
  unfold findCandidatesForKey at member
  split at member
  · exact (List.mem_filter.mp member).1
  · split at member
    · rename_i found
      split at member
      · rw [List.mem_singleton.mp member]
        exact List.mem_of_getElem? found
      · cases member
    · cases member

end LevelState

namespace ReadPath

theorem searchHandles_beside (h : Tables.Beside own base a b) {handles : List SSTableHandle}
    (mine : ∀ x ∈ handles, own x.path.file) (best : Option MergeEntry) :
    searchHandles renv draw b key handles best = searchHandles renv draw a key handles best := by
  induction handles generalizing best with
  | nil => rfl
  | cons x rest ih =>
    have others := ih fun y member => mine y (List.mem_cons_of_mem _ member)
    simp only [searchHandles, SSTableHandle.get_beside renv draw h (mine x List.mem_cons_self), others]

theorem pointRead_beside (h : Tables.Beside own base a b) (l : MemtableList)
    {levels : List LevelState} (mine : Levels.Owned own levels) :
    pointRead renv draw key l b levels = pointRead renv draw key l a levels := by
  have candidates : (levels.flatMap fun level => level.findCandidatesForKey renv b key) =
      levels.flatMap fun level => level.findCandidatesForKey renv a key := by
    refine List.flatMap_congr ?_
    intro level member
    exact LevelState.findCandidatesForKey_beside renv h (mine level member)
  unfold pointRead
  rw [candidates, searchHandles_beside renv draw h]
  intro x member
  obtain ⟨level, listed, candidate⟩ := List.mem_flatMap.mp member
  exact mine level listed x (LevelState.findCandidatesForKey_subset renv candidate)

theorem multiGet_beside (h : Tables.Beside own base a b) (recordId : Bytes) (l : MemtableList)
    {levels : List LevelState} (mine : Levels.Owned own levels) (keys : List Bytes) :
    multiGet renv draw recordId l b levels keys = multiGet renv draw recordId l a levels keys := by
  induction keys with
  | nil => rfl
  | cons itemKey rest ih => simp only [multiGet, pointRead_beside renv draw h l mine, ih]

theorem scanHandles_beside (h : Tables.Beside own base a b) (start stop : CompositeKey)
    {handles : List SSTableHandle} (mine : ∀ x ∈ handles, own x.path.file) :
    scanHandles renv draw b start stop handles = scanHandles renv draw a start stop handles := by
  induction handles with
  | nil => rfl
  | cons x rest ih =>
    have others := ih fun y member => mine y (List.mem_cons_of_mem _ member)
    simp only [scanHandles, SSTableHandle.scan_beside renv draw h (mine x List.mem_cons_self), others]

theorem rangeRead_beside (h : Tables.Beside own base a b) (recordId : Bytes)
    (startKey endKey : Option Bytes) (options : RangeReadOptions) (l : MemtableList)
    {levels : List LevelState} (mine : Levels.Owned own levels) :
    rangeRead renv draw recordId startKey endKey options l b levels =
      rangeRead renv draw recordId startKey endKey options l a levels := by
  have sources : ∀ start stop, readSources renv draw l b levels start stop =
      readSources renv draw l a levels start stop := by
    intro start stop
    unfold readSources
    rw [scanHandles_beside renv draw h]
    intro x member
    obtain ⟨level, listed, candidate⟩ := List.mem_flatMap.mp member
    exact mine level listed x (List.mem_filter.mp candidate).1
  unfold rangeRead
  simp only [sources]

end ReadPath

namespace Engine

theorem searchBudgeted_beside (h : Tables.Beside own base a b) {handles : List SSTableHandle}
    (mine : ∀ x ∈ handles, own x.path.file) (best : Option MergeEntry) (budget : ReadBudget) :
    searchBudgeted renv draw b key handles best budget =
      searchBudgeted renv draw a key handles best budget := by
  induction handles generalizing best budget with
  | nil => rfl
  | cons x rest ih =>
    have others := ih fun y member => mine y (List.mem_cons_of_mem _ member)
    simp only [searchBudgeted, SSTableHandle.getBudgeted_beside renv draw h (mine x List.mem_cons_self), others]

theorem searchLevels_beside (h : Tables.Beside own base a b) {levels : List LevelState}
    (mine : Levels.Owned own levels) (best : Option MergeEntry) (budget : ReadBudget) :
    searchLevels renv draw b key levels best budget =
      searchLevels renv draw a key levels best budget := by
  induction levels generalizing best budget with
  | nil => rfl
  | cons level rest ih =>
    have here := mine level List.mem_cons_self
    have others := ih fun l member => mine l (List.mem_cons_of_mem _ member)
    have mine : ∀ x ∈ level.findCandidatesForKey renv a key, own x.path.file := fun x member =>
      here x (LevelState.findCandidatesForKey_subset renv member)
    simp only [searchLevels, LevelState.findCandidatesForKey_beside renv h here,
      searchBudgeted_beside renv draw h mine, others]

variable {s t : Engine}

theorem get_beside (h : Beside own base s t) (recordId itemKey : Bytes) :
    get renv draw recordId itemKey t = get renv draw recordId itemKey s := by
  obtain ⟨tables, rfl, shared, owned⟩ := h.split
  unfold get
  simp only [searchLevels_beside renv draw shared owned.handles]

theorem scan_beside (h : Beside own base s t) (recordId : Bytes) (startKey endKey : Option Bytes)
    (options : RangeReadOptions) :
    scan renv draw recordId startKey endKey options t =
      scan renv draw recordId startKey endKey options s := by
  obtain ⟨tables, rfl, shared, owned⟩ := h.split
  exact ReadPath.rangeRead_beside renv draw shared recordId startKey endKey options s.memtableList
    owned.handles

theorem multiGet_beside (h : Beside own base s t) (recordId : Bytes) (keys : List Bytes) :
    multiGet renv draw recordId keys t = multiGet renv draw recordId keys s := by
  obtain ⟨tables, rfl, shared, owned⟩ := h.split
  unfold multiGet
  rw [ReadPath.multiGet_beside renv draw shared recordId s.memtableList owned.handles]

end Engine

end Reads

section Opening
variable {env : Env}

theorem recover_beside (nowMs : Nat) {s t : Stored} (h : Stored.Beside own base s t) :
    ∃ r u v, recover env nowMs s = (r, u) ∧ recover env nowMs t = (r, v) ∧
      Stored.Beside own base u v ∧
      ∀ x, r = .ok x → x.manifest.Owned own ∧ Levels.Owned own x.levels := by
  obtain ⟨frame, shared, owned⟩ := h
  generalize t.tables = tables at frame shared
  subst frame
  have fresh : (⟨ManifestManager.new env.config.ns nowMs env.config.manifestConfig, s.manifests⟩ :
      ManifestState).Owned own :=
    ⟨owned, Manifest.owned_empty _ _⟩
  have loaded := fresh.loadLatest nowMs
  unfold recover
  dsimp only
  cases load : ManifestState.loadLatest nowMs
    ⟨ManifestManager.new env.config.ns nowMs env.config.manifestConfig, s.manifests⟩ with
  | mk r m =>
    rw [load] at loaded
    cases r with
    | error e =>
      refine ⟨_, _, _, rfl, rfl, ⟨rfl, shared, loaded.stored⟩, ?_⟩
      rintro x ⟨⟩
    | ok =>
      dsimp only
      rw [Engine.openLevels_beside shared loaded.current]
      have levels_owned := Engine.openLevels_owned (a := s.tables) loaded.current Level.all
      cases opened : Engine.openLevels s.tables m.manager.current Level.all with
      | mk r levels =>
        rw [opened] at levels_owned
        cases r with
        | error e =>
          refine ⟨_, _, _, rfl, rfl, ⟨rfl, shared, loaded.stored⟩, ?_⟩
          rintro x ⟨⟩
        | ok =>
          dsimp only
          cases replay (WalReader.replayFrom s.wal m.manager.current.lastFlushedSequence)
            m.manager.current.lastFlushedSequence
              (MemtableList.new env.config.memtableConfig (m.manager.current.lastFlushedSequence + 1)) with
          | error e =>
            refine ⟨_, _, _, rfl, rfl, ⟨rfl, shared, loaded.stored⟩, ?_⟩
            rintro x ⟨⟩
          | ok replayed =>
            refine ⟨_, _, _, rfl, rfl, ⟨rfl, shared, loaded.stored⟩, ?_⟩
            rintro x ⟨⟩
            exact ⟨loaded, levels_owned⟩

/-- Opening reads and stores the same, whatever others keep in the directory. -/
theorem Engine.openStored_beside (nowMs : Nat) (fault : Option OpenFault) {s t : Stored}
    (h : Stored.Beside own base s t) :
    (∃ e u v, openStored env nowMs fault s = (.error e, u) ∧
      openStored env nowMs fault t = (.error e, v) ∧ Stored.Beside own base u v) ∨
      ∃ x y u v, openStored env nowMs fault s = (.ok x, u) ∧
        openStored env nowMs fault t = (.ok y, v) ∧
        Engine.Beside own base x y ∧ Stored.Beside own base u v := by
  obtain ⟨r, u, v, left, right, ⟨frame, shared, owned⟩, made⟩ :=
    @recover_beside own base env nowMs s t h
  generalize v.tables = tables at frame shared
  subst frame
  unfold openStored
  rw [left, right]
  cases r with
  | error e => exact Or.inl ⟨e, _, _, rfl, rfl, rfl, shared, owned⟩
  | ok recovered =>
    obtain ⟨manifest, levels⟩ := made recovered rfl
    dsimp only
    split
    · exact Or.inl ⟨_, _, _, rfl, rfl, rfl, shared, owned⟩
    have acquired := manifest.acquireEpoch .writer nowMs
    cases acquire : recovered.manifest.acquireEpoch .writer nowMs with
    | mk r m =>
      rw [acquire] at acquired
      cases r with
      | error e => exact Or.inl ⟨_, _, _, rfl, rfl, rfl, shared, acquired.stored⟩
      | ok =>
        dsimp only
        split
        · exact Or.inl ⟨_, _, _, rfl, rfl, rfl, shared, acquired.stored⟩
        cases WalWriter.openDir u.wal env.config.walConfig with
        | error e => exact Or.inl ⟨_, _, _, rfl, rfl, rfl, shared, acquired.stored⟩
        | ok opened =>
          exact Or.inr ⟨_, _, _, _, rfl, rfl, ⟨rfl, shared, ⟨acquired.stored, acquired.current⟩,
            levels⟩, rfl, shared, acquired.stored⟩

end Opening

namespace World
variable {env : Env}

/-- What the caller of a step is told; nothing when the step is not enabled. -/
def answer (env : Env) (w : World) : Label → Option (FlushResult (Option Nat))
  | .openEngine nowMs fault =>
    match w.engine with
    | some _ => none
    | none => some ((Engine.openStored env nowMs fault w.stored).1.map fun _ => none)
  | .crash _ => w.engine.map fun _ => .ok none
  | .put recordId itemKey value metadata idempotencyToken draw =>
    w.engine.map fun s => (Engine.put env w.writes recordId itemKey value metadata idempotencyToken
      draw s).1.map some
  | .putBatch recordId items pressured late draws =>
    w.engine.map fun s => (Engine.putBatch env w.writes recordId items pressured late draws s).1.map some
  | .delete recordId itemKey draw =>
    w.engine.map fun s => (Engine.delete env w.writes recordId itemKey draw s).1.map some
  | .deleteRange recordId startKey endKey draw =>
    w.engine.map fun s => (Engine.deleteRange env w.writes recordId startKey endKey draw s).1.map some
  | .maybeFlush draw => w.engine.map fun s => (Engine.maybeFlush env draw s).1.map fun _ => none
  | .runMaintenance aged draw =>
    w.engine.map fun s => (Engine.runMaintenance env aged draw s).1.map fun _ => none
  | .maybeCompact draw => w.engine.map fun s => (Engine.maybeCompact env draw s).1.map fun _ => none
  | .close draw => w.engine.map fun s => (Engine.close env draw s).1.map fun _ => none

/-- The answer and the state after it; a step that is not enabled changes nothing. -/
def turn (env : Env) (label : Label) (w : World) : Option (FlushResult (Option Nat)) × World :=
  (w.answer env label, (step env w label).getD w)

structure Beside (own : SstId → Prop) (base : Tables) (w v : World) : Prop where
  stored : Stored.Beside own base w.stored v.stored
  engine : Option.Rel (Engine.Beside own base) w.engine v.engine
  writes : v.writes = w.writes
  acked : v.acked = w.acked

section Turn
variable {w v : World}

theorem wrote_beside (h : Beside own base w v) {s t x y : Engine}
    (same : Engine.Beside own base s t) (after : Engine.Beside own base x y)
    (entries : List MemtableEntry) (result : FlushResult (Option Nat)) :
    Beside own base (w.wrote s entries result x) (v.wrote t entries result y) := by
  have wal : t.walManager = s.walManager := by rw [same.frame]
  refine ⟨h.stored, .some after, ?_, ?_⟩
  · show v.writes + _ = w.writes + _
    rw [h.writes]
  · simp only [wrote, wal, h.acked]

theorem prepared_beside (h : Beside own base w v) {s t : Engine} (same : Engine.Beside own base s t)
    (label : Label) :
    prepared env v t label = prepared env w s label := by
  obtain ⟨tables, rfl, -, -⟩ := same.split
  cases label <;> simp only [prepared, h.writes] <;> rfl

/-- A call of the open engine, and what the world is after it. -/
theorem calling_alike {α : Type} (h : Beside own base w v) {f : Engine → FlushResult α × Engine}
    (alike : Alike (Engine.Beside own base) f) (tell : FlushResult α → FlushResult (Option Nat))
    (left right : Engine → FlushResult α → Engine → World)
    (kept : ∀ s t r x y, Engine.Beside own base s t → Engine.Beside own base x y →
      Beside own base (left s r x) (right t r y)) :
    ∃ a x y, (w.engine.map (fun s => tell (f s).1),
      (w.engine.map fun s => left s (f s).1 (f s).2).getD w) = (a, x) ∧
      (v.engine.map (fun s => tell (f s).1), (v.engine.map fun s => right s (f s).1 (f s).2).getD
        v) = (a, y) ∧ Beside own base x y := by
  have engine := h.engine
  cases opened : w.engine with
  | none =>
    rw [opened] at engine
    cases beside : v.engine with
    | none => exact ⟨_, _, _, rfl, rfl, h⟩
    | some t =>
      rw [beside] at engine
      cases engine
  | some s =>
    rw [opened] at engine
    cases beside : v.engine with
    | none =>
      rw [beside] at engine
      cases engine
    | some t =>
      rw [beside] at engine
      cases engine with
      | some related =>
        obtain ⟨r, x, y, first, second, after⟩ := alike s t related
        refine ⟨some (tell r), left s r x, right t r y, ?_, ?_, kept s t r x y related after⟩
        · simp only [Option.map_some, first, Option.getD_some]
        · simp only [Option.map_some, second, Option.getD_some]

theorem opening_alike (h : Beside own base w v) (nowMs : Nat) (fault : Option OpenFault) :
    ∃ a x y, turn env (.openEngine nowMs fault) w = (a, x) ∧
      turn env (.openEngine nowMs fault) v = (a, y) ∧ Beside own base x y := by
  have engine := h.engine
  cases opened : w.engine with
  | some s =>
    rw [opened] at engine
    cases beside : v.engine with
    | none =>
      rw [beside] at engine
      cases engine
    | some t =>
      refine ⟨none, w, v, ?_, ?_, h⟩
      · simp only [turn, answer, step, opened, Option.getD_none]
      · simp only [turn, answer, step, beside, Option.getD_none]
  | none =>
    rw [opened] at engine
    cases beside : v.engine with
    | some t =>
      rw [beside] at engine
      cases engine
    | none =>
      rcases @Engine.openStored_beside own base env nowMs fault w.stored v.stored h.stored with
        ⟨e, s, t, left, right, after⟩ | ⟨x, y, s, t, left, right, made, after⟩
      · refine ⟨some (.error e), { w with stored := s }, { v with stored := t }, ?_, ?_, after,
          h.engine, h.writes, h.acked⟩
        · simp only [turn, answer, step, opened, left, Option.getD_some, Except.map]
        · simp only [turn, answer, step, beside, right, Option.getD_some, Except.map]
      · refine ⟨some (.ok none), { w with stored := s, engine := some x },
          { v with stored := t, engine := some y }, ?_, ?_,
          after, .some made, h.writes, h.acked⟩
        · simp only [turn, answer, step, opened, left, Option.getD_some, Except.map]
        · simp only [turn, answer, step, beside, right, Option.getD_some, Except.map]

theorem crashing_alike (h : Beside own base w v) (torn : List MemtableEntry) :
    ∃ a x y, turn env (.crash torn) w = (a, x) ∧ turn env (.crash torn) v = (a, y) ∧
      Beside own base x y := by
  refine calling_alike h (f := fun s => (.ok (), s)) (Alike.pure _) (fun _ => .ok none)
    (fun s _ _ => _) (fun s _ _ => _) ?_
  intro s t _ _ _ same _
  obtain ⟨tables, rfl, shared, owned⟩ := same.split
  refine ⟨?_, .none, ?_, h.acked⟩
  · dsimp only
    rw [h.writes]
    exact ⟨rfl, shared, owned.stored⟩
  · show v.writes + _ = w.writes + _
    rw [h.writes]

/-- A step of an engine beside others answers and stores as it would alone. -/
theorem turn_alike (named : env.Draws own) (label : Label) :
    Alike (Beside own base) (turn env label) := by
  intro w v h
  have kept : ∀ (s t : Engine) (_ : FlushResult Unit) x y, Engine.Beside own base s t →
      Engine.Beside own base x y →
      Beside own base { w with engine := some x } { v with engine := some y } :=
    fun _ _ _ _ _ _ after => ⟨h.stored, .some after, h.writes, h.acked⟩
  have wrote : ∀ {α : Type} (tell : FlushResult α → FlushResult (Option Nat)) (s t : Engine)
      (r : FlushResult α) x y,
      Engine.Beside own base s t → Engine.Beside own base x y →
      Beside own base (w.wrote s (prepared env w s label) (tell r) x)
        (v.wrote t (prepared env v t label) (tell r) y) := by
    intro α tell s t r x y same after
    rw [prepared_beside h same]
    exact wrote_beside h same after _ _
  cases label with
  | openEngine nowMs fault => exact opening_alike h nowMs fault
  | crash torn => exact crashing_alike h torn
  | put recordId itemKey value metadata token draw =>
    have alike := @Engine.put_alike own base env named w.writes recordId itemKey value metadata
      token draw
    simp only [turn, answer, step]
    rw [h.writes]
    exact calling_alike h alike (fun r => r.map some) _ _ (wrote fun r => r.map some)
  | putBatch recordId items pressured late draws =>
    have alike := @Engine.putBatch_alike own base env named w.writes recordId items pressured late draws
    simp only [turn, answer, step]
    rw [h.writes]
    exact calling_alike h alike (fun r => r.map some) _ _ (wrote fun r => r.map fun _ => none)
  | delete recordId itemKey draw =>
    have alike := @Engine.delete_alike own base env named w.writes recordId itemKey draw
    simp only [turn, answer, step]
    rw [h.writes]
    exact calling_alike h alike (fun r => r.map some) _ _ (wrote fun r => r.map some)
  | deleteRange recordId startKey endKey draw =>
    have alike := @Engine.deleteRange_alike own base env named w.writes recordId startKey endKey draw
    simp only [turn, answer, step]
    rw [h.writes]
    exact calling_alike h alike (fun r => r.map some) _ _ (wrote fun r => r.map some)
  | maybeFlush draw => exact calling_alike h (Engine.maybeFlush_alike named draw) _ _ _ kept
  | runMaintenance aged draw =>
    exact calling_alike h (Engine.runMaintenance_alike named aged draw) _ _ _ kept
  | maybeCompact draw => exact calling_alike h (Engine.maybeCompact_alike named draw) _ _ _ kept
  | close draw => exact calling_alike h (Engine.close_alike named draw) _ _ _ kept

end Turn

end World

end FlushDB
