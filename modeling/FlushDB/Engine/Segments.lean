import FlushDB.Engine.Durability
import FlushDB.Engine.Reach
import FlushDB.Wal.Attribution

/-!
The removal of log segments. A write is recorded for its segment under the generation of the
memtable that is active when it is logged, and a flush removes the segments whose last generation
it was. So a segment must not hold an entry that goes to a later memtable: a batch that freezes
the memtable before its last entry breaks this.
-/

namespace FlushDB
open Lib ManifestBucket

namespace WalEntry

/-- The log entry was made from `x`, whatever the two are numbered. -/
def Records (e : WalEntry) (x : MemtableEntry) : Prop :=
  e = { fromMemtableEntry x e.ns with sequenceNumber := e.sequenceNumber }

/-- The entry is in a table that the newest manifest lists. -/
def Contained (e : WalEntry) (st : Stored) : Prop :=
  ∃ x, e.Records x ∧ st.Copy (MergeEntry.fromMemtableEntry x)

/-- The entry is in the active memtable. -/
def Buffered (e : WalEntry) (s : Engine) : Prop := ∃ x ∈ s.nodes, e.Records x

end WalEntry

namespace Engine
variable {env : Env} {s t : Engine}

/-- The tracker accounts for the entries of every segment that may be removed. -/
def Accounted (s : Engine) : Prop :=
  s.walManager.Accounts (fun e => e.Contained s.toStored)
    (fun e => e.Buffered s) s.generationCounter s.wal

theorem Launched.accounted {st : Stored} (h : Launched env st s) : Accounted s := by
  refine WalManager.accounts_fresh h.tracker ?_
  intro segment found
  exact WalWriter.openDir_fresh h.writer found

/-- Whatever the end of a call removes from the log is in the tables. -/
theorem Accounted.rolled (account : Accounted s) {commits : Bool} {r : FlushResult Unit}
    (rolls : Rolled commits r s t) (quiet : t.compactions = s.compactions) :
    Accounted t ∧ ∀ k segment, s.wal.get k = some segment → t.wal.get k = none →
      ∀ e ∈ segment.entries, e.Contained t.toStored := by
  rcases rolls with rfl | ⟨dropped, -⟩ | ⟨committed, -⟩
  · refine ⟨account, ?_⟩
    intro k segment found gone
    rw [found] at gone
    cases gone
  · have same : ∀ e : WalEntry, e.Contained s.toStored → e.Contained t.toStored := by
      rintro e ⟨x, records, copy⟩
      exact ⟨x, records, (dropped.copies _).mpr copy⟩
    refine ⟨?_, ?_⟩
    · unfold Accounted
      rw [dropped.walManager, dropped.wal, dropped.generation]
      exact (WalManager.Accounts.dropped account).mono same fun _ waits => Or.inr waits
    · intro k segment found gone
      rw [dropped.wal, found] at gone
      cases gone
  · have finish : ∀ e : WalEntry, e.Contained s.toStored ∨ e.Buffered s →
        e.Contained t.toStored := by
      rintro e (⟨x, records, copy⟩ | ⟨x, member, records⟩)
      · exact ⟨x, records, committed.kept quiet _ (Or.inl copy)⟩
      · exact ⟨x, records, committed.kept quiet _ (Or.inr ⟨x, member, rfl⟩)⟩
    obtain ⟨failing, removed, cleans⟩ := committed.cleaned
    obtain ⟨left, gone⟩ := WalManager.Accounts.flushed account finish cleans
    refine ⟨?_, gone⟩
    unfold Accounted
    rw [committed.generation]
    exact left

/-- The entries of a write wait for the memtable they are in. -/
theorem Accounted.wrote (account : Accounted s) (opened : s.walManager.writer.Open s.wal)
    {entries : List MemtableEntry} {first : Nat}
    (wrote : Wrote env entries (renumber first entries) s t)
    (apart : ∀ x ∈ s.nodes, ∀ y ∈ renumber first entries,
      ¬ (x.compositeKey = y.compositeKey ∧ x.sequenceNumber = y.sequenceNumber)) :
    Accounted t := by
  obtain ⟨late, appended⟩ := wrote.appended
  have generation : t.generationCounter = s.generationCounter := by rw [wrote.frame]
  have moved : s.walManager.Accounts (fun e => e.Contained t.toStored)
      (fun e => e.Buffered t) s.generationCounter s.wal := by
    refine WalManager.Accounts.mono account ?_ ?_
    · rintro e ⟨x, records, copy⟩
      exact ⟨x, records, wrote.copy_iff.mpr copy⟩
    · rintro e ⟨x, member, records⟩
      exact Or.inr ⟨x, wrote.stays x member (apart x member), records⟩
  unfold Accounted
  rw [generation]
  refine moved.append opened appended ?_
  intro e new
  rw [WalWriter.assign_eq, logged] at new
  obtain ⟨i, bound, rfl⟩ := List.mem_mapIdx.mp new
  rw [List.length_map] at bound
  have found : entries[i]? = some entries[i] := List.getElem?_eq_getElem bound
  refine ⟨{ entries[i] with sequenceNumber := first + i },
    wrote.added _ (World.renumber_mem found first), ?_⟩
  rw [List.getElem_map]
  rfl

theorem Accounted.compacted (account : Accounted s) (compacts : Compacted env s t)
    (quiet : t.compactions = s.compactions) :
    Accounted t := by
  have manager : t.walManager = s.walManager := by rw [compacts.frame]
  have generation : t.generationCounter = s.generationCounter := by rw [compacts.frame]
  obtain ⟨wal, -, -, -, nodes⟩ := compacts.unchanged
  unfold Accounted
  rw [manager, generation, wal]
  refine WalManager.Accounts.mono account ?_ ?_
  · rintro e ⟨x, records, copy⟩
    exact ⟨x, records, compacts.kept quiet _ copy⟩
  · rintro e ⟨x, member, records⟩
    exact Or.inr ⟨x, nodes ▸ member, records⟩

end Engine

namespace World

section
variable (env : Env) (w : World)

/-- A batch does not freeze the memtable before its last entry, and none of its entries has the
key and the number of an entry of the memtable. -/
def Whole : Label → Prop
  | .putBatch recordId items pressured late draws =>
    (∀ i < items.length, 0 < i → (draws i).freeze = false) ∧
    ∀ s ∈ w.engine, ∀ x ∈ s.nodes,
      ∀ e ∈ prepared env w s (.putBatch recordId items pressured late draws),
      ¬ (x.compositeKey = e.compositeKey ∧ x.sequenceNumber = e.sequenceNumber)
  | _ => True

instance : (a : Label) → Decidable (Whole env w a)
  | .putBatch _ items _ _ draws =>
    inferInstanceAs (Decidable ((∀ i < items.length, 0 < i → (draws i).freeze = false) ∧
    ∀ s ∈ w.engine, ∀ x ∈ s.nodes, ∀ e ∈ prepared env w s _, ¬ (_ ∧ _)))
  | .openEngine ..
  | .put ..
  | .delete .. | .deleteRange .. | .maybeFlush _ | .runMaintenance .. | .maybeCompact _ | .close _
  | .crash _ => isTrue trivial

/-- The log when the call has appended its entries. -/
def logDir (a : Label) : WalDir :=
  match w.engine with
  | none => w.stored.wal
  | some s =>
    match prepared env w s a with
    | [] => s.wal
    | first :: rest =>
      match s.walManager.writer.appendBatch s.wal (Engine.logged env (first :: rest)) with
      | .error _ => s.wal
      | .ok (_, dir) => dir

end

section Preserved
variable {env : Env} {w w' : World} {a : Label}

theorem logDir_idle {s : Engine} (active : w.engine = some s) (nothing : prepared env w s a = []) :
    logDir env w a = s.wal := by
  unfold logDir
  rw [active]
  dsimp only
  rw [nothing]

theorem Written.logDir_eq {s t : Engine} {entries : List MemtableEntry} {first : Nat}
    (active : w.engine = some s) (written : Written env a w s entries first t) :
    logDir env w a = t.wal := by
  obtain ⟨late, appended⟩ := written.wrote.appended
  obtain ⟨head, rest, split_entries⟩ := List.exists_cons_of_ne_nil written.nonempty
  have made : prepared env w s a = head :: rest := written.made.symm.trans split_entries
  have batch := (WalManager.append_ok appended).1
  rw [split_entries] at batch
  unfold logDir
  rw [active]
  dsimp only
  rw [made]
  dsimp only
  rw [batch]

/-- An append adds no more than an empty segment. -/
theorem logDir_new {s : Engine} (active : w.engine = some s)
    (opened : s.walManager.writer.Open s.wal) {k : Nat} {segment : Segment}
    (found : (logDir env w a).get k = some segment) (absent : s.wal.get k = none) :
    segment.entries = [] := by
  unfold logDir at found
  rw [active] at found
  dsimp only at found
  split at found
  · rw [absent] at found
    cases found
  rename_i first rest _
  split at found
  · rw [absent] at found
    cases found
  rename_i writer dir appended
  have append : s.walManager.append s.wal (Engine.logged env (first :: rest)) s.generationCounter
      false =
      .ok (⟨writer, s.walManager.dirtyTracker.recordWrite s.walManager.writer.currentSegment
        s.generationCounter⟩, dir) := by
    unfold WalManager.append
    rw [appended]
    rfl
  rcases WalManager.append_segments opened append found with ⟨-, old, before, -⟩ | ⟨-, before⟩ | empty
  · rw [absent] at before
    cases before
  · rw [absent] at before
    cases before
  · exact empty

theorem prepared_of_other (env : Env) (w : World) (s : Engine) (other : a.isWrite = false) :
    prepared env w s a = [] := by
  cases a with
  | put | putBatch | delete | deleteRange => cases other
  | _ => rfl

theorem Whole.free {s : Engine} (h : Whole env w a) (active : w.engine = some s)
    (batch : a.isBatch = true) :
    ∀ x ∈ s.nodes, ∀ e ∈ prepared env w s a, ¬ (x.compositeKey = e.compositeKey ∧
      x.sequenceNumber = e.sequenceNumber) := by
  cases a with
  | putBatch recordId items pressured late draws => exact h.2 s active
  | _ => cases batch

/-- Since a state with `count` compactions: the tracker accounts for the log as long as there is no
further one. -/
structure AccountedSince (env : Env) (count : Nat) (w : World) : Prop where
  ready : Ready env w
  fewer : count ≤ w.disk.compactions
  engine : ∀ s, w.engine = some s → s.compactions = count → s.Accounted

theorem accountedSince_of_engine {count : Nat} {s : Engine} (active : w.engine = some s)
    (ready : Ready env w) (fewer : count ≤ s.compactions)
    (account : s.compactions = count → s.Accounted) : AccountedSince env count w := by
  refine ⟨ready, ?_, ?_⟩
  · rw [disk_of_engine active]
    exact fewer
  · intro t same
    obtain rfl := Option.some.inj (active.symm.trans same)
    exact account

/-- Of a log that keeps its segments nothing has to be found elsewhere. -/
theorem contained_of_kept {dir dir' : WalDir}
    (keeps : ∀ k segment, dir.get k = some segment → (dir'.get k).isSome) {st : Stored} :
    ∀ k segment, dir.get k = some segment → dir'.get k = none →
      ∀ e ∈ segment.entries, e.Contained st := by
  intro k segment found gone
  have still := keeps k segment found
  rw [gone] at still
  cases still

/-- A session that opens keeps all segments; it starts accounted for when no compaction has run. -/
theorem accounted_open {count nowMs : Nat} {fault : Option OpenFault}
    (h : AccountedSince env count w) (ready : w'.Ready env)
    (taken : step env w (.openEngine nowMs fault) = some w') :
    AccountedSince env count w' ∧ ∀ k segment, (logDir env w (.openEngine nowMs fault)).get k =
      some segment →
      w'.disk.wal.get k = none → ∀ e ∈ segment.entries, e.Contained w'.disk := by
  obtain ⟨closed, opening⟩ := openEngine_cases h.ready.stored taken
  have fewer := h.fewer
  rw [disk_closed closed] at fewer
  have log : logDir env w (.openEngine nowMs fault) = w.stored.wal := by
    unfold logDir
    rw [closed]
  rw [log]
  rcases opening with ⟨st, reloaded, rfl⟩ | ⟨s, launched, rfl⟩
  · have disk : World.disk { w with stored := st } = st := disk_closed closed
    have count_eq : st.compactions = w.stored.compactions := by rw [reloaded.frame]
    have wal : st.wal = w.stored.wal := by rw [reloaded.frame]
    refine ⟨⟨ready, ?_, ?_⟩, ?_⟩
    · rw [disk, count_eq]
      exact fewer
    · intro s active
      rw [show w.engine = some s from active] at closed
      cases closed
    · rw [disk]
      apply contained_of_kept
      intro k segment found
      rw [wal, found]
      rfl
  · have since : count ≤ s.compactions := by
      rw [launched.compactions]
      exact fewer
    refine ⟨accountedSince_of_engine rfl ready since fun _ => launched.accounted, ?_⟩
    show ∀ k segment, w.stored.wal.get k = some segment → s.wal.get k = none → _
    apply contained_of_kept
    intro k segment found
    obtain ⟨absent, start, made⟩ := WalWriter.openDir_created launched.writer
    rw [made, ObjectStore.extends_put _ absent k segment found]
    rfl

/-- A crash may add torn entries to the newest segment and removes none. -/
theorem accounted_crash {count : Nat} {torn : List MemtableEntry} (h : AccountedSince env count w)
    (ready : w'.Ready env) (taken : step env w (.crash torn) = some w') :
    AccountedSince env count w' ∧ ∀ k segment, (logDir env w (.crash torn)).get k = some segment →
      w'.disk.wal.get k = none → ∀ e ∈ segment.entries, e.Contained w'.disk := by
  obtain ⟨s, active, rfl⟩ := Option.map_eq_some_iff.mp taken
  have fewer := h.fewer
  rw [disk_of_engine active] at fewer
  refine ⟨⟨ready, fewer, nofun⟩, ?_⟩
  rw [logDir_idle active rfl]
  apply contained_of_kept
  intro k segment found
  obtain ⟨current, there, -⟩ := (h.ready.engine s active).opened.current
  show ((WalWriter.writeEntries s.wal _ _).get k).isSome
  simp only [WalWriter.writeEntries, there]
  rw [ObjectStore.get_put]
  split
  · rfl
  · rw [found]
    rfl

/-- One step keeps the account, and what it removes from the log is in the tables. -/
theorem accounted_step (unique : Function.Injective env.ulid) {count : Nat}
    (h : AccountedSince env count w) (whole : Whole env w a) (taken : step env w a = some w') :
    AccountedSince env count w' ∧ (w'.disk.compactions = count →
      ∀ k segment, (logDir env w a).get k = some segment →
      w'.disk.wal.get k = none → ∀ e ∈ segment.entries, e.Contained w'.disk) := by
  have ready := step_ready unique h.ready taken
  by_cases opens : ∃ nowMs fault, a = .openEngine nowMs fault
  · obtain ⟨nowMs, fault, rfl⟩ := opens
    obtain ⟨account, kept⟩ := accounted_open h ready taken
    exact ⟨account, fun _ => kept⟩
  by_cases crashes : ∃ torn, a = .crash torn
  · obtain ⟨torn, rfl⟩ := crashes
    obtain ⟨account, kept⟩ := accounted_crash h ready taken
    exact ⟨account, fun _ => kept⟩
  have plain : Plain w a := by
    cases a with
    | openEngine nowMs fault => exact absurd ⟨nowMs, fault, rfl⟩ opens
    | putBatch recordId items pressured late draws => exact whole.1
    | _ => trivial
  have running : w'.engine.isSome := by
    cases a with
    | openEngine nowMs fault => exact absurd ⟨nowMs, fault, rfl⟩ opens
    | crash torn => exact absurd ⟨torn, rfl⟩ crashes
    | _ =>
      obtain ⟨s, active, rfl⟩ := Option.map_eq_some_iff.mp taken
      rfl
  have fewer := h.fewer
  cases (step_effect unique h.ready plain taken).1 with
  | idle =>
    obtain ⟨s, active⟩ := Option.isSome_iff_exists.mp running
    refine ⟨h, fun _ k segment found gone e member => ?_⟩
    rw [disk_of_engine active] at gone
    rw [logDir_new active (h.ready.engine s active).opened found gone] at member
    cases member
  | @reloaded st closed reloads =>
    rw [closed] at running
    cases running
  | @opened nowMs fault st s label closed opened => exact absurd ⟨nowMs, fault, label⟩ opens
  | @crashed s wal torn active holds => cases running
  | @rolled s s' r active other rolls =>
    rw [disk_of_engine active] at fewer
    have more := rolls.compactions
    have account : s'.compactions = count → _ := fun quiet =>
      (h.engine s active (by omega)).rolled rolls (by omega)
    refine ⟨accountedSince_of_engine rfl ready (by omega) fun quiet => (account quiet).1, fun quiet => ?_⟩
    rw [logDir_idle active (prepared_of_other env w s other)]
    exact (account quiet).2
  | @compacted s s' active compacts =>
    rw [disk_of_engine active] at fewer
    have more := compacts.compactions
    refine ⟨accountedSince_of_engine rfl ready (by omega) fun quiet =>
      (h.engine s active (by omega)).compacted compacts (by omega), fun quiet k segment found gone e member => ?_⟩
    have gone : s.wal.get k = none := compacts.unchanged.1 ▸ gone
    rw [logDir_new active (h.ready.engine s active).opened found gone] at member
    cases member
  | @wrote s t s' entries first rolled reported active written rolls told =>
    rw [disk_of_engine active] at fewer
    have ready_s := h.ready.engine s active
    have more := rolls.compactions
    have same : t.compactions = s.compactions := by rw [written.wrote.frame]
    have account : s'.compactions = count → _ := fun quiet =>
      ((h.engine s active (by omega)).wrote ready_s.opened written.wrote
        (written.apart ready_s (whole.free active))).rolled rolls (by omega)
    refine ⟨accountedSince_of_engine rfl ready (by omega) fun quiet => (account quiet).1, fun quiet => ?_⟩
    rw [written.logDir_eq active]
    exact (account quiet).2

end Preserved

section Example

/-- A first segment that a failed flush keeps, and a second one that the next flush removes. -/
def twoSegments : List Label :=
  [.openEngine 0 none, sampleBatch [1, 2], samplePut 3 1 false, failingPut 4, samplePut 5 1 false,
    sampleBatch [6, 7]]

/-- A batch of two that fills the segment, and freezes the memtable after its first entry. -/
def splitBatch : Label :=
  .putBatch ⟨[114]⟩ [⟨⟨[1]⟩, ⟨[1]⟩, ⟨[]⟩, .none⟩, ⟨⟨[2]⟩, ⟨[1]⟩, ⟨[]⟩, .none⟩] false false fun i =>
    { freeze := i = 1 }

end Example

end World

end FlushDB
