import FlushDB.Engine.CachedReads
import FlushDB.Engine.Durability
import FlushDB.Engine.Layers
import FlushDB.Engine.Precedence

/-!
The engine as a map from keys to values. In every run the storage holds the map that its writes
have made, through flushes, compactions, crashes and openings: what the next opening finds in the
log and in the tables is the last write of each key, and so is what an open engine shows.
-/

namespace FlushDB
open Lib ManifestBucket

/-- The entry that replay makes of an entry with a valid key. -/
def WalEntry.replayed (e : WalEntry) : MemtableEntry :=
  ⟨.encode e.recordId e.itemKey.data, e.itemValue, e.itemMetadata, e.idempotencyToken,
    e.sequenceNumber, e.entryType, e.origin⟩

def WalEntry.write (e : WalEntry) : CompositeKey × Option (Bytes × Bytes) := e.replayed.write

/-- What the next opening finds: the log from the watermark on, written over the tables. -/
def Stored.recovered (st : Stored) : CompositeKey → Option (Bytes × Bytes) :=
  written st.visible (st.replayLog.map WalEntry.write)

namespace WalEntry
variable {env : Env}

theorem Replays.write_eq {e : WalEntry} {x : MemtableEntry} (h : e.Replays x) :
    x.write = e.write ∧ x.entryType = e.entryType := by
  unfold Replays toMemtableEntry at h
  split at h
  · cases h
  · rename_i key made
    obtain ⟨-, same⟩ := CompositeKey.new_ok made
    subst same
    have entry := Except.ok.inj h
    cases x
    cases entry
    exact ⟨rfl, rfl⟩

theorem replays_of_converted {e : WalEntry} {x : MemtableEntry}
    (converted : e.toMemtableEntry = .ok x) : e.Replays x := by
  unfold Replays
  rw [converted]
  unfold toMemtableEntry at converted
  split at converted
  · cases converted
  · obtain rfl := Except.ok.inj converted
    rfl

/-- The entries of a write are the same writes in the log, whatever their numbers are. -/
theorem assign_writes (first : Nat) (entries : List MemtableEntry) :
    (WalWriter.assign first (Engine.logged env entries)).map write =
      entries.map MemtableEntry.write := by
  rw [WalWriter.assign_eq, Engine.logged]
  refine List.ext_getElem (by simp) ?_
  intro i _ _
  simp only [List.getElem_map, List.getElem_mapIdx]
  exact Prod.ext (CompositeKey.encode_parts _) rfl

end WalEntry

theorem renumber_writes (first : Nat) (entries : List MemtableEntry) :
    (renumber first entries).map MemtableEntry.write = entries.map MemtableEntry.write := by
  rw [renumber]
  refine List.ext_getElem (by simp) ?_
  intro i _ _
  simp only [List.getElem_map, List.getElem_mapIdx]
  rfl

namespace Stored
variable {env : Env} {st st' : Stored}

theorem replayLog_ascends (ordered : st.wal.Ordered) :
    st.replayLog.Pairwise fun a b => a.sequenceNumber < b.sequenceNumber := by
  rw [replayLog, WalReader.replayFrom_eq ordered]
  exact (List.pairwise_map.mp (WalReader.replayAll_ascends ordered)).filter _

theorem replayLog_eq (ordered : st.wal.Ordered) (ordered' : st'.wal.Ordered)
    (holds : ∀ e, st'.wal.Holds e ↔ st.wal.Holds e)
    (mark : watermark st'.manifests = watermark st.manifests) : st'.replayLog = st.replayLog := by
  rw [replayLog, replayLog, WalReader.replayFrom_eq ordered, WalReader.replayFrom_eq ordered', mark,
    WalReader.replayAll_eq ordered ordered' holds]

/-- What is appended to the log is recovered on top of what was there. -/
theorem recovered_append (ordered : st.wal.Ordered) (ordered' : st'.wal.Ordered) {next : Nat}
    {entries : List MemtableEntry}
    (holds : ∀ e, st'.wal.Holds e ↔ st.wal.Holds e ∨
      e ∈ WalWriter.assign next (Engine.logged env entries))
    (below : ∀ e, st.wal.Holds e → e.sequenceNumber < next)
    (reaches : watermark st.manifests ≤ next)
    (mark : watermark st'.manifests = watermark st.manifests) (visible : st'.visible = st.visible) :
    st'.recovered = written st.recovered (entries.map MemtableEntry.write) := by
  have appended : WalReader.replayAll st'.wal =
      WalReader.replayAll st.wal ++ WalWriter.assign next (Engine.logged env entries) := by
    refine WalReader.replayAll_append ordered ordered' holds (WalWriter.assign_ascends _ _) ?_
    intro e held e' added
    exact (below e held).trans_le (WalWriter.mem_assign added).1
  have whole : (WalWriter.assign next (Engine.logged env entries)).filter
      (fun e => e.sequenceNumber ≥ watermark st.manifests) =
      WalWriter.assign next (Engine.logged env entries) := by
    refine List.filter_eq_self.mpr ?_
    intro e added
    exact decide_eq_true (reaches.trans (WalWriter.mem_assign added).1)
  have log : st'.replayLog = st.replayLog ++ WalWriter.assign next (Engine.logged env entries) := by
    rw [replayLog, replayLog, WalReader.replayFrom_eq ordered, WalReader.replayFrom_eq ordered',
      mark, appended, List.filter_append,
      whole]
  rw [recovered, log, List.map_append, written_append, WalEntry.assign_writes, visible]
  rfl

/-- Where the same versions are listed, the tables show the same. -/
theorem visible_congr (ok : Lists.Ok (tablesAt st'.manifests) st'.tables)
    (copies : ∀ c, st'.Copy c ↔ st.Copy c) :
    st'.visible = st.visible := by
  have shown : ShownBy (· ∈ st'.listed) (fun _ => none) (readNewest st.listed) := by
    refine Shows.congr ?_ (readNewest_shown st.listed)
    intro e
    rw [mem_listed, mem_listed]
    exact copies e
  exact Shows.unique ok.told (readNewest_shown _) shown

/-- The last entry of the log is what is recovered for its key. -/
theorem recovered_last (ordered : st.wal.Ordered) {e : WalEntry} (held : st.wal.Holds e)
    (above : watermark st.manifests ≤ e.sequenceNumber)
    (last : ∀ e', st.wal.Holds e' → e'.sequenceNumber ≤ e.sequenceNumber) :
    st.recovered e.write.1 = e.write.2 := by
  have ascends := replayLog_ascends ordered
  obtain ⟨i, bound, here⟩ := List.getElem_of_mem ((WalReader.mem_replayFrom ordered).mpr ⟨held, above⟩)
  have found : (st.replayLog.map WalEntry.write)[i]? = some e.write := by
    rw [List.getElem?_map, List.getElem?_eq_getElem bound, here]
    rfl
  rcases written_cases st.visible (st.replayLog.map WalEntry.write)
    e.write.1 with ⟨j, w, found', same, shown, latest⟩ | ⟨absent, -⟩
  · have order := latest i e.write found rfl
    obtain ⟨e', there, rfl⟩ := List.getElem?_map .. ▸ found' |> Option.map_eq_some_iff.mp
    obtain ⟨bound', rfl⟩ := List.getElem?_eq_some_iff.mp there
    rcases Nat.lt_or_ge i j with less | ge
    · have later := List.pairwise_iff_getElem.mp ascends i j bound bound' less
      have top := last _ ((WalReader.mem_replayFrom ordered).mp (List.getElem_mem bound')).1
      rw [here] at later
      omega
    · obtain rfl : i = j := by omega
      rw [recovered, shown, here]
  · exact absurd rfl (absent e.write (List.mem_of_getElem? found))

end Stored

/-- What the writes have made of the empty map. -/
abbrev mapOf (history : List (CompositeKey × Option (Bytes × Bytes))) :
    CompositeKey → Option (Bytes × Bytes) :=
  written (fun _ => none) history

/-- The log holds puts and deletes only. -/
def WalDir.Points (dir : WalDir) : Prop := ∀ e, dir.Holds e → e.entryType ≠ .rangeDelete

theorem WalDir.Points.append {env : Env} {dir dir' : WalDir} (h : dir.Points) {next : Nat}
    {entries : List MemtableEntry}
    (holds : ∀ e, dir'.Holds e ↔ dir.Holds e ∨ e ∈ WalWriter.assign next (Engine.logged env entries))
    (points : ∀ x ∈ entries, x.entryType ≠ .rangeDelete) : dir'.Points := by
  intro e held
  rcases (holds e).mp held with old | new
  · exact h e old
  · rw [WalWriter.assign_eq, Engine.logged] at new
    obtain ⟨i, bound, rfl⟩ := List.mem_mapIdx.mp new
    rw [List.length_map] at bound
    rw [List.getElem_map]
    exact points _ (List.getElem_mem bound)

/-- An open engine over a storage that holds the map of the history. It shows that map until a flush
has failed in its session. -/
structure Engine.Accounts (history : List (CompositeKey × Option (Bytes × Bytes))) (s : Engine) :
    Prop where
  layered : s.Layered
  points : s.wal.Points
  memtable : s.memtableNext ≤ s.walNext + 1
  engine : s.nextSequence ≤ s.walNext + 1
  recovered : s.recovered = mapOf history
  shown : s.dropped = false → s.contents = mapOf history

structure Stored.Accounts (history : List (CompositeKey × Option (Bytes × Bytes))) (st : Stored) :
    Prop where
  ok : Lists.Ok (tablesAt st.manifests) st.tables
  points : st.wal.Points
  recovered : st.recovered = mapOf history

namespace Engine
variable {env : Env} {history : List (CompositeKey × Option (Bytes × Bytes))} {writes : Nat}
  {s t : Engine}

/-- A log of puts and deletes leaves no range tombstone in the memtable. -/
theorem replay_bare {rest : List WalEntry} {highest highest' : Nat} {l l' : MemtableList}
    (opened : l.active.frozen = false) (points : ∀ e ∈ rest, e.entryType ≠ .rangeDelete)
    (bare : l.active.rangeTombstones.tombstones = [])
    (h : replay rest highest l = .ok (highest', l')) :
    l'.active.rangeTombstones.tombstones = [] := by
  induction rest generalizing highest l with
  | nil =>
    cases h
    exact bare
  | cons e rest ih =>
    unfold replay at h
    split at h
    · cases h
    rename_i entry converted
    have later := fun e' member => points e' (List.mem_cons_of_mem _ member)
    by_cases known : l.knows entry.idempotencyKey = true
    · simp only [MemtableList.insert, known, if_true, Memtable.duplicateError] at h
      exact ih opened later bare h
    · have point : entry.entryType ≠ .rangeDelete := by
        rw [(WalEntry.replays_of_converted converted).write_eq.2]
        exact points e List.mem_cons_self
      rw [MemtableList.insert_ok opened (Bool.eq_false_iff.mpr known)] at h
      refine ih ?_ later ?_ h
      · exact opened
      · simp only [Memtable.insertInner, point, if_false]
        exact bare

theorem Ranked.layered (h : s.Ranked writes) (ok : Lists.Ok (tablesAt s.manifests) s.tables)
    (points : ∀ x ∈ s.nodes, x.entryType ≠ .rangeDelete)
    (bare : s.memtableList.active.rangeTombstones.tombstones = []) : s.Layered :=
  ⟨ok, h.flushed, h.above, points, bare, h.mark⟩

/-- The number that a commit makes the watermark is that of the last entry of the log, or behind
it. -/
theorem committed_recovered (ranked : s.Ranked writes) (ready : s.Ready env) (ready' : t.Ready env)
    (committed : Committed s t) (shown : t.contents = s.recovered) : t.recovered = s.recovered := by
  have none_left := (nodes_reset committed.memtableList).1
  have visible : t.visible = s.recovered := by
    rw [← contents_visible none_left]
    exact shown
  obtain ⟨top, inside, -⟩ := committed.attained
  obtain ⟨x, member, last⟩ := ranked.attained (List.ne_nil_of_mem inside)
  have highest := committed.highest x member
  have memtable := ranked.memtable
  have rises := committed.rises
  have log : ∀ e ∈ t.replayLog, s.wal.Holds e ∧ watermark s.manifests ≤ e.sequenceNumber ∧
      ∀ e', s.wal.Holds e' → e'.sequenceNumber ≤ e.sequenceNumber := by
    intro e listed
    obtain ⟨held, above⟩ := (WalReader.mem_replayFrom ready'.ordered).mp listed
    refine ⟨committed.holds e held, rises.trans above, ?_⟩
    intro e' held'
    have : e'.sequenceNumber < s.walNext := ready.opened.above e' held'
    omega
  rw [Stored.recovered, visible]
  refine written_same ?_
  intro w member
  obtain ⟨e, listed, rfl⟩ := List.mem_map.mp member
  obtain ⟨held, above, latest⟩ := log e listed
  exact Stored.recovered_last ready.ordered held above latest

namespace Accounts

/-- After a call that has written and may have rolled the memtable. -/
theorem rolled (ranked : s.Ranked writes) (ready : s.Ready env) (ready' : t.Ready env)
    (points : s.wal.Points) (memtable : s.memtableNext ≤ s.walNext + 1)
    (engine : s.nextSequence ≤ s.walNext + 1) (recovered : s.recovered = mapOf history)
    (layered : t.Layered) (shown : t.dropped = false → t.contents = mapOf history) {commits : Bool}
    {r : FlushResult Unit} (rolls : Rolled commits r s t)
    (lossless : s.dropped = true → commits = true → s.nodes = []) : t.Accounts history := by
  obtain ⟨walNext, memtableNext, nextSequence⟩ := rolls.counters
  refine ⟨layered, fun e held => points e (rolls.holds held), by omega, by omega, ?_, shown⟩
  rcases rolls with rfl | ⟨dropped, -⟩ | ⟨committed, due⟩
  · exact recovered
  · have log : t.replayLog = s.replayLog :=
      Stored.replayLog_eq ready.ordered ready'.ordered
        (by rw [dropped.wal]; exact fun _ => Iff.rfl) dropped.watermark
    rw [Stored.recovered, log, Stored.visible_congr layered.ok dropped.copies]
    exact recovered
  · rw [← recovered]
    refine committed_recovered ranked ready ready' committed ?_
    rw [recovered]
    refine shown (committed.dropped.trans ?_)
    by_contra failed
    obtain ⟨top, inside, -⟩ := committed.attained
    rw [lossless (by simpa using failed) due] at inside
    cases inside

theorem compacted (unique : Function.Injective env.ulid) (h : s.Accounts history)
    (ready : s.Ready env) (ready' : t.Ready env) {draw : Nat → CompactionDraw}
    {r : FlushResult Unit} (compacts : maybeCompact env draw s = (r, t)) : t.Accounts history := by
  obtain ⟨advances, visible⟩ := compacted_advances unique h.layered ready ready' compacts
  have compacted := maybeCompact_compacted unique ready.toSound ready.latest compacts
  obtain ⟨wal, walNext, next, nextSequence, -⟩ := compacted.unchanged
  refine ⟨advances.layered, wal ▸ h.points, ?_, ?_, ?_, ?_⟩
  · rw [next, walNext]
    exact h.memtable
  · rw [nextSequence, walNext]
    exact h.engine
  · rw [Stored.recovered, visible, Stored.replayLog, wal, compacted.watermark]
    exact h.recovered
  · intro undropped
    obtain ⟨undropped, shown⟩ := advances.shown undropped
    exact shown.trans (h.shown undropped)

/-- A session begins with what its storage has. -/
theorem opened {st : Stored} (h : st.Accounts history) (ranked : st.Ranked writes)
    (sound : st.Sound env) (launched : Launched env st s) (opens : s.Opened env st)
    (reaches : watermark st.manifests ≤ s.walNext) :
    s.Accounts history := by
  have lists : tablesAt s.manifests = tablesAt st.manifests := funext launched.listed.1
  have visible : s.visible = st.visible := by
    rw [Stored.visible, Stored.listed, lists, launched.tables]
    rfl
  have log : s.replayLog = st.replayLog :=
    Stored.replayLog_eq sound.ordered opens.ready.ordered opens.holds opens.watermark
  have points : s.wal.Points := fun e held => h.points e ((opens.holds e).mp held)
  have layered : s.Layered := by
    have logged : ∀ e ∈ st.replayLog, e.entryType ≠ .rangeDelete := fun e listed =>
      h.points e ((WalReader.mem_replayFrom sound.ordered).mp listed).1
    obtain ⟨highest, replays, -⟩ := launched.replayed
    refine (Ranked.opened ranked sound opens).layered (lists ▸ launched.tables ▸ h.ok) ?_ ?_
    · intro x member
      obtain ⟨i, e, found, replays, -⟩ := opens.replayed.only x member
      rw [replays.write_eq.2]
      exact logged e (List.mem_of_getElem? found)
    · exact replay_bare rfl logged rfl replays
  have counters := @Engine.Durable.opened env [] s st (by rintro a ⟨⟩) sound opens reaches
  have recovered : s.recovered = mapOf history := by
    rw [← h.recovered, Stored.recovered, log, visible]
    rfl
  refine ⟨layered, points, counters.memtable, counters.engine, recovered, fun _ => ?_⟩
  rw [← recovered]
  refine Shows.unique layered.told (readNewest_shown _)
    (Shows.congr (fun e => List.mem_append) (Shows.layer ?_ (readNewest_shown _) ?_))
  · intro a b inside listed
    obtain ⟨x, member, rfl⟩ := List.mem_map.mp inside
    exact (layered.flushed b (Stored.mem_listed.mp listed)).trans (layered.above x member).le
  · rw [Stored.recovered, log]
    refine @Shows.ofList _ _ _ _ _ _ _ s.visible _ (st.replayLog.map WalEntry.write)
      (watermark st.manifests + 1) ?_ ?_
    · intro c inside
      obtain ⟨x, member, rfl⟩ := List.mem_map.mp inside
      obtain ⟨i, e, found, replays, number⟩ := opens.replayed.only x member
      refine ⟨i, ?_, number⟩
      rw [List.getElem?_map, found, Option.map_some, ← replays.write_eq.1]
      rfl
    · intro i w found
      rw [List.getElem?_map] at found
      obtain ⟨e, there, rfl⟩ := Option.map_eq_some_iff.mp found
      obtain ⟨x, member, replays, number⟩ := opens.replayed.all i e there
      exact ⟨MergeEntry.fromMemtableEntry x, List.mem_map_of_mem member, replays.write_eq.1, number⟩

end Accounts

end Engine

namespace Stored.Accounts
variable {env : Env} {history : List (CompositeKey × Option (Bytes × Bytes))} {st st' : Stored}

/-- An opening that fails may have stored a manifest that lists the same. -/
theorem reloaded (h : st.Accounts history) (sound : st.Sound env) (reloads : Reloaded st st') :
    st'.Accounts history := by
  have lists := reloads.tablesAt_eq
  have tables : st'.tables = st.tables := by rw [reloads.frame]
  have wal : st'.wal = st.wal := by rw [reloads.frame]
  have visible : st'.visible = st.visible := by rw [visible, visible, listed, listed, lists, tables]
  have log : st'.replayLog = st.replayLog :=
    replayLog_eq sound.ordered (reloads.sound sound).ordered
      (by rw [wal]; exact fun _ => Iff.rfl) reloads.view.2
  refine ⟨?_, wal ▸ h.points, ?_⟩
  · rw [lists, tables]
    exact h.ok
  · rw [Stored.recovered, log, visible]
    exact h.recovered

end Stored.Accounts

namespace World

theorem named_writes (origin : Nat) (entries : List MemtableEntry) :
    (named origin entries).map MemtableEntry.write = entries.map MemtableEntry.write := by
  rw [named_eq]
  refine List.ext_getElem (by simp) ?_
  intro i _ _
  simp only [List.getElem_map, List.getElem_mapIdx]
  rfl

/-- The entries that a step takes in: those of a write that is not refused, and those of a torn
append. -/
def entered (env : Env) (w : World) : Label → List MemtableEntry
  | .crash torn => torn
  | a => (w.engine.map fun s => prepared env w s a).getD []

/-- The writes that a step makes. -/
def writesOf (env : Env) (w : World) (a : Label) : List (CompositeKey × Option (Bytes × Bytes)) :=
  (entered env w a).map MemtableEntry.write

/-- No range delete is entered. -/
def Points (env : Env) (w : World) (a : Label) : Prop :=
  ∀ x ∈ entered env w a, x.entryType ≠ .rangeDelete

instance (env : Env) (w : World) (a : Label) : Decidable (Points env w a) :=
  inferInstanceAs (Decidable (∀ x ∈ entered env w a, _))

structure Accounts (env : Env) (w : World)
    (history : List (CompositeKey × Option (Bytes × Bytes))) : Prop where
  ranked : Ranked env w
  engine : ∀ s, w.engine = some s → s.Accounts history
  stored : w.engine = none → w.stored.Accounts history

section Preserved
variable {env : Env} {w w' : World} {a : Label} {s : Engine}
  {history : List (CompositeKey × Option (Bytes × Bytes))}

theorem entered_call (call : a.isCall) (active : w.engine = some s) :
    entered env w a = prepared env w s a := by
  unfold entered
  cases a with
  | crash torn => cases call
  | _ =>
    rw [active]
    rfl

theorem call_names (call : a.isCall) (active : w.engine = some s) (taken : step env w a = some w') :
    w'.writes = w.writes + (prepared env w s a).length := by
  cases a with
  | openEngine nowMs fault => cases call
  | crash torn => cases call
  | _ =>
    simp only [step, active, Option.map_some, Option.some.injEq] at taken
    subst taken
    rfl

theorem accounts_of_engine (ranked : Ranked env w) (active : w.engine = some s)
    (h : s.Accounts history) :
    Accounts env w history := by
  refine ⟨ranked, ?_, ?_⟩
  · intro t same
    obtain rfl := Option.some.inj (active.symm.trans same)
    exact h
  · intro closed
    rw [active] at closed
    cases closed

theorem batch_numbers (batch : a.isBatch = true) :
    (prepared env w s a).map MemtableEntry.sequenceNumber =
    List.range' s.nextSequence (prepared env w s a).length := by
  cases a with
  | putBatch recordId items pressured late draws =>
    cases made : Engine.prepareBatch env w.writes recordId items pressured s with
    | error e =>
      simp only [prepared, made]
      rfl
    | ok entries =>
      simp only [prepared, made]
      exact (Engine.prepareBatch_numbers made).1
  | _ => cases batch

theorem placed_writes (env : Env) (w : World) (s : Engine) (a : Label) :
    (placed env w s a).map MemtableEntry.write = (prepared env w s a).map MemtableEntry.write := by
  unfold placed
  split
  · rfl
  · exact renumber_writes _ _

/-- The entries of a call stand in the memtable with numbers of their own. -/
theorem placed_fresh (active : w.engine = some s) (ahead : Ahead w a) (points : Points env w a)
    (call : a.isCall) :
    (∀ x ∈ placed env w s a, s.memtableNext ≤ x.sequenceNumber ∧ x.entryType ≠ .rangeDelete) ∧
      (placed env w s a).Pairwise fun x y => x.sequenceNumber < y.sequenceNumber := by
  have points : ∀ x ∈ prepared env w s a, x.entryType ≠ .rangeDelete :=
    entered_call call active ▸ points
  have placed_eq : ∃ first, s.memtableNext ≤ first ∧
      placed env w s a = renumber first (prepared env w s a) := by
    unfold placed
    split
    · rename_i batch
      refine ⟨s.nextSequence, ?_, (renumber_self (batch_numbers batch)).symm⟩
      cases a with
      | putBatch recordId items pressured late draws => exact ahead s active
      | _ => cases batch
    · exact ⟨s.memtableNext, le_refl _, rfl⟩
  obtain ⟨first, low, placed_eq⟩ := placed_eq
  rw [placed_eq]
  constructor
  · intro x member
    obtain ⟨i, e, found, rfl⟩ := mem_renumber member
    exact ⟨low.trans (Nat.le_add_right _ _), points e (List.mem_of_getElem? found)⟩
  · rw [List.pairwise_iff_getElem]
    intro i j bound bound' order
    simp only [renumber, List.getElem_mapIdx]
    omega

/-- What a call of an open engine does to what it shows. -/
theorem call_advances (unique : Function.Injective env.ulid) (h : s.Layered)
    (active : w.engine = some s) (ready : s.Ready env) (plain : Plain w a) (ahead : Ahead w a)
    (points : Points env w a) (call : a.isCall) (taken : step env w a = some w') :
    ∃ s', w'.engine = some s' ∧ s'.Layered ∧
      (s'.dropped = false → s.dropped = false ∧ s'.contents = written s.contents (writesOf env w a)) := by
  obtain ⟨s', done, active', ready', -, chain, whole⟩ := call_changes unique call active ready taken
  obtain ⟨fresh, ascends⟩ := placed_fresh active ahead points call
  rw [whole plain] at chain
  have advances := chain.advances unique h ready fresh ascends
  refine ⟨s', active', advances.layered, ?_⟩
  rw [writesOf, entered_call call active, ← placed_writes]
  exact advances.shown

/-- A write that is not refused. -/
theorem write_effect_of (unique : Function.Injective env.ulid) (ready : Ready env w)
    (plain : Plain w a) (call : a.isCall) (active : w.engine = some s)
    (some_left : prepared env w s a ≠ []) (taken : step env w a = some w') :
    ∃ t s' first rolled, w'.engine = some s' ∧ Written env a w s (prepared env w s a) first t ∧
      Engine.Rolled a.commits rolled t s' := by
  have count := call_names call active taken
  have longer : 0 < (prepared env w s a).length := List.length_pos_iff.mpr some_left
  obtain ⟨s', -, active', -⟩ := call_changes unique call active (ready.engine s active) taken
  obtain ⟨effect, -⟩ := step_effect unique ready plain taken
  have same_writes : w'.writes ≠ w.writes := by omega
  cases effect with
  | idle => exact absurd rfl same_writes
  | reloaded => exact absurd rfl same_writes
  | opened => exact absurd rfl same_writes
  | crashed => cases active'
  | rolled => exact absurd rfl same_writes
  | compacted => exact absurd rfl same_writes
  | @wrote s₀ t s' entries first rolled reported active₀ written rolls told =>
    obtain rfl := Option.some.inj (active.symm.trans active₀)
    have made := written.made
    subst made
    exact ⟨t, s', first, rolled, rfl, written, rolls⟩

/-- A write, and the flush that may follow it. -/
theorem accounts_write (unique : Function.Injective env.ulid) (h : s.Accounts history)
    (ranked : Ranked env w) (active : w.engine = some s) (plain : Plain w a) (ahead : Ahead w a)
    (sheltered : Sheltered env w a) (points : Points env w a) (call : a.isCall)
    (some_left : prepared env w s a ≠ []) (taken : step env w a = some w') :
    ∃ s', w'.engine = some s' ∧ s'.Accounts (history ++ writesOf env w a) := by
  have ready_s := ranked.ready.engine s active
  obtain ⟨t, s', first, rolled, active', written, rolls⟩ :=
    write_effect_of unique ranked.ready plain call active some_left taken
  obtain ⟨s₁, active₁, layered, shown⟩ := call_advances unique h.layered active ready_s plain ahead
    points call taken
  obtain rfl := Option.some.inj (active'.symm.trans active₁)
  have wrote := written.wrote
  have ready_t := wrote.ready ready_s
  have ready' := (ranked_step unique ranked plain ahead taken).ready.engine s' active'
  have memtable := h.memtable
  have engine := h.engine
  have mark := h.layered.mark
  have start : s.memtableNext ≤ first ∧ first ≤ s.walNext + 1 := by
    rcases written.place with same | ⟨batch, same⟩
    · omega
    · refine ⟨?_, by omega⟩
      rw [same]
      cases a with
      | putBatch recordId items pressured late draws => exact ahead s active
      | _ => cases batch
  have nextMemtable := written.memtableNext
  have nextWal := wrote.walNext
  have nextEngine := wrote.nextSequence
  have manifests : t.manifests = s.manifests := by rw [wrote.frame]
  have visible : t.visible = s.visible := by
    rw [Stored.visible, Stored.listed, show t.manifests = s.manifests from manifests,
      show t.tables = s.tables by rw [wrote.frame]]
    rfl
  have recovered : t.recovered = mapOf (history ++ writesOf env w a) := by
    have appended := @Stored.recovered_append env s.toStored t.toStored ready_s.ordered
      ready_t.ordered s.walNext _ wrote.holds
      ready_s.opened.above (by omega) (by rw [manifests]) visible
    rw [appended, h.recovered, mapOf, mapOf, written_append, writesOf, entered_call call active]
  have logged : t.wal.Points := h.points.append wrote.holds (entered_call call active ▸ points)
  refine ⟨s', active', Engine.Accounts.rolled
    ((ranked.engine s active).wrote ready_s written start.1) ready_t ready' logged
    (by omega) (by omega) recovered layered ?_ rolls ?_⟩
  · intro undropped
    obtain ⟨undropped, same⟩ := shown undropped
    rw [same, h.shown undropped, mapOf, mapOf, written_append]
  · intro failed due
    rw [wrote.frame] at failed
    exact absurd (sheltered.lossless active failed due).1 some_left

/-- Maintenance enters nothing. -/
theorem accounts_maintained (unique : Function.Injective env.ulid) (h : s.Accounts history)
    (ranked : Ranked env w) (active : w.engine = some s) (plain : Plain w a) (ahead : Ahead w a)
    (sheltered : Sheltered env w a) (call : a.isCall) (nothing : prepared env w s a = [])
    {s' : Engine} (active' : w'.engine = some s') {r : FlushResult Unit}
    (rolls : Engine.Rolled a.commits r s s') (other : a.isWrite = false)
    (taken : step env w a = some w') :
    s'.Accounts history := by
  have ready_s := ranked.ready.engine s active
  have entered_nothing : entered env w a = [] := (entered_call call active).trans nothing
  have points : Points env w a := by
    intro x member
    rw [entered_nothing] at member
    cases member
  obtain ⟨s₁, active₁, layered, shown⟩ := call_advances unique h.layered active ready_s plain ahead
    points call taken
  obtain rfl := Option.some.inj (active'.symm.trans active₁)
  have ready' := (ranked_step unique ranked plain ahead taken).ready.engine s' active'
  refine Engine.Accounts.rolled (ranked.engine s active) ready_s ready' h.points h.memtable h.engine
    h.recovered layered ?_ rolls ?_
  · intro undropped
    obtain ⟨undropped, same⟩ := shown undropped
    rw [same, writesOf, entered_nothing]
    exact h.shown undropped
  · intro failed due
    rcases (sheltered.lossless active failed due).2 with write | empty
    · rw [other] at write
      cases write
    · exact empty

/-- Every step adds its writes to the map. -/
theorem accounts_step (unique : Function.Injective env.ulid) (h : Accounts env w history)
    (plain : Plain w a) (ahead : Ahead w a) (sheltered : Sheltered env w a)
    (points : Points env w a) (taken : step env w a = some w') :
    Accounts env w' (history ++ writesOf env w a) := by
  have ranked' := ranked_step unique h.ranked plain ahead taken
  have write : a.isWrite = true → a.isCall → Accounts env w' (history ++ writesOf env w a) := by
    intro write call
    obtain ⟨s, active⟩ := call_active call taken
    by_cases nothing : prepared env w s a = []
    · rw [writesOf, entered_call call active, nothing, write_refused write active nothing taken,
        List.map_nil, List.append_nil]
      exact h
    · obtain ⟨s', active', accounts⟩ :=
        accounts_write unique (h.engine s active) h.ranked active plain ahead sheltered points call
          nothing taken
      exact accounts_of_engine ranked' active' accounts
  cases a with
  | put | putBatch | delete | deleteRange => exact write rfl rfl
  | openEngine nowMs fault =>
    obtain ⟨closed, cases⟩ := openEngine_cases h.ranked.ready.stored taken
    have sound := h.ranked.ready.stored closed
    have nothing : history ++ writesOf env w (.openEngine nowMs fault) = history := by
      simp only [writesOf, entered, closed, Option.map_none, Option.getD_none, List.map_nil,
        List.append_nil]
    rw [nothing]
    rcases cases with ⟨st, reloads, rfl⟩ | ⟨s, launched, rfl⟩
    · refine ⟨ranked', ?_, fun _ => (h.stored closed).reloaded sound reloads⟩
      intro s active
      rw [show w.engine = some s from active] at closed
      cases closed
    · have opens := launched.opened sound plain
      refine accounts_of_engine ranked' rfl
        (Engine.Accounts.opened (h.stored closed) (h.ranked.stored closed) sound launched opens ?_)
      rcases sheltered with low | ⟨e, listed, reaches⟩
      · rcases opens.walNext with ⟨one, -⟩ | ⟨top, -, next⟩ <;> omega
      · have below : e.sequenceNumber < s.walNext :=
          opens.ready.opened.above e ((opens.holds e).mpr (WalReader.mem_replayAll.mp listed))
        omega
  | crash torn =>
    obtain ⟨s, active, rfl⟩ := Option.map_eq_some_iff.mp taken
    have accounts := h.engine s active
    have ready_s := h.ranked.ready.engine s active
    have mark := accounts.layered.mark
    have memtable := accounts.memtable
    obtain ⟨segment, found, -⟩ := ready_s.opened.current
    have holds : ∀ e, (WalWriter.writeEntries s.wal s.walManager.writer.currentSegment
        (WalWriter.assign s.walNext (Engine.logged env (named w.writes torn)))).Holds e ↔
          s.wal.Holds e ∨ e ∈ WalWriter.assign s.walNext (Engine.logged env (named w.writes torn)) :=
      fun e => WalWriter.holds_writeEntries found
    refine ⟨ranked', by rintro t ⟨⟩, fun _ => ⟨accounts.layered.ok, ?_, ?_⟩⟩
    · refine accounts.points.append holds ?_
      intro x member
      rw [named_eq] at member
      obtain ⟨i, bound, rfl⟩ := List.mem_mapIdx.mp member
      exact points torn[i] (List.getElem_mem bound)
    · have ordered' := (ranked'.ready.stored rfl).ordered
      refine (@Stored.recovered_append env s.toStored _ ready_s.ordered ordered' _ _ holds ready_s.opened.above
        (by omega) rfl rfl).trans ?_
      rw [accounts.recovered, named_writes, mapOf, mapOf, written_append]
      rfl
  | maybeFlush draw =>
    obtain ⟨s, active, rfl⟩ := Option.map_eq_some_iff.mp taken
    have ready_s := h.ranked.ready.engine s active
    have idle : Engine.maybeFlush env draw s = (.ok (), s) := by
      simp [Engine.maybeFlush, MemtableList.hasFrozen, ready_s.noneFrozen]
    have nothing : writesOf env w (.maybeFlush draw) = [] := by
      rw [writesOf, entered_call rfl active]
      rfl
    rw [nothing, List.append_nil]
    refine accounts_of_engine ranked' (by rw [idle]) (h.engine s active)
  | runMaintenance aged draw =>
    obtain ⟨s, active, rfl⟩ := Option.map_eq_some_iff.mp taken
    have ready_s := h.ranked.ready.engine s active
    have rolls : _ ∧ Engine.Rolled (Label.runMaintenance aged draw).commits _ s
        (Engine.runMaintenance env aged draw s).2 :=
      (Engine.runMaintenance_mayFlush ready_s.noneFrozen rfl).rolled unique ready_s
      (fun due => Engine.nonempty_of_count (of_decide_eq_true (Bool.and_eq_true_iff.mp due).1)) (by
        intro due succeeds
        show (aged && !(draw 0).fails) = true
        rw [(Bool.and_eq_true_iff.mp due).2, succeeds]
        rfl)
    have nothing : writesOf env w (.runMaintenance aged draw) = [] := by
      rw [writesOf, entered_call rfl active]
      rfl
    rw [nothing, List.append_nil]
    exact accounts_of_engine ranked' rfl
      (accounts_maintained unique (h.engine s active) h.ranked active plain ahead sheltered rfl rfl
        rfl rolls.2 rfl taken)
  | close draw =>
    obtain ⟨s, active, rfl⟩ := Option.map_eq_some_iff.mp taken
    have ready_s := h.ranked.ready.engine s active
    have rolls : _ ∧ Engine.Rolled (Label.close draw).commits _ s (Engine.close env draw s).2 :=
      (Engine.close_mayFlush ready_s.noneFrozen rfl).rolled unique ready_s
      (fun due => Engine.nonempty_of_count (of_decide_eq_true due)) (by
        intro due succeeds
        show (!(draw 0).fails) = true
        rw [succeeds]
        rfl)
    have nothing : writesOf env w (.close draw) = [] := by
      rw [writesOf, entered_call rfl active]
      rfl
    rw [nothing, List.append_nil]
    exact accounts_of_engine ranked' rfl
      (accounts_maintained unique (h.engine s active) h.ranked active plain ahead sheltered rfl rfl
        rfl rolls.2 rfl taken)
  | maybeCompact draw =>
    obtain ⟨s, active, rfl⟩ := Option.map_eq_some_iff.mp taken
    have nothing : writesOf env w (.maybeCompact draw) = [] := by
      rw [writesOf, entered_call rfl active]
      rfl
    rw [nothing, List.append_nil]
    exact accounts_of_engine ranked' rfl ((h.engine s active).compacted unique (h.ranked.ready.engine s active)
      (ranked'.ready.engine _ rfl) rfl)

end Preserved

theorem accounts_empty (env : Env) : Accounts env {} [] := by
  have no_log : ∀ e, ¬ WalDir.Holds ({} : Stored).wal e := by
    rintro e ⟨k, segment, found, -⟩
    cases found
  have no_copy : ∀ c, ¬ ({} : Stored).Copy c := by
    rintro c ⟨level, t, listed, -⟩
    cases listed
  have ranked : ({} : Stored).Ranked 0 :=
    ⟨fun e held => absurd held (no_log e), fun c held => absurd held (no_copy c),
      fun e _ held => absurd held (no_log e),
      fun c _ held => absurd held (no_copy c), fun c held => absurd held (no_copy c),
        fun e held => absurd held (no_log e),
      fun e held => absurd held (no_log e)⟩
  refine ⟨⟨ready_empty env, by rintro s ⟨⟩, fun _ => ranked, by rintro a ⟨⟩, .nil⟩,
    by rintro s ⟨⟩, fun _ => ?_⟩
  exact ⟨Lists.ok_empty _, fun e held => absurd held (no_log e), rfl⟩

theorem exec_accounts {env : Env} (unique : Function.Injective env.ulid) {labels : List Label}
    {w : World}
    (admitted : Admits (step env) (fun w a => ((Plain w a ∧ Fits env w a) ∧ Ahead w a) ∧
      Sheltered env w a ∧ Points env w a) {} labels)
    (run : exec (step env) {} labels = some w) :
    Accounts env w (recorded (step env) (writesOf env) {} labels) :=
  exec_recorded (fun _ _ _ _ kept ok taken =>
    accounts_step unique kept ok.1.1.1 ok.1.2 ok.2.1 ok.2.2 taken) (accounts_empty env)
    admitted run

section Example

/-- Overwrites and a delete in L0 and in the memtable, a compaction, a torn append, a flush that
fails and a session that replays what it dropped. -/
def mapRun : List Label :=
  [.openEngine 0 none, samplePut 1 1 true, samplePut 2 1 true, sampleBatch [3, 4],
    .delete ⟨[114]⟩ ⟨[2]⟩ {}, samplePut 1 2 true,
    .maybeCompact fun _ => {}, samplePut 1 3 false,
      .crash [⟨.encode ⟨[114]⟩ [4], ⟨[7]⟩, ⟨[]⟩, .none, 0, .put, 0⟩],
    .openEngine 0 none, samplePut 5 1 false, failingPut 6, .crash [], .openEngine 0 none]

end Example

end World

end FlushDB
