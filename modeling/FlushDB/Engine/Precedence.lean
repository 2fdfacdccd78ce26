import FlushDB.Engine.Counters

/-!
The order of versions: of two writes the later one is stored under the higher number. Replay keeps
the order of the log and starts above every flushed number; a session numbers its writes upwards
from there, unless a batch takes its numbers from an engine counter that is behind the memtable's.
-/

namespace FlushDB
open Lib ManifestBucket

/-- The order of what is stored, where `writes` writes have been made: in the log and in the tables,
and between the log from the watermark on and the tables. -/
structure Stored.Ranked (writes : Nat) (st : Stored) : Prop where
  logBound : ∀ e, st.wal.Holds e → e.origin < writes
  copyBound : ∀ c, st.Copy c → c.origin < writes
  logOrder : ∀ e e', st.wal.Holds e → st.wal.Holds e' →
    (e.origin < e'.origin ↔ e.sequenceNumber < e'.sequenceNumber)
  copyOrder : ∀ c c', st.Copy c → st.Copy c' → c.origin < c'.origin →
    c.sequenceNumber < c'.sequenceNumber
  flushed : ∀ c, st.Copy c → c.sequenceNumber ≤ watermark st.manifests
  unflushed : ∀ e, st.wal.Holds e → watermark st.manifests ≤ e.sequenceNumber → ∀ c, st.Copy c →
    c.origin ≤ e.origin
  unbroken : ∀ e, st.wal.Holds e → ∀ n, watermark st.manifests < n → n < e.sequenceNumber →
    ∃ e', st.wal.Holds e' ∧ e'.sequenceNumber = n

/-- The same with the memtable of an open engine. -/
structure Engine.Ranked (writes : Nat) (s : Engine) :
    Prop extends Stored.Ranked writes s.toStored where
  nodeBound : ∀ x ∈ s.nodes, x.origin < writes
  nodeOrder : ∀ x ∈ s.nodes, ∀ y ∈ s.nodes, x.origin < y.origin →
    x.sequenceNumber < y.sequenceNumber
  above : ∀ x ∈ s.nodes, watermark s.manifests < x.sequenceNumber
  after : ∀ x ∈ s.nodes, ∀ c, s.Copy c → c.origin ≤ x.origin
  newest : ∀ e, s.wal.Holds e → s.memtableNext ≤ e.sequenceNumber + 1 →
    ∀ x ∈ s.nodes, x.origin ≤ e.origin
  attained : s.nodes ≠ [] → ∃ x ∈ s.nodes, x.sequenceNumber + 1 = s.memtableNext
  numbered : ∀ n, watermark s.manifests < n → n < s.walNext → ∃ e, s.wal.Holds e ∧
    e.sequenceNumber = n
  mark : watermark s.manifests < s.memtableNext
  memtable : s.walNext ≤ s.memtableNext
  engine : s.walNext ≤ s.nextSequence

namespace Stored.Ranked
variable {writes : Nat} {st st' : Stored}

/-- Less in the log and in the tables, and a higher watermark. -/
theorem mono (h : st.Ranked writes) {more : Nat} (later : writes ≤ more)
    (holds : ∀ e, st'.wal.Holds e ↔ st.wal.Holds e) (copies : ∀ c, st'.Copy c → st.Copy c)
    (mark : watermark st'.manifests = watermark st.manifests) : st'.Ranked more := by
  refine ⟨?_, ?_, ?_, ?_, ?_, ?_, ?_⟩
  · intro e held
    exact (h.logBound e ((holds e).mp held)).trans_le later
  · intro c held
    exact (h.copyBound c (copies c held)).trans_le later
  · intro e e' held held'
    exact h.logOrder e e' ((holds e).mp held) ((holds e').mp held')
  · intro c c' held held'
    exact h.copyOrder c c' (copies c held) (copies c' held')
  · intro c held
    rw [mark]
    exact h.flushed c (copies c held)
  · intro e held above c copy
    rw [mark] at above
    exact h.unflushed e ((holds e).mp held) above c (copies c copy)
  · intro e held n above below
    rw [mark] at above
    obtain ⟨e', held', number⟩ := h.unbroken e ((holds e).mp held) n above below
    exact ⟨e', (holds e').mpr held', number⟩

theorem origin_le (h : st.Ranked writes) {e e' : WalEntry} (held : st.wal.Holds e)
    (held' : st.wal.Holds e') (le : e.sequenceNumber ≤ e'.sequenceNumber) :
    e.origin ≤ e'.origin := by
  have order := h.logOrder e' e held' held
  omega

theorem append (h : st.Ranked writes) {next count : Nat}
    (below : ∀ e, st.wal.Holds e → e.sequenceNumber < next)
    (numbered : ∀ n, watermark st.manifests < n → n < next → ∃ e, st.wal.Holds e ∧ e.sequenceNumber = n)
    (old : ∀ e, st.wal.Holds e → st'.wal.Holds e)
    (new : ∀ e, st'.wal.Holds e → st.wal.Holds e ∨ ∃ i < count, e.origin = writes + i ∧
      e.sequenceNumber = next + i)
    (all : ∀ i < count, ∃ e, st'.wal.Holds e ∧ e.sequenceNumber = next + i)
    (copies : ∀ c, st'.Copy c → st.Copy c)
    (mark : watermark st'.manifests = watermark st.manifests) :
    st'.Ranked (writes + count) := by
  refine ⟨?_, ?_, ?_, ?_, ?_, ?_, ?_⟩
  · intro e held
    rcases new e held with before | ⟨i, bound, origin, -⟩
    · have := h.logBound e before
      omega
    · omega
  · intro c held
    have := h.copyBound c (copies c held)
    omega
  · intro e e' held held'
    rcases new e held with before | ⟨i, -, origin, number⟩
    · have first := h.logBound e before
      have low := below e before
      rcases new e' held' with before' | ⟨j, -, origin', number'⟩
      · exact h.logOrder e e' before before'
      · omega
    · rcases new e' held' with before' | ⟨j, -, origin', number'⟩
      · have first := h.logBound e' before'
        have low := below e' before'
        omega
      · omega
  · intro c c' held held'
    exact h.copyOrder c c' (copies c held) (copies c' held')
  · intro c held
    rw [mark]
    exact h.flushed c (copies c held)
  · intro e held above c copy
    rw [mark] at above
    rcases new e held with before | ⟨i, -, origin, -⟩
    · exact h.unflushed e before above c (copies c copy)
    · have := h.copyBound c (copies c copy)
      omega
  · intro e held n above small
    rw [mark] at above
    rcases Nat.lt_or_ge n next with early | late
    · obtain ⟨e', held', number⟩ := numbered n above early
      exact ⟨e', old e' held', number⟩
    · obtain ⟨i, rfl⟩ := Nat.exists_eq_add_of_le late
      rcases new e held with before | ⟨j, bound, -, number⟩
      · have := below e before
        omega
      · exact all i (by omega)

end Stored.Ranked

namespace Engine.Ranked
variable {env : Env} {writes : Nat} {s t : Engine}

theorem of_empty (h : t.toStored.Ranked writes) (empty : t.nodes = [])
    (numbered : ∀ n, watermark t.manifests < n → n < t.walNext → ∃ e, t.wal.Holds e ∧
      e.sequenceNumber = n)
    (mark : watermark t.manifests < t.memtableNext) (memtable : t.walNext ≤ t.memtableNext)
    (engine : t.walNext ≤ t.nextSequence) : t.Ranked writes := by
  refine ⟨h, ?_, ?_, ?_, ?_, ?_, fun some_left => absurd empty some_left, numbered, mark, memtable,
    engine⟩
  · rw [empty]
    intro x member
    cases member
  · rw [empty]
    intro x member
    cases member
  · rw [empty]
    intro x member
    cases member
  · rw [empty]
    intro x member
    cases member
  · rw [empty]
    intro e _ _ x member
    cases member

theorem rolled (h : s.Ranked writes) (before : s.Ready env) (after : t.Ready env) {commits : Bool}
    {r : FlushResult Unit} (rolls : Rolled commits r s t) : t.Ranked writes := by
  obtain ⟨walNext, memtableNext, nextSequence⟩ := rolls.counters
  have mark := h.mark
  have memtable := h.memtable
  have engine := h.engine
  rcases rolls with rfl | ⟨dropped, -⟩ | ⟨committed, -⟩
  · exact h
  · have same := dropped.watermark
    refine of_empty (h.toRanked.mono (le_refl _) (by rw [dropped.wal]; exact fun _ => Iff.rfl)
      (fun c => (dropped.copies c).mp) same) (nodes_reset dropped.memtableList).1
        ?_ (by omega) (by omega) (by omega)
    intro n above below
    rw [same] at above
    rw [walNext] at below
    rw [dropped.wal]
    exact h.numbered n above below
  · -- the watermark is the number before the memtable's next
    obtain ⟨top, inside, top_eq⟩ := committed.attained
    obtain ⟨x, member, last⟩ := h.attained (List.ne_nil_of_mem inside)
    have low := before.below top inside
    have high := committed.highest x member
    have next : watermark t.manifests + 1 = s.memtableNext := by omega
    have rises := committed.rises
    have logBelow : ∀ e, t.wal.Holds e → e.sequenceNumber < s.walNext := by
      intro e held
      rw [← walNext]
      exact after.opened.above e held
    refine of_empty ⟨?_, ?_, ?_, ?_, ?_, ?_, ?_⟩
      (nodes_reset committed.memtableList).1 ?_ (by omega) (by omega) (by omega)
    · intro e held
      exact h.logBound e (committed.holds e held)
    · intro c held
      rcases committed.copies c held with old | ⟨y, inside, rfl⟩
      · exact h.copyBound c old
      · exact h.nodeBound y inside
    · intro e e' held held'
      exact h.logOrder e e' (committed.holds e held) (committed.holds e' held')
    · intro c c' held held' order
      rcases committed.copies c held with old | ⟨y, inside, rfl⟩
      · rcases committed.copies c' held' with old' | ⟨z, inside', rfl⟩
        · exact h.copyOrder c c' old old' order
        · exact (h.flushed c old).trans_lt (h.above z inside')
      · rcases committed.copies c' held' with old' | ⟨z, inside', rfl⟩
        · have : c'.origin ≤ y.origin := h.after y inside c' old'
          have : y.origin < c'.origin := order
          omega
        · exact h.nodeOrder y inside z inside' order
    · intro c held
      rcases committed.copies c held with old | ⟨y, inside, rfl⟩
      · exact (h.flushed c old).trans rises
      · exact committed.highest y inside
    · intro e held above c copy
      have held := committed.holds e held
      rcases committed.copies c copy with old | ⟨y, inside, rfl⟩
      · exact h.unflushed e held (rises.trans above) c old
      · exact h.newest e held (by omega) y inside
    · intro e held n above below
      have := logBelow e held
      omega
    · intro n above below
      omega

theorem compacted (h : s.Ranked writes) (compacts : Compacted env s t) : t.Ranked writes := by
  obtain ⟨wal, walNext, memtableNext, nextSequence, nodes⟩ := compacts.unchanged
  have same := compacts.watermark
  refine ⟨h.toRanked.mono (le_refl _)
    (by rw [wal]; exact fun _ => Iff.rfl) compacts.copies same, ?_, ?_, ?_, ?_, ?_, ?_, ?_,
    ?_, ?_, ?_⟩
  · rw [nodes]
    exact h.nodeBound
  · rw [nodes]
    exact h.nodeOrder
  · rw [nodes, same]
    exact h.above
  · rw [nodes]
    intro x member c held
    exact h.after x member c (compacts.copies c held)
  · rw [nodes, wal, memtableNext]
    exact h.newest
  · rw [nodes, memtableNext]
    exact h.attained
  · rw [same, walNext, wal]
    exact h.numbered
  · rw [same, memtableNext]
    exact h.mark
  · rw [walNext, memtableNext]
    exact h.memtable
  · rw [walNext, nextSequence]
    exact h.engine

/-- New writes in the log and in the memtable, numbered from `first` on. -/
theorem wrote {a : World.Label} {w : World} (h : s.Ranked w.writes) (before : s.Ready env)
    {entries : List MemtableEntry} {first : Nat} (written : World.Written env a w s entries first t)
    (start : s.memtableNext ≤ first) :
    t.Ranked (w.writes + entries.length) := by
  have wrote := written.wrote
  have manifests : t.manifests = s.manifests := by rw [wrote.frame]
  have count : 0 < entries.length := List.length_pos_iff.mpr written.nonempty
  have nextMemtable : t.memtableNext = first + entries.length := by
    rw [written.memtableNext]
    exact Nat.max_eq_right (by omega)
  have nextWal := wrote.walNext
  have nextEngine := wrote.nextSequence
  have mark := h.mark
  have memtable := h.memtable
  have engine := h.engine
  have logged : ∀ e, t.wal.Holds e → s.wal.Holds e ∨
      ∃ i < entries.length, e.origin = w.writes + i ∧ e.sequenceNumber = s.walNext + i := by
    intro e held
    rcases (wrote.holds e).mp held with old | new
    · exact Or.inl old
    · obtain ⟨i, entry, found, origin, number⟩ := World.logged_getElem new
      obtain ⟨place, bound⟩ := written.origin found
      exact Or.inr ⟨i, bound, origin.trans place, number⟩
  have all : ∀ i < entries.length, ∃ e, t.wal.Holds e ∧ e.sequenceNumber = s.walNext + i := by
    intro i bound
    exact ⟨_, (wrote.holds _).mpr (Or.inr (World.mem_logged (List.getElem?_eq_getElem bound) _)), rfl⟩
  have kept : ∀ x ∈ t.nodes, x ∈ s.nodes ∨ ∃ i < entries.length, x.origin = w.writes + i ∧
      x.sequenceNumber = first + i := by
    intro x member
    rcases wrote.only x member with old | new
    · exact Or.inl old
    · obtain ⟨i, e, found, rfl⟩ := World.mem_renumber new
      obtain ⟨place, bound⟩ := written.origin found
      exact Or.inr ⟨i, bound, place, rfl⟩
  have logs := h.toRanked.append before.opened.above h.numbered
    (fun e held => (wrote.holds e).mpr (Or.inl held)) logged all
    (fun c held => wrote.copy_iff.mp held) (by rw [manifests])
  refine ⟨logs, ?_, ?_, ?_, ?_, ?_, ?_, ?_, ?_, by omega, by omega⟩
  · intro x member
    rcases kept x member with old | ⟨i, bound, origin, -⟩
    · have := h.nodeBound x old
      omega
    · omega
  · intro x member y member' order
    rcases kept x member with old | ⟨i, -, origin, number⟩
    · have low := before.below x old
      rcases kept y member' with old' | ⟨j, -, origin', number'⟩
      · exact h.nodeOrder x old y old' order
      · omega
    · rcases kept y member' with old' | ⟨j, -, origin', number'⟩
      · have := h.nodeBound y old'
        omega
      · omega
  · intro x member
    rw [manifests]
    rcases kept x member with old | ⟨i, -, -, number⟩
    · exact h.above x old
    · omega
  · intro x member c held
    have held := wrote.copy_iff.mp held
    rcases kept x member with old | ⟨i, -, origin, -⟩
    · exact h.after x old c held
    · have := h.copyBound c held
      omega
  · -- only the last new entry of the log is that high
    intro e held high x member
    rcases logged e held with old | ⟨i, bound, origin, number⟩
    · have : e.sequenceNumber < s.walNext := before.opened.above e old
      omega
    · rcases kept x member with old | ⟨j, bound', origin', -⟩
      · have := h.nodeBound x old
        omega
      · omega
  · intro _
    have found : entries[entries.length - 1]? = some entries[entries.length - 1] :=
      List.getElem?_eq_getElem (by omega)
    refine ⟨_, wrote.added _ (World.renumber_mem found first), ?_⟩
    show first + (entries.length - 1) + 1 = _
    omega
  · intro n above below
    rw [manifests] at above
    rcases Nat.lt_or_ge n s.walNext with early | late
    · obtain ⟨e, held, number⟩ := h.numbered n above early
      exact ⟨e, (wrote.holds e).mpr (Or.inl held), number⟩
    · obtain ⟨i, rfl⟩ := Nat.exists_eq_add_of_le late
      exact all i (by omega)
  · rw [manifests]
    omega

/-- A log without gaps after the watermark has an entry for every number from there on. -/
theorem replay_count {st : Stored} (sound : st.Sound env) {next : Nat}
    (numbered : ∀ n, watermark st.manifests < n → n < next → ∃ e, st.wal.Holds e ∧
      e.sequenceNumber = n) :
    next ≤ watermark st.manifests + 1 + st.replayLog.length := by
  have inside : List.range' (watermark st.manifests + 1) (next - (watermark st.manifests + 1)) ⊆
      st.replayLog.map WalEntry.sequenceNumber := by
    intro n member
    obtain ⟨low, high⟩ := List.mem_range'_1.mp member
    obtain ⟨e, held, rfl⟩ := numbered n (by omega) (by omega)
    exact List.mem_map_of_mem ((WalReader.mem_replayFrom sound.ordered).mpr ⟨held, by omega⟩)
  have fewer := (List.subperm_of_subset List.nodup_range' inside).length_le
  rw [List.length_range', List.length_map] at fewer
  omega

/-- The entry of the log that an entry of the memtable stands for. -/
theorem replayed_entry {st : Stored} (sound : st.Sound env) (opened : s.Opened env st)
    {x : MemtableEntry} (member : x ∈ s.nodes) :
    ∃ i e, st.replayLog[i]? = some e ∧ st.wal.Holds e ∧ watermark st.manifests ≤ e.sequenceNumber ∧
      x.origin = e.origin ∧
      x.sequenceNumber = watermark st.manifests + 1 + i := by
  obtain ⟨i, e, found, replays, number⟩ := opened.replayed.only x member
  obtain ⟨bound, same⟩ := List.getElem?_eq_some_iff.mp found
  obtain ⟨held, above⟩ := (WalReader.mem_replayFrom sound.ordered).mp (same ▸ List.getElem_mem bound)
  exact ⟨i, e, found, held, above, World.Replays.origin replays, number⟩

theorem opened {st : Stored} (h : st.Ranked writes) (sound : st.Sound env)
    (opens : s.Opened env st) : s.Ranked writes := by
  have mark := opens.watermark
  have next : s.memtableNext = watermark st.manifests + 1 + st.replayLog.length :=
    opens.replayed.next
  have numbered : ∀ n, watermark st.manifests < n → n < s.walNext → ∃ e, st.wal.Holds e ∧
      e.sequenceNumber = n := by
    intro n above below
    rcases opens.walNext with ⟨one, -⟩ | ⟨top, held, last⟩
    · omega
    · rcases Nat.lt_or_ge n top.sequenceNumber with early | late
      · exact h.unbroken top held n above early
      · exact ⟨top, held, by omega⟩
  have enough := replay_count sound numbered
  have ascends : (st.replayLog.map WalEntry.sequenceNumber).Pairwise (· < ·) := by
    rw [Stored.replayLog, WalReader.replayFrom_eq sound.ordered]
    exact (WalReader.replayAll_ascends sound.ordered).sublist (List.Sublist.map _ List.filter_sublist)
  -- a later place in the log is a later write
  have places : ∀ (i j : Nat) (e e' : WalEntry), st.replayLog[i]? = some e →
      st.replayLog[j]? = some e' → i < j →
      e.sequenceNumber < e'.sequenceNumber := by
    intro i j e e' found found' order
    obtain ⟨bound, rfl⟩ := List.getElem?_eq_some_iff.mp found
    obtain ⟨bound', rfl⟩ := List.getElem?_eq_some_iff.mp found'
    exact List.pairwise_iff_getElem.mp (List.pairwise_map.mp ascends) i j bound bound' order
  refine ⟨h.mono (le_refl _) opens.holds (fun c => (opens.copies c).mp) mark, ?_, ?_, ?_, ?_, ?_,
    ?_, ?_, ?_, ?_, ?_⟩
  · intro x member
    obtain ⟨i, e, -, held, -, origin, -⟩ := replayed_entry sound opens member
    rw [origin]
    exact h.logBound e held
  · intro x member y member' order
    obtain ⟨i, e, found, held, -, origin, number⟩ := replayed_entry sound opens member
    obtain ⟨j, e', found', held', -, origin', number'⟩ := replayed_entry sound opens member'
    have earlier := (h.logOrder e e' held held').mp (by omega)
    rcases Nat.lt_trichotomy i j with less | same | greater
    · omega
    · subst same
      obtain rfl := Option.some.inj (found.symm.trans found')
      omega
    · have := places j i e' e found' found greater
      omega
  · intro x member
    obtain ⟨i, e, -, -, -, -, number⟩ := replayed_entry sound opens member
    omega
  · intro x member c held
    obtain ⟨i, e, -, inside, above, origin, -⟩ := replayed_entry sound opens member
    rw [origin]
    exact h.unflushed e inside above c ((opens.copies c).mp held)
  · intro e held high x member
    obtain ⟨i, e', found', held', above, origin, number⟩ := replayed_entry sound opens member
    rw [origin]
    have below : e'.sequenceNumber < s.walNext :=
      opens.ready.opened.above e' ((opens.holds e').mpr held')
    exact h.origin_le held' ((opens.holds e).mp held) (by omega)
  · intro some_left
    obtain ⟨x, member⟩ := List.exists_mem_of_ne_nil _ some_left
    obtain ⟨i, e, found, -⟩ := replayed_entry sound opens member
    have bound := (List.getElem?_eq_some_iff.mp found).1
    obtain ⟨last, inside, -, number⟩ := opens.replayed.all (st.replayLog.length - 1) _
      (List.getElem?_eq_getElem (show st.replayLog.length - 1 < st.replayLog.length by omega))
    exact ⟨last, inside, by omega⟩
  · intro n above below
    rw [mark] at above
    obtain ⟨e, held, number⟩ := numbered n above below
    exact ⟨e, (opens.holds e).mpr held, number⟩
  · omega
  · omega
  · obtain ⟨lower, all, -⟩ := Engine.foldl_max_spec (st.replayLog.map WalEntry.sequenceNumber)
      (watermark st.manifests)
    have engine := opens.nextSequence
    rcases opens.walNext with ⟨one, -⟩ | ⟨top, held, last⟩
    · omega
    · rcases Nat.lt_or_ge top.sequenceNumber (watermark st.manifests) with low | high
      · omega
      · have := all _ (List.mem_map_of_mem ((WalReader.mem_replayFrom sound.ordered).mpr ⟨held, high⟩))
        omega

theorem stores_order (h : s.Ranked writes) (ready : s.Ready env) {c c' : MergeEntry}
    (held : s.Stores c) (held' : s.Stores c') (order : c.origin < c'.origin) :
    c.sequenceNumber < c'.sequenceNumber := by
  rcases ready.stores_iff.mp held with copy | ⟨x, member, rfl⟩
  · rcases ready.stores_iff.mp held' with copy' | ⟨y, member', rfl⟩
    · exact h.copyOrder c c' copy copy' order
    · exact (h.flushed c copy).trans_lt (h.above y member')
  · rcases ready.stores_iff.mp held' with copy' | ⟨y, member', rfl⟩
    · have : c'.origin ≤ x.origin := h.after x member c' copy'
      have : x.origin < c'.origin := order
      omega
    · exact h.nodeOrder x member y member' order

end Engine.Ranked

namespace World

/-- A batch is not written while the engine's counter is behind the memtable's. -/
def Ahead (w : World) : Label → Prop
  | .putBatch _ _ _ _ _ => ∀ s ∈ w.engine, s.memtableNext ≤ s.nextSequence
  | _ => True

instance (w : World) : (a : Label) → Decidable (Ahead w a)
  | .putBatch _ _ _ _ _ =>
    inferInstanceAs (Decidable (∀ s ∈ w.engine, s.memtableNext ≤ s.nextSequence))
  | .openEngine ..
  | .put ..
  | .delete .. | .deleteRange .. | .maybeFlush _ | .runMaintenance .. | .maybeCompact _ | .close _
  | .crash _ => isTrue trivial

structure Ranked (env : Env) (w : World) : Prop where
  ready : Ready env w
  engine : ∀ s, w.engine = some s → s.Ranked w.writes
  stored : w.engine = none → w.stored.Ranked w.writes
  known : ∀ a ∈ w.acked, a.entry.origin < w.writes
  sequential : w.acked.Pairwise fun a b => a.entry.origin < b.entry.origin

section Preserved
variable {env : Env} {w w' : World}

theorem ranked_of_engine {s : Engine} (active : w.engine = some s) (ready : s.Ready env)
    (ranked : s.Ranked w.writes) (known : ∀ a ∈ w.acked, a.entry.origin < w.writes)
    (sequential : w.acked.Pairwise fun a b => a.entry.origin < b.entry.origin) : Ranked env w := by
  refine ⟨ready_of_engine active ready, ?_, ?_, known, sequential⟩
  · intro t same
    obtain rfl := Option.some.inj (active.symm.trans same)
    exact ranked
  · intro closed
    rw [active] at closed
    cases closed

/-- The writes that a call acknowledges come after all others, in their order. -/
theorem acked_wrote {a : Label} {s t : Engine} {entries : List MemtableEntry} {first : Nat}
    (written : Written env a w s entries first t) (s' : Engine)
    (known : ∀ a ∈ w.acked, a.entry.origin < w.writes)
    (sequential : w.acked.Pairwise fun a b => a.entry.origin < b.entry.origin)
    (result : FlushResult (Option Nat)) :
    (∀ a ∈ (w.wrote s entries result s').acked, a.entry.origin < w.writes + entries.length) ∧
      (w.wrote s entries result s').acked.Pairwise fun a b => a.entry.origin < b.entry.origin := by
  cases result with
  | error e =>
    refine ⟨?_, sequential⟩
    intro a member
    have := known a member
    omega
  | ok reported =>
    have origin : ∀ b ∈ ackedFrom reported s.walNext entries,
        w.writes ≤ b.entry.origin ∧ b.entry.origin < w.writes + entries.length := by
      intro b member
      rw [ackedFrom_eq] at member
      obtain ⟨i, bound, rfl⟩ := List.mem_mapIdx.mp member
      obtain ⟨place, -⟩ := written.origin (List.getElem?_eq_getElem bound)
      show w.writes ≤ entries[i].origin ∧ entries[i].origin < _
      omega
    refine ⟨?_, ?_⟩
    · intro b member
      rcases List.mem_append.mp member with old | new
      · have := known b old
        omega
      · exact (origin b new).2
    · refine List.pairwise_append.mpr ⟨sequential, ?_, ?_⟩
      · rw [ackedFrom_eq, List.pairwise_iff_getElem]
        intro i j bound bound' order
        rw [List.length_mapIdx] at bound bound'
        obtain ⟨place, -⟩ := written.origin (List.getElem?_eq_getElem bound)
        obtain ⟨place', -⟩ := written.origin (List.getElem?_eq_getElem bound')
        rw [List.getElem_mapIdx, List.getElem_mapIdx]
        show entries[i].origin < entries[j].origin
        omega
      · intro b old b' new
        have := known b old
        have := (origin b' new).1
        omega

theorem ranked_step (unique : Function.Injective env.ulid) {a : Label} (h : Ranked env w)
    (plain : Plain w a) (ahead : Ahead w a) (taken : step env w a = some w') : Ranked env w' := by
  obtain ⟨effect, ready⟩ := step_effect unique h.ready plain taken
  cases effect with
  | idle => exact h
  | @reloaded st closed reloads =>
    refine ⟨ready, ?_, ?_, h.known, h.sequential⟩
    · intro s active
      rw [show w.engine = some s from active] at closed
      cases closed
    · intro _
      refine (h.stored closed).mono (le_refl _) ?_ (fun c => (reloads.copy_iff c).mp) reloads.view.2
      rw [reloads.frame]
      exact fun _ => Iff.rfl
  | opened label closed opens =>
    exact ranked_of_engine rfl opens.ready (Engine.Ranked.opened (h.stored closed)
      (h.ready.stored closed) opens) h.known
      h.sequential
  | @crashed s wal torn active holds =>
    have ranked := h.engine s active
    refine ⟨ready, by rintro t ⟨⟩, ?_, ?_, h.sequential⟩
    · intro _
      refine ranked.toRanked.append (h.ready.engine s active).opened.above ranked.numbered ?_ ?_ ?_
        (fun _ held => held) rfl
      · intro e held
        exact (holds e).mpr (Or.inl held)
      · intro e held
        rcases (holds e).mp held with old | new
        · exact Or.inl old
        · obtain ⟨i, entry, found, origin, number⟩ := logged_getElem new
          rw [named_eq, List.getElem?_mapIdx] at found
          obtain ⟨original, there, rfl⟩ := Option.map_eq_some_iff.mp found
          exact Or.inr ⟨i, (List.getElem?_eq_some_iff.mp there).1, origin, number⟩
      · intro i bound
        have found : (named w.writes torn)[i]? = some { torn[i] with origin := w.writes + i } := by
          rw [named_eq, List.getElem?_mapIdx, List.getElem?_eq_getElem bound]
          rfl
        exact ⟨_, (holds _).mpr (Or.inr (mem_logged found _)), rfl⟩
    · intro b member
      exact (h.known b member).trans_le (Nat.le_add_right _ _)
  | @rolled s s' r active _ rolls =>
    have ready' := ready.engine _ rfl
    exact ranked_of_engine rfl ready' ((h.engine s active).rolled
      (h.ready.engine s active) ready' rolls) h.known h.sequential
  | @compacted s s' active compacts =>
    exact ranked_of_engine rfl (ready.engine _ rfl)
      ((h.engine s active).compacted compacts) h.known h.sequential
  | @wrote s t s' entries first rolled reported active written rolls told =>
    have ready_s := h.ready.engine s active
    have ready' := ready.engine s' rfl
    have start : s.memtableNext ≤ first := by
      rcases written.place with same | ⟨batch, same⟩
      · exact same.ge
      · cases a with
        | putBatch recordId items pressured late draws =>
          rw [same]
          exact ahead s active
        | _ => cases batch
    have ranked := (h.engine s active).wrote ready_s written start
    obtain ⟨known, sequential⟩ := acked_wrote written s' h.known h.sequential
      (rolled.map fun _ => reported)
    exact ranked_of_engine rfl ready' (ranked.rolled (written.wrote.ready ready_s) ready' rolls)
      known sequential

end Preserved

/-- In every run in which no batch is numbered below the memtable, all stored versions of a later
acknowledged write have higher numbers than those of an earlier one. -/
theorem later_write_wins {env : Env} (unique : Function.Injective env.ulid) {labels : List Label}
    {w : World}
    (admitted : Admits (step env) (fun w a => (Plain w a ∧ Fits env w a) ∧ Ahead w a) {} labels)
    (run : exec (step env) {} labels = some w) :
    w.acked.Pairwise fun a b => a.entry.compositeKey = b.entry.compositeKey →
      ∀ c c', w.Stores c → w.Stores c' → c.origin = a.entry.origin → c'.origin = b.entry.origin →
        c.sequenceNumber < c'.sequenceNumber := by
  have start : Ranked env {} := by
    have no_log : ∀ e, ¬ WalDir.Holds ({} : Stored).wal e := by
      rintro e ⟨k, segment, found, -⟩
      cases found
    have no_copy : ∀ c, ¬ ({} : Stored).Copy c := by
      rintro c ⟨level, t, listed, -⟩
      cases listed
    refine ⟨ready_empty env, by rintro s ⟨⟩, fun _ => ?_, ?_, .nil⟩
    · exact ⟨fun e held => absurd held (no_log e), fun c held => absurd held (no_copy c),
        fun e _ held => absurd held (no_log e), fun c _ held => absurd held (no_copy c),
          fun c held => absurd held (no_copy c),
        fun e held => absurd held (no_log e), fun e held => absurd held (no_log e)⟩
    · intro a member
      cases member
  have ranked := exec_invariant (fun _ _ _ kept ok taken =>
    ranked_step unique kept ok.1.1 ok.2 taken) start admitted run
  refine ranked.sequential.imp ?_
  intro a b order _ c c' held held' origin origin'
  have before : c.origin < c'.origin := by omega
  cases active : w.engine with
  | none =>
    rw [stores_closed active] at held held'
    exact (ranked.stored active).copyOrder c c' held held' before
  | some s =>
    rw [stores_of_engine active] at held held'
    exact (ranked.engine s active).stores_order (ranked.ready.engine s active) held held' before

section Example

/-- A flush, a second session that replays the entry of the watermark, and overwrites in both. -/
def overwrittenRun : List Label :=
  [.openEngine 0 none, samplePut 1 1 false, sampleBatch [1, 2], samplePut 2 2 true, .crash [],
    .openEngine 0 none,
    samplePut 1 2 false, .delete ⟨[114]⟩ ⟨[2]⟩ {}, samplePut 1 3 true]

theorem later_write_wins_reopened :
    ∃ w, exec (step (sampleEnv 1000)) {} overwrittenRun = some w ∧ w.acked.length = 7 ∧
      w.acked.Pairwise fun a b => a.entry.compositeKey = b.entry.compositeKey →
        ∀ c c', w.Stores c → w.Stores c' → c.origin = a.entry.origin → c'.origin = b.entry.origin →
          c.sequenceNumber < c'.sequenceNumber := by
  have summary : (exec (step (sampleEnv 1000)) {} overwrittenRun).map (fun w => w.acked.length) =
      some 7 := by decide +kernel
  obtain ⟨w, run, count⟩ := Option.map_eq_some_iff.mp summary
  have admitted : Admits (step (sampleEnv 1000))
      (fun w a => (Plain w a ∧ Fits (sampleEnv 1000) w a) ∧ Ahead w a) {}
      overwrittenRun := by decide +kernel
  exact ⟨w, run, count, later_write_wins (sampleEnv_unique 1000) admitted run⟩

/-- A second session replays the entry of the watermark, flushes a write and takes a batch to the
same key. -/
def behindRun : List Label :=
  [.openEngine 0 none, samplePut 1 1 false, .close fun _ => {}, .crash [], .openEngine 0 none,
    samplePut 2 1 true,
    sampleBatch [2]]

theorem behindRun_ties :
    ∃ w, exec (step (sampleEnv 1000)) {} behindRun = some w ∧
      ¬ w.acked.Pairwise fun a b => a.entry.compositeKey = b.entry.compositeKey →
        ∀ c c', w.Stores c → w.Stores c' → c.origin = a.entry.origin → c'.origin = b.entry.origin →
          c.sequenceNumber < c'.sequenceNumber := by
  have summary : ((exec (step (sampleEnv 1000)) {} behindRun).bind fun w => w.engine.map fun s =>
      (w.acked.map fun a => (a.entry.compositeKey, a.entry.origin),
        (tablesAt s.manifests .L0).flatMap (fun t =>
          (s.tables.entries (t.sstPath .L0)).map fun c => (c.origin, c.sequenceNumber)),
        s.nodes.map fun x => (x.origin, x.sequenceNumber))) =
      some ([(.encode ⟨[114]⟩ [1], 0), (.encode ⟨[114]⟩ [2], 1), (.encode ⟨[114]⟩ [2], 2)],
        [(0, 1), (0, 2), (1, 3)], [(2, 3)]) := by
    decide +kernel
  obtain ⟨w, run, rest⟩ := Option.bind_eq_some_iff.mp summary
  obtain ⟨s, active, same⟩ := Option.map_eq_some_iff.mp rest
  obtain ⟨acks, same⟩ := Prod.mk.inj same
  obtain ⟨tables, entries⟩ := Prod.mk.inj same
  obtain ⟨t, listed, inside⟩ := List.mem_flatMap.mp
    (tables ▸ (by simp : (1, 3) ∈ [(0, 1), (0, 2), (1, 3)]))
  obtain ⟨c, held, place⟩ := List.mem_map.mp inside
  obtain ⟨x, member, place'⟩ := List.mem_map.mp (entries ▸ List.mem_singleton_self (2, 3))
  refine ⟨w, run, ?_⟩
  intro wins
  have stored : w.Stores c := (stores_of_engine active c).mpr (Or.inl ⟨.L0, t, listed, held⟩)
  have stored' : w.Stores (MergeEntry.fromMemtableEntry x) :=
    (stores_of_engine active _).mpr (Or.inr ⟨s.memtableList.active, List.mem_cons_self, x, member, rfl⟩)
  obtain ⟨first, more, whole, -, acks⟩ := List.map_eq_cons_iff.mp acks
  obtain ⟨a, last, rfl, put, acks⟩ := List.map_eq_cons_iff.mp acks
  obtain ⟨b, none_left, rfl, batch, -⟩ := List.map_eq_cons_iff.mp acks
  rw [whole] at wins
  have pair := (List.pairwise_cons.mp (List.pairwise_cons.mp wins).2).1 b List.mem_cons_self
  obtain ⟨key, origin⟩ := Prod.mk.inj put
  obtain ⟨key', origin'⟩ := Prod.mk.inj batch
  obtain ⟨made, number⟩ := Prod.mk.inj place
  obtain ⟨made', number'⟩ := Prod.mk.inj place'
  have less : c.sequenceNumber < x.sequenceNumber :=
    pair (key.trans key'.symm) c _ stored stored' (made.trans origin.symm) (made'.trans origin'.symm)
  omega

end Example

end World

end FlushDB
