import FlushDB.Engine.Counters

/-!
Durability: an acknowledged write is in a listed table, or in the part of the log that the next
opening replays. The watermark moves to the highest number of the flushed memtable, and so passes
over everything that is in neither the tables nor that memtable. A failed flush leaves such
writes, and so does a batch whose entry takes the place of another one in the memtable.
-/

namespace FlushDB
open Lib ManifestBucket

namespace Acked

/-- The write is in a table that the newest manifest lists. -/
def Flushed (a : Acked) (st : Stored) : Prop :=
  ∃ n, st.Copy { MergeEntry.fromMemtableEntry a.entry with sequenceNumber := n }

/-- The write's entry in the log. -/
def logEntry (env : Env) (a : Acked) : WalEntry :=
  { WalEntry.fromMemtableEntry a.entry (Bytes.ofString env.config.ns) with sequenceNumber := a.walSequence }

/-- The write is in the active memtable. -/
def Buffered (a : Acked) (s : Engine) : Prop := ∃ n, { a.entry with sequenceNumber := n } ∈ s.nodes

/-- Replay makes the write's own entry out of its entry in the log. -/
theorem replays_logEntry {env : Env} {a : Acked} {x : MemtableEntry}
    (h : (a.logEntry env).Replays x) :
    x = { a.entry with sequenceNumber := x.sequenceNumber } := by
  unfold WalEntry.Replays WalEntry.toMemtableEntry at h
  split at h
  · cases h
  · rename_i key made
    obtain ⟨-, same⟩ := CompositeKey.new_ok made
    have whole : key = a.entry.compositeKey := same.trans (CompositeKey.encode_parts _)
    have entry := Except.ok.inj h
    rw [whole] at entry
    cases x
    cases entry
    rfl

end Acked

/-- The acknowledged writes are in the tables or in the log from the watermark on. -/
def Stored.Durable (env : Env) (acked : List Acked) (st : Stored) : Prop :=
  ∀ a ∈ acked, a.Flushed st ∨ (st.wal.Holds (a.logEntry env) ∧ watermark st.manifests ≤ a.walSequence)

structure Engine.Durable (env : Env) (acked : List Acked) (s : Engine) : Prop where
  safe : s.toStored.Durable env acked
  kept : s.dropped = false → ∀ a ∈ acked, a.Flushed s.toStored ∨ a.Buffered s
  mark : watermark s.manifests < s.memtableNext
  memtable : s.memtableNext ≤ s.walNext + 1
  engine : s.nextSequence ≤ s.walNext + 1

theorem Stored.Durable.mono {env : Env} {acked : List Acked} {st st' : Stored}
    (h : st.Durable env acked) (holds : ∀ e, st.wal.Holds e → st'.wal.Holds e)
    (copies : ∀ c, st.Copy c → st'.Copy c)
    (mark : watermark st'.manifests = watermark st.manifests) : st'.Durable env acked := by
  intro a member
  rcases h a member with ⟨n, copy⟩ | ⟨held, above⟩
  · exact Or.inl ⟨n, copies _ copy⟩
  · exact Or.inr ⟨holds _ held, mark ▸ above⟩

namespace Engine.Durable
variable {env : Env} {acked : List Acked} {s t : Engine}

/-- Without a failed flush before it, a flush commits everything that is not in the tables. -/
theorem rolled (h : s.Durable env acked) (before : s.Ready env) {commits : Bool}
    {r : FlushResult Unit} (rolls : Rolled commits r s t) (quiet : t.compactions = s.compactions)
    (lossless : s.dropped = true → commits = true → s.nodes = []) : t.Durable env acked := by
  obtain ⟨walNext, memtableNext, nextSequence⟩ := rolls.counters
  have mark := h.mark
  have memtable := h.memtable
  have engine := h.engine
  rcases rolls with rfl | ⟨dropped, -⟩ | ⟨committed, due⟩
  · exact h
  · have same := dropped.watermark
    refine ⟨h.safe.mono (by rw [dropped.wal]; exact fun _ held => held)
      (fun c => (dropped.copies c).mpr) same, ?_, by omega, by omega, by omega⟩
    intro undropped
    rw [dropped.dropped] at undropped
    cases undropped
  · obtain ⟨top, inside, top_eq⟩ := committed.attained
    have low := before.below top inside
    have intact : s.dropped = false := by
      by_contra failed
      rw [lossless (by simpa using failed) due] at inside
      cases inside
    have flushed : ∀ a ∈ acked, a.Flushed t.toStored := by
      intro a member
      rcases h.kept intact a member with ⟨n, copy⟩ | ⟨n, held⟩
      · exact ⟨n, committed.kept quiet _ (Or.inl copy)⟩
      · exact ⟨n, committed.kept quiet _ (Or.inr ⟨_, held, rfl⟩)⟩
    exact ⟨fun a member => Or.inl (flushed a member),
      fun _ a member => Or.inl (flushed a member), by omega, by omega, by omega⟩

/-- The entries are logged above the watermark, and take the place of none. -/
theorem wrote {a : World.Label} {w : World} (h : s.Durable env w.acked)
    {entries : List MemtableEntry} {first : Nat} (written : World.Written env a w s entries first t)
    (apart : ∀ x ∈ s.nodes, ∀ y ∈ renumber first entries,
      ¬ (x.compositeKey = y.compositeKey ∧ x.sequenceNumber = y.sequenceNumber))
    (reported : Option Nat) :
    t.Durable env (w.acked ++ World.ackedFrom reported s.walNext entries) := by
  have wrote := written.wrote
  have manifests : t.manifests = s.manifests := by rw [wrote.frame]
  have mark := h.mark
  have memtable := h.memtable
  have engine := h.engine
  have nextWal := wrote.walNext
  have nextEngine := wrote.nextSequence
  have nextMemtable := written.memtableNext
  have start : first ≤ s.walNext + 1 := by
    rcases written.place with same | ⟨-, same⟩
    · omega
    · omega
  have new : ∀ b ∈ World.ackedFrom reported s.walNext entries, ∃ (i : Nat) (e : MemtableEntry),
      entries[i]? = some e ∧
      b = ⟨e, s.walNext + i, reported⟩ := by
    intro b member
    rw [World.ackedFrom_eq] at member
    obtain ⟨i, bound, same⟩ := List.mem_mapIdx.mp member
    exact ⟨i, _, List.getElem?_eq_getElem bound, same.symm⟩
  have old := h.safe.mono (fun e held => (wrote.holds e).mpr (Or.inl held))
    (fun c held => wrote.copy_iff.mpr held)
    (show watermark t.manifests = _ by rw [manifests])
  refine ⟨?_, ?_, ?_, ?_, ?_⟩
  · intro b member
    rcases List.mem_append.mp member with before | made
    · exact old b before
    · obtain ⟨i, e, found, rfl⟩ := new b made
      refine Or.inr ⟨(wrote.holds _).mpr (Or.inr (World.mem_logged found _)), ?_⟩
      show watermark t.manifests ≤ s.walNext + i
      rw [manifests]
      omega
  · intro undropped b member
    have undropped : s.dropped = false := by
      rw [wrote.frame] at undropped
      exact undropped
    rcases List.mem_append.mp member with before | made
    · rcases h.kept undropped b before with ⟨n, copy⟩ | ⟨n, held⟩
      · exact Or.inl ⟨n, wrote.copy_iff.mpr copy⟩
      · exact Or.inr ⟨n, wrote.stays _ held (apart _ held)⟩
    · obtain ⟨i, e, found, rfl⟩ := new b made
      exact Or.inr ⟨first + i, wrote.added _ (World.renumber_mem found first)⟩
  · rw [manifests]
    omega
  · omega
  · omega

/-- An opening finds every write that is not in the tables. -/
theorem opened {st : Stored} (h : st.Durable env acked) (sound : st.Sound env)
    (opens : s.Opened env st) (reaches : watermark st.manifests ≤ s.walNext) :
    s.Durable env acked := by
  have mark := opens.watermark
  have next : s.memtableNext = watermark st.manifests + 1 + st.replayLog.length :=
    opens.replayed.next
  have below : ∀ e ∈ st.replayLog, watermark st.manifests ≤ e.sequenceNumber ∧
      e.sequenceNumber < s.walNext := by
    intro e member
    obtain ⟨held, above⟩ := (WalReader.mem_replayFrom sound.ordered).mp member
    exact ⟨above, opens.ready.opened.above e ((opens.holds e).mpr held)⟩
  have few : st.replayLog.length ≤ s.walNext - watermark st.manifests := by
    have distinct : (st.replayLog.map WalEntry.sequenceNumber).Nodup := by
      rw [Stored.replayLog, WalReader.replayFrom_eq sound.ordered]
      exact (WalReader.replayAll_ascends sound.ordered).nodup.sublist
        (List.Sublist.map _ List.filter_sublist)
    have inside : st.replayLog.map WalEntry.sequenceNumber ⊆
        List.range' (watermark st.manifests) (s.walNext - watermark st.manifests) := by
      intro n member
      obtain ⟨e, listed, rfl⟩ := List.mem_map.mp member
      have bounds := below e listed
      exact List.mem_range'_1.mpr (by omega)
    have fewer := (List.subperm_of_subset distinct inside).length_le
    rwa [List.length_map, List.length_range'] at fewer
  have found : ∀ a ∈ acked, a.Flushed s.toStored ∨ a.Buffered s := by
    intro a member
    rcases h a member with ⟨n, copy⟩ | ⟨held, above⟩
    · exact Or.inl ⟨n, (opens.copies _).mpr copy⟩
    · have listed : a.logEntry env ∈ st.replayLog :=
        (WalReader.mem_replayFrom sound.ordered).mpr ⟨held, above⟩
      obtain ⟨i, bound, same⟩ := List.getElem_of_mem listed
      obtain ⟨x, inside, replays, -⟩ := opens.replayed.all i (a.logEntry env)
        (List.getElem?_eq_some_iff.mpr ⟨bound, same⟩)
      rw [Acked.replays_logEntry replays] at inside
      exact Or.inr ⟨_, inside⟩
  refine ⟨h.mono (fun e held => (opens.holds e).mpr held) (fun c => (opens.copies c).mpr) mark,
    fun _ => found, by omega, by omega, ?_⟩
  obtain ⟨-, -, attained⟩ := Engine.foldl_max_spec (st.replayLog.map WalEntry.sequenceNumber)
    (watermark st.manifests)
  have engine := opens.nextSequence
  rcases attained with same | member
  · omega
  · obtain ⟨e, listed, top⟩ := List.mem_map.mp member
    have bounds := below e listed
    omega

theorem subset (h : s.Durable env acked) {fewer : List Acked} (sub : fewer ⊆ acked) :
    s.Durable env fewer :=
  ⟨fun a member => h.safe a (sub member), fun undropped a member => h.kept undropped a (sub member),
    h.mark, h.memtable,
    h.engine⟩

end Engine.Durable

namespace World

section Conditions
variable (env : Env)

/-- Where a flush of the session has failed, the call flushes nothing. -/
def Lossless (w : World) (s : Engine) (a : Label) : Prop :=
  s.dropped = true → a.commits = true → prepared env w s a = [] ∧ (a.isWrite = true ∨ s.nodes = [])

/-- An opening derives a next number from the log that is not below the watermark, no entry of a
batch has the key and the number of an entry of the memtable, and no flush follows a failed one. -/
def Sheltered (w : World) : Label → Prop
  | .openEngine _ _ =>
    watermark w.stored.manifests ≤ 1 ∨
      ∃ e ∈ WalReader.replayAll w.stored.wal, watermark w.stored.manifests ≤ e.sequenceNumber + 1
  | .putBatch recordId items pressured late draws => ∀ s ∈ w.engine,
    Lossless env w s (.putBatch recordId items pressured late draws) ∧
      ∀ x ∈ s.nodes, ∀ e ∈ prepared env w s (.putBatch recordId items pressured late draws),
        ¬ (x.compositeKey = e.compositeKey ∧ x.sequenceNumber = e.sequenceNumber)
  | a => ∀ s ∈ w.engine, Lossless env w s a

instance (w : World) (s : Engine) (a : Label) : Decidable (Lossless env w s a) :=
  inferInstanceAs (Decidable (s.dropped = true → a.commits = true → prepared env w s a = [] ∧
    (a.isWrite = true ∨ s.nodes = [])))

instance (w : World) : (a : Label) → Decidable (Sheltered env w a)
  | .openEngine _ _ => inferInstanceAs (Decidable (_ ∨ ∃ e ∈ _, _))
  | .putBatch .. =>
    inferInstanceAs (Decidable (∀ s ∈ w.engine, _ ∧ ∀ x ∈ s.nodes,
      ∀ e ∈ prepared env w s _, ¬ (_ ∧ _)))
  | .put ..
  | .delete ..
  | .deleteRange .. | .maybeFlush _ | .runMaintenance .. | .maybeCompact _ | .close _ | .crash _ =>
    inferInstanceAs (Decidable (∀ s ∈ w.engine, Lossless env w s _))

end Conditions

/-- While no compaction has run, the acknowledged writes are durable. -/
structure Durable (env : Env) (w : World) : Prop where
  ready : Ready env w
  engine : ∀ s, w.engine = some s → s.compactions = 0 → s.Durable env w.acked
  stored : w.engine = none → w.stored.compactions = 0 → w.stored.Durable env w.acked

section Preserved
variable {env : Env} {w w' : World}

theorem durable_of_engine {s : Engine} (active : w.engine = some s) (ready : s.Ready env)
    (durable : s.compactions = 0 → s.Durable env w.acked) : Durable env w := by
  refine ⟨ready_of_engine active ready, ?_, ?_⟩
  · intro t same
    obtain rfl := Option.some.inj (active.symm.trans same)
    exact durable
  · intro closed
    rw [active] at closed
    cases closed

theorem Sheltered.lossless {a : Label} {s : Engine} (h : Sheltered env w a)
    (active : w.engine = some s) : Lossless env w s a := by
  cases a with
  | openEngine nowMs fault =>
    intro _ due
    cases due
  | putBatch recordId items pressured late draws => exact (h s active).1
  | _ => exact h s active

/-- New entries have numbers of their own in the memtable, unless a batch brings its own. -/
theorem Written.apart {a : Label} {s t : Engine} {entries : List MemtableEntry} {first : Nat}
    (written : Written env a w s entries first t) (ready : s.Ready env)
    (free : a.isBatch = true → ∀ x ∈ s.nodes, ∀ e ∈ prepared env w s a,
      ¬ (x.compositeKey = e.compositeKey ∧ x.sequenceNumber = e.sequenceNumber)) :
    ∀ x ∈ s.nodes, ∀ y ∈ renumber first entries,
      ¬ (x.compositeKey = y.compositeKey ∧ x.sequenceNumber = y.sequenceNumber) := by
  intro x member y kept same
  rcases written.place with start | ⟨batch, start⟩
  · obtain ⟨i, e, -, rfl⟩ := mem_renumber kept
    have low := ready.below x member
    have equal : x.sequenceNumber = first + i := same.2
    omega
  · rw [start, renumber_self written.numbers, written.made] at kept
    exact free batch x member y kept same

theorem Sheltered.free {a : Label} {s : Engine} (h : Sheltered env w a) (active : w.engine = some s)
    (batch : a.isBatch = true) :
    ∀ x ∈ s.nodes, ∀ e ∈ prepared env w s a, ¬ (x.compositeKey = e.compositeKey ∧
      x.sequenceNumber = e.sequenceNumber) := by
  cases a with
  | putBatch recordId items pressured late draws => exact (h s active).2
  | _ => cases batch

theorem durable_step (unique : Function.Injective env.ulid) {a : Label} (h : Durable env w)
    (plain : Plain w a) (sheltered : Sheltered env w a) (taken : step env w a = some w') :
    Durable env w' := by
  obtain ⟨effect, ready⟩ := step_effect unique h.ready plain taken
  cases effect with
  | idle => exact h
  | @reloaded st closed reloads =>
    refine ⟨ready, ?_, ?_⟩
    · intro s active
      rw [show w.engine = some s from active] at closed
      cases closed
    · intro _ quiet
      have count : w.stored.compactions = 0 := by
        rw [reloads.frame] at quiet
        exact quiet
      refine (h.stored closed count).mono ?_ (fun c => (reloads.copy_iff c).mpr) reloads.view.2
      rw [reloads.frame]
      exact fun _ held => held
  | @opened nowMs fault st s label closed opens =>
    refine durable_of_engine rfl opens.ready fun quiet => ?_
    have durable := h.stored closed (opens.compactions.symm.trans quiet)
    refine Engine.Durable.opened durable (h.ready.stored closed) opens ?_
    subst label
    rcases sheltered with low | ⟨e, listed, reaches⟩
    · rcases opens.walNext with ⟨one, -⟩ | ⟨top, -, next⟩ <;> omega
    · have below : e.sequenceNumber < s.walNext :=
        opens.ready.opened.above e ((opens.holds e).mpr (WalReader.mem_replayAll.mp listed))
      omega
  | @crashed s wal torn active holds =>
    refine ⟨ready, by rintro t ⟨⟩, ?_⟩
    intro _ quiet
    refine (h.engine s active quiet).safe.mono ?_ (fun _ held => held) rfl
    intro e held
    exact (holds e).mpr (Or.inl held)
  | @rolled s s' r active other rolls =>
    refine durable_of_engine rfl (ready.engine _ rfl) fun quiet => ?_
    have fewer := rolls.compactions
    refine (h.engine s active (by omega)).rolled (h.ready.engine s active) rolls (by omega) ?_
    intro failed due
    rcases (sheltered.lossless active failed due).2 with write | empty
    · rw [other] at write
      cases write
    · exact empty
  | @compacted s s' active compacts =>
    refine durable_of_engine rfl (ready.engine _ rfl) fun quiet => ?_
    have fewer := compacts.compactions
    have durable := h.engine s active (by omega)
    obtain ⟨wal, walNext, memtableNext, nextSequence, nodes⟩ := compacts.unchanged
    have copies := compacts.kept (by omega)
    refine ⟨durable.safe.mono (by rw [wal]; exact fun _ held => held) copies compacts.watermark, ?_, ?_, ?_, ?_⟩
    · intro undropped b member
      have undropped : s.dropped = false := by
        rw [compacts.frame] at undropped
        exact undropped
      rcases durable.kept undropped b member with ⟨n, copy⟩ | ⟨n, held⟩
      · exact Or.inl ⟨n, copies _ copy⟩
      · exact Or.inr ⟨n, nodes ▸ held⟩
    · rw [compacts.watermark, memtableNext]
      exact durable.mark
    · rw [memtableNext, walNext]
      exact durable.memtable
    · rw [nextSequence, walNext]
      exact durable.engine
  | @wrote s t s' entries first rolled reported active written rolls told =>
    have ready_s := h.ready.engine s active
    refine durable_of_engine rfl (ready.engine s' rfl) fun quiet => ?_
    have fewer := rolls.compactions
    have same : t.compactions = s.compactions := by rw [written.wrote.frame]
    have durable := (h.engine s
      active (by omega)).wrote written (written.apart ready_s (sheltered.free active)) reported
    have all := durable.rolled (written.wrote.ready ready_s) rolls (by omega) (by
      intro failed due
      have failed : s.dropped = true := by
        rw [written.wrote.frame] at failed
        exact failed
      exact absurd (written.made.trans (sheltered.lossless active failed due).1) written.nonempty)
    refine all.subset ?_
    cases rolled with
    | error e => exact List.subset_append_left _ _
    | ok done => exact List.Subset.refl _

end Preserved

/-- In every run without a compaction whose steps are sheltered, an acknowledged write is in a
listed table or in what the next opening replays, and whatever is below the watermark is in a
listed table. -/
theorem acknowledged_writes_survive {env : Env} (unique : Function.Injective env.ulid)
    {labels : List Label} {w : World}
    (admitted : Admits (step env) (fun w a => (Plain w a ∧ Fits env w a) ∧ Sheltered env w a) {} labels)
    (run : exec (step env) {} labels = some w) (quiet : w.disk.compactions = 0) : ∀ a ∈ w.acked,
      (a.Flushed w.disk ∨ a.logEntry env ∈ WalReader.replayFrom w.disk.wal (watermark w.disk.manifests)) ∧
      ∀ n ≤ watermark w.disk.manifests, a.walSequence < n → a.Flushed w.disk := by
  have start : Durable env {} := by
    refine ⟨ready_empty env, by rintro s ⟨⟩, fun _ _ => ?_⟩
    intro a member
    cases member
  have durable := exec_invariant (fun _ _ _ kept ok taken =>
    durable_step unique kept ok.1.1 ok.2 taken) start admitted run
  have safe : w.disk.Durable env w.acked ∧ w.disk.wal.Ordered := by
    cases active : w.engine with
    | none =>
      rw [disk_closed active] at quiet ⊢
      exact ⟨durable.stored active quiet, (durable.ready.stored active).ordered⟩
    | some s =>
      rw [disk_of_engine active] at quiet ⊢
      exact ⟨(durable.engine s active quiet).safe, (durable.ready.engine s active).ordered⟩
  intro a member
  rcases safe.1 a member with flushed | ⟨held, above⟩
  · exact ⟨Or.inl flushed, fun _ _ _ => flushed⟩
  · refine ⟨Or.inr ((WalReader.mem_replayFrom safe.2).mpr ⟨held, above⟩), ?_⟩
    intro n low high
    omega

section Example

/-- A write whose flush fails at the table. -/
def failingPut (item : UInt8) : Label :=
  .put ⟨[114]⟩ ⟨[item]⟩ ⟨[1]⟩ ⟨[]⟩ none { freeze := true, flush := { fault := some .putTable } }

/-- A flush, a torn append, a flush that fails and drops the memtable, and a session that replays
it. -/
def recoveredRun : List Label :=
  [.openEngine 0 none, samplePut 1 1 false, sampleBatch [2, 3], samplePut 4 1 true,
    .crash [⟨.encode ⟨[114]⟩ [9], ⟨[]⟩, ⟨[]⟩,
    .none, 0, .put, 0⟩], .openEngine 0 none, samplePut 5 1 false, failingPut 6, .crash [],
      .openEngine 0 none]

theorem acknowledged_writes_survive_recovered :
    ∃ w, exec (step (sampleEnv 1000)) {} recoveredRun = some w ∧
      w.acked.map (fun a => a.walSequence) = [1, 2, 3, 4, 6] ∧
      ∀ a ∈ w.acked,
        (a.Flushed w.disk ∨ a.logEntry (sampleEnv 1000) ∈
          WalReader.replayFrom w.disk.wal (watermark w.disk.manifests)) ∧
        ∀ n ≤ watermark w.disk.manifests, a.walSequence < n → a.Flushed w.disk := by
  have summary : (exec (step (sampleEnv 1000)) {} recoveredRun).map
      (fun w => (w.acked.map (fun a => a.walSequence), w.disk.compactions)) =
        some ([1, 2, 3, 4, 6], 0) := by decide +kernel
  obtain ⟨w, run, same⟩ := Option.map_eq_some_iff.mp summary
  obtain ⟨numbers, quiet⟩ := Prod.mk.inj same
  have admitted : Admits (step (sampleEnv 1000))
      (fun w a => (Plain w a ∧ Fits (sampleEnv 1000) w a) ∧ Sheltered (sampleEnv 1000) w a)
        {} recoveredRun := by decide +kernel
  exact ⟨w, run, numbers, acknowledged_writes_survive (sampleEnv_unique 1000) admitted run quiet⟩

/-- A flush fails and drops an acknowledged write; the next one moves the watermark past it. -/
def droppedRun : List Label :=
  [.openEngine 0 none, samplePut 1 1 false, failingPut 2, samplePut 3 1 true]

theorem droppedRun_loses :
    ∃ w, exec (step (sampleEnv 1000)) {} droppedRun = some w ∧ w.disk.compactions = 0 ∧
      ¬ ∀ a ∈ w.acked,
        (a.Flushed w.disk ∨ a.logEntry (sampleEnv 1000) ∈
          WalReader.replayFrom w.disk.wal (watermark w.disk.manifests)) ∧
        ∀ n ≤ watermark w.disk.manifests, a.walSequence < n → a.Flushed w.disk := by
  have summary : (exec (step (sampleEnv 1000)) {} droppedRun).map (fun w =>
      (w.acked.map (fun a => (a.entry.origin, a.walSequence)), w.disk.compactions,
        watermark w.disk.manifests,
        w.disk.listed.map MergeEntry.origin)) = some
          ([(0, 1), (2, 3)], 0, 3, [2]) := by decide +kernel
  obtain ⟨w, run, same⟩ := Option.map_eq_some_iff.mp summary
  obtain ⟨acks, same⟩ := Prod.mk.inj same
  obtain ⟨quiet, same⟩ := Prod.mk.inj same
  obtain ⟨mark, copies⟩ := Prod.mk.inj same
  obtain ⟨a, member, numbers⟩ := List.mem_map.mp
    (acks ▸ List.mem_cons_self : (0, 1) ∈ w.acked.map fun a => (a.entry.origin, a.walSequence))
  obtain ⟨origin, number⟩ := Prod.mk.inj numbers
  refine ⟨w, run, quiet, ?_⟩
  intro survive
  obtain ⟨n, copy⟩ := (survive a member).2 3 mark.ge (by omega)
  have stored : a.entry.origin ∈ [2] := by
    rw [← copies]
    exact List.mem_map.mpr ⟨_, Stored.mem_listed.mpr copy, rfl⟩
  rw [origin] at stored
  cases List.mem_singleton.mp stored

end Example

end World

end FlushDB
