import FlushDB.Engine.Effects

/-!
What opening does: everything that is stored stays as it was, and the memtable holds the entries
of the log from the watermark on under new numbers.
-/

namespace FlushDB
open Lib ManifestBucket

/-- Entries share a token only when they have none. -/
def DistinctTokens (log : List WalEntry) : Prop :=
  log.Pairwise fun a b => a.idempotencyToken = b.idempotencyToken → a.idempotencyToken.isNone = true

instance (log : List WalEntry) : Decidable (DistinctTokens log) :=
  inferInstanceAs (Decidable (List.Pairwise _ _))

/-- `x` is the log entry `e` under another number. -/
def WalEntry.Replays (e : WalEntry) (x : MemtableEntry) : Prop :=
  e.toMemtableEntry = .ok { x with sequenceNumber := e.sequenceNumber }

/-- A memtable that holds `log` numbered from `first` on. -/
structure Replayed (log : List WalEntry) (first : Nat) (m : Memtable) : Prop where
  next : m.nextSequenceNumber = first + log.length
  only : ∀ x ∈ m.skiplist.nodes, ∃ i e, log[i]? = some e ∧ e.Replays x ∧
    x.sequenceNumber = first + i
  all : ∀ i e, log[i]? = some e → ∃ x ∈ m.skiplist.nodes, e.Replays x ∧ x.sequenceNumber = first + i
  opened : m.frozen = false

theorem Replayed.below {log : List WalEntry} {first : Nat} {m : Memtable}
    (h : Replayed log first m) :
    ∀ x ∈ m.skiplist.nodes, x.sequenceNumber < m.nextSequenceNumber := by
  intro x member
  obtain ⟨i, e, found, -, number⟩ := h.only x member
  have bound := (List.getElem?_eq_some_iff.mp found).1
  have := h.next
  omega

theorem Replayed.insert {log : List WalEntry} {first : Nat} {m : Memtable}
    (h : Replayed log first m) {e : WalEntry} {entry : MemtableEntry}
    (converted : e.toMemtableEntry = .ok entry) :
    Replayed (log ++ [e]) first ({ m with nextSequenceNumber := m.nextSequenceNumber + 1 }.insertInner
      { entry with sequenceNumber := m.nextSequenceNumber }) := by
  have nodes_eq : ({ m with nextSequenceNumber := m.nextSequenceNumber + 1 }.insertInner
      { entry with sequenceNumber := m.nextSequenceNumber }).skiplist.nodes =
        SkipList.insertNode { entry with sequenceNumber := m.nextSequenceNumber }
          m.skiplist.nodes := rfl
  have here : (log ++ [e])[log.length]? = some e := by simp
  have replays : e.Replays { entry with sequenceNumber := m.nextSequenceNumber } := by
    have number : entry.sequenceNumber = e.sequenceNumber := by
      unfold WalEntry.toMemtableEntry at converted
      split at converted
      · cases converted
      · obtain rfl := Except.ok.inj converted
        rfl
    unfold WalEntry.Replays
    rw [converted]
    simp only [← number]
  refine ⟨?_, ?_, ?_, h.opened⟩
  · show m.nextSequenceNumber + 1 = _
    rw [h.next, List.length_append]
    rfl
  · intro x member
    rw [nodes_eq] at member
    rcases SkipList.mem_insertNode member with rfl | old
    · exact ⟨log.length, e, here, replays, h.next⟩
    · obtain ⟨i, e', found, replays', number⟩ := h.only x old
      refine ⟨i, e', ?_, replays', number⟩
      rw [List.getElem?_append_left (List.getElem?_eq_some_iff.mp found).1]
      exact found
  · intro i e' found
    rw [nodes_eq]
    rcases Nat.lt_or_ge i log.length with earlier | later
    · rw [List.getElem?_append_left earlier] at found
      obtain ⟨x, member, replays', number⟩ := h.all i e' found
      refine ⟨x, SkipList.mem_insertNode_of_mem member ?_, replays', number⟩
      intro same
      have := h.below x member
      have equal : x.sequenceNumber = m.nextSequenceNumber := same.2
      omega
    · have last : i = log.length := by
        have bound := (List.getElem?_eq_some_iff.mp found).1
        rw [List.length_append, List.length_singleton] at bound
        omega
      subst last
      rw [here] at found
      obtain rfl := Option.some.inj found
      exact ⟨_, SkipList.mem_insertNode_self _ _, replays, h.next⟩

/-- The highest number replayed, or the watermark. -/
theorem replay_spec {rest done : List WalEntry} {first highest highest' : Nat} {l l' : MemtableList}
    (before : Replayed done first l.active) (noneFrozen : l.frozen = [])
    (unknown : ∀ e ∈ rest, l.knows e.idempotencyToken = false) (distinct : DistinctTokens rest)
    (h : replay rest highest l = .ok (highest', l')) :
    Replayed (done ++ rest) first l'.active ∧ l'.frozen = [] ∧
      highest' = (rest.map WalEntry.sequenceNumber).foldl max highest := by
  induction rest generalizing done highest l with
  | nil =>
    cases h
    exact ⟨by rwa [List.append_nil], noneFrozen, rfl⟩
  | cons e rest ih =>
    obtain ⟨unlike, distinct⟩ := List.pairwise_cons.mp distinct
    unfold replay at h
    split at h
    · cases h
    · rename_i entry converted
      have token : entry.idempotencyKey = e.idempotencyToken := by
        unfold WalEntry.toMemtableEntry at converted
        split at converted
        · cases converted
        · obtain rfl := Except.ok.inj converted
          rfl
      rw [MemtableList.insert_ok before.opened (token ▸ unknown e List.mem_cons_self)] at h
      dsimp only at h
      generalize inserted : ({ l.active with nextSequenceNumber := l.active.nextSequenceNumber + 1 }.insertInner
        { entry with sequenceNumber := l.active.nextSequenceNumber } : Memtable) = active at h
      have next : Replayed (done ++ [e]) first active := inserted ▸ before.insert converted
      have tokens : active.dedupSet = if entry.idempotencyKey.isNone then l.active.dedupSet
          else l.active.dedupSet.insert entry.idempotencyKey := by
        rw [← inserted]
        rfl
      have fresh : ∀ e' ∈ rest, MemtableList.knows { l with active } e'.idempotencyToken = false := by
        intro e' member
        have old := unknown e' (List.mem_cons_of_mem _ member)
        simp only [MemtableList.knows, noneFrozen, List.any_nil, Bool.or_false, Memtable.checkDedup,
          tokens] at old ⊢
        split
        · exact old
        · rename_i used
          rcases Bool.and_eq_false_iff.mp old with isNone | absent
          · rw [isNone]
            rfl
          · refine Bool.and_eq_false_iff.mpr (Or.inr ?_)
            have other : e'.idempotencyToken ≠ entry.idempotencyKey := by
              intro same
              rw [token] at same used
              exact used (unlike e' member same.symm)
            simpa [List.mem_insert_iff, other] using absent
      have later := @ih (done ++ [e]) _ { l with active } next noneFrozen fresh distinct h
      rwa [List.append_assoc] at later

/-- The manifests may gain one that lists the same. -/
structure Reloaded (st st' : Stored) : Prop where
  frame : st' = { st with manifests := st'.manifests }
  keyed : Keyed st'.manifests
  view : SameView st.manifests st'.manifests

namespace Reloaded
variable {env : Env} {st st' : Stored}

theorem tablesAt_eq (h : Reloaded st st') : tablesAt st'.manifests = tablesAt st.manifests :=
  funext h.view.1

theorem sound (h : Reloaded st st') (sound : st.Sound env) : st'.Sound env := by
  refine ⟨h.keyed, ?_, ?_⟩
  · rw [h.frame]
    exact sound.ordered
  · rw [h.tablesAt_eq, h.frame]
    exact sound.shelf

theorem copy_iff (h : Reloaded st st') (c : MergeEntry) : st'.Copy c ↔ st.Copy c := by
  unfold Stored.Copy
  rw [h.tablesAt_eq, h.frame]

end Reloaded

/-- The entries that an opening replays. -/
abbrev Stored.replayLog (st : Stored) : List WalEntry :=
  WalReader.replayFrom st.wal (watermark st.manifests)

/-- The counter, the numbers below it and the open memtable survive a replay. -/
theorem replay_keeps {rest : List WalEntry} {highest highest' : Nat} {l l' : MemtableList}
    (noneFrozen : l.frozen = []) (opened : l.active.frozen = false)
    (below : ∀ x ∈ l.active.skiplist.nodes, x.sequenceNumber < l.active.nextSequenceNumber)
    (h : replay rest highest l = .ok (highest', l')) :
    l'.frozen = [] ∧ l'.active.frozen = false ∧
      ∀ x ∈ l'.active.skiplist.nodes, x.sequenceNumber < l'.active.nextSequenceNumber := by
  induction rest generalizing highest l with
  | nil =>
    cases h
    exact ⟨noneFrozen, opened, below⟩
  | cons e rest ih =>
    unfold replay at h
    split at h
    · cases h
    rename_i entry converted
    by_cases known : l.knows entry.idempotencyKey = true
    · simp only [MemtableList.insert, known, if_true, Memtable.duplicateError] at h
      exact ih noneFrozen opened below h
    · rw [MemtableList.insert_ok opened (Bool.eq_false_iff.mpr known)] at h
      refine ih ?_ ?_ ?_ h
      · exact noneFrozen
      · exact opened
      · intro x member
        rcases SkipList.mem_insertNode member with rfl | old
        · exact Nat.lt_succ_self _
        · exact Nat.lt_succ_of_lt (below x old)

/-- What a session starts from. -/
structure Recovered (env : Env) (st : Stored) (result : RecoveryResult) : Prop where
  latest : result.manifest.Latest
  levels : Engine.openLevels st.tables result.manifest.manager.current Level.all =
    (.ok (), result.levels)
  replayed : ∃ highest, replay st.replayLog (watermark st.manifests)
    (MemtableList.new env.config.memtableConfig (watermark st.manifests + 1)) =
      .ok (highest, result.memtableList) ∧
      result.nextSequenceNumber = highest + 1

theorem recover_spec {env : Env} {nowMs : Nat} {st st' : Stored} (keyed : Keyed st.manifests)
    {r : FlushResult RecoveryResult} (h : recover env nowMs st = (r, st')) :
    Reloaded st st' ∧ ∀ result, r = .ok result → result.manifest.bucket = st'.manifests ∧
      Recovered env st result := by
  unfold recover at h
  have loads := @ManifestState.loadLatest_spec
    ⟨ManifestManager.new env.config.ns nowMs env.config.manifestConfig, st.manifests⟩
    nowMs keyed
  generalize ManifestState.loadLatest nowMs ⟨ManifestManager.new env.config.ns nowMs env.config.manifestConfig,
    st.manifests⟩ = loaded at h loads
  obtain ⟨result, m⟩ := loaded
  obtain ⟨keyed', view, latest⟩ := loads
  have reloaded : Reloaded st { st with manifests := m.bucket } := ⟨rfl, keyed', view⟩
  cases result with
  | error e =>
    cases h
    exact ⟨reloaded, by rintro result ⟨⟩⟩
  | ok done =>
    have latest : m.Latest := latest rfl
    have mark : m.manager.current.lastFlushedSequence = watermark st.manifests :=
      latest.watermark_eq.symm.trans view.2
    dsimp only at h
    rw [mark] at h
    split at h
    · cases h
      exact ⟨reloaded, by rintro result ⟨⟩⟩
    · rename_i levels opens
      split at h
      · cases h
        exact ⟨reloaded, by rintro result ⟨⟩⟩
      · rename_i highest list replays
        cases h
        refine ⟨reloaded, ?_⟩
        rintro result ⟨⟩
        exact ⟨rfl, latest, opens, highest, replays, rfl⟩

namespace Engine

/-- An engine that has just been opened over `st`. -/
structure Launched (env : Env) (st : Stored) (s : Engine) : Prop where
  ready : Ready env s
  tables : s.tables = st.tables
  listed : SameView st.manifests s.manifests
  holds : ∀ e, s.wal.Holds e ↔ st.wal.Holds e
  replayed : ∃ highest, replay st.replayLog (watermark st.manifests)
    (MemtableList.new env.config.memtableConfig (watermark st.manifests + 1)) =
      .ok (highest, s.memtableList) ∧
      s.nextSequence = highest + 1
  levels : ∃ m : Manifest, (∀ level, m.sstablesAtLevel level = tablesAt st.manifests level) ∧
    openLevels st.tables m Level.all = (.ok (), s.levels)
  writer : WalWriter.openDir st.wal env.config.walConfig = .ok (s.walManager.writer, s.wal)
  tracker : s.walManager.dirtyTracker = {}
  generation : s.generationCounter = 0
  dropped : s.dropped = false
  compactions : s.compactions = st.compactions

theorem Launched.copies {env : Env} {st : Stored} {s : Engine} (h : Launched env st s)
    (c : MergeEntry) : s.Copy c ↔ st.Copy c := by
  unfold Stored.Copy
  rw [h.tables, show tablesAt s.manifests = tablesAt st.manifests from funext h.listed.1]

theorem openStored_launched {env : Env} {nowMs : Nat} {fault : Option OpenFault} {st st' : Stored}
    (sound : st.Sound env) {r : FlushResult Engine} (h : openStored env nowMs fault st = (r, st')) :
    (∃ e, r = .error e ∧ Reloaded st st') ∨ ∃ s, r = .ok s ∧ st' = s.toStored ∧
      Launched env st s := by
  unfold openStored at h
  generalize recovers : recover env nowMs st = left at h
  obtain ⟨result, mid⟩ := left
  obtain ⟨reloaded, recovered⟩ := recover_spec sound.keyed recovers
  cases result with
  | error e =>
    cases h
    exact Or.inl ⟨e, rfl, reloaded⟩
  | ok result =>
    obtain ⟨bucket, latest, levels, highest, replays, next⟩ := recovered result rfl
    dsimp only at h
    split at h
    · cases h
      exact Or.inl ⟨_, rfl, reloaded⟩
    · have acquires := @ManifestState.acquireEpoch_spec result.manifest .writer nowMs
        (bucket ▸ reloaded.keyed)
      generalize result.manifest.acquireEpoch .writer nowMs = acquired at h acquires
      obtain ⟨outcome, m⟩ := acquired
      obtain ⟨keyed', view, latest'⟩ := acquires
      have again : Reloaded st { mid with manifests := m.bucket } := by
        refine ⟨?_, keyed', reloaded.view.trans (bucket ▸ view)⟩
        rw [reloaded.frame]
      cases outcome with
      | error e =>
        cases h
        exact Or.inl ⟨e, rfl, again⟩
      | ok done =>
        have latest' : m.Latest := latest' rfl
        dsimp only at h
        split at h
        · cases h
          exact Or.inl ⟨_, rfl, again⟩
        · have wal : mid.wal = st.wal := by rw [reloaded.frame]
          obtain ⟨writer, dir, opens, ordered, opened, -, holds, -⟩ :=
            WalWriter.openDir_spec sound.ordered env.config.walConfig
          rw [wal, opens] at h
          cases h
          have sound' := again.sound sound
          obtain ⟨noneFrozen, open_, below⟩ := replay_keeps rfl rfl (by rintro x ⟨⟩) replays
          refine Or.inr ⟨_, rfl, rfl, ⟨⟨sound'.keyed, ordered, sound'.shelf⟩, latest', opened,
            noneFrozen, open_, below⟩, ?_,
            again.view, holds, ⟨highest, replays, next⟩, ⟨_, ?_, levels⟩, opens, rfl, rfl, rfl, ?_⟩
          · show mid.tables = st.tables
            rw [reloaded.frame]
          · intro level
            rw [← latest.tablesAt_eq level, bucket]
            exact reloaded.view.1 level
          · show mid.compactions = st.compactions
            rw [reloaded.frame]

/-- An opened engine whose memtable has all of the log from the watermark on. -/
structure Opened (env : Env) (st : Stored) (s : Engine) : Prop where
  ready : Ready env s
  tables : s.tables = st.tables
  copies : ∀ c, s.Copy c ↔ st.Copy c
  watermark : watermark s.manifests = watermark st.manifests
  holds : ∀ e, s.wal.Holds e ↔ st.wal.Holds e
  replayed : Replayed st.replayLog (ManifestBucket.watermark st.manifests + 1) s.memtableList.active
  nextSequence : s.nextSequence =
    (st.replayLog.map WalEntry.sequenceNumber).foldl max (ManifestBucket.watermark st.manifests) + 1
  walNext : (s.walNext = 1 ∧ ∀ e, ¬ st.wal.Holds e) ∨ ∃ e, st.wal.Holds e ∧
    s.walNext = e.sequenceNumber + 1
  dropped : s.dropped = false
  compactions : s.compactions = st.compactions

theorem Launched.opened {env : Env} {st : Stored} {s : Engine} (h : Launched env st s)
    (sound : st.Sound env) (distinct : DistinctTokens st.replayLog) : Opened env st s := by
  obtain ⟨highest, replays, next⟩ := h.replayed
  have start : Replayed [] (ManifestBucket.watermark st.manifests + 1)
      (MemtableList.new env.config.memtableConfig (ManifestBucket.watermark st.manifests + 1)).active := by
    refine ⟨rfl, ?_, ?_, rfl⟩
    · intro x member
      cases member
    · intro i e found
      cases found
  have unknown : ∀ e ∈ st.replayLog,
      (MemtableList.new env.config.memtableConfig (ManifestBucket.watermark st.manifests + 1)).knows
        e.idempotencyToken = false := by
    intro e _
    simp [MemtableList.knows, MemtableList.new, Memtable.checkDedup]
  obtain ⟨replayed, -, top⟩ := replay_spec start rfl unknown distinct replays
  obtain ⟨writer, dir, opens, -, -, -, -, source⟩ :=
    WalWriter.openDir_spec sound.ordered env.config.walConfig
  obtain ⟨same, -⟩ := Prod.mk.inj (Except.ok.inj (h.writer.symm.trans opens))
  refine ⟨h.ready, h.tables, h.copies, h.listed.2, h.holds,
    replayed, by rw [next, top], ?_, h.dropped, h.compactions⟩
  simp only [Engine.walNext, same]
  exact source

theorem openStored_spec {env : Env} {nowMs : Nat} {fault : Option OpenFault} {st st' : Stored}
    (sound : st.Sound env) (distinct : DistinctTokens st.replayLog) {r : FlushResult Engine}
    (h : openStored env nowMs fault st = (r, st')) :
    (∃ e, r = .error e ∧ Reloaded st st') ∨ ∃ s, r = .ok s ∧ Opened env st s := by
  rcases openStored_launched sound h with failed | ⟨s, made, -, launched⟩
  · exact Or.inl failed
  · exact Or.inr ⟨s, made, launched.opened sound distinct⟩

end Engine

/-- A session begins with an engine over what is stored; an opening that fails may have loaded the
manifest. -/
theorem World.openEngine_cases {env : Env} {w w' : World} {nowMs : Nat} {fault : Option OpenFault}
    (sound : w.engine = none → w.stored.Sound env)
    (taken : step env w (.openEngine nowMs fault) = some w') :
    w.engine = none ∧
      ((∃ st, Reloaded w.stored st ∧ w' = { w with stored := st }) ∨
        ∃ s, Engine.Launched env w.stored s ∧ w' =
          { w with stored := s.toStored, engine := some s }) := by
  unfold step at taken
  dsimp only at taken
  split at taken
  · cases taken
  rename_i closed
  refine ⟨closed, ?_⟩
  generalize called : Engine.openStored env nowMs fault w.stored = result at taken
  obtain ⟨r, st⟩ := result
  rcases Engine.openStored_launched (sound closed)
    called with ⟨e, rfl, reloaded⟩ | ⟨s, rfl, rfl, launched⟩
  · exact Or.inl ⟨st, reloaded, (Option.some.inj taken).symm⟩
  · exact Or.inr ⟨s, launched, (Option.some.inj taken).symm⟩

end FlushDB
