import FlushDB.Manifest.Outcome

/-!
Epoch fencing. `validate_epoch` compares the writer epoch for a flush and the compactor epoch
for a compaction, and `apply` writes both epochs of the manager into the new manifest. The
epoch that is not compared can fall behind: a manager that was fenced off as a writer still
commits compactions, and a flush can take back a compactor epoch.
-/

namespace FlushDB.ManifestSystem
open Lib

/-- An update as `FlushPipeline::flush` and `CompactionExecutor::execute` build it. -/
def Carries (m : ManifestManager) (u : ManifestUpdate) : Prop :=
  u.trigger ≠ .gc ∧ u.writerEpoch = m.writerEpoch ∧ u.compactorEpoch = m.compactorEpoch

instance (m : ManifestManager) (u : ManifestUpdate) : Decidable (Carries m u) :=
  inferInstanceAs (Decidable (_ ∧ _ ∧ _))

/-- Calls of engines: updates carry the manager's own epochs, and nothing is pruned. -/
def EngineCall (s : State) : Label → Prop
  | .start id (.update u) => Carries (s.procs id).manager u
  | .start _ .pruneOldManifests => False
  | _ => True

instance (s : State) : (a : Label) → Decidable (EngineCall s a)
  | .start id (.update u) => inferInstanceAs (Decidable (Carries (s.procs id).manager u))
  | .start _ .pruneOldManifests => isFalse id
  | .start _ .loadLatest | .start _ (.acquireEpoch _) => isTrue trivial
  | .step _ _ | .fail _ => isTrue trivial

/-- The conditional put of `id` will find its key absent. -/
def WillCommit (s : State) (id : ManagerId) : Prop :=
  s.store.get ((s.procs id).manager.current.manifestId + 1) = none

instance (s : State) (id : ManagerId) : Decidable (WillCommit s id) :=
  decidable_of_iff ((s.store.get ((s.procs id).manager.current.manifestId + 1)).isNone) (by simp [WillCommit])

/-- No compaction commits while its manager's writer epoch is behind the current manifest's. -/
def CompactsAsWriter (s : State) : Label → Prop
  | .step id _ =>
    match (s.procs id).pc with
    | .writing u _ =>
      u.trigger = .compaction → WillCommit s id →
        (s.procs id).manager.current.writerEpoch ≤ (s.procs id).manager.writerEpoch
    | _ => True
  | _ => True

/-- No flush commits while its manager's compactor epoch is behind the current manifest's. -/
def FlushesAsCompactor (s : State) : Label → Prop
  | .step id _ =>
    match (s.procs id).pc with
    | .writing u _ =>
      u.trigger = .flush → WillCommit s id →
        (s.procs id).manager.current.compactorEpoch ≤ (s.procs id).manager.compactorEpoch
    | _ => True
  | _ => True

def Pc.decideWriting {P : ManifestUpdate → Prop} (writing : ∀ u, Decidable (P u)) :
    (pc : Pc) → Decidable (match pc with | .writing u _ => P u | _ => True)
  | .writing u _ => writing u
  | .idle | .listing _ | .creating _ | .fetching _ _ _ | .acquiring _ => isTrue trivial
  | .pruneListing | .pruneScanning _ _ _ | .pruneDeleting _ => isTrue trivial

instance (s : State) : (a : Label) → Decidable (CompactsAsWriter s a)
  | .step id _ => (s.procs id).pc.decideWriting
      (fun u => (inferInstance : Decidable (u.trigger = .compaction → WillCommit s id →
        (s.procs id).manager.current.writerEpoch ≤ (s.procs id).manager.writerEpoch)))
  | .start _ _ | .fail _ => isTrue trivial

instance (s : State) : (a : Label) → Decidable (FlushesAsCompactor s a)
  | .step id _ => (s.procs id).pc.decideWriting
      (fun u => (inferInstance : Decidable (u.trigger = .flush → WillCommit s id →
        (s.procs id).manager.current.compactorEpoch ≤ (s.procs id).manager.compactorEpoch)))
  | .start _ _ | .fail _ => isTrue trivial

/-- Once a writer epoch is acquired, no update of a manager with a smaller one commits. -/
def WriterFenced (commits : List Commit) : Prop :=
  ∀ (i j : Nat) (a b : Commit), i < j → commits[i]? = some a → commits[j]? = some b →
    a.origin = .acquisition .writer → b.origin = .update → a.stored.writerEpoch ≤ b.heldWriterEpoch

/-- Both epochs are non-decreasing along the stored manifests. -/
def EpochsAscend (store : ObjectStore Nat Manifest) : Prop :=
  ∀ k l m n, store.get k = some m → store.get l = some n → k ≤ l →
    m.writerEpoch ≤ n.writerEpoch ∧ m.compactorEpoch ≤ n.compactorEpoch

section Invariant

/-- A pending update carries the epochs its manager holds, and one that is about to be
written has passed the epoch check. -/
structure PendingOk (p : Proc) : Prop where
  carries : ∀ u, p.pc.call = some (.update u) → Carries p.manager u
  checked : ∀ u attempt, p.pc = .writing u attempt → p.manager.validateEpoch u = .ok ()

/-- `good` holds of every commit. -/
structure FenceInv (good : Commit → Prop) (s : State) : Prop where
  chain : Inv s
  unpruned : Unpruned s
  pending : ∀ id, PendingOk (s.procs id)
  commits : ∀ c ∈ s.commits, good c

theorem PendingOk.idle {p : Proc} (h : p.pc = .idle) : PendingOk p :=
  ⟨fun u mine => by simp [h, Pc.call] at mine, fun u n writes => by simp [h] at writes⟩

theorem pendingOk_begun {s t : State} {id : ManagerId} {call : Call} (begun : Begun s t id call)
    (issued : ∀ u, call = .update u → Carries (s.procs id).manager u) : PendingOk (t.procs id) := by
  rcases begun.outcome with ⟨-, mine⟩ | ⟨e, -, idle⟩
  · constructor
    · intro u same
      rw [begun.manager]
      exact issued u (Option.some.inj (mine.symm.trans same))
    · intro u n writes
      rw [begun.manager]
      exact (begun.checked u n writes).2
  · exact .idle idle

theorem PendingOk.continues {p q : Proc} (h : PendingOk p) (goes : Continues p q) :
    PendingOk q := by
  constructor
  · intro u mine
    obtain ⟨kind, writer, compactor⟩ := h.carries u (goes.same_call ▸ mine)
    exact ⟨kind, writer.trans goes.writerEpoch.symm, compactor.trans goes.compactorEpoch.symm⟩
  · intro u n writes
    exact (goes.checked u n writes).2

/-- A commit property holds along every run of engine calls when each conditional put that
succeeds from a checked state establishes it. -/
theorem fenceInv_next {len : Manifest → Nat} {good : Commit → Prop} {allowed : State → Label → Prop}
    (establish : ∀ s id nowMs c, allowed s (.step id nowMs) → PendingOk (s.procs id) →
      Committed s id c → good c)
    {s t : State} {a : Label} (h : FenceInv good s) (issued : EngineCall s a) (ok : allowed s a)
    (taken : next len s a = some t) : FenceInv good t := by
  have quiet : StartsNoPruning a := by
    cases a with
    | start id call => cases call <;> trivial
    | step id nowMs => trivial
    | fail id => trivial
  have chain := inv_next h.chain (noReuse_of_unpruned h.unpruned a) taken
  have unpruned := unpruned_next h.unpruned quiet taken
  obtain ⟨id, call, rfl, begun⟩ | ⟨id, label, moved⟩ := next_cases taken
  · refine ⟨chain, unpruned, ?_, ?_⟩
    · intro j
      by_cases same : j = id
      · subst j
        refine pendingOk_begun begun ?_
        rintro u rfl
        exact issued
      · rw [begun.others j same]
        exact h.pending j
    · rw [begun.commits]
      exact h.commits
  · have pending : PendingOk (t.procs id) := by
      cases moved.outcome with
      | committed c did commits store current idle results => exact .idle idle
      | returned r commits idle results quiet => exact .idle idle
      | continued commits results goes => exact (h.pending id).continues goes
    refine ⟨chain, unpruned, ?_, ?_⟩
    · intro j
      by_cases same : j = id
      · subst j
        exact pending
      · rw [moved.others j same]
        exact h.pending j
    · cases moved.outcome with
      | returned r commits idle results quiet => exact commits ▸ h.commits
      | continued commits results goes => exact commits ▸ h.commits
      | committed c did commits store current idle results =>
        rw [commits]
        intro d member
        rcases List.mem_append.mp member with old | new
        · exact h.commits d old
        · obtain rfl := List.mem_singleton.mp new
          obtain rfl | ⟨nowMs, rfl⟩ := label
          · -- a failed operation commits nothing
            exfalso
            obtain ⟨n, place, -⟩ | ⟨kind, place, -⟩ :=
              did.issued <;> simp [next, fail, place] at taken
          · exact establish s id nowMs d ok (h.pending id) did

theorem fenceInv_initial (good : Commit → Prop) (ns : String) (config : ManagerId → ManifestConfig)
    (nowMs : ManagerId → Nat) : FenceInv good (initial ns config nowMs) :=
  ⟨inv_initial ns config nowMs, unpruned_initial ns config nowMs, fun _ => .idle rfl, by simp [initial]⟩

theorem fenceInv_run {len : Manifest → Nat} {good : Commit → Prop} {allowed : State → Label → Prop}
    (establish : ∀ s id nowMs c, allowed s (.step id nowMs) → PendingOk (s.procs id) →
      Committed s id c → good c)
    {ns : String} {config : ManagerId → ManifestConfig} {nowMs : ManagerId → Nat}
    {labels : List Label} {s : State}
    (issued : Admits (next len) EngineCall (initial ns config nowMs) labels)
    (admitted : Admits (next len) allowed (initial ns config nowMs) labels)
    (run : exec (next len) (initial ns config nowMs) labels = some s) : FenceInv good s :=
  exec_invariant (fun _ _ _ kept ok taken => fenceInv_next establish kept ok.1 ok.2 taken)
    (fenceInv_initial good ns config nowMs) (admits_and issued admitted) run

end Invariant

theorem Committed.willCommit {s : State} {id : ManagerId} {c : Commit} (did : Committed s id c) :
    WillCommit s id := by
  have free := did.free
  rw [did.base] at free
  exact free

theorem Committed.update_call {s : State} {id : ManagerId} {c : Commit} {attempt : Nat}
    (place : (s.procs id).pc = .writing c.update attempt) :
    (s.procs id).pc.call = some (.update c.update) := by
  rw [place]
  rfl

/-- What is stored carries the epochs of the update. -/
theorem Committed.epochs {s : State} {id : ManagerId} {c : Commit} (did : Committed s id c) :
    c.stored.writerEpoch = c.update.writerEpoch ∧
      c.stored.compactorEpoch = c.update.compactorEpoch := by
  obtain ⟨next, applied, written⟩ := did.applied
  have writer := ManifestUpdate.apply_writerEpoch applied
  have compactor := ManifestUpdate.apply_compactorEpoch applied
  rcases written with same | same <;> rw [same] <;> exact ⟨writer, compactor⟩

/-- A commit that does not lower the writer epoch, and whose manager is not fenced off. -/
def WriterRises (c : Commit) : Prop :=
  c.base.writerEpoch ≤ c.stored.writerEpoch ∧ (c.origin = .update →
    c.base.writerEpoch ≤ c.heldWriterEpoch)

theorem writerRises_commit {s : State} {id : ManagerId} {nowMs : Nat} {c : Commit}
    (allowed : CompactsAsWriter s (.step id nowMs)) (pending : PendingOk (s.procs id))
    (did : Committed s id c) : WriterRises c := by
  have stored := did.epochs.1
  rcases did.issued with ⟨attempt, place, origin⟩ | ⟨kind, place, origin, issued⟩
  · obtain ⟨kind, writer, -⟩ := pending.carries _ (Committed.update_call place)
    have checked := pending.checked _ _ place
    have behind : c.base.writerEpoch ≤ c.heldWriterEpoch := by
      rw [did.base, did.held]
      cases trigger : c.update.trigger with
      | flush =>
        simp only [ManifestManager.validateEpoch, trigger] at checked
        exact ManifestManager.checkWriterEpoch_ok checked
      | compaction =>
        simp only [CompactsAsWriter, place] at allowed
        exact allowed trigger did.willCommit
      | gc => exact absurd trigger kind
    have same : c.stored.writerEpoch = c.heldWriterEpoch := by rw [stored, writer, did.held]
    exact ⟨same ▸ behind, fun _ => behind⟩
  · refine ⟨?_, fun update => by rw [origin] at update; cases update⟩
    rw [stored, issued, did.base]
    cases kind with
    | writer => exact Nat.le_succ _
    | compactor => exact le_refl _

theorem compactorRises_commit {s : State} {id : ManagerId} {nowMs : Nat} {c : Commit}
    (allowed : FlushesAsCompactor s (.step id nowMs)) (pending : PendingOk (s.procs id))
    (did : Committed s id c) : c.base.compactorEpoch ≤ c.stored.compactorEpoch := by
  have stored := did.epochs.2
  rcases did.issued with ⟨attempt, place, origin⟩ | ⟨kind, place, origin, issued⟩
  · obtain ⟨kind, -, compactor⟩ := pending.carries _ (Committed.update_call place)
    have checked := pending.checked _ _ place
    rw [stored, compactor, did.base]
    cases trigger : c.update.trigger with
    | flush =>
      simp only [FlushesAsCompactor, place] at allowed
      exact allowed trigger did.willCommit
    | compaction =>
      simp only [ManifestManager.validateEpoch, trigger] at checked
      exact ManifestManager.checkCompactorEpoch_ok checked
    | gc => exact absurd trigger kind
  · rw [stored, issued, did.base]
    cases kind with
    | writer => exact le_refl _
    | compactor => exact Nat.le_succ _

section Results
variable {len : Manifest → Nat} {ns : String} {config : ManagerId → ManifestConfig}
  {nowMs : ManagerId → Nat}
  {labels : List Label} {s : State}

/-- Writer fencing holds in every run in which compactions meet the writer check as well. -/
theorem writer_fencing (issued : Admits (next len) EngineCall (initial ns config nowMs) labels)
    (checked : Admits (next len) CompactsAsWriter (initial ns config nowMs) labels)
    (run : exec (next len) (initial ns config nowMs) labels = some s) : WriterFenced s.commits := by
  have inv := fenceInv_run (fun s id nowMs c allowed pending did => writerRises_commit allowed pending did)
    issued checked run
  intro i j a b order at_i at_j acquired updated
  have link := inv.chain.chain.commits j b at_j
  have rises := inv.commits b (List.mem_of_getElem? at_j)
  calc a.stored.writerEpoch ≤ b.base.writerEpoch :=
        recorded_induction (P := fun m => a.stored.writerEpoch ≤ m.writerEpoch)
          inv.chain.chain.commits at_i
          (le_refl _) (fun d member below => below.trans (inv.commits d member).1) link.base
          (link.base_id.symm ▸ order)
    _ ≤ b.heldWriterEpoch := rises.2 updated

/-- Manager 1 takes the writer epoch over, and manager 0 runs a compaction. -/
def zombieCompaction : List Label :=
  loadLatest 0 ++ acquireEpoch 0 .writer ++ loadLatest 1 ++ acquireEpoch 1 .writer ++ loadLatest 0 ++
    update 0 .compaction 1 0

theorem zombieCompaction_commits :
    ∃ s, Admits (next fun _ => 300) EngineCall emptyBucket zombieCompaction ∧
      exec (next fun _ => 300) emptyBucket zombieCompaction = some s ∧
        ¬ WriterFenced s.commits := by
  refine ⟨_, by decide, rfl, ?_⟩
  intro fenced
  have held := fenced 1 2 _ _ (by decide) rfl rfl rfl rfl
  exact absurd held (by decide)

/-- Manager 0 flushes and compacts until manager 1 takes over; its next flush is fenced off. -/
def handover : List Label :=
  loadLatest 0 ++ acquireEpoch 0 .writer ++ acquireEpoch 0 .compactor ++ update 0 .compaction 1 1 ++
    update 0 .flush 1 1 ++ loadLatest 1 ++ acquireEpoch 1 .writer ++ acquireEpoch 1 .compactor ++
    update 0 .flush 1 1 ++ [.step 0 1, .step 0 1] ++ update 1 .compaction 2 2

theorem writer_fencing_handover :
    ∃ s, exec (next fun _ => 300) emptyBucket handover = some s ∧ s.commits.length = 7 ∧
      WriterFenced s.commits := by
  have issued : Admits (next fun _ => 300) EngineCall emptyBucket handover := by decide
  have checked : Admits (next fun _ => 300) CompactsAsWriter emptyBucket handover := by decide
  exact ⟨_, rfl, rfl, writer_fencing issued checked rfl⟩

/-- Neither epoch goes back in a run in which every committing update is up to date in the
epoch that its validation does not look at. -/
theorem epochs_ascend (issued : Admits (next len) EngineCall (initial ns config nowMs) labels)
    (compacts : Admits (next len) CompactsAsWriter (initial ns config nowMs) labels)
    (flushes : Admits (next len) FlushesAsCompactor (initial ns config nowMs) labels)
    (run : exec (next len) (initial ns config nowMs) labels = some s) : EpochsAscend s.store := by
  have writer := fenceInv_run (fun s id nowMs c allowed pending did => writerRises_commit allowed pending did)
    issued compacts run
  have compactor := fenceInv_run
    (fun s id nowMs c allowed pending did => compactorRises_commit allowed pending did) issued
      flushes run
  intro k l m n at_k at_l order
  obtain ⟨rfl, first⟩ := writer.chain.chain.stored k m at_k
  obtain ⟨rfl, second⟩ := writer.chain.chain.stored l n at_l
  have chained := writer.chain.chain.commits
  exact ⟨recorded_mono chained (fun _ _ => rfl)
    (fun c member => (writer.commits c member).1) first second order,
    recorded_mono chained (fun _ _ => rfl) compactor.commits first second order⟩

/-- Manager 1 acquires the compactor epoch, and manager 0 goes on flushing. -/
def flushAfterCompactor : List Label :=
  loadLatest 0 ++ acquireEpoch 0 .writer ++ loadLatest 1 ++ acquireEpoch 1 .compactor ++
    update 0 .flush 1 0 ++ retry 0

theorem flushAfterCompactor_lowers :
    ∃ s, Admits (next fun _ => 300) EngineCall emptyBucket flushAfterCompactor ∧
      exec (next fun _ => 300) emptyBucket flushAfterCompactor = some s ∧
        ¬ EpochsAscend s.store := by
  refine ⟨_, by decide, rfl, ?_⟩
  intro ascend
  have order := (ascend 2 3 _ _ rfl rfl (by decide)).2
  exact absurd order (by decide)

theorem epochs_ascend_handover :
    ∃ s, exec (next fun _ => 300) emptyBucket handover = some s ∧ s.commits.length = 7 ∧
      EpochsAscend s.store := by
  have issued : Admits (next fun _ => 300) EngineCall emptyBucket handover := by decide
  have compacts : Admits (next fun _ => 300) CompactsAsWriter emptyBucket handover := by decide
  have flushes : Admits (next fun _ => 300) FlushesAsCompactor emptyBucket handover := by decide
  exact ⟨_, rfl, rfl, epochs_ascend issued compacts flushes rfl⟩

end Results

end FlushDB.ManifestSystem
