import FlushDB.Manifest.System

/-!
The chain invariant: the `i`-th commit stored manifest `i + 1`, applied to manifest `i`;
whatever is in the bucket or in a manager's hands is a manifest of the chain; and pruning
stays below the newest one. It is kept by every step that does not write an id which
pruning has deleted.
-/

namespace FlushDB.ManifestSystem
open Lib

/-- The initial manifest, or the one the commit of its number stored. -/
def Recorded (commits : List Commit) (m : Manifest) : Prop :=
  (∃ ns nowMs, m = Manifest.newEmpty ns nowMs) ∨
    ∃ i c, commits[i]? = some c ∧ c.stored = m ∧ m.manifestId = i + 1

theorem Recorded.extend {commits more : List Commit} {m : Manifest} (h : Recorded commits m) :
    Recorded (commits ++ more) m := by
  rcases h with initial | ⟨i, c, found, stored, number⟩
  · exact Or.inl initial
  · refine Or.inr ⟨i, c, ?_, stored, number⟩
    rw [List.getElem?_append_left (List.getElem?_eq_some_iff.mp found).1]
    exact found

theorem Recorded.le_length {commits : List Commit} {m : Manifest} (h : Recorded commits m) :
    m.manifestId ≤ commits.length := by
  rcases h with ⟨ns, nowMs, rfl⟩ | ⟨i, c, found, _, number⟩
  · exact Nat.zero_le _
  · have bound := (List.getElem?_eq_some_iff.mp found).1
    omega

/-- A commit applied its update to a recorded manifest and stored the result. -/
structure CommitOk (commits : List Commit) (i : Nat) (c : Commit) : Prop where
  base_id : c.base.manifestId = i
  stored_id : c.stored.manifestId = i + 1
  base : Recorded commits c.base
  applied : ∃ next, c.update.apply c.nowMs c.base = .ok next ∧
    (c.stored = next ∨ c.stored = { next with isSnapshot := true })

/-- The global part of the invariant: bucket, commits and pruned ids. -/
structure ChainOk (s : State) : Prop where
  commits : ∀ i c, s.commits[i]? = some c → CommitOk s.commits i c
  stored : ∀ k m, s.store.get k = some m → m.manifestId = k ∧ Recorded s.commits m
  kept : ∀ i < s.commits.length, (s.store.get (i + 1)).isSome ∨ i + 1 ∈ s.pruned
  below : ∀ k ∈ s.pruned, k < s.commits.length

/-- What the place a manager has reached says about the ids it carries. -/
def PcOk (s : State) (p : Proc) : Prop :=
  match p.pc with
  | .creating _ => p.since = 0
  | .fetching _ k _ => p.since ≤ k
  | .pruneScanning entries pending snapshots =>
    (∀ k ∈ entries, k ≤ s.commits.length) ∧ pending ⊆ entries ∧ snapshots ⊆ entries
  | .pruneDeleting pending => ∀ k ∈ pending, k < s.commits.length
  | _ => True

structure ProcOk (s : State) (p : Proc) : Prop where
  current : Recorded s.commits p.manager.current
  since : p.since ≤ s.commits.length
  pc : PcOk s p

/-- Loads are recorded, and a load that began after `since` commits is not older than them. -/
def LoadsOk (s : State) : Prop :=
  ∀ l ∈ s.loads, Recorded s.commits l.manifest ∧ l.since ≤ l.manifest.manifestId

structure Inv (s : State) : Prop where
  chain : ChainOk s
  procs : ∀ id, ProcOk s (s.procs id)
  loads : LoadsOk s

/-- What is asked only of a manager that is about to store a manifest can be decided by the place it
is at. -/
def Pc.decideStoring {P : ManifestUpdate → Prop} {Q : EpochKind → Prop}
    (writing : ∀ u, Decidable (P u)) (acquiring : ∀ kind, Decidable (Q kind)) :
    (pc : Pc) → Decidable (match pc with | .writing u _ => P u | .acquiring kind => Q kind | _ => True)
  | .writing u _ => writing u
  | .acquiring kind => acquiring kind
  | .idle | .listing _ | .creating _ | .fetching _ _ _ => isTrue trivial
  | .pruneListing | .pruneScanning _ _ _ | .pruneDeleting _ => isTrue trivial

/-- The step does not commit to a manifest id that pruning has deleted. -/
def NoReuse (s : State) : Label → Prop
  | .step id _ =>
    match (s.procs id).pc with
    | .writing _ _ | .acquiring _ => (s.procs id).manager.current.manifestId + 1 ∉ s.pruned
    | _ => True
  | _ => True

instance (s : State) : (a : Label) → Decidable (NoReuse s a)
  | .step id _ => (s.procs id).pc.decideStoring (fun _ => inferInstance) fun _ => inferInstance
  | .start _ _ | .fail _ => isTrue trivial

theorem PcOk.mono {s t : State} {p : Proc} (h : PcOk s p)
    (grown : s.commits.length ≤ t.commits.length) :
    PcOk t p := by
  unfold PcOk at h ⊢
  cases place : p.pc with
  | pruneScanning entries pending snapshots =>
    simp only [place] at h ⊢
    exact ⟨fun k member => (h.1 k member).trans grown, h.2⟩
  | pruneDeleting pending =>
    simp only [place] at h ⊢
    exact fun k member => (h k member).trans_le grown
  | _ => simp_all

theorem ProcOk.mono {s t : State} {p : Proc} (h : ProcOk s p)
    (extended : ∃ more, t.commits = s.commits ++ more) : ProcOk t p := by
  obtain ⟨more, same⟩ := extended
  have grown : s.commits.length ≤ t.commits.length := by simp [same]
  exact ⟨same ▸ h.current.extend, h.since.trans grown, h.pc.mono grown⟩

theorem setProc_commits (s : State) (id : ManagerId) (p : Proc) :
    (s.setProc id p).commits = s.commits :=
  rfl

/-- A step that only moves one manager keeps the invariant when the manager it leaves is fine. -/
theorem inv_setProc {s : State} {id : ManagerId} {p : Proc} (h : Inv s) (local_ : ProcOk s p) :
    Inv (s.setProc id p) := by
  have kept : ∃ more, (s.setProc id p).commits = s.commits ++ more :=
    ⟨[], by rw [setProc_commits, List.append_nil]⟩
  refine ⟨⟨h.chain.commits, h.chain.stored, h.chain.kept, h.chain.below⟩, ?_, h.loads⟩
  intro j
  by_cases same : j = id
  · subst j
    simpa [State.setProc] using local_.mono kept
  · simpa [State.setProc, same] using (h.procs j).mono kept

theorem inv_results {s : State} (h : Inv s) (started : List Call)
    (results : List (Nat × FlushResult Unit)) :
    Inv { s with started := started, results := results } :=
  ⟨⟨h.chain.commits, h.chain.stored, h.chain.kept, h.chain.below⟩,
    fun id => (h.procs id).mono ⟨[], by simp⟩, h.loads⟩

theorem inv_finish {s : State} {id : ManagerId} {p : Proc} {r : FlushResult Unit} (h : Inv s)
    (current : Recorded s.commits p.manager.current) (since : p.since ≤ s.commits.length) :
    Inv (s.finish id p r) :=
  inv_results (inv_setProc (p := { p with pc := .idle }) h ⟨current, since, trivial⟩) s.started _

theorem inv_loadedWith {s : State} {id : ManagerId} {p : Proc} {goal : Goal} {m : Manifest}
    (h : Inv s) (since : p.since ≤ s.commits.length) (recorded : Recorded s.commits m)
    (fresh : p.since ≤ m.manifestId) : Inv (loadedWith s id p goal m) := by
  have logged : Inv { s with loads := s.loads ++ [{ since := p.since, manifest := m }] } := by
    refine ⟨⟨h.chain.commits, h.chain.stored, h.chain.kept, h.chain.below⟩,
      fun j => (h.procs j).mono ⟨[], by simp⟩, ?_⟩
    intro l member
    rcases List.mem_append.mp member with old | new
    · exact h.loads l old
    · obtain rfl := List.mem_singleton.mp new
      exact ⟨recorded, fresh⟩
  unfold loadedWith
  cases goal with
  | load => exact inv_finish logged recorded since
  | retry u attempt =>
    dsimp only
    split
    · exact inv_finish logged recorded since
    · exact inv_setProc logged ⟨recorded, since, trivial⟩
  | acquire kind => exact inv_setProc logged ⟨recorded, since, trivial⟩

theorem newest_stored {s : State} (h : ChainOk s) (some_commit : 0 < s.commits.length) :
    (s.store.get s.commits.length).isSome := by
  have last := h.kept (s.commits.length - 1) (by omega)
  rw [show s.commits.length - 1 + 1 = s.commits.length by omega] at last
  rcases last with present | gone
  · exact present
  · exact absurd (h.below _ gone) (Nat.lt_irrefl _)

theorem highest_eq_length {s : State} (h : ChainOk s) {highest : Nat}
    (last : s.store.keys.getLast? = some highest) : highest = s.commits.length := by
  have bounded : highest ≤ s.commits.length := by
    obtain ⟨m, found⟩ := Option.isSome_iff_exists.mp (ObjectStore.getLast_keys_mem last)
    obtain ⟨rfl, recorded⟩ := h.stored highest m found
    exact recorded.le_length
  rcases Nat.eq_zero_or_pos s.commits.length with none_yet | positive
  · omega
  · have member := ObjectStore.mem_keys.mpr (newest_stored h positive)
    exact le_antisymm bounded (ObjectStore.le_getLast_keys member last)

theorem empty_of_no_keys {s : State} (h : ChainOk s) (none_listed : s.store.keys.getLast? = none) :
    s.commits.length = 0 := by
  by_contra positive
  have member := ObjectStore.mem_keys.mpr (newest_stored h (Nat.pos_of_ne_zero positive))
  rw [List.getLast?_eq_none_iff] at none_listed
  rw [none_listed] at member
  cases member

theorem keys_le_length {s : State} (h : ChainOk s) {k : Nat} (member : k ∈ s.store.keys) :
    k ≤ s.commits.length := by
  obtain ⟨m, found⟩ := Option.isSome_iff_exists.mp (ObjectStore.mem_keys.mp member)
  obtain ⟨rfl, recorded⟩ := h.stored k m found
  exact recorded.le_length

/-- Whatever pruning picks is older than the newest manifest it listed. -/
theorem toDelete_lt {currentId bound k : Nat} {entries snapshots : List Nat}
    (listed : ∀ j ∈ snapshots, j ≤ bound) (picked : k ∈ toDelete currentId entries snapshots) :
    k < bound := by
  unfold toDelete at picked
  dsimp only at picked
  split at picked
  · cases picked
  · split at picked
    · rename_i cutoff found
      have member := (List.mem_insertionSort (· ≤ ·)).mp (List.mem_of_getElem? found)
      have cut := listed cutoff member
      have smaller := (List.mem_filter.mp picked).2
      simp only [ne_eq, Bool.decide_and, decide_not, Bool.and_eq_true, decide_eq_true_eq] at smaller
      omega
    · cases picked

theorem inv_pruneNext {s : State} {id : ManagerId} {p : Proc} {entries pending snapshots : List Nat}
    (h : Inv s) (current : Recorded s.commits p.manager.current)
    (since : p.since ≤ s.commits.length) (listed : ∀ k ∈ entries, k ≤ s.commits.length)
    (rest : pending ⊆ entries) (found : snapshots ⊆ entries) :
    Inv (pruneNext s id p entries pending snapshots) := by
  unfold pruneNext
  split
  · exact inv_setProc h ⟨current, since, listed, rest, found⟩
  · split
    · exact inv_finish h current since
    · refine inv_setProc h ⟨current, since, ?_⟩
      intro k picked
      exact toDelete_lt (fun j member => listed j (found member)) picked

/-- A conditional put that succeeds on the id after a recorded manifest extends the chain. -/
theorem commit_extends {s : State} (h : ChainOk s) {base : Manifest}
    (recorded : Recorded s.commits base) (absent : s.store.get (base.manifestId + 1) = none)
    (fresh : base.manifestId + 1 ∉ s.pruned) :
    base.manifestId = s.commits.length := by
  rcases Nat.lt_or_ge base.manifestId s.commits.length with inside | outside
  · rcases h.kept _ inside with present | gone
    · simp [absent] at present
    · exact absurd gone fresh
  · exact le_antisymm recorded.le_length outside

theorem inv_commit {s : State} {id : ManagerId} {p : Proc} {origin : Origin} {u : ManifestUpdate}
    {nowMs : Nat} {store : ObjectStore Nat Manifest} {m next : Manifest} {manager : ManifestManager}
    (h : Inv s) (mine : ProcOk s p) (applied : u.apply nowMs p.manager.current = .ok next)
    (written : m = next ∨ m = { next with isSnapshot := true })
    (put : s.store.conditionalPut m.manifestId m = some store)
    (fresh : p.manager.current.manifestId + 1 ∉ s.pruned) (holds : manager.current = m) :
    Inv (commit s id p origin u nowMs store m manager) := by
  have number : m.manifestId = p.manager.current.manifestId + 1 := by
    have applied_id := ManifestUpdate.apply_manifestId applied
    rcases written with same | same <;> rw [same] <;> exact applied_id
  obtain ⟨absent, rfl⟩ := ObjectStore.conditionalPut_some put
  rw [number] at absent
  have atEnd := commit_extends h.chain mine.current absent fresh
  have stored_id : m.manifestId = s.commits.length + 1 := by omega
  have recorded : Recorded (s.commits ++ [p.record origin u nowMs m]) m :=
    Or.inr ⟨s.commits.length, p.record origin u nowMs m, by simp, rfl, stored_id⟩
  have chained : Inv
      { s with
        store := s.store.put m.manifestId m
        commits := s.commits ++ [p.record origin u nowMs m] } := by
    refine ⟨⟨?_, ?_, ?_, ?_⟩, fun j => (h.procs j).mono ⟨_, rfl⟩, ?_⟩
    · intro i c found
      dsimp only at found
      rw [List.getElem?_append] at found
      split at found
      · obtain ⟨base_id, stored_id, base, applied⟩ := h.chain.commits i c found
        exact ⟨base_id, stored_id, base.extend, applied⟩
      · rename_i past
        have last : i = s.commits.length := by
          have bound := (List.getElem?_eq_some_iff.mp found).1
          simp only [List.length_singleton] at bound
          omega
        subst i
        simp only [Nat.sub_self, List.getElem?_cons_zero, Option.some.injEq] at found
        subst c
        exact ⟨atEnd, stored_id, mine.current.extend, next, applied, written⟩
    · refine ObjectStore.forall_put ?_ ⟨rfl, recorded⟩
      intro k other found
      obtain ⟨number, old⟩ := h.chain.stored k other found
      exact ⟨number, old.extend⟩
    · intro i bound
      simp only [List.length_append, List.length_singleton] at bound
      rw [ObjectStore.get_put]
      split
      · exact Or.inl rfl
      · rename_i different
        exact h.chain.kept i (by omega)
    · intro k gone
      have := h.chain.below k gone
      simp only [List.length_append, List.length_singleton]
      omega
    · intro l member
      obtain ⟨old, order⟩ := h.loads l member
      exact ⟨old.extend, order⟩
  refine inv_finish chained ?_ ?_
  · exact holds ▸ recorded
  · have := mine.since
    simp only [List.length_append, List.length_singleton]
    omega

theorem inv_create {s : State} {ns : String} {nowMs : Nat} {store : ObjectStore Nat Manifest}
    (h : Inv s) (put : s.store.conditionalPut 0 (Manifest.newEmpty ns nowMs) = some store) :
    Inv { s with store := store } := by
  obtain ⟨absent, rfl⟩ := ObjectStore.conditionalPut_some put
  refine ⟨⟨h.chain.commits, ?_, ?_, h.chain.below⟩, fun j => (h.procs j).mono ⟨[], by simp⟩, h.loads⟩
  · exact ObjectStore.forall_put h.chain.stored ⟨rfl, Or.inl ⟨ns, nowMs, rfl⟩⟩
  · intro i bound
    have kept := h.chain.kept i bound
    rwa [ObjectStore.get_put_ne _ _ (Nat.succ_ne_zero i)]

theorem inv_prune {s : State} {k : Nat} (h : Inv s) (older : k < s.commits.length) :
    Inv { s with store := s.store.delete k, pruned := k :: s.pruned } := by
  refine ⟨⟨h.chain.commits, ?_, ?_, ?_⟩, fun j => (h.procs j).mono ⟨[], by simp⟩, h.loads⟩
  · exact fun j m found => h.chain.stored j m (ObjectStore.get_of_delete found)
  · intro i bound
    rw [ObjectStore.get_delete]
    split
    · rename_i same
      exact Or.inr (same ▸ List.mem_cons_self)
    · rcases h.chain.kept i bound with present | gone
      · exact Or.inl present
      · exact Or.inr (List.mem_cons_of_mem _ gone)
  · intro j gone
    rcases List.mem_cons.mp gone with rfl | old
    · exact older
    · exact h.chain.below j old

theorem inv_start {s t : State} {id : ManagerId} {call : Call} (h : Inv s)
    (taken : start s id call = some t) : Inv t := by
  have mine := (h.procs id).current
  have began : Inv { s with started := s.started ++ [call] } := inv_results h _ s.results
  unfold start at taken
  dsimp only at taken
  split at taken
  · cases call with
    | loadLatest =>
      obtain rfl := Option.some.inj taken
      exact inv_setProc began ⟨mine, le_refl _, trivial⟩
    | update u =>
      dsimp only at taken
      split at taken
      · obtain rfl := Option.some.inj taken
        exact inv_finish began mine (le_refl _)
      split at taken
      · obtain rfl := Option.some.inj taken
        exact inv_finish began mine (le_refl _)
      · obtain rfl := Option.some.inj taken
        exact inv_setProc began ⟨mine, le_refl _, trivial⟩
    | acquireEpoch kind =>
      obtain rfl := Option.some.inj taken
      exact inv_setProc began ⟨mine, le_refl _, trivial⟩
    | pruneOldManifests =>
      obtain rfl := Option.some.inj taken
      exact inv_setProc began ⟨mine, le_refl _, trivial⟩
  · cases taken

theorem inv_fail {s t : State} {id : ManagerId} (h : Inv s) (taken : fail s id = some t) :
    Inv t := by
  have mine := h.procs id
  unfold fail at taken
  dsimp only at taken
  split at taken
  · obtain rfl := Option.some.inj taken
    exact inv_finish h mine.current mine.since
  · obtain rfl := Option.some.inj taken
    exact inv_finish h mine.current mine.since
  · obtain rfl := Option.some.inj taken
    exact inv_finish h mine.current mine.since
  · obtain rfl := Option.some.inj taken
    exact inv_finish h mine.current mine.since
  · rename_i entries skipped rest snapshots place
    obtain rfl := Option.some.inj taken
    have scan := mine.pc
    simp only [PcOk, place] at scan
    exact inv_pruneNext h mine.current mine.since scan.1
      (fun k member => scan.2.1 (List.mem_cons_of_mem _ member)) scan.2.2
  · cases taken

/-- Each backend operation keeps the invariant, unless it writes an id that was pruned. -/
theorem inv_step {len : Manifest → Nat} {s t : State} {id : ManagerId} {nowMs : Nat} (h : Inv s)
    (fresh : NoReuse s (.step id nowMs)) (taken : step len s id nowMs = some t) : Inv t := by
  have mine := h.procs id
  have here := mine.pc
  unfold step at taken
  unfold NoReuse at fresh
  dsimp only at taken fresh
  cases place : (s.procs id).pc with
  | idle => simp [place] at taken
  | listing goal =>
    simp only [place] at taken
    split at taken
    · rename_i none_listed
      obtain rfl := Option.some.inj taken
      have no_commit := empty_of_no_keys h.chain none_listed
      have none_since := mine.since
      exact inv_setProc h ⟨mine.current, mine.since, by simp only [PcOk]; omega⟩
    · rename_i highest last
      obtain rfl := Option.some.inj taken
      have newest := highest_eq_length h.chain last
      exact inv_setProc h ⟨mine.current, mine.since, newest ▸ mine.since⟩
  | creating goal =>
    simp only [PcOk, place] at here
    simp only [place] at taken
    split at taken
    · rename_i store put
      obtain rfl := Option.some.inj taken
      refine inv_loadedWith (inv_create h put) mine.since (Or.inl ⟨_, _, rfl⟩) ?_
      rw [here]
      exact Nat.zero_le _
    · obtain rfl := Option.some.inj taken
      exact inv_setProc h ⟨mine.current, mine.since, by simp only [PcOk]; omega⟩
  | fetching goal k checked =>
    simp only [PcOk, place] at here
    simp only [place] at taken
    split at taken
    · obtain rfl := Option.some.inj taken
      exact inv_finish h mine.current mine.since
    · rename_i m found
      obtain ⟨rfl, recorded⟩ := h.chain.stored k m found
      split at taken
      · obtain rfl := Option.some.inj taken
        exact inv_finish h mine.current mine.since
      · obtain rfl := Option.some.inj taken
        exact inv_loadedWith h mine.since recorded here
  | writing u attempt =>
    simp only [place] at taken fresh
    split at taken
    · obtain rfl := Option.some.inj taken
      exact inv_finish h mine.current mine.since
    · rename_i m prepared
      obtain ⟨next, applied, written⟩ := ManifestManager.toWrite_ok prepared
      split at taken
      · rename_i store put
        obtain rfl := Option.some.inj taken
        exact inv_commit h mine applied written put fresh rfl
      · obtain rfl := Option.some.inj taken
        unfold casLost
        split
        · exact inv_finish h mine.current mine.since
        · exact inv_setProc h ⟨mine.current, le_refl _, trivial⟩
  | acquiring kind =>
    simp only [place] at taken fresh
    split at taken
    · obtain rfl := Option.some.inj taken
      exact inv_finish h mine.current mine.since
    · rename_i m applied
      split at taken
      · rename_i store put
        obtain rfl := Option.some.inj taken
        exact inv_commit h mine applied (Or.inl rfl) put fresh (by cases kind <;> rfl)
      · obtain rfl := Option.some.inj taken
        exact inv_finish h mine.current mine.since
  | pruneListing =>
    simp only [place] at taken
    split at taken
    · obtain rfl := Option.some.inj taken
      exact inv_finish h mine.current mine.since
    · obtain rfl := Option.some.inj taken
      exact inv_pruneNext h mine.current mine.since (fun k member => keys_le_length h.chain member)
        (fun k member => member) (List.nil_subset _)
  | pruneScanning entries pending snapshots =>
    simp only [PcOk, place] at here
    obtain ⟨listed, rest_listed, found⟩ := here
    simp only [place] at taken
    split at taken
    · cases taken
    · rename_i k rest
      have rest_listed : rest ⊆ entries := fun j member => rest_listed (List.mem_cons_of_mem _ member)
      have head_listed : k ∈ entries := ‹k :: rest ⊆ entries› List.mem_cons_self
      split at taken
      · obtain rfl := Option.some.inj taken
        refine inv_pruneNext h mine.current mine.since listed rest_listed ?_
        split
        · intro j member
          rcases List.mem_append.mp member with old | new
          · exact found old
          · exact List.mem_singleton.mp new ▸ head_listed
        · exact found
      · obtain rfl := Option.some.inj taken
        exact inv_pruneNext h mine.current mine.since listed rest_listed found
  | pruneDeleting pending =>
    simp only [PcOk, place] at here
    simp only [place] at taken
    split at taken
    · cases taken
    · rename_i k rest
      have deleted := inv_prune h (here k List.mem_cons_self)
      split at taken
      · obtain rfl := Option.some.inj taken
        exact inv_finish deleted mine.current mine.since
      · obtain rfl := Option.some.inj taken
        exact inv_setProc deleted
          ⟨mine.current, mine.since, fun j member => here j (List.mem_cons_of_mem _ member)⟩

theorem inv_next {len : Manifest → Nat} {s t : State} {a : Label} (h : Inv s) (fresh : NoReuse s a)
    (taken : next len s a = some t) : Inv t := by
  cases a with
  | start id call => exact inv_start h taken
  | step id nowMs => exact inv_step h fresh taken
  | fail id => exact inv_fail h taken

theorem inv_initial (ns : String) (config : ManagerId → ManifestConfig) (nowMs : ManagerId → Nat) :
    Inv (initial ns config nowMs) := by
  refine ⟨⟨?_, ?_, ?_, ?_⟩, ?_, ?_⟩
  · intro i c found
    simp [initial] at found
  · intro k m found
    cases found
  · intro i bound
    simp [initial] at bound
  · intro k gone
    cases gone
  · intro id
    exact ⟨Or.inl ⟨ns, nowMs id, rfl⟩, le_refl _, trivial⟩
  · intro l member
    cases member

/-- Induction along the chain, from a commit to the manifests that follow it. -/
theorem recorded_induction {commits : List Commit} {P : Manifest → Prop}
    (chained : ∀ i c, commits[i]? = some c → CommitOk commits i c) {i : Nat} {c : Commit}
    (found : commits[i]? = some c) (here : P c.stored) (next : ∀ d ∈ commits, P d.base → P d.stored)
    {m : Manifest} (recorded : Recorded commits m) (later : i + 1 ≤ m.manifestId) : P m := by
  induction distance : m.manifestId - (i + 1) generalizing m with
  | zero =>
    rcases recorded with ⟨ns, nowMs, rfl⟩ | ⟨j, d, at_j, rfl, number⟩
    · simp [Manifest.newEmpty] at later
    · have same : j = i := by omega
      subst j
      obtain rfl := Option.some.inj (found.symm.trans at_j)
      exact here
  | succ n ih =>
    rcases recorded with ⟨ns, nowMs, rfl⟩ | ⟨j, d, at_j, rfl, number⟩
    · simp [Manifest.newEmpty] at later
    · have link := chained j d at_j
      have base_number := link.base_id
      exact next d (List.mem_of_getElem? at_j) (ih link.base (by omega) (by omega))

/-- A quantity that no commit lowers is non-decreasing along the chain. -/
theorem recorded_mono {commits : List Commit} {f : Manifest → Nat}
    (chained : ∀ i c, commits[i]? = some c → CommitOk commits i c)
    (initial_zero : ∀ ns nowMs, f (Manifest.newEmpty ns nowMs) = 0)
    (rises : ∀ c ∈ commits, f c.base ≤ f c.stored) {m n : Manifest} (first : Recorded commits m)
    (second : Recorded commits n) (order : m.manifestId ≤ n.manifestId) : f m ≤ f n := by
  rcases first with ⟨ns, nowMs, rfl⟩ | ⟨i, c, found, rfl, number⟩
  · rw [initial_zero]
    exact Nat.zero_le _
  · exact recorded_induction (P := fun x => f c.stored ≤ f x) chained found (le_refl _)
      (fun d member below => below.trans (rises d member)) second (number ▸ order)

/-- The chain invariant holds after every run that reuses no pruned id. -/
theorem inv_run {len : Manifest → Nat} {ns : String} {config : ManagerId → ManifestConfig}
    {nowMs : ManagerId → Nat} {labels : List Label} {s : State}
    (fresh : Admits (next len) NoReuse (initial ns config nowMs) labels)
    (run : exec (next len) (initial ns config nowMs) labels = some s) : Inv s :=
  exec_invariant (fun _ _ _ kept allowed taken => inv_next kept allowed taken)
    (inv_initial ns config nowMs) fresh run

end FlushDB.ManifestSystem
