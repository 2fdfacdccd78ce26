import Mathlib.Data.List.Sort
import FlushDB.Lib.Retention
import FlushDB.Manifest.Outcome
import FlushDB.Manifest.Pruning

/-!
The snapshot marks of stored manifests, and what pruning keeps by them. An update marks a manifest
by its id or its size, but the manifest it starts from hands its own mark on, to updates and to
epoch acquisitions alike; pruning then takes a manifest for a snapshot that is none.
-/

namespace FlushDB.ManifestSystem
open Lib

section Marks
variable (len : Manifest → Nat) (config : ManifestConfig)

/-- What makes a manifest a snapshot. -/
def Qualifies (m : Manifest) : Prop :=
  (m.manifestId > 0 ∧ m.manifestId % config.snapshotInterval = 0) ∨ len m > config.maxManifestSize

instance (m : Manifest) : Decidable (Qualifies len config m) := inferInstanceAs (Decidable (_ ∨ _))

/-- Every stored manifest that is marked is a snapshot by its id or its size. -/
def MarksRight (store : ObjectStore Nat Manifest) : Prop :=
  ∀ k m, store.get k = some m → m.isSnapshot = true → Qualifies len config m

/-- The ids of the stored snapshots. -/
def snapshots (store : ObjectStore Nat Manifest) : Set Nat :=
  { k | ∃ m, store.get k = some m ∧ m.isSnapshot = true ∧ Qualifies len config m }

/-- What the next step deletes is below the second-most-recent snapshot. -/
def PrunesBelow (s : State) : Prop :=
  ∀ a t x, next len s a = some t → t.pruned = x :: s.pruned →
    BelowSecond (snapshots len config s.store) x

/-- The mark of the base stays on a manifest that is no snapshot. -/
def Inherits (base stored : Manifest) : Prop :=
  base.isSnapshot = true ∧ ¬ Qualifies len config stored

/-- The manifest is too large only until it is marked. -/
def Shrinks (base stored : Manifest) : Prop :=
  base.isSnapshot = false ∧ Qualifies len config stored ∧
    ¬ Qualifies len config { stored with isSnapshot := true }

/-- No manifest is stored with a mark that it has from its base, or that changes what it was given
for. -/
def OwnMarks (s : State) : Label → Prop
  | .step id nowMs =>
    let current := (s.procs id).manager.current
    match (s.procs id).pc with
    | .writing u _ =>
      match u.apply nowMs current with
      | .ok stored =>
        s.store.get stored.manifestId = none → ¬ Inherits len config current stored ∧
          ¬ Shrinks len config current stored
      | .error _ => True
    | .acquiring kind =>
      match ((s.procs id).manager.epochUpdate kind).apply nowMs current with
      | .ok stored => s.store.get stored.manifestId = none → ¬ Inherits len config current stored
      | .error _ => True
    | _ => True
  | _ => True

instance (base stored : Manifest) : Decidable (Inherits len config base stored) :=
  inferInstanceAs (Decidable (_ ∧ _))

instance (base stored : Manifest) : Decidable (Shrinks len config base stored) :=
  inferInstanceAs (Decidable (_ ∧ _))

/-- What is asked only of a manifest that an update has given can be decided by what it gives. -/
def decideOk {P : Manifest → Prop} (given : ∀ m, Decidable (P m)) :
    (r : FlushResult Manifest) → Decidable (match r with | .ok m => P m | .error _ => True)
  | .ok m => given m
  | .error _ => isTrue trivial

instance (s : State) : (a : Label) → Decidable (OwnMarks len config s a)
  | .step id nowMs =>
    let current := (s.procs id).manager.current
    (s.procs id).pc.decideStoring
      (fun u => decideOk (fun stored => inferInstanceAs (Decidable (s.store.get stored.manifestId = none →
        ¬ Inherits len config current stored ∧ ¬ Shrinks len config current stored)))
          (u.apply nowMs current))
      fun kind => decideOk (fun stored => inferInstanceAs (Decidable (s.store.get stored.manifestId = none →
        ¬ Inherits len config current stored)))
          (((s.procs id).manager.epochUpdate kind).apply nowMs current)
  | .start _ _ | .fail _ => isTrue trivial

end Marks

section Invariant
variable {len : Manifest → Nat} {config : ManifestConfig} {s t : State} {id : ManagerId} {p : Proc}

/-- What a pruning run has found or is about to delete. -/
def PruneOk (marks : Set Nat) : Pc → Prop
  | .pruneScanning _ pending found =>
    (found ++ pending).Pairwise (· < ·) ∧ ∀ k ∈ found, Backed marks k
  | .pruneDeleting pending => ∀ k ∈ pending, BelowSecond marks k
  | _ => True

structure MarkInv (len : Manifest → Nat) (config : ManifestConfig) (s : State) : Prop where
  keyed : ∀ k m, s.store.get k = some m → m.manifestId = k
  marked : MarksRight len config s.store
  configured : ∀ id, (s.procs id).manager.config = config
  pruning : ∀ id, PruneOk (snapshots len config s.store) (s.procs id).pc

theorem PruneOk.mono {marks later : Set Nat} (kept : ∀ k ∈ marks, Backed later k) {pc : Pc}
    (h : PruneOk marks pc) :
    PruneOk later pc := by
  cases pc with
  | pruneScanning entries pending found =>
    obtain ⟨ordered, backed⟩ := h
    exact ⟨ordered, fun k member => (backed k member).mono kept⟩
  | pruneDeleting pending => exact fun k member => (h k member).mono kept
  | _ => trivial

theorem MarkInv.setProc (h : MarkInv len config s) (configured : p.manager.config = config)
    (pruning : PruneOk (snapshots len config s.store) p.pc) :
    MarkInv len config (s.setProc id p) := by
  refine ⟨h.keyed, h.marked, ?_, ?_⟩
  · intro j
    by_cases same : j = id
    · subst j
      simpa [State.setProc] using configured
    · simpa [State.setProc, same] using h.configured j
  · intro j
    by_cases same : j = id
    · subst j
      simpa [State.setProc] using pruning
    · simpa [State.setProc, same] using h.pruning j

theorem MarkInv.ghost (h : MarkInv len config s) (store : t.store = s.store)
    (procs : t.procs = s.procs) : MarkInv len config t := by
  obtain ⟨keyed, marked, configured, pruning⟩ := h
  constructor
  · rw [store]
    exact keyed
  · rw [store]
    exact marked
  · rw [procs]
    exact configured
  · rw [store, procs]
    exact pruning

theorem MarkInv.finish (h : MarkInv len config s) (configured : p.manager.config = config)
    (r : FlushResult Unit) :
    MarkInv len config (s.finish id p r) := by
  have moved := @MarkInv.setProc _ _ _ id { p with pc := .idle } h configured trivial
  exact moved.ghost rfl rfl

theorem MarkInv.loadedWith (h : MarkInv len config s) (configured : p.manager.config = config)
    (goal : Goal) (m : Manifest) :
    MarkInv len config (loadedWith s id p goal m) := by
  have logged : MarkInv len config
      { s with loads := s.loads ++ [{ since := p.since, manifest := m }] } := h.ghost rfl rfl
  unfold ManifestSystem.loadedWith
  cases goal with
  | load =>
    apply logged.finish
    exact configured
  | retry u attempt =>
    dsimp only
    split
    · apply logged.finish
      exact configured
    · apply logged.setProc
      · exact configured
      · trivial
  | acquire kind =>
    apply logged.setProc
    · exact configured
    · trivial

theorem MarkInv.put (h : MarkInv len config s) {m : Manifest}
    (free : s.store.get m.manifestId = none)
    (right : m.isSnapshot = true → Qualifies len config m) :
    MarkInv len config { s with store := s.store.put m.manifestId m } := by
  have kept : ∀ k ∈ snapshots len config s.store,
      Backed (snapshots len config (s.store.put m.manifestId m)) k := by
    intro k member
    obtain ⟨other, found, mark, own⟩ := member
    have different : k ≠ m.manifestId := by
      intro same
      rw [same, free] at found
      cases found
    exact Or.inl ⟨other, (ObjectStore.get_put_ne _ _ different).trans found, mark, own⟩
  exact ⟨ObjectStore.forall_put h.keyed rfl, ObjectStore.forall_put h.marked right, h.configured,
    fun j => (h.pruning j).mono kept⟩

/-- Pruning deletes what is below the second-most-recent snapshot. -/
theorem MarkInv.delete (h : MarkInv len config s) {k : Nat}
    (below : BelowSecond (snapshots len config s.store) k) :
    MarkInv len config { s with store := s.store.delete k, pruned := k :: s.pruned } := by
  have rest : snapshots len config s.store \ {k} ⊆ snapshots len config (s.store.delete k) := by
    intro j member
    obtain ⟨⟨m, found, mark, own⟩, other⟩ := member
    exact ⟨m, (ObjectStore.get_delete_ne _ other).trans found, mark, own⟩
  have kept : ∀ j ∈ snapshots len config s.store,
      Backed (snapshots len config (s.store.delete k)) j := by
    intro j member
    exact (below.backed_erase j member).mono fun i left => Or.inl (rest left)
  exact ⟨fun j m found => h.keyed j m (ObjectStore.get_of_delete found),
    fun j m found => h.marked j m (ObjectStore.get_of_delete found), h.configured,
      fun j => (h.pruning j).mono kept⟩

/-- What a scan has found in ascending order gives a cutoff below which two snapshots are newer. -/
theorem toDelete_belowSecond {marks : Set Nat} {currentId x : Nat} {entries found : List Nat}
    (ordered : found.Pairwise (· < ·)) (backed : ∀ k ∈ found, Backed marks k)
    (picked : x ∈ toDelete currentId entries found) : BelowSecond marks x := by
  have sorted : found.insertionSort (· ≤ ·) = found := (ordered.imp Nat.le_of_lt).insertionSort_eq
  unfold toDelete at picked
  dsimp only at picked
  rw [sorted] at picked
  split at picked
  · cases picked
  · split at picked
    · rename_i two cutoff second
      have smaller := (List.mem_filter.mp picked).2
      simp only [ne_eq, Bool.decide_and, decide_not, Bool.and_eq_true, decide_eq_true_eq] at smaller
      obtain ⟨inside, at_cutoff⟩ := List.getElem?_eq_some_iff.mp second
      have last : found.length - 1 < found.length := by omega
      have order : found[found.length - 2] < found[found.length - 1] :=
        List.pairwise_iff_getElem.mp ordered _ _ inside last (by omega)
      rw [at_cutoff] at order
      exact (backed cutoff (List.mem_of_getElem? second)).belowSecond
        (backed _ (List.getElem_mem last)) order smaller.1
    · cases picked

theorem MarkInv.pruneNext (h : MarkInv len config s) (configured : p.manager.config = config)
    {entries pending found : List Nat} (ordered : (found ++ pending).Pairwise (· < ·))
    (backed : ∀ k ∈ found, Backed (snapshots len config s.store) k) :
    MarkInv len config (pruneNext s id p entries pending found) := by
  unfold ManifestSystem.pruneNext
  split
  · apply h.setProc
    · exact configured
    · exact ⟨ordered, backed⟩
  · rw [List.append_nil] at ordered
    split
    · apply h.finish
      exact configured
    · apply h.setProc
      · exact configured
      · intro k picked
        exact toDelete_belowSecond ordered backed picked

theorem markInv_start {call : Call} (h : MarkInv len config s) (taken : start s id call = some t) :
    MarkInv len config t := by
  have mine := h.configured id
  have began : MarkInv len config { s with started := s.started ++ [call] } := h.ghost rfl rfl
  unfold start at taken
  dsimp only at taken
  split at taken
  · cases call with
    | update u =>
      dsimp only at taken
      split at taken
      · obtain rfl := Option.some.inj taken
        apply began.finish
        exact mine
      split at taken
      · obtain rfl := Option.some.inj taken
        apply began.finish
        exact mine
      · obtain rfl := Option.some.inj taken
        apply began.setProc
        · exact mine
        · trivial
    | loadLatest | acquireEpoch kind | pruneOldManifests =>
      obtain rfl := Option.some.inj taken
      apply began.setProc
      · exact mine
      · trivial
  · cases taken

theorem markInv_fail (h : MarkInv len config s) (taken : fail s id = some t) :
    MarkInv len config t := by
  have mine := h.configured id
  have scan := h.pruning id
  unfold fail at taken
  dsimp only at taken
  split at taken
  case h_5 entries skipped rest found place =>
    obtain rfl := Option.some.inj taken
    rw [place] at scan
    obtain ⟨ordered, backed⟩ := scan
    exact h.pruneNext mine (ordered.sublist (List.Sublist.append (List.Sublist.refl _)
      (List.sublist_cons_self _ _))) backed
  case h_6 => cases taken
  all_goals
    obtain rfl := Option.some.inj taken
    apply h.finish
    exact mine

/-- What an update stores where the object store lets it. -/
def markedOwn (len : Manifest → Nat) (config : ManifestConfig) (stored : Manifest) : Manifest :=
  if Qualifies len config stored then { stored with isSnapshot := true } else stored

theorem shouldSnapshot_iff {m : ManifestManager} (configured : m.config = config)
    {stored : Manifest} :
    m.shouldSnapshotManifest len stored = true ↔ Qualifies len config stored := by
  unfold ManifestManager.shouldSnapshotManifest Qualifies
  rw [configured, decide_eq_true_iff]

theorem toWrite_markedOwn {m : ManifestManager} (configured : m.config = config)
    (u : ManifestUpdate) (nowMs : Nat) :
    m.toWrite len u nowMs = (u.apply nowMs m.current).map (markedOwn len config) := by
  unfold ManifestManager.toWrite markedOwn
  cases u.apply nowMs m.current with
  | error e => rfl
  | ok stored =>
    dsimp only [Except.map]
    by_cases own : Qualifies len config stored
    · rw [if_pos own, if_pos ((shouldSnapshot_iff configured).mpr own)]
    · rw [if_neg own, if_neg fun snap => own ((shouldSnapshot_iff configured).mp snap)]

theorem markedOwn_manifestId (stored : Manifest) :
    (markedOwn len config stored).manifestId = stored.manifestId := by
  unfold markedOwn
  split <;> rfl

theorem apply_isSnapshot {u : ManifestUpdate} {nowMs : Nat} {base stored : Manifest}
    (applied : u.apply nowMs base = .ok stored) :
    stored.isSnapshot = base.isSnapshot := by
  obtain ⟨-, -, -, rfl⟩ := ManifestUpdate.apply_ok applied
  rfl

/-- An update gives a right mark exactly when it neither inherits one nor shrinks below the limit by
it. -/
theorem markedOwn_right_iff {base stored : Manifest} (same : stored.isSnapshot = base.isSnapshot) :
    ((markedOwn len config stored).isSnapshot = true →
      Qualifies len config (markedOwn len config stored)) ↔
      ¬ Inherits len config base stored ∧ ¬ Shrinks len config base stored := by
  unfold markedOwn Inherits Shrinks
  cases mark : base.isSnapshot with
  | true =>
    rw [mark] at same
    have whole : { stored with isSnapshot := true } = stored := by rw [← same]
    rw [whole, ite_self]
    simp [same]
  | false =>
    rw [mark] at same
    by_cases own : Qualifies len config stored
    · rw [if_pos own]
      simp [own]
    · rw [if_neg own]
      simp [own, same]

theorem MarkInv.commit (h : MarkInv len config s) {origin : Origin} {u : ManifestUpdate}
    {nowMs : Nat} {store : ObjectStore Nat Manifest} {m : Manifest} {manager : ManifestManager}
    (configured : manager.config = config)
    (put : s.store.conditionalPut m.manifestId m = some store)
    (right : m.isSnapshot = true → Qualifies len config m) :
    MarkInv len config (commit s id p origin u nowMs store m manager) := by
  obtain ⟨absent, rfl⟩ := ObjectStore.conditionalPut_some put
  have stored : MarkInv len config
      { s with
        store := s.store.put m.manifestId m
        commits := s.commits ++ [p.record origin u nowMs m] } := (h.put absent right).ghost rfl rfl
  apply stored.finish
  exact configured

section Step
variable {nowMs : Nat} (h : MarkInv len config s) (taken : step len s id nowMs = some t)
include h taken

theorem markInv_loading {goal : Goal}
    (place : (s.procs id).pc = .listing goal ∨ (s.procs id).pc = .creating goal ∨
      ∃ k checked, (s.procs id).pc = .fetching goal k checked) :
    MarkInv len config t := by
  have mine := h.configured id
  unfold step at taken
  dsimp only at taken
  rcases place with place | place | ⟨k, checked, place⟩
  · simp only [place] at taken
    split at taken
    all_goals
      obtain rfl := Option.some.inj taken
      apply h.setProc
      · exact mine
      · trivial
  · simp only [place] at taken
    split at taken
    · rename_i store put
      obtain ⟨absent, rfl⟩ := ObjectStore.conditionalPut_some put
      obtain rfl := Option.some.inj taken
      have created := @MarkInv.put len config s h
        (Manifest.newEmpty (s.procs id).manager.current.ns nowMs) absent
        fun mark => nomatch mark
      exact created.loadedWith mine goal _
    · obtain rfl := Option.some.inj taken
      apply h.setProc
      · exact mine
      · trivial
  · simp only [place] at taken
    split at taken
    · obtain rfl := Option.some.inj taken
      exact h.finish mine _
    split at taken
    · obtain rfl := Option.some.inj taken
      exact h.finish mine _
    · obtain rfl := Option.some.inj taken
      exact h.loadedWith mine goal _

/-- Where an update stores a manifest, its mark is its own. -/
theorem markInv_writing {u : ManifestUpdate} {attempt : Nat}
    (own : OwnMarks len config s (.step id nowMs)) (place : (s.procs id).pc = .writing u attempt) :
    MarkInv len config t := by
  have mine := h.configured id
  unfold step at taken
  unfold OwnMarks at own
  dsimp only at taken own
  simp only [place, toWrite_markedOwn mine] at taken own
  cases applied : u.apply nowMs (s.procs id).manager.current with
  | error e =>
    simp only [applied, Except.map] at taken
    obtain rfl := Option.some.inj taken
    exact h.finish mine _
  | ok stored =>
    simp only [applied, Except.map] at taken own
    split at taken
    · rename_i store put
      obtain rfl := Option.some.inj taken
      obtain ⟨absent, -⟩ := ObjectStore.conditionalPut_some put
      rw [markedOwn_manifestId] at absent
      apply h.commit
      · exact mine
      · exact put
      · exact (markedOwn_right_iff (apply_isSnapshot applied)).mpr (own absent)
    · obtain rfl := Option.some.inj taken
      unfold casLost
      split
      · exact h.finish mine _
      · apply h.setProc
        · exact mine
        · trivial

theorem markInv_acquiring {kind : EpochKind} (own : OwnMarks len config s (.step id nowMs))
    (place : (s.procs id).pc = .acquiring kind) : MarkInv len config t := by
  have mine := h.configured id
  unfold step at taken
  unfold OwnMarks at own
  dsimp only at taken own
  simp only [place] at taken own
  cases applied : ((s.procs id).manager.epochUpdate kind).apply nowMs (s.procs id).manager.current with
  | error e =>
    simp only [applied] at taken
    obtain rfl := Option.some.inj taken
    exact h.finish mine _
  | ok stored =>
    simp only [applied] at taken own
    split at taken
    · rename_i store put
      obtain rfl := Option.some.inj taken
      obtain ⟨absent, -⟩ := ObjectStore.conditionalPut_some put
      apply h.commit
      · cases kind <;> exact mine
      · exact put
      · intro mark
        by_contra other
        exact own absent ⟨(apply_isSnapshot applied).symm.trans mark, other⟩
    · obtain rfl := Option.some.inj taken
      exact h.finish mine _

theorem markInv_scanning {entries pending found : List Nat}
    (place : (s.procs id).pc = .pruneScanning entries pending found) :
    MarkInv len config t := by
  have mine := h.configured id
  have scan := h.pruning id
  unfold step at taken
  dsimp only at taken
  rw [place] at scan
  obtain ⟨ordered, backed⟩ := scan
  simp only [place] at taken
  split at taken
  · cases taken
  · rename_i k rest
    have skipped : (found ++ rest).Pairwise (· < ·) :=
      ordered.sublist (List.Sublist.append (List.Sublist.refl _) (List.sublist_cons_self _ _))
    split at taken
    · rename_i m here
      obtain rfl := Option.some.inj taken
      split
      · rename_i mark
        apply h.pruneNext mine
        · rw [List.append_assoc]
          exact ordered
        · intro j member
          rcases List.mem_append.mp member with old | new
          · exact backed j old
          · rw [List.mem_singleton.mp new]
            exact Or.inl ⟨m, here, mark, h.marked k m here mark⟩
      · exact h.pruneNext mine skipped backed
    · obtain rfl := Option.some.inj taken
      exact h.pruneNext mine skipped backed

theorem markInv_deleting {pending : List Nat} (place : (s.procs id).pc = .pruneDeleting pending) :
    MarkInv len config t := by
  have mine := h.configured id
  have scan := h.pruning id
  unfold step at taken
  dsimp only at taken
  rw [place] at scan
  simp only [place] at taken
  split at taken
  · cases taken
  · rename_i k rest
    have deleted := h.delete (scan k List.mem_cons_self)
    split at taken
    · obtain rfl := Option.some.inj taken
      apply deleted.finish
      exact mine
    · obtain rfl := Option.some.inj taken
      apply deleted.setProc
      · exact mine
      · have left := deleted.pruning id
        rw [place] at left
        exact fun j member => left j (List.mem_cons_of_mem _ member)

theorem markInv_step (own : OwnMarks len config s (.step id nowMs)) : MarkInv len config t := by
  cases place : (s.procs id).pc with
  | idle => simp [step, place] at taken
  | listing goal => exact markInv_loading h taken (Or.inl place)
  | creating goal => exact markInv_loading h taken (Or.inr (Or.inl place))
  | fetching goal k checked => exact markInv_loading h taken (Or.inr (Or.inr ⟨k, checked, place⟩))
  | writing u attempt => exact markInv_writing h taken own place
  | acquiring kind => exact markInv_acquiring h taken own place
  | pruneListing =>
    have mine := h.configured id
    unfold step at taken
    dsimp only at taken
    simp only [place] at taken
    split at taken
    · obtain rfl := Option.some.inj taken
      exact h.finish mine _
    · obtain rfl := Option.some.inj taken
      exact h.pruneNext mine s.store.keys_strictly_sorted (List.forall_mem_nil _)
  | pruneScanning entries pending found => exact markInv_scanning h taken place
  | pruneDeleting pending => exact markInv_deleting h taken place

end Step

theorem markInv_next {a : Label} (h : MarkInv len config s) (own : OwnMarks len config s a)
    (taken : next len s a = some t) :
    MarkInv len config t := by
  cases a with
  | start id call => exact markInv_start h taken
  | step id nowMs => exact markInv_step h taken own
  | fail id => exact markInv_fail h taken

theorem markInv_initial (ns : String) (nowMs : ManagerId → Nat) :
    MarkInv len config (initial ns (fun _ => config) nowMs) :=
  ⟨(fun _ _ found => nomatch found), (fun _ _ found => nomatch found), fun _ => rfl, fun _ => trivial⟩

theorem conditionalPut_free {m : Manifest} (absent : s.store.get m.manifestId = none) :
    s.store.conditionalPut m.manifestId m = some (s.store.put m.manifestId m) := by
  unfold ObjectStore.conditionalPut
  rw [absent]
  rfl

/-- A step that leaves all marks right has given its own. -/
theorem ownMarks_of_right {a : Label} (h : MarkInv len config s) (taken : next len s a = some t)
    (right : MarksRight len config t.store) : OwnMarks len config s a := by
  cases a with
  | start id call => trivial
  | fail id => trivial
  | step id nowMs =>
    have mine := h.configured id
    change step len s id nowMs = some t at taken
    unfold step at taken
    unfold OwnMarks
    dsimp only at taken ⊢
    cases place : (s.procs id).pc with
    | writing u attempt =>
      dsimp only
      cases applied : u.apply nowMs (s.procs id).manager.current with
      | error e => trivial
      | ok stored =>
        intro absent
        rw [← @markedOwn_manifestId len config stored] at absent
        simp only [place, toWrite_markedOwn mine, applied, Except.map,
          conditionalPut_free absent] at taken
        obtain rfl := Option.some.inj taken
        exact (markedOwn_right_iff (apply_isSnapshot applied)).mp fun mark =>
          right _ _ (ObjectStore.get_put_self _ _ _) mark
    | acquiring kind =>
      dsimp only
      cases applied : ((s.procs id).manager.epochUpdate kind).apply nowMs
        (s.procs id).manager.current with
      | error e => trivial
      | ok stored =>
        intro absent inherited
        simp only [place, applied, conditionalPut_free absent] at taken
        obtain rfl := Option.some.inj taken
        exact inherited.2 (right _ _ (ObjectStore.get_put_self _ _ _)
          ((apply_isSnapshot applied).trans inherited.1))
    | _ => trivial

theorem pruneNext_pruned (s : State) (id : ManagerId) (p : Proc)
    (entries pending found : List Nat) :
    (pruneNext s id p entries pending found).pruned = s.pruned := by
  unfold pruneNext
  split
  · rfl
  · split <;> rfl

/-- Only a pruning run that has ids left to delete deletes, and it takes the first of them. -/
theorem pruned_cases {a : Label} (taken : next len s a = some t) : t.pruned = s.pruned ∨
    ∃ id k rest, (s.procs id).pc = .pruneDeleting (k :: rest) ∧ t.pruned = k :: s.pruned := by
  obtain ⟨id, call, rfl, begun⟩ | ⟨id, label, moved⟩ := next_cases taken
  · exact Or.inl begun.pruned
  by_cases prunes : (s.procs id).pc.call = some .pruneOldManifests
  · obtain rfl | ⟨nowMs, rfl⟩ := label
    · change fail s id = some t at taken
      unfold fail at taken
      dsimp only at taken
      split at taken
      case h_5 =>
        obtain rfl := Option.some.inj taken
        exact Or.inl (pruneNext_pruned _ _ _ _ _ _)
      case h_6 => cases taken
      all_goals
        obtain rfl := Option.some.inj taken
        exact Or.inl rfl
    · change step len s id nowMs = some t at taken
      unfold step at taken
      dsimp only at taken
      cases place : (s.procs id).pc with
      | pruneListing =>
        simp only [place] at taken
        split at taken
        · obtain rfl := Option.some.inj taken
          exact Or.inl rfl
        · obtain rfl := Option.some.inj taken
          exact Or.inl (pruneNext_pruned _ _ _ _ _ _)
      | pruneScanning entries pending found =>
        simp only [place] at taken
        split at taken
        · cases taken
        split at taken
        all_goals
          obtain rfl := Option.some.inj taken
          exact Or.inl (pruneNext_pruned _ _ _ _ _ _)
      | pruneDeleting pending =>
        simp only [place] at taken
        split at taken
        · cases taken
        · rename_i k rest
          refine Or.inr ⟨id, k, rest, place, ?_⟩
          split at taken
          all_goals
            obtain rfl := Option.some.inj taken
            rfl
      | listing goal | creating goal | fetching goal k checked =>
        cases goal <;> simp [place, Pc.call, Goal.call] at prunes
      | _ => simp [place, Pc.call] at prunes
  · exact Or.inl (moved.bucket prunes).1

/-- What the next step deletes is what a scan has left to delete. -/
theorem MarkInv.prunesBelow (h : MarkInv len config s) : PrunesBelow len config s := by
  intro a t x taken deleted
  rcases pruned_cases taken with same | ⟨id, k, rest, place, gone⟩
  · rw [same] at deleted
    exact absurd deleted.symm (List.cons_ne_self _ _)
  · rw [gone] at deleted
    obtain ⟨rfl, -⟩ := List.cons.inj deleted
    have scan := h.pruning id
    rw [place] at scan
    exact scan k List.mem_cons_self

end Invariant

section Runs
variable {len : Manifest → Nat} {config : ManifestConfig} {ns : String} {nowMs : ManagerId → Nat}
  {labels : List Label}

/-- At every moment of a run the marks are right and pruning keeps the two most recent snapshots. -/
def SnapshotsKept (len : Manifest → Nat) (config : ManifestConfig) (start : State)
    (labels : List Label) : Prop :=
  ∀ i t, exec (next len) start (labels.take i) = some t → MarksRight len config t.store ∧
    PrunesBelow len config t

theorem admits_of_kept {start s : State} (h : MarkInv len config start)
    (run : exec (next len) start labels = some s) (kept : SnapshotsKept len config start labels) :
    Admits (next len) (OwnMarks len config) start labels := by
  induction labels generalizing start with
  | nil => trivial
  | cons a rest ih =>
    obtain ⟨mid, taken, later⟩ := exec_cons run
    have one : exec (next len) start ((a :: rest).take 1) = some mid := by
      simp only [List.take_succ_cons, List.take_zero, exec, taken, Option.bind_some]
    have own := ownMarks_of_right h taken (kept 1 mid one).1
    refine ⟨own, ?_⟩
    intro t reached
    obtain rfl := Option.some.inj (taken.symm.trans reached)
    apply ih (markInv_next h own taken) later
    intro i t run
    apply kept (i + 1) t
    rw [List.take_succ_cons]
    simp only [exec, taken, Option.bind_some]
    exact run

/-- In every run the marks stay right and pruning keeps the two most recent snapshots exactly when
no step stores a manifest with the mark of its base that is no snapshot itself, or one that is a
snapshot by its size only until it is marked. -/
theorem snapshots_kept_iff {s : State}
    (run : exec (next len) (initial ns (fun _ => config) nowMs) labels = some s) :
    SnapshotsKept len config (initial ns (fun _ => config) nowMs) labels ↔
      Admits (next len) (OwnMarks len config) (initial ns (fun _ => config) nowMs) labels := by
  constructor
  · exact admits_of_kept (markInv_initial ns nowMs) run
  · intro own i t reached
    have kept : MarkInv len config t :=
      exec_invariant (fun _ _ _ h ok taken => markInv_next h ok taken) (markInv_initial ns nowMs)
        (admits_take own i) reached
    exact ⟨kept.marked, kept.prunesBelow⟩

section Example

/-- Snapshots with every second manifest. -/
def everySecond : ManifestConfig where
  snapshotInterval := 2

/-- Five updates, and a pruning run that has deleted manifests 0 and 1. -/
def markedHistory : List Label :=
  loadLatest 0 ++ update 0 .flush 0 0 ++ update 0 .flush 0 0 ++ update 0 .flush 0 0 ++ update 0
    .flush 0 0 ++
    update 0 .flush 0 0 ++ pruneOldManifests 0 6 2

/-- Manifests 3 to 5 keep the mark of manifest 2, and the next step deletes it, though 2 and 4 are
the two most recent snapshots. -/
theorem inherited_marks_prune :
    ∃ s t, exec (next fun _ => 300) (initial "ns" (fun _ => everySecond) (fun _ => 0))
      markedHistory = some s ∧
      ¬ MarksRight (fun _ => 300) everySecond s.store ∧
      next (fun _ => 300) s (.step 0 1) = some t ∧ t.pruned = 2 :: s.pruned ∧
      2 ∈ snapshots (fun _ => 300) everySecond s.store ∧
      ¬ BelowSecond (snapshots (fun _ => 300) everySecond s.store) 2 := by
  have even : ∀ s ∈ exec (next fun _ => 300) (initial "ns" (fun _ => everySecond) (fun _ => 0))
      markedHistory,
      ∀ k ∈ s.store.keys, ∀ m ∈ s.store.get k, Qualifies (fun _ => 300) everySecond m → k ≤ 4 ∧
        k % 2 = 0 := by decide
  refine ⟨_, _, rfl, ?_, rfl, rfl, ⟨_, rfl, rfl, by decide⟩, ?_⟩
  · intro right
    have wrong := right 3 _ rfl rfl
    revert wrong
    decide
  · intro below
    obtain ⟨a, ⟨m, found, -, own⟩, b, ⟨m', found', -, own'⟩, above, order⟩ := below
    have first := even _ rfl a (ObjectStore.mem_keys_of_get found) m found own
    have second := even _ rfl b (ObjectStore.mem_keys_of_get found') m' found' own'
    omega

theorem snapshots_kept_every :
    ∃ s, exec (next fun _ => 300) snapshotting prunedHistory = some s ∧ s.pruned = [1, 0] ∧
      SnapshotsKept (fun _ => 300) { snapshotInterval := 1 } snapshotting prunedHistory := by
  have own : Admits (next fun _ => 300) (OwnMarks (fun _ => 300) { snapshotInterval := 1 })
      snapshotting prunedHistory := by decide
  exact ⟨_, rfl, rfl, (snapshots_kept_iff rfl).mpr own⟩

end Example

end Runs

end FlushDB.ManifestSystem
