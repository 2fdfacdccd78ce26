import FlushDB.Manifest.Chain

/-!
What a step does to the call it belongs to: it commits and returns `Ok`, returns without a
commit, or goes on. The results about calls, epochs and the chain rest on this one case
distinction.
-/

namespace FlushDB.ManifestSystem
open Lib

/-- The next step of manager `id` is a conditional put that succeeds and is recorded as `c`. -/
structure Committed (s : State) (id : ManagerId) (c : Commit) : Prop where
  call : c.call = (s.procs id).call
  held : c.heldWriterEpoch = (s.procs id).manager.writerEpoch
  base : c.base = (s.procs id).manager.current
  free : s.store.get (c.base.manifestId + 1) = none
  applied : ∃ next, c.update.apply c.nowMs c.base = .ok next ∧
    (c.stored = next ∨ c.stored = { next with isSnapshot := true })
  issued : (∃ attempt, (s.procs id).pc = .writing c.update attempt ∧ c.origin = .update) ∨
    ∃ kind, (s.procs id).pc = .acquiring kind ∧ c.origin = .acquisition kind ∧
      c.update = (s.procs id).manager.epochUpdate kind

/-- The manager goes on with its call: it keeps its epochs, and before it writes it has
loaded a manifest that passes the epoch check. -/
structure Continues (p q : Proc) : Prop where
  same_call : q.pc.call = p.pc.call
  writerEpoch : q.manager.writerEpoch = p.manager.writerEpoch
  compactorEpoch : q.manager.compactorEpoch = p.manager.compactorEpoch
  checked : ∀ u attempt, q.pc = .writing u attempt → q.loaded = true ∧
    q.manager.validateEpoch u = .ok ()
  fetched : ∀ kind, q.pc = .acquiring kind → q.loaded = true

inductive Outcome (s t : State) (id : ManagerId) : Prop where
  | committed (c : Commit) (did : Committed s id c) (commits : t.commits = s.commits ++ [c])
      (store : t.store = s.store.put c.stored.manifestId c.stored)
      (current : (t.procs id).manager.current = c.stored) (idle : (t.procs id).pc = .idle)
      (results : t.results = s.results ++ [((s.procs id).call, .ok ())])
  | returned (r : FlushResult Unit) (commits : t.commits = s.commits) (idle : (t.procs id).pc = .idle)
      (results : t.results = s.results ++ [((s.procs id).call, r)])
      (quiet : r = .ok () → (s.procs id).pc.call = some .loadLatest ∨
        (s.procs id).pc.call = some .pruneOldManifests)
  | continued (commits : t.commits = s.commits) (results : t.results = s.results)
      (goes : Continues (s.procs id) (t.procs id))

/-- What a manager holds after a step: what it held before, or an object of the bucket. -/
def Holds (store : ObjectStore Nat Manifest) (p q : Proc) : Prop :=
  (q.manager.current = p.manager.current ∧ q.loaded = p.loaded) ∨
    ∃ k, store.get k = some q.manager.current

/-- A step of manager `id`, its call and the rest of the system. -/
structure Moved (s t : State) (id : ManagerId) : Prop where
  active : (s.procs id).pc.call ≠ none
  started : t.started = s.started
  others : ∀ j ≠ id, t.procs j = s.procs j
  call : (t.procs id).call = (s.procs id).call
  loaded : (s.procs id).loaded = true → (t.procs id).loaded = true
  bucket : (s.procs id).pc.call ≠ some .pruneOldManifests →
    t.pruned = s.pruned ∧ ObjectStore.Extends s.store t.store
  current : Holds t.store (s.procs id) (t.procs id)
  outcome : Outcome s t id

@[simp]
theorem setProc_self (s : State) (id : ManagerId) (p : Proc) : (s.setProc id p).procs id = p := by
  simp [State.setProc]

theorem setProc_other (s : State) {id j : ManagerId} (p : Proc) (other : j ≠ id) :
    (s.setProc id p).procs j = s.procs j := by
  simp [State.setProc, other]

@[simp]
theorem finish_self (s : State) (id : ManagerId) (p : Proc) (r : FlushResult Unit) :
    (s.finish id p r).procs id = { p with pc := .idle } := by
  simp [State.finish]

theorem finish_other (s : State) {id j : ManagerId} (p : Proc) (r : FlushResult Unit)
    (other : j ≠ id) :
    (s.finish id p r).procs j = s.procs j := by
  simp [State.finish, State.setProc, other]

/-- `m` differs from `s` in the bucket, the pruned ids and the loads only. -/
structure SameCalls (s m : State) : Prop where
  procs : m.procs = s.procs
  started : m.started = s.started
  commits : m.commits = s.commits
  results : m.results = s.results

theorem SameCalls.refl (s : State) : SameCalls s s := ⟨rfl, rfl, rfl, rfl⟩

theorem moved_finish {s m : State} {id : ManagerId} {p : Proc} {r : FlushResult Unit}
    (active : (s.procs id).pc.call ≠ none) (same : SameCalls s m)
    (bucket : (s.procs id).pc.call ≠ some .pruneOldManifests →
      m.pruned = s.pruned ∧ ObjectStore.Extends s.store m.store)
    (current : Holds m.store (s.procs id) p) (call : p.call = (s.procs id).call)
    (loaded : (s.procs id).loaded = true → p.loaded = true)
    (quiet : r = .ok () → (s.procs id).pc.call = some .loadLatest ∨
      (s.procs id).pc.call = some .pruneOldManifests) :
    Moved s (m.finish id p r) id := by
  refine ⟨active, same.started, ?_, by simpa using call, by simpa using loaded, bucket, ?_,
    .returned r same.commits (by simp) ?_ quiet⟩
  · intro j other
    rw [finish_other m p r other, same.procs]
  · rw [finish_self]
    exact current
  · simp [State.finish, same.results, call]

theorem moved_setProc {s m : State} {id : ManagerId} {p : Proc}
    (active : (s.procs id).pc.call ≠ none) (same : SameCalls s m)
    (bucket : (s.procs id).pc.call ≠ some .pruneOldManifests → m.pruned = s.pruned ∧
      ObjectStore.Extends s.store m.store)
    (current : Holds m.store (s.procs id) p) (call : p.call = (s.procs id).call)
    (loaded : (s.procs id).loaded = true → p.loaded = true) (goes : Continues (s.procs id) p) :
    Moved s (m.setProc id p) id := by
  refine ⟨active, same.started, ?_, by simpa using call, by simpa using loaded, bucket, ?_,
    .continued same.commits same.results (by simpa using goes)⟩
  · intro j other
    rw [setProc_other m p other, same.procs]
  · rw [setProc_self]
    exact current

theorem moved_error {s : State} {id : ManagerId} {e : FlushError}
    (active : (s.procs id).pc.call ≠ none) :
    Moved s (s.finish id (s.procs id) (.error e)) id :=
  moved_finish active (.refl s) (fun _ => ⟨rfl, .refl _⟩) (Or.inl ⟨rfl, rfl⟩) rfl (fun loaded => loaded)
    (fun ok => by cases ok)

/-- A step to another operation of the same call, other than a conditional put. -/
theorem moved_goto {s m : State} {id : ManagerId} {place : Pc} {since : Nat}
    (active : (s.procs id).pc.call ≠ none) (same : SameCalls s m)
    (bucket : (s.procs id).pc.call ≠ some .pruneOldManifests → m.pruned = s.pruned ∧
      ObjectStore.Extends s.store m.store)
    (same_call : place.call = (s.procs id).pc.call)
    (reads : ∀ u attempt, place ≠ .writing u attempt) (takes : ∀ kind, place ≠ .acquiring kind) :
    Moved s (m.setProc id { s.procs id with pc := place, since := since }) id :=
  moved_setProc active same bucket (Or.inl ⟨rfl, rfl⟩) rfl (fun loaded => loaded)
    ⟨same_call, rfl, rfl, fun u n writes => absurd writes (reads u n),
      fun kind takes' => absurd takes' (takes kind)⟩

theorem moved_loadedWith {s m : State} {id : ManagerId} {goal : Goal} {loaded : Manifest} {k : Nat}
    (mine : (s.procs id).pc.call = some goal.call) (same : SameCalls s m)
    (pruned : m.pruned = s.pruned) (grown : ObjectStore.Extends s.store m.store)
    (found : m.store.get k = some loaded) :
    Moved s (loadedWith m id (s.procs id) goal loaded) id := by
  have active : (s.procs id).pc.call ≠ none := by simp [mine]
  have logged : SameCalls s
      { m with loads := m.loads ++ [{ since := (s.procs id).since, manifest := loaded }] } :=
    ⟨same.procs, same.started, same.commits, same.results⟩
  unfold loadedWith
  cases goal with
  | load =>
    exact moved_finish active logged (fun _ => ⟨pruned, grown⟩) (Or.inr ⟨k, found⟩) rfl
      (fun _ => rfl) (fun _ => Or.inl mine)
  | retry u attempt =>
    dsimp only
    split
    · exact moved_finish active logged (fun _ => ⟨pruned, grown⟩) (Or.inr ⟨k, found⟩) rfl
        (fun _ => rfl) (fun ok => by cases ok)
    · rename_i passed
      refine moved_setProc active logged (fun _ => ⟨pruned, grown⟩) (Or.inr ⟨k, found⟩) rfl
        (fun _ => rfl) ⟨mine.symm, rfl, rfl, ?_, ?_⟩
      · intro v n writes
        cases writes
        exact ⟨rfl, ManifestManager.revalidate_ok passed⟩
      · intro kind takes
        cases takes
  | acquire kind =>
    refine moved_setProc active logged (fun _ => ⟨pruned, grown⟩) (Or.inr ⟨k, found⟩) rfl (fun _ => rfl)
      ⟨mine.symm, rfl, rfl, ?_, fun _ _ => rfl⟩
    intro u n writes
    cases writes

theorem moved_pruneNext {s : State} {id : ManagerId} {entries pending snapshots : List Nat}
    (mine : (s.procs id).pc.call = some .pruneOldManifests) :
    Moved s (pruneNext s id (s.procs id) entries pending snapshots) id := by
  have active : (s.procs id).pc.call ≠ none := by simp [mine]
  unfold pruneNext
  split
  · exact moved_goto active (.refl s) (fun _ => ⟨rfl, .refl _⟩) mine.symm (by simp) (by simp)
  split
  · exact moved_finish active (.refl s) (fun _ => ⟨rfl, .refl _⟩) (Or.inl ⟨rfl, rfl⟩) rfl
      (fun loaded => loaded) (fun _ => Or.inr mine)
  · exact moved_goto active (.refl s) (fun _ => ⟨rfl, .refl _⟩) mine.symm (by simp) (by simp)

theorem moved_commit {s : State} {id : ManagerId} {origin : Origin} {u : ManifestUpdate}
    {nowMs : Nat} {store : ObjectStore Nat Manifest} {m next : Manifest} {manager : ManifestManager}
    (active : (s.procs id).pc.call ≠ none)
    (applied : u.apply nowMs (s.procs id).manager.current = .ok next)
    (written : m = next ∨ m = { next with isSnapshot := true })
    (put : s.store.conditionalPut m.manifestId m = some store) (holds : manager.current = m)
    (issued : (∃ attempt, (s.procs id).pc = .writing u attempt ∧ origin = .update) ∨
      ∃ kind, (s.procs id).pc = .acquiring kind ∧ origin = .acquisition kind ∧
        u = (s.procs id).manager.epochUpdate kind) :
    Moved s (commit s id (s.procs id) origin u nowMs store m manager) id := by
  have number : m.manifestId = (s.procs id).manager.current.manifestId + 1 := by
    have applied_id := ManifestUpdate.apply_manifestId applied
    rcases written with same | same <;> rw [same] <;> exact applied_id
  obtain ⟨absent, rfl⟩ := ObjectStore.conditionalPut_some put
  have did : Committed s id ((s.procs id).record origin u nowMs m) :=
    ⟨rfl, rfl, rfl, number ▸ absent, ⟨next, applied, written⟩, issued⟩
  refine ⟨active, rfl, ?_, by simp [commit], by simp [commit],
    fun _ => ⟨rfl, ObjectStore.extends_put m absent⟩,
    Or.inr ⟨m.manifestId, by simp [commit, State.finish, State.setProc, holds]⟩,
    .committed _ did rfl rfl ?_ (by simp [commit]) rfl⟩
  · intro j other
    exact finish_other _ _ _ other
  · simp only [commit, finish_self]
    exact holds

/-- What one backend operation does to its call. -/
theorem step_moved {len : Manifest → Nat} {s t : State} {id : ManagerId} {nowMs : Nat}
    (taken : step len s id nowMs = some t) : Moved s t id := by
  unfold step at taken
  dsimp only at taken
  cases place : (s.procs id).pc with
  | idle => simp [place] at taken
  | listing goal =>
    have mine : (s.procs id).pc.call = some goal.call := by rw [place]; rfl
    have active : (s.procs id).pc.call ≠ none := by simp [mine]
    simp only [place] at taken
    split at taken
    all_goals
      obtain rfl := Option.some.inj taken
      exact moved_goto active (.refl s) (fun _ => ⟨rfl, .refl _⟩) mine.symm (by simp) (by simp)
  | creating goal =>
    have mine : (s.procs id).pc.call = some goal.call := by rw [place]; rfl
    have active : (s.procs id).pc.call ≠ none := by simp [mine]
    simp only [place] at taken
    split at taken
    · rename_i store put
      obtain ⟨absent, rfl⟩ := ObjectStore.conditionalPut_some put
      obtain rfl := Option.some.inj taken
      exact moved_loadedWith mine ⟨rfl, rfl, rfl, rfl⟩ rfl (ObjectStore.extends_put _ absent)
        (ObjectStore.get_put_self _ _ _)
    · obtain rfl := Option.some.inj taken
      exact moved_goto active (.refl s) (fun _ => ⟨rfl, .refl _⟩) mine.symm (by simp) (by simp)
  | fetching goal k checked =>
    have mine : (s.procs id).pc.call = some goal.call := by rw [place]; rfl
    have active : (s.procs id).pc.call ≠ none := by simp [mine]
    simp only [place] at taken
    split at taken
    · obtain rfl := Option.some.inj taken
      exact moved_error active
    rename_i m found
    split at taken
    · obtain rfl := Option.some.inj taken
      exact moved_error active
    · obtain rfl := Option.some.inj taken
      exact moved_loadedWith mine (.refl s) rfl (.refl _) found
  | writing u attempt =>
    have mine : (s.procs id).pc.call = some (.update u) := by rw [place]; rfl
    have active : (s.procs id).pc.call ≠ none := by simp [mine]
    simp only [place] at taken
    split at taken
    · obtain rfl := Option.some.inj taken
      exact moved_error active
    · rename_i m prepared
      obtain ⟨next, applied, written⟩ := ManifestManager.toWrite_ok prepared
      split at taken
      · rename_i store put
        obtain rfl := Option.some.inj taken
        exact moved_commit active applied written put rfl (Or.inl ⟨attempt, place, rfl⟩)
      · obtain rfl := Option.some.inj taken
        unfold casLost
        split
        · exact moved_error active
        · exact moved_goto active (.refl s) (fun _ => ⟨rfl, .refl _⟩) mine.symm (by simp) (by simp)
  | acquiring kind =>
    have mine : (s.procs id).pc.call = some (.acquireEpoch kind) := by rw [place]; rfl
    have active : (s.procs id).pc.call ≠ none := by simp [mine]
    simp only [place] at taken
    split at taken
    · obtain rfl := Option.some.inj taken
      exact moved_error active
    · rename_i m applied
      split at taken
      · rename_i store put
        obtain rfl := Option.some.inj taken
        exact moved_commit active applied (Or.inl rfl) put (by cases kind <;> rfl)
          (Or.inr ⟨kind, place, rfl, rfl⟩)
      · obtain rfl := Option.some.inj taken
        exact moved_error active
  | pruneListing =>
    have mine : (s.procs id).pc.call = some .pruneOldManifests := by rw [place]; rfl
    have active : (s.procs id).pc.call ≠ none := by simp [mine]
    simp only [place] at taken
    split at taken
    · obtain rfl := Option.some.inj taken
      exact moved_finish active (.refl s) (fun _ => ⟨rfl, .refl _⟩) (Or.inl ⟨rfl, rfl⟩) rfl
        (fun loaded => loaded) (fun _ => Or.inr mine)
    · obtain rfl := Option.some.inj taken
      exact moved_pruneNext mine
  | pruneScanning entries pending snapshots =>
    have mine : (s.procs id).pc.call = some .pruneOldManifests := by rw [place]; rfl
    simp only [place] at taken
    split at taken
    · cases taken
    split at taken
    all_goals
      obtain rfl := Option.some.inj taken
      exact moved_pruneNext mine
  | pruneDeleting pending =>
    have mine : (s.procs id).pc.call = some .pruneOldManifests := by rw [place]; rfl
    have active : (s.procs id).pc.call ≠ none := by simp [mine]
    simp only [place] at taken
    split at taken
    · cases taken
    split at taken
    · obtain rfl := Option.some.inj taken
      exact moved_finish active ⟨rfl, rfl, rfl, rfl⟩ (fun other => absurd mine other)
        (Or.inl ⟨rfl, rfl⟩) rfl (fun loaded => loaded)
        (fun _ => Or.inr mine)
    · obtain rfl := Option.some.inj taken
      exact moved_goto active ⟨rfl, rfl, rfl, rfl⟩
        (fun other => absurd mine other) mine.symm (by simp) (by simp)

theorem fail_moved {s t : State} {id : ManagerId} (taken : fail s id = some t) : Moved s t id := by
  unfold fail at taken
  dsimp only at taken
  split at taken
  case h_5 entries skipped rest snapshots place =>
    obtain rfl := Option.some.inj taken
    exact moved_pruneNext (by rw [place]; rfl)
  case h_6 => cases taken
  all_goals
    rename_i place
    obtain rfl := Option.some.inj taken
    exact moved_error (by simp [place, Pc.call])

/-- The beginning of a call: nothing but the manager that makes it has changed. An update that
fails its first checks returns at once. -/
structure Begun (s t : State) (id : ManagerId) (call : Call) : Prop where
  idle : (s.procs id).pc = .idle
  started : t.started = s.started ++ [call]
  store : t.store = s.store
  commits : t.commits = s.commits
  pruned : t.pruned = s.pruned
  others : ∀ j ≠ id, t.procs j = s.procs j
  number : (t.procs id).call = s.started.length
  manager : (t.procs id).manager = (s.procs id).manager
  loaded : (t.procs id).loaded = (s.procs id).loaded
  waits : ∀ kind, (t.procs id).pc ≠ .acquiring kind
  checked : ∀ u attempt, (t.procs id).pc = .writing u attempt →
    call = .update u ∧ (s.procs id).manager.validateEpoch u = .ok ()
  outcome : (t.results = s.results ∧ (t.procs id).pc.call = some call) ∨
    ∃ e, t.results = s.results ++ [(s.started.length, .error e)] ∧ (t.procs id).pc = .idle

theorem start_begun {s t : State} {id : ManagerId} {call : Call}
    (taken : start s id call = some t) :
    Begun s t id call := by
  unfold start at taken
  dsimp only at taken
  split at taken
  · rename_i idle
    cases call with
    | update u =>
      dsimp only at taken
      split at taken
      · obtain rfl := Option.some.inj taken
        exact ⟨idle, rfl, rfl, rfl, rfl, fun j other => finish_other _ _ _ other, by simp, by simp, by simp,
          by simp, by simp, Or.inr ⟨_, rfl, by simp⟩⟩
      · rename_i passed
        split at taken
        · obtain rfl := Option.some.inj taken
          exact ⟨idle, rfl, rfl, rfl, rfl, fun j other => finish_other _ _ _ other, by simp, by simp, by simp,
            by simp, by simp, Or.inr ⟨_, rfl, by simp⟩⟩
        · obtain rfl := Option.some.inj taken
          refine ⟨idle, rfl, rfl, rfl, rfl, fun j other => setProc_other _ _ other, by simp, by simp, by simp,
            by simp, ?_, Or.inl ⟨rfl, by simp [Pc.call]⟩⟩
          intro v n writes
          simp only [setProc_self, Pc.writing.injEq] at writes
          obtain ⟨rfl, rfl⟩ := writes
          exact ⟨rfl, passed⟩
    | loadLatest | acquireEpoch kind | pruneOldManifests =>
      obtain rfl := Option.some.inj taken
      exact ⟨idle, rfl, rfl, rfl, rfl, fun j other => setProc_other _ _ other, by simp, by simp, by simp,
        by simp, by simp, Or.inl ⟨rfl, by simp [Pc.call, Goal.call]⟩⟩
  · cases taken

/-- A label begins a call or moves the manager it names. -/
theorem next_cases {len : Manifest → Nat} {s t : State} {a : Label}
    (taken : next len s a = some t) :
    (∃ id call, a = .start id call ∧ Begun s t id call) ∨
      ∃ id, (a = .fail id ∨ ∃ nowMs, a = .step id nowMs) ∧ Moved s t id := by
  cases a with
  | start id call => exact Or.inl ⟨id, call, rfl, start_begun taken⟩
  | step id nowMs => exact Or.inr ⟨id, Or.inr ⟨nowMs, rfl⟩, step_moved taken⟩
  | fail id => exact Or.inr ⟨id, Or.inl rfl, fail_moved taken⟩

section Unpruned

/-- No pruning has been started. -/
structure Unpruned (s : State) : Prop where
  pruned : s.pruned = []
  none_running : ∀ id, (s.procs id).pc.call ≠ some .pruneOldManifests

def StartsNoPruning : Label → Prop
  | .start _ .pruneOldManifests => False
  | _ => True

instance : (a : Label) → Decidable (StartsNoPruning a)
  | .start _ .pruneOldManifests => isFalse id
  | .start _ .loadLatest | .start _ (.update _) | .start _ (.acquireEpoch _) => isTrue trivial
  | .step _ _ | .fail _ => isTrue trivial

theorem unpruned_initial (ns : String) (config : ManagerId → ManifestConfig)
    (nowMs : ManagerId → Nat) :
    Unpruned (initial ns config nowMs) :=
  ⟨rfl, by simp [initial, Pc.call]⟩

theorem unpruned_next {len : Manifest → Nat} {s t : State} {a : Label} (h : Unpruned s)
    (allowed : StartsNoPruning a) (taken : next len s a = some t) : Unpruned t := by
  obtain ⟨id, call, rfl, begun⟩ | ⟨id, -, moved⟩ := next_cases taken
  · refine ⟨begun.pruned.trans h.pruned, ?_⟩
    intro j
    by_cases same : j = id
    · subst j
      rcases begun.outcome with ⟨-, mine⟩ | ⟨e, -, mine⟩
      · rw [mine]
        rintro ⟨⟩
        exact allowed
      · simp [mine, Pc.call]
    · rw [begun.others j same]
      exact h.none_running j
  · refine ⟨(moved.bucket (h.none_running id)).1.trans h.pruned, ?_⟩
    intro j
    by_cases same : j = id
    · subst j
      cases moved.outcome with
      | committed c did commits store current idle results => simp [idle, Pc.call]
      | returned r commits idle results quiet => simp [idle, Pc.call]
      | continued commits results goes => exact goes.same_call ▸ h.none_running id
    · rw [moved.others j same]
      exact h.none_running j

theorem noReuse_of_unpruned {s : State} (h : Unpruned s) (a : Label) : NoReuse s a := by
  cases a with
  | start id call => trivial
  | fail id => trivial
  | step id nowMs =>
    simp only [NoReuse, h.pruned]
    split <;> simp

end Unpruned

end FlushDB.ManifestSystem
