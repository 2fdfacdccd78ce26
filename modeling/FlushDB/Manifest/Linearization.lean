import FlushDB.Manifest.Outcome

/-!
Without pruning the stored manifests linearize the updates: every manifest but the first is
`ManifestUpdate::apply` of one call to the manifest before it, the calls in the chain are
those that returned `Ok`, each once, and the flush watermark never moves back.
-/

namespace FlushDB.ManifestSystem
open Lib

/-- Updates come from managers that have called `load_latest`, and nothing is pruned. -/
def LoadedCall (s : State) : Label → Prop
  | .start id (.update _) => (s.procs id).loaded = true
  | .start _ .pruneOldManifests => False
  | _ => True

instance (s : State) : (a : Label) → Decidable (LoadedCall s a)
  | .start id (.update _) => inferInstanceAs (Decidable ((s.procs id).loaded = true))
  | .start _ .pruneOldManifests => isFalse id
  | .start _ .loadLatest | .start _ (.acquireEpoch _) => isTrue trivial
  | .step _ _ | .fail _ => isTrue trivial

/-- The calls that commit when they succeed. -/
def Call.writes : Call → Bool
  | .update _ | .acquireEpoch _ => true
  | .loadLatest | .pruneOldManifests => false

/-- The commit is what the call asks for. -/
def Commit.Serves (c : Commit) : Call → Prop
  | .update u => c.origin = .update ∧ c.update = u
  | .acquireEpoch kind =>
    c.origin = .acquisition kind ∧
      c.update = ({ current := c.base, config := {} } : ManifestManager).epochUpdate kind
  | .loadLatest | .pruneOldManifests => False

/-- The chain linearizes the calls. -/
structure Linearized (s : State) : Prop where
  /-- Commit `n` stands in the bucket as manifest `n + 1`, on top of the manifest it was applied
  to. -/
  stored : ∀ (n : Nat) c, s.commits[n]? = some c →
    s.store.get n = some c.base ∧ s.store.get (n + 1) = some c.stored
  /-- Manifest `n + 1` is one commit applied to manifest `n`, and the only one of its id. -/
  applied : ∀ n next, s.store.get (n + 1) = some next → ∃ c prior result,
    s.commits[n]? = some c ∧ s.store.get n = some prior ∧
      c.update.apply c.nowMs prior = .ok result ∧
      next.SameContent result ∧ ∀ (j : Nat) d, s.commits[j]? = some d →
        d.stored.manifestId = n + 1 → j = n
  /-- Every commit serves a call that returned `Ok`. -/
  serves : ∀ c ∈ s.commits, (c.call, .ok ()) ∈ s.results ∧ ∃ call, s.started[c.call]? = some call ∧
    c.Serves call
  /-- A call that returned `Ok` is in the chain exactly once. -/
  once : ∀ k call, (k, .ok ()) ∈ s.results → s.started[k]? = some call → call.writes = true →
    ∃! n : Nat, ∃ c, s.commits[n]? = some c ∧ c.call = k
  /-- A call that returned an error is not in it. -/
  never : ∀ k e, (k, .error e) ∈ s.results → ∀ c ∈ s.commits, c.call ≠ k
  /-- The watermark is non-decreasing. -/
  watermark : ∀ k l m n, s.store.get k = some m → s.store.get l = some n → k ≤ l →
    m.lastFlushedSequence ≤ n.lastFlushedSequence

section Calls

/-- Calls, their results and their commits. -/
structure CallInv (s : State) : Prop where
  active : ∀ id call, (s.procs id).pc.call = some call → s.started[(s.procs id).call]? = some call
  unanswered : ∀ id, (s.procs id).pc.call ≠ none → ∀ r, ((s.procs id).call, r) ∉ s.results
  apart : ∀ i j, i ≠ j → (s.procs i).pc.call ≠ none → (s.procs j).pc.call ≠ none →
    (s.procs i).call ≠ (s.procs j).call
  answered : ∀ k r, (k, r) ∈ s.results → k < s.started.length
  single : ∀ k r r', (k, r) ∈ s.results → (k, r') ∈ s.results → r = r'
  serves : ∀ c ∈ s.commits, (c.call, .ok ()) ∈ s.results ∧ ∃ call, s.started[c.call]? = some call ∧
    c.Serves call
  distinct : (s.commits.map Commit.call).Nodup
  present : ∀ k call, (k, .ok ()) ∈ s.results → s.started[k]? = some call → call.writes = true →
    ∃ c ∈ s.commits, c.call = k

variable {s t : State} {id : ManagerId}

theorem CallInv.active_lt (h : CallInv s) (busy : (s.procs id).pc.call ≠ none) :
    (s.procs id).call < s.started.length := by
  obtain ⟨call, mine⟩ := Option.ne_none_iff_exists'.mp busy
  exact (List.getElem?_eq_some_iff.mp (h.active id call mine)).1

/-- The manager that begins a call, seen from the state before. -/
theorem begun_busy {call : Call} (begun : Begun s t id call) {j : ManagerId}
    (busy : (t.procs j).pc.call ≠ none) :
    (j = id ∧ (t.procs j).pc.call = some call ∧ t.results = s.results) ∨
      (j ≠ id ∧ t.procs j = s.procs j) := by
  by_cases same : j = id
  · subst j
    rcases begun.outcome with ⟨results, mine⟩ | ⟨e, results, idle⟩
    · exact Or.inl ⟨rfl, mine, results⟩
    · simp [idle, Pc.call] at busy
  · exact Or.inr ⟨same, begun.others j same⟩

/-- A new result is the error of the new call. -/
theorem begun_results {call : Call} (begun : Begun s t id call) {k : Nat} {r : FlushResult Unit}
    (member : (k, r) ∈ t.results) :
    (k, r) ∈ s.results ∨ (k = s.started.length ∧ ∃ e, r = .error e) := by
  rcases begun.outcome with ⟨results, -⟩ | ⟨e, results, -⟩
  · exact Or.inl (results ▸ member)
  · rw [results] at member
    rcases List.mem_append.mp member with old | new
    · exact Or.inl old
    · simp only [List.mem_singleton, Prod.mk.injEq] at new
      exact Or.inr ⟨new.1, e, new.2⟩

theorem begun_started {call other : Call} (begun : Begun s t id call) {k : Nat}
    (found : s.started[k]? = some other) : t.started[k]? = some other := by
  rw [begun.started, List.getElem?_append_left (List.getElem?_eq_some_iff.mp found).1]
  exact found

theorem begun_kept {call : Call} (begun : Begun s t id call) {k : Nat} {r : FlushResult Unit}
    (member : (k, r) ∈ s.results) : (k, r) ∈ t.results := by
  rcases begun.outcome with ⟨results, -⟩ | ⟨e, results, -⟩
  · exact results ▸ member
  · rw [results]
    exact List.mem_append_left _ member

theorem callInv_begun {call : Call} (h : CallInv s) (begun : Begun s t id call) : CallInv t := by
  constructor
  · intro j other mine
    have busy : (t.procs j).pc.call ≠ none := by simp [mine]
    rcases begun_busy begun busy with ⟨rfl, same, -⟩ | ⟨-, same⟩
    · obtain rfl := Option.some.inj (same.symm.trans mine)
      rw [begun.number, begun.started]
      simp
    · rw [same] at mine ⊢
      exact begun_started begun (h.active j other mine)
  · intro j busy r member
    rcases begun_busy begun busy with ⟨rfl, -, results⟩ | ⟨-, same⟩
    · rw [begun.number, results] at member
      exact absurd (h.answered _ _ member) (Nat.lt_irrefl _)
    · rw [same] at busy member
      rcases begun_results begun member with old | ⟨new, -⟩
      · exact h.unanswered j busy r old
      · have := h.active_lt busy
        omega
  · intro i j different first second equal
    rcases begun_busy begun first with ⟨rfl, -, -⟩ | ⟨-, at_i⟩ <;>
      rcases begun_busy begun second with ⟨rfl, -, -⟩ | ⟨-, at_j⟩
    · exact different rfl
    · rw [at_j] at second equal
      have := h.active_lt second
      have := begun.number
      omega
    · rw [at_i] at first equal
      have := h.active_lt first
      have := begun.number
      omega
    · rw [at_i] at first equal
      rw [at_j] at second equal
      exact h.apart i j different first second equal
  · intro k r member
    rw [begun.started, List.length_append, List.length_singleton]
    rcases begun_results begun member with old | ⟨new, -⟩
    · have := h.answered k r old
      omega
    · omega
  · intro k r r' first second
    rcases begun_results begun first with old | ⟨new, e, rfl⟩ <;>
      rcases begun_results begun second with old' | ⟨new', e', rfl⟩
    · exact h.single k r r' old old'
    · have := h.answered k r old
      omega
    · have := h.answered k r' old'
      omega
    · -- both are the one result that was added
      subst new
      rcases begun.outcome with ⟨results, -⟩ | ⟨e'', results, -⟩
      · rw [results] at first
        exact absurd (h.answered _ _ first) (Nat.lt_irrefl _)
      · rw [results] at first second
        have fresh : ∀ r, (s.started.length, r) ∉ s.results := fun r member =>
          absurd (h.answered _ _ member) (Nat.lt_irrefl _)
        simp only [List.mem_append, fresh, List.mem_singleton, Prod.mk.injEq, false_or] at first second
        exact first.2.trans second.2.symm
  · intro c member
    rw [begun.commits] at member
    obtain ⟨ok, other, started, serves⟩ := h.serves c member
    exact ⟨begun_kept begun ok, other, begun_started begun started, serves⟩
  · rw [begun.commits]
    exact h.distinct
  · intro k other ok started writes
    rcases begun_results begun ok with old | ⟨-, e, impossible⟩
    · rw [begun.started, List.getElem?_append_left (h.answered k _ old)] at started
      rw [begun.commits]
      exact h.present k other old started writes
    · cases impossible

/-- A step answers the call of its manager, which is then idle, or answers none. -/
theorem moved_answers (moved : Moved s t id) :
    t.results = s.results ∨
      ∃ r, t.results = s.results ++ [((s.procs id).call, r)] ∧ (t.procs id).pc = .idle := by
  cases moved.outcome with
  | committed c did commits store current idle results => exact Or.inr ⟨_, results, idle⟩
  | returned r commits idle results quiet => exact Or.inr ⟨r, results, idle⟩
  | continued commits results goes => exact Or.inl results

theorem moved_busy (moved : Moved s t id) {j : ManagerId} (busy : (t.procs j).pc.call ≠ none) :
    (t.procs j).pc.call = (s.procs j).pc.call ∧ (t.procs j).call = (s.procs j).call ∧
      (j = id → t.results = s.results) := by
  by_cases same : j = id
  · subst j
    cases moved.outcome with
    | committed c did commits store current idle results => simp [idle, Pc.call] at busy
    | returned r commits idle results quiet => simp [idle, Pc.call] at busy
    | continued commits results goes => exact ⟨goes.same_call, moved.call, fun _ => results⟩
  · rw [moved.others j same]
    exact ⟨rfl, rfl, fun mine => absurd mine same⟩

theorem moved_results (moved : Moved s t id) {k : Nat} {r : FlushResult Unit}
    (member : (k, r) ∈ t.results) :
    (k, r) ∈ s.results ∨ k = (s.procs id).call := by
  rcases moved_answers moved with same | ⟨r', results, -⟩
  · exact Or.inl (same ▸ member)
  · rw [results] at member
    rcases List.mem_append.mp member with old | new
    · exact Or.inl old
    · simp only [List.mem_singleton, Prod.mk.injEq] at new
      exact Or.inr new.1

theorem moved_kept (moved : Moved s t id) {k : Nat} {r : FlushResult Unit}
    (member : (k, r) ∈ s.results) :
    (k, r) ∈ t.results := by
  rcases moved_answers moved with same | ⟨r', results, -⟩
  · exact same ▸ member
  · rw [results]
    exact List.mem_append_left _ member

/-- A commit serves the call its manager is in. -/
theorem Committed.serves {c : Commit} (did : Committed s id c) :
    ∃ call, (s.procs id).pc.call = some call ∧ c.Serves call := by
  rcases did.issued with ⟨attempt, place, origin⟩ | ⟨kind, place, origin, issued⟩
  · exact ⟨.update c.update, by rw [place]; rfl, origin, rfl⟩
  · refine ⟨.acquireEpoch kind, by rw [place]; rfl, origin, ?_⟩
    rw [issued, did.base]
    cases kind <;> rfl

theorem callInv_moved (h : CallInv s) (moved : Moved s t id) : CallInv t := by
  constructor
  · intro j call mine
    have busy : (t.procs j).pc.call ≠ none := by simp [mine]
    obtain ⟨place, number, -⟩ := moved_busy moved busy
    rw [number, moved.started]
    exact h.active j call (place ▸ mine)
  · intro j busy r member
    obtain ⟨place, number, mine⟩ := moved_busy moved busy
    rw [place] at busy
    rw [number] at member
    by_cases same : j = id
    · exact h.unanswered j busy r (mine same ▸ member)
    · rcases moved_results moved member with old | new
      · exact h.unanswered j busy r old
      · exact h.apart j id same busy moved.active new
  · intro i j different first second
    obtain ⟨place_i, number_i, -⟩ := moved_busy moved first
    obtain ⟨place_j, number_j, -⟩ := moved_busy moved second
    rw [number_i, number_j]
    exact h.apart i j different (place_i ▸ first) (place_j ▸ second)
  · intro k r member
    rw [moved.started]
    rcases moved_results moved member with old | rfl
    · exact h.answered k r old
    · exact h.active_lt moved.active
  · intro k r r' first second
    rcases moved_answers moved with same | ⟨answer, results, -⟩
    · rw [same] at first second
      exact h.single k r r' first second
    · rw [results] at first second
      simp only [List.mem_append, List.mem_singleton, Prod.mk.injEq] at first second
      rcases first with old | ⟨rfl, rfl⟩ <;> rcases second with old' | ⟨number, rfl⟩
      · exact h.single k r r' old old'
      · exact absurd (number ▸ old) (h.unanswered id moved.active r)
      · exact absurd old' (h.unanswered id moved.active r')
      · rfl
  · intro c member
    rw [moved.started]
    have kept : ∀ c ∈ s.commits, (c.call, .ok ()) ∈ t.results ∧
        ∃ call, s.started[c.call]? = some call ∧ c.Serves call := fun c member =>
      ⟨moved_kept moved (h.serves c member).1, (h.serves c member).2⟩
    cases moved.outcome with
    | committed d did commits store current idle results =>
      rw [commits] at member
      rcases List.mem_append.mp member with old | new
      · exact kept c old
      · obtain rfl := List.mem_singleton.mp new
        obtain ⟨call, mine, serves⟩ := did.serves
        rw [did.call, results]
        exact ⟨by simp, call, h.active id call mine, serves⟩
    | returned r commits idle results quiet => exact kept c (commits ▸ member)
    | continued commits results goes => exact kept c (commits ▸ member)
  · cases moved.outcome with
    | committed d did commits store current idle results =>
      rw [commits, List.map_append, List.nodup_append]
      refine ⟨h.distinct, by simp, ?_⟩
      intro k old j new equal
      obtain ⟨c, member, rfl⟩ := List.mem_map.mp old
      simp only [List.map_cons, List.map_nil, List.mem_singleton] at new
      rw [new, did.call] at equal
      exact h.unanswered id moved.active _ (equal ▸ (h.serves c member).1)
    | returned r commits idle results quiet => exact commits ▸ h.distinct
    | continued commits results goes => exact commits ▸ h.distinct
  · intro k call ok started writes
    rw [moved.started] at started
    cases moved.outcome with
    | committed d did commits store current idle results =>
      rw [commits]
      rcases moved_results moved ok with old | rfl
      · obtain ⟨c, member, number⟩ := h.present k call old started writes
        exact ⟨c, List.mem_append_left _ member, number⟩
      · exact ⟨d, by simp, did.call⟩
    | continued commits results goes =>
      rw [commits]
      exact h.present k call (results ▸ ok) started writes
    | returned r commits idle results quiet =>
      rw [commits]
      rw [results] at ok
      simp only [List.mem_append, List.mem_singleton, Prod.mk.injEq] at ok
      rcases ok with old | ⟨rfl, rfl⟩
      · exact h.present k call old started writes
      · -- only a load or a pruning returns `Ok` without a commit
        have mine := quiet rfl
        obtain ⟨other, place⟩ := Option.ne_none_iff_exists'.mp moved.active
        obtain rfl := Option.some.inj ((h.active id other place).symm.trans started)
        rcases mine with load | prune
        · obtain rfl := Option.some.inj (place.symm.trans load)
          cases writes
        · obtain rfl := Option.some.inj (place.symm.trans prune)
          cases writes

theorem callInv_next {len : Manifest → Nat} {a : Label} (h : CallInv s)
    (taken : next len s a = some t) :
    CallInv t := by
  obtain ⟨id, call, rfl, begun⟩ | ⟨id, -, moved⟩ := next_cases taken
  · exact callInv_begun h begun
  · exact callInv_moved h moved

theorem callInv_initial (ns : String) (config : ManagerId → ManifestConfig)
    (nowMs : ManagerId → Nat) :
    CallInv (initial ns config nowMs) := by
  constructor <;> simp [initial, Pc.call]

end Calls

section Bucket

/-- Loaded managers and commits refer to manifests that are in the bucket. -/
structure BucketInv (s : State) : Prop where
  chain : Inv s
  unpruned : Unpruned s
  loaded : ∀ id, (s.procs id).loaded = true →
    s.store.get (s.procs id).manager.current.manifestId = some (s.procs id).manager.current
  writing : ∀ id u attempt, (s.procs id).pc = .writing u attempt → (s.procs id).loaded = true
  acquiring : ∀ id kind, (s.procs id).pc = .acquiring kind → (s.procs id).loaded = true
  commits : ∀ c ∈ s.commits, s.store.get c.base.manifestId = some c.base ∧
    s.store.get c.stored.manifestId = some c.stored

theorem bucketInv_next {len : Manifest → Nat} {s t : State} {a : Label} (h : BucketInv s)
    (allowed : LoadedCall s a) (taken : next len s a = some t) : BucketInv t := by
  have quiet : StartsNoPruning a := by
    cases a with
    | start id call => cases call <;> trivial
    | step id nowMs => trivial
    | fail id => trivial
  have chain := inv_next h.chain (noReuse_of_unpruned h.unpruned a) taken
  have unpruned := unpruned_next h.unpruned quiet taken
  obtain ⟨id, call, rfl, begun⟩ | ⟨id, -, moved⟩ := next_cases taken
  · refine ⟨chain, unpruned, ?_, ?_, ?_, ?_⟩
    · intro j loaded
      by_cases same : j = id
      · subst j
        rw [begun.loaded] at loaded
        rw [begun.store, begun.manager]
        exact h.loaded id loaded
      · rw [begun.others j same] at loaded ⊢
        rw [begun.store]
        exact h.loaded j loaded
    · intro j u attempt writes
      by_cases same : j = id
      · subst j
        obtain ⟨rfl, -⟩ := begun.checked u attempt writes
        rw [begun.loaded]
        exact allowed
      · rw [begun.others j same] at writes ⊢
        exact h.writing j u attempt writes
    · intro j kind takes
      by_cases same : j = id
      · subst j
        exact absurd takes (begun.waits kind)
      · rw [begun.others j same] at takes ⊢
        exact h.acquiring j kind takes
    · rw [begun.commits, begun.store]
      exact h.commits
  · obtain ⟨-, grown⟩ := moved.bucket (h.unpruned.none_running id)
    have goes_on : ∀ {P : Pc → Prop}, ¬ P .idle → P (t.procs id).pc →
        Continues (s.procs id) (t.procs id) := by
      intro P not_idle here
      cases moved.outcome with
      | committed c did commits store current idle results => exact absurd (idle ▸ here) not_idle
      | returned r commits idle results quiet => exact absurd (idle ▸ here) not_idle
      | continued commits results goes => exact goes
    refine ⟨chain, unpruned, ?_, ?_, ?_, ?_⟩
    · intro j loaded
      by_cases same : j = id
      · subst j
        rcases moved.current with ⟨current, before⟩ | ⟨k, found⟩
        · rw [current]
          exact grown _ _ (h.loaded id (before ▸ loaded))
        · have number := (chain.chain.stored k _ found).1
          rw [number]
          exact found
      · rw [moved.others j same] at loaded ⊢
        exact grown _ _ (h.loaded j loaded)
    · intro j u attempt writes
      by_cases same : j = id
      · subst j
        have goes := goes_on (P := fun place => place = .writing u attempt) (by simp) writes
        exact (goes.checked u attempt writes).1
      · rw [moved.others j same] at writes ⊢
        exact h.writing j u attempt writes
    · intro j kind takes
      by_cases same : j = id
      · subst j
        have goes := goes_on (P := fun place => place = .acquiring kind) (by simp) takes
        exact goes.fetched kind takes
      · rw [moved.others j same] at takes ⊢
        exact h.acquiring j kind takes
    · intro c member
      have kept : ∀ c ∈ s.commits, t.store.get c.base.manifestId = some c.base ∧
          t.store.get c.stored.manifestId = some c.stored := fun c member =>
        ⟨grown _ _ (h.commits c member).1, grown _ _ (h.commits c member).2⟩
      cases moved.outcome with
      | returned r commits idle results quiet => exact kept c (commits ▸ member)
      | continued commits results goes => exact kept c (commits ▸ member)
      | committed d did commits store current idle results =>
        rw [commits] at member
        rcases List.mem_append.mp member with old | new
        · exact kept c old
        · obtain rfl := List.mem_singleton.mp new
          have loaded : (s.procs id).loaded = true := by
            rcases did.issued with ⟨attempt, place, -⟩ | ⟨kind, place, -⟩
            · exact h.writing id _ _ place
            · exact h.acquiring id _ place
          refine ⟨?_, ?_⟩
          · rw [did.base]
            exact grown _ _ (h.loaded id loaded)
          · rw [store]
            exact ObjectStore.get_put_self _ _ _

theorem bucketInv_initial (ns : String) (config : ManagerId → ManifestConfig)
    (nowMs : ManagerId → Nat) :
    BucketInv (initial ns config nowMs) :=
  ⟨inv_initial ns config nowMs, unpruned_initial ns config nowMs, by simp [initial], by simp [initial],
    by simp [initial], by simp [initial]⟩

end Bucket

/-- What a commit stored is the result of `apply`, up to the snapshot mark. -/
theorem CommitOk.sameContent {commits : List Commit} {i : Nat} {c : Commit}
    (h : CommitOk commits i c) :
    ∃ result, c.update.apply c.nowMs c.base = .ok result ∧ c.stored.SameContent result := by
  obtain ⟨result, applied, plain | marked⟩ := h.applied
  · exact ⟨result, applied, plain ▸ rfl⟩
  · exact ⟨result, applied, marked ▸ rfl⟩

theorem commit_lastFlushedSequence_le {commits : List Commit} {i : Nat} {c : Commit}
    (h : CommitOk commits i c) :
    c.base.lastFlushedSequence ≤ c.stored.lastFlushedSequence := by
  obtain ⟨next, applied, written⟩ := h.applied
  have rises := ManifestUpdate.apply_lastFlushedSequence_le applied
  rcases written with same | same <;> rw [same] <;> exact rises

theorem linearized_of_inv {s : State} (bucket : BucketInv s) (calls : CallInv s) :
    Linearized s := by
  have chained := bucket.chain.chain.commits
  have rises : ∀ c ∈ s.commits, c.base.lastFlushedSequence ≤ c.stored.lastFlushedSequence := by
    intro c member
    obtain ⟨i, found⟩ := List.getElem?_of_mem member
    exact commit_lastFlushedSequence_le (chained i c found)
  have placed : ∀ (n : Nat) c, s.commits[n]? = some c →
      s.store.get n = some c.base ∧ s.store.get (n + 1) = some c.stored := by
    intro n c at_n
    obtain ⟨base, stored⟩ := bucket.commits c (List.mem_of_getElem? at_n)
    have link := chained n c at_n
    rw [link.base_id] at base
    rw [link.stored_id] at stored
    exact ⟨base, stored⟩
  refine ⟨placed, ?_, calls.serves, ?_, ?_, ?_⟩
  · intro n next found
    obtain ⟨number, recorded⟩ := bucket.chain.chain.stored _ _ found
    rcases recorded with ⟨ns, nowMs, rfl⟩ | ⟨i, c, at_i, rfl, position⟩
    · simp [Manifest.newEmpty] at number
    · have same : i = n := by omega
      subst i
      have link := chained n c at_i
      obtain ⟨result, applied, content⟩ := link.sameContent
      refine ⟨c, c.base, result, at_i, (placed n c at_i).1, applied, content, ?_⟩
      intro j d at_j stored
      have := (chained j d at_j).stored_id
      omega
  · intro k call ok started writes
    obtain ⟨c, member, number⟩ := calls.present k call ok started writes
    obtain ⟨n, at_n⟩ := List.getElem?_of_mem member
    refine ⟨n, ⟨c, at_n, number⟩, ?_⟩
    rintro m ⟨d, at_m, same⟩
    have first : (s.commits.map Commit.call)[n]? = some k := by simp [at_n, number]
    have second : (s.commits.map Commit.call)[m]? = some k := by simp [at_m, same]
    have bound := (List.getElem?_eq_some_iff.mp second).1
    exact (List.getElem?_inj bound calls.distinct).mp (second.trans first.symm)
  · intro k e failed c member same
    have ok := (calls.serves c member).1
    rw [same] at ok
    cases calls.single k _ _ ok failed
  · intro k l m n at_k at_l order
    obtain ⟨rfl, first⟩ := bucket.chain.chain.stored k m at_k
    obtain ⟨rfl, second⟩ := bucket.chain.chain.stored l n at_l
    exact recorded_mono chained (fun _ _ => rfl) rises first second order

/-- Every interleaving of updates and epoch acquisitions is linearized by the chain. -/
theorem chain_linearizes {len : Manifest → Nat} {ns : String} {config : ManagerId → ManifestConfig}
    {nowMs : ManagerId → Nat} {labels : List Label} {s : State}
    (loaded : Admits (next len) LoadedCall (initial ns config nowMs) labels)
    (run : exec (next len) (initial ns config nowMs) labels = some s) : Linearized s := by
  have bucket : BucketInv s := exec_invariant
    (fun _ _ _ kept allowed taken => bucketInv_next kept allowed taken)
    (bucketInv_initial ns config nowMs) loaded run
  have calls : CallInv s := exec_invariant (fun _ _ _ kept _ taken => callInv_next kept taken)
    (callInv_initial ns config nowMs) loaded run
  exact linearized_of_inv bucket calls

/-- A flush and a compaction that each lose one race and retry. -/
def race : List Label :=
  loadLatest 0 ++ acquireEpoch 0 .writer ++ loadLatest 1 ++ acquireEpoch 1 .compactor ++
    update 0 .flush 1 0 ++ retry 0 ++ update 1 .compaction 1 0 ++ retry 1

theorem chain_linearizes_race :
    ∃ s, exec (next fun _ => 300) emptyBucket race = some s ∧ s.commits.length = 4 ∧
      Linearized s := by
  have loaded : Admits (next fun _ => 300) LoadedCall emptyBucket race := by decide
  exact ⟨_, rfl, rfl, chain_linearizes loaded rfl⟩

end FlushDB.ManifestSystem
