import FlushDB.Server.Isolation

/-!
Deletions of namespaces that fail. Partitions are stopped in turn; those before the one that fails
stay stopped in a namespace that is still there.
-/

namespace FlushDB
open Lib

/-- The second takes all reads and all writes that the first takes. -/
def Partition.TakesAll (p q : Partition) : Prop :=
  (p.isReadable → q.isReadable) ∧ (p.isWritable → q.isWritable)

namespace NamespaceManager

/-- The partitions before `i` are stopped, and the stop of `i` fails. -/
def FailsAt (env : ServerEnv) (config : NamespaceConfig) (draws : Nat → Nat → FlushDraw)
    (m : NamespaceManager) (i : Nat) (e : FlushError) : Prop :=
  i < config.partitionCount ∧ ∃ u left,
    eachPartition (fun j => stopPartition env config (draws j) j) (List.range i) m =
      (some (.ok none), u) ∧
      stopPartition env config (draws i) i u = (some (.error e), left)

section Stops
variable {env : ServerEnv} {c : NamespaceConfig} {m m' : NamespaceManager} {i : Nat} {e : FlushError}

theorem eachPartition_error {f : Nat → NamespaceManager → Answer × NamespaceManager} {is : List Nat}
    (failed : eachPartition f is m = (some (.error e), m')) :
    ∃ before i after u, is = before ++ i :: after ∧
      eachPartition f before m = (some (.ok none), u) ∧ f i u = (some (.error e), m') := by
  induction is generalizing m with
  | nil => cases failed
  | cons i rest ih =>
    unfold eachPartition at failed
    split at failed
    · rename_i e' u taken
      obtain ⟨answer, rfl⟩ := Prod.mk.inj failed
      obtain rfl := Except.error.inj (Option.some.inj answer)
      exact ⟨[], i, rest, m, rfl, rfl, taken⟩
    · rename_i u done taken
      obtain ⟨before, j, after, v, rfl, stopped, last⟩ := ih failed
      refine ⟨i :: before, j, after, v, rfl, ?_, last⟩
      unfold eachPartition
      split
      · rename_i e' u' taken'
        rw [taken] at taken'
        obtain ⟨rfl, rfl⟩ := Prod.mk.inj taken'
        exact absurd rfl (done e')
      · rename_i u' _ taken'
        rw [taken] at taken'
        obtain ⟨-, rfl⟩ := Prod.mk.inj taken'
        exact stopped

theorem range_cut {n i : Nat} {before after : List Nat}
    (cut : List.range n = before ++ i :: after) : before = List.range i ∧ i < n := by
  have long := congrArg List.length cut
  have here := congrArg (·[before.length]?) cut
  have front := congrArg (List.take before.length) cut
  simp only [List.length_range, List.length_append, List.length_cons] at long
  have inside : before.length < n := by omega
  simp only [List.getElem?_range inside, List.getElem?_append_right (Nat.le_refl _), Nat.sub_self,
    List.getElem?_cons_zero,
    Option.some.injEq] at here
  rw [List.take_range, Nat.min_eq_left inside.le, List.take_left] at front
  subst here
  exact ⟨front.symm, inside⟩

/-- The engine of a partition does not decide on its state. -/
theorem act_state (label : World.Label) (name : String) (j : Nat) :
    ((act env c i label m).2.partitions name j).state = (m.partitions name j).state := by
  unfold act
  by_cases here : name = c.name ∧ j = i
  · obtain ⟨rfl, rfl⟩ := here
    dsimp only
    rw [setPartition_self]
  · dsimp only
    rw [setPartition_ne _ _ here]

theorem stopPartition_failed {draw : Nat → FlushDraw}
    (failed : stopPartition env c draw i m = (some (.error e), m')) (j : Nat) :
    (m'.partitions c.name j).state = (m.partitions c.name j).state := by
  have kept := @act_state env c m i (.close draw) c.name j
  unfold stopPartition at failed
  split at failed
  · rename_i e' u taken
    obtain ⟨-, rfl⟩ := Prod.mk.inj failed
    rw [taken] at kept
    exact kept
  · rename_i answer u done taken
    obtain ⟨rfl, -⟩ := Prod.mk.inj failed
    exact absurd rfl (done e)

theorem stopPartition_done {draw : Nat → FlushDraw}
    (done : ∀ e, (stopPartition env c draw i m).1 ≠ some (.error e)) (j : Nat) :
    ((stopPartition env c draw i m).2.partitions c.name j).state = if j = i then .stopped
      else (m.partitions c.name j).state := by
  have kept := @act_state env c m i (.close draw) c.name j
  unfold stopPartition at done ⊢
  split at done
  · exact absurd rfl (done _)
  · rename_i answer u _ taken
    rw [taken] at kept
    unfold setState
    split
    · rename_i here
      rw [here, setPartition_self]
    · rename_i elsewhere
      rw [setPartition_ne _ _ fun both => elsewhere both.2]
      exact kept

theorem stops_states {draws : Nat → Nat → FlushDraw} {is : List Nat}
    (stopped : eachPartition (fun j => stopPartition env c (draws j) j) is m = (some (.ok none), m'))
    (j : Nat) :
    (m'.partitions c.name j).state = if j ∈ is then .stopped
      else (m.partitions c.name j).state := by
  induction is generalizing m with
  | nil =>
    obtain ⟨-, rfl⟩ := Prod.mk.inj stopped
    rfl
  | cons i rest ih =>
    unfold eachPartition at stopped
    split at stopped
    · cases stopped
    · rename_i answer u done taken
      have first := @stopPartition_done env c m i (draws i)
        (fun e failed => done e (by rw [taken] at failed; exact failed)) j
      rw [taken] at first
      rw [ih stopped, first]
      by_cases here : j = i
      · simp [here]
      · simp [here]

/-- A failed deletion is one that fails at some partition, and keeps the namespace. -/
theorem deleteNamespace_failed {name : String} {draws : Nat → Nat → FlushDraw}
    (registered : m.namespaces.get name = some c)
    (failed : deleteNamespace env name draws m = (some (.error e), m')) :
    m'.namespaces.get name = some c ∧ ∃ i, FailsAt env c draws m i e ∧
      ∀ j, (m'.partitions c.name j).state = if j < i then .stopped
        else (m.partitions c.name j).state := by
  have each : ∀ i (m : NamespaceManager), (stopPartition env c (draws i) i m).2.namespaces =
      m.namespaces := fun i m =>
    @stopPartition_same env _ NamespaceManager.namespaces (fun _ _ _ _ => rfl)
      (fun _ _ _ _ => rfl) c (draws i) i m
  have same := eachPartition_same each (List.range c.partitionCount) m
  simp only [deleteNamespace, registered] at failed
  split at failed
  · rename_i e' u stops
    obtain ⟨answer, rfl⟩ := Prod.mk.inj failed
    obtain rfl := Except.error.inj (Option.some.inj answer)
    rw [stops] at same
    refine ⟨(congrArg (ObjectStore.get · name) same).trans registered, ?_⟩
    obtain ⟨before, i, after, v, cut, stopped, last⟩ := eachPartition_error stops
    obtain ⟨rfl, inside⟩ := range_cut cut
    refine ⟨i, ⟨inside, v, u, stopped, last⟩, fun j => ?_⟩
    rw [stopPartition_failed last j, stops_states stopped j]
    simp only [List.mem_range]
  · cases failed

end Stops

section Names
variable {env : ServerEnv} {m : NamespaceManager}

/-- Namespaces stand under their names. -/
def Named (m : NamespaceManager) : Prop := ∀ name c, m.namespaces.get name = some c → c.name = name

theorem Named.register (named : m.Named) (c : NamespaceConfig) :
    Named { m with namespaces := m.namespaces.put c.name c } :=
  ObjectStore.forall_put named rfl

theorem Named.unregister (named : m.Named) (other : String) :
    Named { m with namespaces := m.namespaces.delete other } :=
  fun name d found => named name d (ObjectStore.get_of_delete found)

theorem Named.same {m' : NamespaceManager} (named : m.Named) (same : m'.namespaces = m.namespaces) :
    m'.Named := by
  intro name c found
  rw [same] at found
  exact named name c found

theorem turn_named (named : m.Named) (label : Label) : (turn env label m).2.Named := by
  have acts : ∀ c i label (m : NamespaceManager),
      (act env c i label m).2.namespaces = m.namespaces := fun _ _ _ _ => rfl
  have states : ∀ name i state (m : NamespaceManager),
      (setState name i state m).namespaces = m.namespaces := fun _ _ _ _ => rfl
  cases label with
  | createNamespace config draws =>
    have opened := eachPartition_same (fun i m => openPartition_same acts states config (draws i) i m)
      (List.range config.partitionCount) { m with created := config :: m.created }
    simp only [turn, createNamespace]
    split
    · exact named
    · split
      · exact named
      · split
        · rename_i e u result
          rw [result] at opened
          exact named.same ((dropPartitions_same acts config _ u).trans opened)
        · rename_i u _ result
          rw [result] at opened
          exact (named.same opened).register config
  | deleteNamespace name draws =>
    simp only [turn, deleteNamespace]
    split
    · exact named
    · rename_i config _
      have stopped := eachPartition_same (fun i m => stopPartition_same acts states config (draws i) i m)
        (List.range config.partitionCount) m
      split
      · rename_i e u result
        rw [result] at stopped
        exact named.same stopped
      · rename_i u _ result
        rw [result] at stopped
        exact ((named.same stopped).unregister name).same (dropPartitions_same acts config _ _)
  | call name i request =>
    show (call env name i request m).2.Named
    rcases call_cases env name i request m with ⟨a, refused⟩ | ⟨config, -, -, acted⟩
    · rw [refused m rfl rfl]
      exact named
    · rw [acted m rfl rfl]
      exact named
  | processEnds name torn =>
    simp only [turn, processEnds]
    split
    · exact named
    · rename_i config _
      exact (named.unregister name).same (dropPartitions_same acts config torn _)

theorem run_named (labels : List Label) : (run env labels).Named := by
  have keep : ∀ (labels : List Label) (m : NamespaceManager), m.Named →
      (labels.foldl (fun m label => (turn env label m).2) m).Named := by
    intro labels
    induction labels with
    | nil => exact fun m named => named
    | cons label rest ih => exact fun m named => ih _ (turn_named named label)
  exact keep labels {} fun name c found => nomatch found

end Names

/-- After a deletion that failed the namespace is still there, and its partitions take what they
took before exactly when those before the one that failed took nothing. -/
theorem failed_deletion_usable_iff (env : ServerEnv) (labels : List Label) (name : String)
    (draws : Nat → Nat → FlushDraw) {c : NamespaceConfig} {e : FlushError}
    (registered : (run env labels).namespaces.get name = some c)
    (failed : (deleteNamespace env name draws (run env labels)).1 = some (.error e)) :
    (deleteNamespace env name draws (run env labels)).2.namespaces.get name = some c ∧
      ∃ i, FailsAt env c draws (run env labels) i e ∧
        ((∀ j < c.partitionCount, ((run env labels).partitions name j).TakesAll
            ((deleteNamespace env name draws (run env labels)).2.partitions name j)) ↔
          ∀ j < i, ((run env labels).partitions name j).isReadable = false) := by
  obtain rfl := run_named labels name c registered
  obtain ⟨kept, i, fails, states⟩ := deleteNamespace_failed registered (Prod.ext failed rfl)
  refine ⟨kept, i, fails, ?_⟩
  constructor
  · intro takes j before
    have stopped := states j
    rw [if_pos before] at stopped
    by_contra readable
    have taken := (takes j (before.trans fails.1)).1 (Bool.not_eq_false _ ▸ readable)
    simp [Partition.isReadable, stopped] at taken
  · intro idle j _
    have state := states j
    by_cases before : j < i
    · have refused := idle j before
      simp only [Partition.isReadable, decide_eq_false_iff_not, not_or] at refused
      refine ⟨fun readable => ?_, fun writable => ?_⟩
      · exact absurd (idle j before) (Bool.not_eq_false _ ▸ readable)
      · exact absurd (of_decide_eq_true writable) refused.1
    · rw [if_neg before] at state
      simp only [Partition.TakesAll, Partition.isReadable, Partition.isWritable, state]
      exact ⟨id, id⟩

section Samples

def pairConfig : NamespaceConfig := .ofDocument "a" .simple 2 (some "flushdb/a")

/-- A namespace of two partitions, and a write to one of them that stays in memory. -/
def pairRun (written : Nat) : List Label :=
  [.createNamespace pairConfig fun _ => {}, .call "a" written (.put ⟨[114]⟩ ⟨[1]⟩ ⟨[7]⟩ ⟨[]⟩ none {})]

/-- No table can be stored. -/
def refusedTables : Nat → Nat → FlushDraw := fun _ _ => { fault := some .putTable }

/-- The first partition cannot be stopped, and all of them take what they took. -/
theorem failed_deletion_usable_first :
    (deleteNamespace sampleServer "a" refusedTables (run sampleServer (pairRun 0))).1 =
      some (.error (.io "put")) ∧
      ∃ c, (run sampleServer (pairRun 0)).namespaces.get "a" = some c ∧
        (deleteNamespace sampleServer "a" refusedTables
          (run sampleServer (pairRun 0))).2.namespaces.get "a" = some c ∧
        ∀ j < c.partitionCount, ((run sampleServer (pairRun 0)).partitions "a" j).TakesAll
          ((deleteNamespace sampleServer "a" refusedTables
            (run sampleServer (pairRun 0))).2.partitions "a" j) := by
  have created : ((run sampleServer (pairRun 0)).namespaces.get "a").map (fun c =>
      (stopPartition sampleServer c (refusedTables 0) 0 (run sampleServer (pairRun 0))).1) =
        some (some (.error (.io "put"))) := by
    decide +kernel
  have failed : (deleteNamespace sampleServer "a" refusedTables (run sampleServer (pairRun 0))).1 =
      some (.error (.io "put")) := by
    decide +kernel
  obtain ⟨c, registered, refused⟩ := Option.map_eq_some_iff.mp created
  obtain ⟨kept, i, ⟨-, u, -, stopped, -⟩, usable⟩ :=
    failed_deletion_usable_iff sampleServer (pairRun 0) "a" refusedTables registered failed
  refine ⟨failed, c, registered, kept, usable.mpr ?_⟩
  -- no partition stands before the first, whose stop has failed
  intro j before
  obtain ⟨k, rfl⟩ : ∃ k, i = k + 1 := ⟨i - 1, by omega⟩
  have first : stopPartition sampleServer c (refusedTables 0) 0 (run sampleServer (pairRun 0)) =
      (some (.error (.io "put")), _) :=
    Prod.ext refused rfl
  rw [List.range_succ_eq_map, eachPartition, first] at stopped
  cases (Prod.mk.inj stopped).1

/-- The second partition cannot be stopped, and the first no longer takes reads. -/
theorem pairRun_half_stopped :
    (deleteNamespace sampleServer "a" refusedTables (run sampleServer (pairRun 1))).1 =
      some (.error (.io "put")) ∧
      ((run sampleServer (pairRun 1)).partitions "a" 0).isReadable = true ∧
      ((deleteNamespace sampleServer "a" refusedTables (run sampleServer (pairRun 1))).2.partitions
        "a" 0).isReadable = false := by
  refine ⟨?_, ?_, ?_⟩ <;> decide +kernel

end Samples

end NamespaceManager

end FlushDB
