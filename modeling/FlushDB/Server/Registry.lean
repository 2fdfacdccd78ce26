import FlushDB.Lib.Run
import FlushDB.Server.NamespaceManager
import FlushDB.Server.Routing

/-!
The map of namespaces under creation, update and deletion. What the engines of the partitions do
when they are opened and closed is left open. An update is compared with the stored configuration
and not validated.
-/

namespace FlushDB
open Lib

namespace NamespaceConfig

/-- The stored configuration is asked whether the other may replace it. -/
def canUpdateFrom (config other : NamespaceConfig) : FlushResult Unit :=
  if config.name ≠ other.name then
    .error (.invalidArgument s!"name is immutable: cannot change from '{config.name}' to '{other.name}'")
  else if config.partitionKeyStrategy ≠ other.partitionKeyStrategy then
    .error (.invalidArgument "partition_key_strategy is immutable: cannot change after creation")
  else if config.partitionCount ≠ other.partitionCount then
    .error (.invalidArgument
      s!"partition_count is immutable: cannot change from {config.partitionCount} to {other.partitionCount}")
  else .ok ()

end NamespaceConfig

namespace Registry

/-- The router and the partitions stay as the creation made them. -/
structure NamespaceState where
  config : NamespaceConfig
  router : LocalPartitionRouter
  partitions : List Partition

/-- What the opening of an engine gives. -/
abbrev Opening := Nat → FlushResult World

/-- What the closing of an engine answers and leaves. -/
abbrev Closing := Nat → World → FlushResult Unit × World

end Registry

structure Registry where
  namespaces : ObjectStore String Registry.NamespaceState := ObjectStore.empty

namespace Registry

def openPartitions (opening : Opening) : List Nat → FlushResult (List Partition)
  | [] => .ok []
  | i :: rest => do
    let world ← opening i
    let others ← openPartitions opening rest
    return { world, state := .active } :: others

def createNamespace (config : NamespaceConfig) (opening : Opening) (m : Registry) :
    FlushResult Unit × Registry :=
  match config.validate with
  | .error e => (.error e, m)
  | .ok () =>
    if (m.namespaces.get config.name).isSome then
      (.error (.invalidArgument s!"namespace already exists: {config.name}"), m)
    else
      match openPartitions opening (List.range config.partitionCount) with
      | .error e => (.error e, m)
      | .ok partitions =>
        (.ok (), ⟨m.namespaces.put config.name { config, router := .new config, partitions }⟩)

def updateNamespaceConfig (config : NamespaceConfig) (m : Registry) : FlushResult Unit × Registry :=
  match m.namespaces.get config.name with
  | none => (.error (.notFound s!"namespace: {config.name}"), m)
  | some state =>
    match state.config.canUpdateFrom config with
    | .error e => (.error e, m)
    | .ok () => (.ok (), ⟨m.namespaces.put config.name { state with config }⟩)

/-- Stops partitions in turn; the first that fails is left as its engine leaves it, and those after
it as they were. -/
def stopPartitions (closing : Closing) : Nat → List Partition → FlushResult Unit × List Partition
  | _, [] => (.ok (), [])
  | i, p :: rest =>
    match closing i p.world with
    | (.error e, world) => (.error e, { p with world } :: rest)
    | (.ok (), world) =>
      let (answer, rest) := stopPartitions closing (i + 1) rest
      (answer, { world, state := .stopped } :: rest)

def deleteNamespace (name : String) (closing : Closing) (m : Registry) :
    FlushResult Unit × Registry :=
  match m.namespaces.get name with
  | none => (.error (.notFound s!"namespace: {name}"), m)
  | some state =>
    match stopPartitions closing 0 state.partitions with
    | (.error e, partitions) => (.error e, ⟨m.namespaces.put name { state with partitions }⟩)
    | (.ok (), _) => (.ok (), ⟨m.namespaces.delete name⟩)

inductive Label where
  | createNamespace (config : NamespaceConfig) (opening : Opening)
  | updateNamespaceConfig (config : NamespaceConfig)
  | deleteNamespace (name : String) (closing : Closing)

def turn (m : Registry) : Label → FlushResult Unit × Registry
  | .createNamespace config opening => createNamespace config opening m
  | .updateNamespaceConfig config => updateNamespaceConfig config m
  | .deleteNamespace name closing => deleteNamespace name closing m

/-- Every call is answered. -/
def step (m : Registry) (label : Label) : Option Registry := some (turn m label).2

/-- Something holds of every namespace in the map. -/
def Every (holds : String → NamespaceState → Prop) (m : Registry) : Prop :=
  ∀ name state, m.namespaces.get name = some state → holds name state

/-- The router and the partitions are those of the configuration. -/
structure NamespaceState.Matches (name : String) (state : NamespaceState) : Prop where
  name : state.config.name = name
  router : state.router = .new state.config
  partitions : state.partitions.length = state.config.partitionCount
  positive : 0 < state.config.partitionCount

def NamespaceState.Valid (_ : String) (state : NamespaceState) : Prop :=
  state.config.validate = .ok ()

def NamespaceState.openCount (state : NamespaceState) : Nat :=
  state.partitions.countP fun p => p.state = .active

def NamespaceState.AllOpen (_ : String) (state : NamespaceState) : Prop :=
  state.openCount = state.config.partitionCount

/-- An update that may replace the stored configuration is valid. -/
def Checked (m : Registry) : Label → Prop
  | .updateNamespaceConfig config =>
    ∀ state, m.namespaces.get config.name = some state →
      state.config.canUpdateFrom config = .ok () → config.validate = .ok ()
  | .createNamespace _ _ | .deleteNamespace _ _ => True

/-- All engines of a namespace that is deleted can be closed, or the first cannot. -/
def AllOrNone (m : Registry) : Label → Prop
  | .deleteNamespace name closing =>
    ∀ state, m.namespaces.get name = some state →
      (∀ i p, state.partitions[i]? = some p → (closing i p.world).1 = .ok ()) ∨
        ∀ p, state.partitions[0]? = some p → (closing 0 p.world).1 ≠ .ok ()
  | .createNamespace _ _ | .updateNamespaceConfig _ => True

section Steps
variable {m : Registry} {holds : String → NamespaceState → Prop}

theorem every_put {name : String} {state : NamespaceState} (all : m.Every holds)
    (here : holds name state) :
    Every holds ⟨m.namespaces.put name state⟩ := ObjectStore.forall_put all here

theorem every_delete (name : String) (all : m.Every holds) :
    Every holds ⟨m.namespaces.delete name⟩ :=
  fun other found stored => all other found (ObjectStore.get_of_delete stored)

theorem openPartitions_ok {opening : Opening} {ids : List Nat} {partitions : List Partition}
    (opened : openPartitions opening ids = .ok partitions) :
    partitions.length = ids.length ∧ ∀ p ∈ partitions, p.state = .active := by
  induction ids generalizing partitions with
  | nil =>
    obtain rfl := Except.ok.inj opened
    exact ⟨rfl, fun p member => absurd member List.not_mem_nil⟩
  | cons i rest ih =>
    unfold openPartitions at opened
    cases first : opening i with
    | error e => simp [first, bind, Except.bind] at opened
    | ok world =>
      cases later : openPartitions opening rest with
      | error e => simp [first, later, bind, Except.bind] at opened
      | ok others =>
        simp only [first, later, bind, Except.bind, pure, Except.pure, Except.ok.injEq] at opened
        obtain rfl := opened
        obtain ⟨long, active⟩ := ih later
        refine ⟨congrArg (· + 1) long, ?_⟩
        rw [List.forall_mem_cons]
        exact ⟨rfl, active⟩

theorem length_stopPartitions (closing : Closing) (i : Nat) (partitions : List Partition) :
    (stopPartitions closing i partitions).2.length = partitions.length := by
  induction partitions generalizing i with
  | nil => rfl
  | cons p rest ih =>
    unfold stopPartitions
    split
    · rfl
    · exact congrArg (· + 1) (ih (i + 1))

theorem stopPartitions_ok_iff {closing : Closing} {i : Nat} {partitions : List Partition} :
    (stopPartitions closing i partitions).1 = .ok () ↔ ∀ j p, partitions[j]? = some p →
      (closing (i + j) p.world).1 = .ok () := by
  induction partitions generalizing i with
  | nil => simp [stopPartitions]
  | cons p rest ih =>
    unfold stopPartitions
    split
    · rename_i e world failed
      constructor
      · intro answer
        cases answer
      · intro all
        have here := all 0 p rfl
        rw [Nat.add_zero, failed] at here
        cases here
    · rename_i world closed
      refine ih.trans ⟨?_, ?_⟩
      · intro later j q found
        cases j with
        | zero =>
          obtain rfl := Option.some.inj found
          rw [Nat.add_zero, closed]
        | succ j =>
          have answer := later j q found
          rwa [Nat.add_assoc, Nat.add_comm 1 j] at answer
      · intro all j q found
        have answer := all (j + 1) q found
        rwa [← Nat.add_comm 1 j, ← Nat.add_assoc] at answer

/-- A first partition that cannot be closed is as open as before, and so are the others. -/
theorem stopPartitions_first {closing : Closing} {i : Nat} {partitions : List Partition}
    (first : ∀ p, partitions[0]? = some p → (closing i p.world).1 ≠ .ok ()) :
    ((stopPartitions closing i partitions).2.countP fun p => p.state = .active) =
      partitions.countP fun p => p.state = .active := by
  cases partitions with
  | nil => rfl
  | cons p rest =>
    unfold stopPartitions
    split
    · rw [List.countP_cons, List.countP_cons]
    · rename_i world closed
      exact absurd (congrArg Prod.fst closed) (first p rfl)

/-- Where the first partition is closed, not all are open afterwards. -/
theorem stopPartitions_closes {closing : Closing} {i : Nat} {p : Partition} {rest : List Partition}
    (first : (closing i p.world).1 = .ok ()) :
    ((stopPartitions closing i (p :: rest)).2.countP fun p => p.state = .active) <
      (p :: rest).length := by
  unfold stopPartitions
  split
  · rename_i e world failed
    rw [failed] at first
    cases first
  · have long := length_stopPartitions closing (i + 1) rest
    have fewer := @List.countP_le_length _ (fun p : Partition => decide (p.state = .active))
      (stopPartitions closing (i + 1) rest).2
    rw [List.countP_cons]
    simp only [reduceCtorEq, decide_false, Bool.false_eq_true, if_false, List.length_cons]
    omega

theorem createNamespace_cases (config : NamespaceConfig) (opening : Opening) (m : Registry) :
    (createNamespace config opening m).2 = m ∨ config.validate = .ok () ∧
      ∃ partitions, openPartitions opening (List.range config.partitionCount) = .ok partitions ∧
        (createNamespace config opening m).2 =
          ⟨m.namespaces.put config.name { config, router := .new config, partitions }⟩ := by
  unfold createNamespace
  split
  · exact Or.inl rfl
  · rename_i valid
    split
    · exact Or.inl rfl
    · split
      · exact Or.inl rfl
      · rename_i partitions opened
        exact Or.inr ⟨valid, partitions, opened, rfl⟩

theorem updateNamespaceConfig_cases (config : NamespaceConfig) (m : Registry) :
    ((∀ state, m.namespaces.get config.name = some state → state.config.canUpdateFrom config ≠ .ok ()) ∧
        (updateNamespaceConfig config m).2 = m) ∨
      ∃ state, m.namespaces.get config.name = some state ∧
        state.config.canUpdateFrom config = .ok () ∧
        (updateNamespaceConfig config m).2 = ⟨m.namespaces.put config.name { state with config }⟩ := by
  unfold updateNamespaceConfig
  split
  · rename_i absent
    exact Or.inl ⟨fun state found => absurd (absent.symm.trans found) (Option.some_ne_none state).symm, rfl⟩
  · rename_i state found
    split
    · rename_i e refused
      refine Or.inl ⟨fun other found' allowed => ?_, rfl⟩
      obtain rfl := Option.some.inj (found.symm.trans found')
      rw [refused] at allowed
      cases allowed
    · rename_i allowed
      exact Or.inr ⟨state, found, allowed, rfl⟩

theorem deleteNamespace_cases (name : String) (closing : Closing) (m : Registry) :
    (m.namespaces.get name = none ∧ (deleteNamespace name closing m).2 = m) ∨
      ∃ state, m.namespaces.get name = some state ∧
        ((stopPartitions closing 0 state.partitions).1 = .ok () ∧
            (deleteNamespace name closing m).2 = ⟨m.namespaces.delete name⟩ ∨
          (stopPartitions closing 0 state.partitions).1 ≠ .ok () ∧
            (deleteNamespace name closing m).2 =
            ⟨m.namespaces.put name
              { state with partitions := (stopPartitions closing 0 state.partitions).2 }⟩) := by
  unfold deleteNamespace
  split
  · rename_i absent
    exact Or.inl ⟨absent, rfl⟩
  · rename_i state found
    refine Or.inr ⟨state, found, ?_⟩
    split
    · rename_i e partitions failed
      rw [failed]
      exact Or.inr ⟨by simp, rfl⟩
    · rename_i partitions stopped
      rw [stopped]
      exact Or.inl ⟨rfl, rfl⟩

/-- An update that is allowed changes neither the name nor what the router is made of. -/
theorem canUpdateFrom_ok {config other : NamespaceConfig}
    (allowed : config.canUpdateFrom other = .ok ()) :
    config.name = other.name ∧ LocalPartitionRouter.new config = .new other ∧
      config.partitionCount = other.partitionCount := by
  unfold NamespaceConfig.canUpdateFrom at allowed
  split at allowed
  · cases allowed
  split at allowed
  · cases allowed
  split at allowed
  · cases allowed
  rename_i name strategy count
  rw [not_not] at name strategy count
  refine ⟨name, ?_, count⟩
  simp only [LocalPartitionRouter.new, strategy, count]

theorem created_matches {config : NamespaceConfig} {opening : Opening} {partitions : List Partition}
    (valid : config.validate = .ok ())
    (opened : openPartitions opening (List.range config.partitionCount) = .ok partitions) :
    NamespaceState.Matches config.name { config, router := .new config, partitions } where
  name := rfl
  router := rfl
  partitions := (openPartitions_ok opened).1.trans List.length_range
  positive := validate_partitionCount_pos valid

/-- Whatever is called, routers and partitions stay those of the configurations. -/
theorem matches_step {label : Label} {m' : Registry} (all : m.Every NamespaceState.Matches)
    (taken : step m label = some m') :
    m'.Every NamespaceState.Matches := by
  obtain rfl := Option.some.inj taken
  cases label with
  | createNamespace config opening =>
    rcases createNamespace_cases config opening m with same | ⟨valid, partitions, opened, made⟩
    · rwa [turn, same]
    · rw [turn, made]
      exact every_put all (created_matches valid opened)
  | updateNamespaceConfig config =>
    rcases updateNamespaceConfig_cases config m with ⟨-, same⟩ | ⟨state, found, allowed, made⟩
    · rwa [turn, same]
    · rw [turn, made]
      have old := all _ _ found
      obtain ⟨-, router, count⟩ := canUpdateFrom_ok allowed
      refine every_put all ⟨rfl, old.router.trans router, old.partitions.trans count, ?_⟩
      exact count ▸ old.positive
  | deleteNamespace name closing =>
    rcases deleteNamespace_cases name closing m with ⟨-, same⟩ | ⟨state, found, ⟨-, made⟩ | ⟨-, made⟩⟩
    · rwa [turn, same]
    · rw [turn, made]
      exact every_delete name all
    · rw [turn, made]
      have old := all _ _ found
      exact every_put all ⟨old.name, old.router, (length_stopPartitions _ _ _).trans old.partitions,
        old.positive⟩

/-- Configurations stay valid through exactly the updates that are. -/
theorem valid_step {label : Label} {m' : Registry} (all : m.Every NamespaceState.Valid)
    (taken : step m label = some m') :
    m'.Every NamespaceState.Valid ↔ m.Checked label := by
  obtain rfl := Option.some.inj taken
  cases label with
  | createNamespace config opening =>
    refine ⟨fun _ => trivial, fun _ => ?_⟩
    rcases createNamespace_cases config opening m with same | ⟨valid, partitions, -, made⟩
    · rwa [turn, same]
    · rw [turn, made]
      exact every_put all valid
  | updateNamespaceConfig config =>
    rcases updateNamespaceConfig_cases config m with ⟨refused, same⟩ | ⟨state, found, allowed, made⟩
    · rw [turn, same]
      exact ⟨fun _ state found allowed => absurd allowed (refused state found), fun _ => all⟩
    · rw [turn, made]
      constructor
      · intro valid _ _ _
        exact valid config.name { state with config } (ObjectStore.get_put_self _ _ _)
      · intro checked
        exact every_put all (checked state found allowed)
  | deleteNamespace name closing =>
    refine ⟨fun _ => trivial, fun _ => ?_⟩
    rcases deleteNamespace_cases name closing m with ⟨-, same⟩ | ⟨state, found, ⟨-, made⟩ | ⟨-, made⟩⟩
    · rwa [turn, same]
    · rw [turn, made]
      exact every_delete name all
    · rw [turn, made]
      have old := all _ _ found
      exact every_put all old

/-- Partitions stay open through exactly the deletions that stop all of them or none. -/
theorem open_step {label : Label} {m' : Registry} (matched : m.Every NamespaceState.Matches)
    (all : m.Every NamespaceState.AllOpen) (taken : step m label = some m') :
    m'.Every NamespaceState.AllOpen ↔ m.AllOrNone label := by
  obtain rfl := Option.some.inj taken
  cases label with
  | createNamespace config opening =>
    refine ⟨fun _ => trivial, fun _ => ?_⟩
    rcases createNamespace_cases config opening m with same | ⟨valid, partitions, opened, made⟩
    · rwa [turn, same]
    · rw [turn, made]
      refine every_put all ?_
      have active : partitions.countP (fun p => p.state = .active) = partitions.length :=
        List.countP_eq_length.mpr fun p member => decide_eq_true ((openPartitions_ok opened).2 p member)
      exact active.trans (created_matches valid opened).partitions
  | updateNamespaceConfig config =>
    refine ⟨fun _ => trivial, fun _ => ?_⟩
    rcases updateNamespaceConfig_cases config m with ⟨-, same⟩ | ⟨state, found, allowed, made⟩
    · rwa [turn, same]
    · rw [turn, made]
      exact every_put all ((all _ _ found).trans (canUpdateFrom_ok allowed).2.2)
  | deleteNamespace name closing =>
    rcases deleteNamespace_cases name closing m with ⟨absent, same⟩ | ⟨state, found,
      ⟨stopped, made⟩ | ⟨failed, made⟩⟩
    · rw [turn, same]
      exact ⟨fun _ state found => absurd (absent.symm.trans found) (Option.some_ne_none state).symm,
        fun _ => all⟩
    · rw [turn, made]
      refine ⟨fun _ other found' => Or.inl ?_, fun _ => every_delete name all⟩
      obtain rfl := Option.some.inj (found.symm.trans found')
      intro i p present
      rw [← stopPartitions_ok_iff.mp stopped i p present, Nat.zero_add]
    · rw [turn, made]
      constructor
      · intro still other found'
        obtain rfl := Option.some.inj (found.symm.trans found')
        refine Or.inr fun p first closed => ?_
        obtain ⟨rest, split⟩ : ∃ rest, state.partitions = p :: rest := by
          cases partitions : state.partitions with
          | nil => rw [partitions] at first; cases first
          | cons q rest =>
            rw [partitions] at first
            exact ⟨rest, congrArg (· :: rest) (Option.some.inj first)⟩
        have count := still name _ (ObjectStore.get_put_self _ _ _)
        have fewer := @stopPartitions_closes closing 0 p rest closed
        have long := (matched _ _ found).partitions
        rw [← split] at fewer
        simp only [NamespaceState.AllOpen, NamespaceState.openCount] at count
        omega
      · intro allowed
        refine every_put all ?_
        rcases allowed state found with closed | first
        · refine absurd (stopPartitions_ok_iff.mpr ?_) failed
          intro i p present
          rw [Nat.zero_add]
          exact closed i p present
        · exact (stopPartitions_first first).trans (all _ _ found)

end Steps

/-- In every run the routers and the partitions are those of the stored configurations. All
configurations are valid in all states of the run exactly when the updates that take effect are, and
all partitions are open exactly when no deletion stops halfway. -/
theorem stored_configs_agree (labels : List Label) :
    (∀ i m, exec step {} (labels.take i) = some m → m.Every NamespaceState.Matches) ∧
      ((∀ i m, exec step {} (labels.take i) = some m → m.Every NamespaceState.Valid) ↔
        Admits step Checked {} labels) ∧
      ((∀ i m, exec step {} (labels.take i) = some m → m.Every NamespaceState.AllOpen) ↔
        Admits step AllOrNone {} labels) := by
  have total : ∀ (m : Registry) label, ∃ m', step m label = some m' := fun m label => ⟨_, rfl⟩
  have none : ∀ holds, Every holds {} := fun holds name state found => nomatch found
  have matched : ∀ (m : Registry) label m', m.Every NamespaceState.Matches →
      step m label = some m' → m'.Every NamespaceState.Matches :=
    fun m label m' all taken => matches_step all taken
  refine ⟨?_, ?_, ?_⟩
  · intro i m run
    exact exec_keeps matched (none _) run
  · exact reached_iff_admits total matched (fun m label m' _ all taken => valid_step all taken)
      (none _) (none _) labels
  · exact reached_iff_admits total matched (fun m label m' held all taken =>
      open_step held all taken) (none _) (none _) labels

section Samples

/-- The engines open on empty storage. -/
def openFresh (env : ServerEnv) (config : NamespaceConfig) : Opening := fun i =>
  match Engine.openStored (env.engineEnv config i) 0 none {} with
  | (.error e, _) => .error e
  | (.ok s, stored) => .ok { stored, engine := some s }

def freshServer : ServerEnv where
  baseDataDir := ["data"]
  ulid name i k := toString i ++ "/" ++ toString k ++ "/" ++ name
  fileSize := List.length
  serializedLen _ := 0

def freshConfig : NamespaceConfig := .ofDocument "n" .simple 1 (some "flushdb/n")

/-- An update to a page size above the greatest. -/
def largePages : NamespaceConfig :=
  { freshConfig with defaultPageSizeBytes := freshConfig.maxPageSizeBytes + 1 }

/-- The update takes effect, and the stored configuration is one that no creation accepts. -/
theorem largePages_stored :
    ∃ m state, exec step {} [.createNamespace freshConfig (openFresh freshServer freshConfig),
      .updateNamespaceConfig largePages] = some m ∧
      m.namespaces.get "n" = some state ∧ state.config.validate ≠ .ok () := by
  have summary : ((exec step {} [.createNamespace freshConfig (openFresh freshServer freshConfig),
      .updateNamespaceConfig largePages]).bind fun m =>
      (m.namespaces.get "n").map fun state => decide (state.config.validate = .ok ())) =
        some false := by decide +kernel
  obtain ⟨m, run, summary⟩ := Option.bind_eq_some_iff.mp summary
  obtain ⟨state, found, invalid⟩ := Option.map_eq_some_iff.mp summary
  exact ⟨m, state, run, found, of_decide_eq_false invalid⟩

end Samples

end Registry

end FlushDB
