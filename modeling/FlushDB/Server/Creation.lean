import FlushDB.Lib.Task
import FlushDB.Server.NamespaceManager

/-!
Creations of namespaces and writes as tasks of one process. A creation looks its name up, opens
every partition, and puts the namespace into the map; what it found when it looked is old by then.
Where the opening of a partition and the work of its engine give way is left open.
-/

namespace FlushDB
open Lib

/-- `partitions` are the places of the partitions in memory. -/
structure NamespaceState where
  config : NamespaceConfig
  partitions : List Nat

/-- The manager as its calls share it. A partition that is written to is locked. -/
structure Server where
  storage : Storage
  memory : Nat → Partition := fun _ => {}
  allocated : Nat := 0
  locked : Nat → Bool := fun _ => false
  namespaces : ObjectStore String NamespaceState := ObjectStore.empty

/-- `place` is ghost: where the partition stands that did the write. -/
structure Outcome where
  answer : FlushResult (Option Nat)
  place : Option Nat := none

/-- A creation with the openings of its partitions, or a write with the work of the partition. -/
inductive Request where
  | createNamespace (config : NamespaceConfig) (openPartition : Nat →
      Task Storage (FlushResult Partition))
  | write (name recordId : String) (work : Task (Storage × Partition) (FlushResult (Option Nat)))

namespace Server

def alloc (p : Partition) (s : Server) : Nat × Server :=
  (s.allocated, { s with memory := Function.update s.memory s.allocated p,
                         allocated := s.allocated + 1 })

/-- A partition and the storage that it works on. -/
def partition (place : Nat) (s : Server) : Storage × Partition := (s.storage, s.memory place)

def setPartition (place : Nat) (after : Storage × Partition) (s : Server) : Server :=
  { s with storage := after.1, memory := Function.update s.memory place after.2 }

def setLocked (place : Nat) (held : Bool) (s : Server) : Server :=
  { s with locked := Function.update s.locked place held }

/-- Waits for the write lock of a partition. -/
def lock (place : Nat) : Task Server Unit :=
  .await (fun s => !s.locked place) (setLocked place true) fun _ => .done ()

def unlock (place : Nat) : Task Server Unit := .atomically fun s => ((), s.setLocked place false)

def openPartitions (openPartition : Nat → Task Storage (FlushResult Partition)) :
    List Nat → Task Server (FlushResult (List Nat))
  | [] => .done (.ok [])
  | i :: rest =>
    ((openPartition i).focus storage fun storage s => { s with storage }).bind fun
      | .error e => .done (.error e)
      | .ok p =>
        (Task.atomically (alloc p)).bind fun place => (openPartitions openPartition rest).bind fun
        | .error e => .done (.error e)
        | .ok places => .done (.ok (place :: places))

/-- `namespaces.insert` when all partitions are open: an entry of the same name is replaced. -/
def insert (config : NamespaceConfig) : FlushResult (List Nat) → Task Server Outcome
  | .error e => .done { answer := .error e }
  | .ok places =>
    .atomically fun s => ({ answer := .ok none },
      { s with namespaces := s.namespaces.put config.name ⟨config, places⟩ })

def createNamespace (config : NamespaceConfig)
    (openPartition : Nat → Task Storage (FlushResult Partition)) : Task Server Outcome :=
  match config.validate with
  | .error e => .done { answer := .error e }
  | .ok () =>
    (Task.atomically fun s => ((s.namespaces.get config.name).isSome, s)).bind fun
      | true =>
        .done { answer := .error (.invalidArgument s!"namespace already exists: {config.name}") }
      | false =>
        (openPartitions openPartition (List.range config.partitionCount)).bind (insert config)

section
variable (route : NamespaceConfig → String → FlushResult Nat)

/-- `route` is the router of the configuration. -/
def resolvePartition (name recordId : String) (s : Server) : FlushResult Nat :=
  match s.namespaces.get name with
  | none => .error (.notFound s!"namespace: {name}")
  | some state => do
    let partitionId ← route state.config recordId
    match state.partitions[partitionId]? with
    | none => .error (.invalidArgument s!"partition index out of bounds: {partitionId}")
    | some place => .ok place

/-- The work of a write on the partition that was resolved. -/
def writeAt (work : Task (Storage × Partition) (FlushResult (Option Nat))) (place : Nat) :
    Task Server Outcome :=
  (lock place).bind fun () => (work.focus (partition place) (setPartition place)).bind fun answer =>
    (unlock place).bind fun () => .done { answer, place := some place }

def write (name recordId : String) (work : Task (Storage × Partition) (FlushResult (Option Nat))) :
    Task Server Outcome :=
  (Task.atomically fun s => (s.resolvePartition route name recordId, s)).bind fun
    | .error e => .done { answer := .error e }
    | .ok place => writeAt work place

def body : Request → Task Server Outcome
  | .createNamespace config openPartition => createNamespace config openPartition
  | .write name recordId work => write route name recordId work

/-- What a read finds in the partition that it resolves. -/
def read {α : Type} (f : Storage → Partition → FlushResult α) (name recordId : String)
    (s : Server) : FlushResult α := do
  let place ← s.resolvePartition route name recordId
  f s.storage (s.memory place)

end

end Server

namespace Server

section Guarantees
variable {openPartition : Nat → Task Storage (FlushResult Partition)}
  {work : Task (Storage × Partition) (FlushResult (Option Nat))}

/-- A segment of a creation leaves the map, or ends the call with the new entry. -/
def Creates (config : NamespaceConfig) (s s' : Server) (r : Option Outcome) : Prop :=
  (s'.namespaces = s.namespaces ∧ ∀ o ∈ r, o.answer.isOk = false) ∨
  ((∃ places, s'.namespaces = s.namespaces.put config.name ⟨config, places⟩) ∧
    ∃ o ∈ r, o.answer.isOk = true)

/-- A segment of a write leaves the map, and an answer names the partition that did the work. -/
def WritesAt (place : Nat) (s s' : Server) (r : Option Outcome) : Prop :=
  s'.namespaces = s.namespaces ∧ ∀ o ∈ r, o.place = some place

theorem leaves_trans (a b c : Server) (first : b.namespaces = a.namespaces)
    (second : c.namespaces = b.namespaces) :
    c.namespaces = a.namespaces := second.trans first

theorem openPartitions_leaves (ids : List Nat) :
    (openPartitions openPartition ids).Obeys fun s s' _ => s'.namespaces = s.namespaces := by
  induction ids with
  | nil => trivial
  | cons i rest ih =>
    unfold openPartitions
    refine Task.Obeys.seq leaves_trans (Task.Obeys.focus (fun _ _ _ => rfl) _) ?_
    intro opened
    cases opened with
    | error e => trivial
    | ok p =>
      refine Task.Obeys.seq leaves_trans (Task.obeys_atomically fun _ => rfl) ?_
      intro place
      refine Task.Obeys.seq leaves_trans ih ?_
      intro places
      cases places <;> trivial

theorem insert_unanswered (config : NamespaceConfig) (r : FlushResult (List Nat)) :
    ∀ o ∈ (insert config r).result, o.answer.isOk = false := by
  cases r with
  | error e =>
    rintro o ⟨⟩
    rfl
  | ok places => exact fun o answered => by cases answered

/-- The part of a creation after its look at the map. -/
theorem opening_creates (config : NamespaceConfig) (ids : List Nat) :
    ((openPartitions openPartition ids).bind (insert config)).Obeys (Creates config) := by
  apply (openPartitions_leaves ids).bind
  · intro r
    cases r with
    | error e => trivial
    | ok places => exact Task.obeys_atomically fun s => Or.inr ⟨⟨places, rfl⟩, _, rfl, rfl⟩
  · exact fun s s' left => Or.inl ⟨left, fun o none => by cases none⟩
  · exact fun s s' r left => Or.inl ⟨left, insert_unanswered config r⟩
  · intro s s' s'' r o left after
    unfold Creates at after ⊢
    rwa [left] at after

theorem opening_unanswered (config : NamespaceConfig) (ids : List Nat) :
    ∀ o ∈ ((openPartitions openPartition ids).bind (insert config)).result,
      o.answer.isOk = false := by
  intro o answered
  rw [Task.result_bind] at answered
  obtain ⟨r, -, found⟩ := Option.bind_eq_some_iff.mp answered
  exact insert_unanswered config r o found

theorem createNamespace_creates (config : NamespaceConfig) :
    (createNamespace config openPartition).Obeys (Creates config) := by
  unfold createNamespace
  split
  · trivial
  · have looked : (Task.atomically fun s : Server =>
        ((s.namespaces.get config.name).isSome, s)).Obeys fun s s' _ => s' = s :=
      Task.obeys_atomically fun _ => rfl
    apply looked.bind
    · intro present
      cases present with
      | true => trivial
      | false => exact opening_creates config _
    · exact fun s s' same => Or.inl ⟨by rw [same], fun o none => by cases none⟩
    · intro s s' present same
      refine Or.inl ⟨by rw [same], ?_⟩
      cases present with
      | true =>
        rintro o ⟨⟩
        rfl
      | false => exact opening_unanswered config _
    · rintro s s' s'' present o rfl after
      exact after

theorem createNamespace_unanswered (config : NamespaceConfig) :
    ∀ o ∈ (createNamespace config openPartition).result, o.answer.isOk = false := by
  cases valid : config.validate with
  | error e =>
    rw [createNamespace, valid]
    rintro o ⟨⟩
    rfl
  | ok =>
    rw [createNamespace, valid]
    exact fun o answered => by cases answered

/-- A creation that finds the name ends with an error. -/
theorem createNamespace_taken {config : NamespaceConfig} {s : Server}
    (present : (s.namespaces.get config.name).isSome) :
    ∃ e, (createNamespace config openPartition).start s = (s, .done { answer := .error e }) := by
  unfold createNamespace
  split
  · exact ⟨_, rfl⟩
  · refine ⟨.invalidArgument s!"namespace already exists: {config.name}", ?_⟩
    rw [Task.start_atomically_bind, present]
    rfl

theorem writeAt_writes (place : Nat) : (writeAt work place).Obeys (WritesAt place) ∧
    ∀ o ∈ (writeAt work place).result, o.place = some place := by
  have last : ∀ answer : FlushResult (Option Nat),
      ((unlock place).bind fun () => .done { answer, place := some place }).Obeys
      (WritesAt place) :=
    fun answer => Task.Obeys.returns leaves_trans (Task.obeys_atomically fun _ => rfl)
      (fun _ => trivial) fun _ o done => by
      cases done
      rfl
  have working : ((work.focus (partition place) (setPartition place)).bind fun answer =>
      (unlock place).bind fun () => .done { answer, place := some place }).Obeys (WritesAt place) :=
    Task.Obeys.returns leaves_trans (Task.Obeys.focus (fun _ _ _ => rfl) work) last
      fun _ o done => by cases done
  refine ⟨?_, fun o done => by cases done⟩
  refine Task.Obeys.returns leaves_trans (fun s _ => ⟨rfl, trivial⟩) (fun _ => working) ?_
  intro _ o done
  rw [Task.result_bind] at done
  obtain ⟨answer, -, ended⟩ := Option.bind_eq_some_iff.mp done
  cases ended

variable {route : NamespaceConfig → String → FlushResult Nat}

/-- A write fails where its partition is looked up, or works on what it has resolved. -/
theorem write_start (name recordId : String) (s : Server) :
    let after := (write route name recordId work).start s
    after.1.namespaces = s.namespaces ∧
      ((∃ e, after.2 = .done { answer := .error e }) ∨
        ∃ place, s.resolvePartition route name recordId = .ok place ∧
          after.2.Obeys (WritesAt place) ∧
          ∀ o ∈ after.2.result, o.place = some place) := by
  dsimp only
  rw [write, Task.start_atomically_bind]
  dsimp only
  cases resolved : s.resolvePartition route name recordId with
  | error e => exact ⟨rfl, Or.inl ⟨e, rfl⟩⟩
  | ok place =>
    obtain ⟨writes, unanswered⟩ := @writeAt_writes work place
    dsimp only
    rcases Task.start_cases (writeAt work place) s with turn | waits
    · obtain ⟨⟨left, placed⟩, obeys⟩ := writes.resume turn
      exact ⟨left, Or.inr ⟨place, rfl, obeys, placed⟩⟩
    · rw [waits]
      exact ⟨rfl, Or.inr ⟨place, rfl, writes, unanswered⟩⟩

end Guarantees

/-! ## The calls of one process -/

abbrev Calls := Pool Server Request Outcome

/-- The call has created the namespace. -/
def created (name : String) (call : Request × Task Server Outcome) : Bool :=
  match call.1 with
  | .createNamespace config _ =>
    config.name = name && call.2.result.any fun outcome => outcome.answer.isOk
  | .write _ _ _ => false

/-- The call is a creation of the namespace that has not ended. -/
def creating (name : String) (call : Request × Task Server Outcome) : Bool :=
  match call.1 with
  | .createNamespace config _ => config.name = name && call.2.result.isNone
  | .write _ _ _ => false

/-- A creation ends its openings and inserts a namespace that is there. -/
def Replaces (name : String) (p : Calls) (turn : Pool.Turn Request) : Prop :=
  (p.shared.namespaces.get name).isSome ∧ ∃ i config openPartition task after outcome,
    turn = .resume i ∧
    p.calls[i]? = some (.createNamespace config openPartition, task) ∧ config.name = name ∧
    task.resume p.shared = some (after, .done outcome) ∧ outcome.answer.isOk = true

/-- A creation begins while another one of the name has not ended. -/
def Overlaps (name : String) (p : Calls) (turn : Pool.Turn Request) : Prop :=
  ∃ config openPartition, turn = .call (.createNamespace config openPartition) ∧
    config.name = name ∧
    ∃ call ∈ p.calls, creating name call = true

section Runs
variable (route : NamespaceConfig → String → FlushResult Nat)

/-- One creation has succeeded at most, and a read goes to the partition that did an acknowledged
write. -/
structure Exclusive (name : String) (p : Calls) : Prop where
  once : p.calls.countP (created name) ≤ 1
  kept : ∀ recordId work task outcome, (.write name recordId work, task) ∈ p.calls →
    task.result = some outcome →
    outcome.answer.isOk = true → ∃ place, outcome.place = some place ∧
      p.shared.resolvePartition route name recordId = .ok place

/-- What the rest of a call will do. -/
def Guaranteed (call : Request × Task Server Outcome) : Prop :=
  match call.1 with
  | .createNamespace config _ => call.2.Obeys (Creates config)
  | .write _ _ _ => ∃ place, call.2.Obeys (WritesAt place)

structure Sound (p : Calls) : Prop where
  guaranteed : ∀ call ∈ p.calls, Guaranteed call
  present : ∀ name, (p.shared.namespaces.get name).isSome ↔ 0 < p.calls.countP (created name)

variable {route : NamespaceConfig → String → FlushResult Nat} {p q : Calls}
  {turn : Pool.Turn Request} {s : Server}
  {openPartition : Nat → Task Storage (FlushResult Partition)}

theorem created_result {name : String} {request : Request} {task : Task Server Outcome}
    (unanswered : ∀ o ∈ task.result, o.answer.isOk = false) :
    created name (request, task) = false := by
  cases request with
  | write => rfl
  | createNamespace config openPartition =>
    cases ended : task.result with
    | none => simp [created, ended]
    | some o => simp [created, ended, unanswered o ended]

theorem body_guaranteed (request : Request) {s' : Server} {task : Task Server Outcome}
    (first : (body route request).start s = (s', task)) : Guaranteed (request, task) := by
  cases request with
  | createNamespace config openPartition =>
    have creates := @createNamespace_creates openPartition config
    rcases Task.start_cases (body route (.createNamespace config openPartition)) s with turn | waits
    · rw [first] at turn
      exact (creates.resume turn).2
    · rw [first] at waits
      rw [(Prod.mk.inj waits).2]
      exact creates
  | write name recordId work =>
    obtain ⟨-, ⟨e, failed⟩ | ⟨place, -, obeys, -⟩⟩ := @write_start work route name recordId s
    · change ((body route (.write name recordId work)).start s).2 = _ at failed
      rw [first] at failed
      subst failed
      exact ⟨0, trivial⟩
    · change ((body route (.write name recordId work)).start s).2.Obeys _ at obeys
      rw [first] at obeys
      exact ⟨place, obeys⟩

theorem resume_guaranteed {request : Request} {s' : Server} {old task : Task Server Outcome}
    (guaranteed : Guaranteed (request, old)) (turn : old.resume s = some (s', task)) :
    Guaranteed (request, task) := by
  cases request with
  | createNamespace config openPartition =>
    have obeys : old.Obeys (Creates config) := guaranteed
    exact (obeys.resume turn).2
  | write name recordId work =>
    obtain ⟨place, obeys⟩ := guaranteed
    exact ⟨place, (obeys.resume turn).2⟩

/-- A call that has taken a turn left the map, or it is a creation that has inserted its
namespace. -/
def Effect (request : Request) (s s' : Server) (task : Task Server Outcome) : Prop :=
  (s'.namespaces = s.namespaces ∧ ∀ name, created name (request, task) = false) ∨
  ∃ config openPartition places outcome, request = .createNamespace config openPartition ∧
    task = .done outcome ∧
    outcome.answer.isOk = true ∧ s'.namespaces = s.namespaces.put config.name ⟨config, places⟩

theorem Creates.effect {config : NamespaceConfig} {s s' : Server} {task : Task Server Outcome}
    (creates : Creates config s s' task.result) :
    Effect (.createNamespace config openPartition) s s' task := by
  rcases creates with ⟨left, unanswered⟩ | ⟨⟨places, inserted⟩, outcome, ended, ok⟩
  · exact Or.inl ⟨left, fun name => created_result unanswered⟩
  · refine Or.inr ⟨config, openPartition, places, outcome, rfl, ?_, ok, inserted⟩
    cases task with
    | done a => rw [Option.some.inj ended]
    | await => cases ended

theorem start_effect (request : Request) {s' : Server} {task : Task Server Outcome}
    (first : (body route request).start s = (s', task)) : Effect request s s' task := by
  cases request with
  | write name recordId work =>
    have left := (@write_start work route name recordId s).1
    change ((body route (.write name recordId work)).start s).1.namespaces = _ at left
    rw [first] at left
    exact Or.inl ⟨left, fun _ => rfl⟩
  | createNamespace config openPartition =>
    rcases Task.start_cases (createNamespace config openPartition) s with turn | waits
    · rw [show (createNamespace config openPartition).start s = (s', task) from first] at turn
      exact ((createNamespace_creates config).resume turn).1.effect
    · obtain ⟨rfl, rfl⟩ := Prod.mk.inj (first.symm.trans waits)
      exact Or.inl ⟨rfl, fun name => created_result (createNamespace_unanswered config)⟩

theorem resume_effect {request : Request} {s' : Server} {old task : Task Server Outcome}
    (guaranteed : Guaranteed (request, old)) (turn : old.resume s = some (s', task)) :
    Effect request s s' task := by
  cases request with
  | write name recordId work =>
    obtain ⟨place, obeys⟩ := guaranteed
    exact Or.inl ⟨(obeys.resume turn).1.1, fun _ => rfl⟩
  | createNamespace config openPartition =>
    have obeys : old.Obeys (Creates config) := guaranteed
    exact (obeys.resume turn).1.effect

theorem created_done {name : String} {config : NamespaceConfig} {outcome : Outcome}
    (ok : outcome.answer.isOk = true) :
    created name (.createNamespace config openPartition, .done outcome) =
      decide (config.name = name) := by
  simp [created, Task.result, ok]

/-- A turn leaves the map, or a creation inserts its namespace; it replaces one that is there. -/
theorem turn_cases (sound : Sound p) (h : Pool.step (body route) p turn = some q) :
    (q.shared.namespaces = p.shared.namespaces ∧
      ∀ name, q.calls.countP (created name) = p.calls.countP (created name)) ∨
    ∃ config places, q.shared.namespaces = p.shared.namespaces.put config.name ⟨config, places⟩ ∧
      (∀ name, q.calls.countP (created name) = p.calls.countP (created name) + if config.name =
        name then 1 else 0) ∧
      ((p.shared.namespaces.get config.name).isSome → Replaces config.name p turn) := by
  rcases Pool.step_cases h with ⟨request, task, rfl, first, calls⟩ | ⟨before, request, old, task,
    after, rfl, was, ran, calls⟩
  · rcases start_effect request first with ⟨left, none⟩ | ⟨config, openPartition, places, outcome,
      rfl, rfl, ok, inserted⟩
    · refine Or.inl ⟨left, fun name => ?_⟩
      simp [calls, List.countP_append, none name]
    · refine Or.inr ⟨config, places, inserted, fun name => ?_, fun present => ?_⟩
      · simp [calls, List.countP_append, List.countP_cons, created_done ok]
      · obtain ⟨e, taken⟩ := @createNamespace_taken openPartition config p.shared present
        obtain ⟨-, failed⟩ := Prod.mk.inj (first.symm.trans taken)
        cases failed
        cases ok
  · have guaranteed := sound.guaranteed (request,
      old) (by rw [was]; exact List.mem_append_right _ List.mem_cons_self)
    have unfinished : ∀ name, created name (request, old) = false := fun name =>
      created_result (by rw [Task.resume_result ran]; exact fun o none => by cases none)
    rcases resume_effect guaranteed ran with ⟨left, none⟩ | ⟨config, openPartition, places, outcome,
      rfl, rfl, ok, inserted⟩
    · refine Or.inl ⟨left, fun name => ?_⟩
      simp [calls, was, List.countP_append, none name, unfinished name]
    · refine Or.inr ⟨config, places, inserted, fun name => ?_, fun present => ?_⟩
      · simp [calls, was, List.countP_append, List.countP_cons, created_done ok, unfinished name]
        omega
      · refine ⟨present, before.length, config, openPartition, old, q.shared, outcome, rfl, ?_, rfl,
          ran, ok⟩
        simp [was]

theorem turn_sound (sound : Sound p) (h : Pool.step (body route) p turn = some q) : Sound q := by
  constructor
  · intro call member
    rcases Pool.step_cases h with ⟨request, task, -, first, calls⟩ | ⟨before, request, old, task,
      after, -, was, ran, calls⟩
    · rw [calls] at member
      rcases List.mem_append.mp member with earlier | new
      · exact sound.guaranteed call earlier
      · rw [List.mem_singleton.mp new]
        exact body_guaranteed request first
    · have kept : ∀ c ∈ before ++ (request, old) :: after, Guaranteed c := was ▸ sound.guaranteed
      rw [calls] at member
      rcases List.mem_append.mp member with earlier | later
      · exact kept call (List.mem_append_left _ earlier)
      rcases List.mem_cons.mp later with rfl | later
      · exact resume_guaranteed (kept _ (List.mem_append_right _ List.mem_cons_self)) ran
      · exact kept call (List.mem_append_right _ (List.mem_cons_of_mem _ later))
  · intro name
    rcases turn_cases sound h with ⟨left, count⟩ | ⟨config, places, inserted, count, -⟩
    · rw [left, count]
      exact sound.present name
    · rw [inserted, count]
      by_cases same : config.name = name
      · subst same
        simp [ObjectStore.get_put_self]
      · rw [ObjectStore.get_put_ne _ _ fun other => same other.symm, if_neg same]
        exact sound.present name

/-- Where nothing is replaced a partition that was resolved is resolved again. -/
theorem turn_resolves {name recordId : String} {place : Nat} (sound : Sound p)
    (h : Pool.step (body route) p turn = some q) (keeps : ¬ Replaces name p turn)
    (resolved : p.shared.resolvePartition route name recordId = .ok place) :
    q.shared.resolvePartition route name recordId = .ok place := by
  unfold resolvePartition at resolved ⊢
  rcases turn_cases sound h with ⟨left, -⟩ | ⟨config, places, inserted, -, replaces⟩
  · rwa [left]
  · rw [inserted]
    by_cases same : config.name = name
    · subst same
      cases found : p.shared.namespaces.get config.name with
      | none =>
        rw [found] at resolved
        cases resolved
      | some state => exact absurd (replaces (by rw [found]; rfl)) keeps
    · rwa [ObjectStore.get_put_ne _ _ fun other => same other.symm]

/-- A write to the namespace has failed, or works where its partition is still found. -/
def Followed (route : NamespaceConfig → String → FlushResult Nat) (name : String) (s : Server)
    (call : Request × Task Server Outcome) :
    Prop :=
  ∀ recordId work, call.1 = .write name recordId work →
    (∃ e, call.2 = .done { answer := .error e }) ∨
    ∃ place, s.resolvePartition route name recordId = .ok place ∧ call.2.Obeys (WritesAt place) ∧
      ∀ o ∈ call.2.result, o.place = some place

theorem turn_followed {name : String} (sound : Sound p) (h : Pool.step (body route) p turn = some q)
    (keeps : ¬ Replaces name p turn)
    (followed : ∀ call ∈ p.calls, Followed route name p.shared call) :
    ∀ call ∈ q.calls, Followed route name q.shared call := by
  have still : ∀ call, Followed route name p.shared call → Followed route name q.shared call := by
    intro call before recordId work write
    refine (before recordId work write).imp id ?_
    rintro ⟨place, resolved, rest⟩
    exact ⟨place, turn_resolves sound h keeps resolved, rest⟩
  intro call member
  rcases Pool.step_cases h with ⟨request, task, -, first, calls⟩ | ⟨before, request, old, task,
    after, -, was, ran, calls⟩
  · rw [calls] at member
    rcases List.mem_append.mp member with earlier | new
    · exact still call (followed call earlier)
    · rw [List.mem_singleton.mp new]
      rintro recordId work rfl
      have written := @write_start work route name recordId p.shared
      rw [show (write route name recordId work).start p.shared = (q.shared, task) from first] at written
      refine written.2.imp id ?_
      rintro ⟨place, resolved, rest⟩
      exact ⟨place, turn_resolves sound h keeps resolved, rest⟩
  · have kept : ∀ c ∈ before ++ (request, old) :: after, Followed route name p.shared c :=
      was ▸ followed
    rw [calls] at member
    rcases List.mem_append.mp member with earlier | later
    · exact still call (kept call (List.mem_append_left _ earlier))
    rcases List.mem_cons.mp later with rfl | later
    · rintro recordId work rfl
      rcases kept _ (List.mem_append_right _ List.mem_cons_self) recordId work
        rfl with ⟨e, failed⟩ | ⟨place, resolved, obeys, -⟩
      · change old = _ at failed
        rw [failed] at ran
        cases ran
      · obtain ⟨⟨-, placed⟩, obeys⟩ := obeys.resume ran
        exact Or.inr ⟨place, turn_resolves sound h keeps resolved, obeys, placed⟩
    · exact still call (kept call (List.mem_append_right _ (List.mem_cons_of_mem _ later)))

theorem replaces_twice {name : String} (sound : Sound p)
    (h : Pool.step (body route) p turn = some q) (replaces : Replaces name p turn) :
    2 ≤ q.calls.countP (created name) := by
  obtain ⟨present, i, config, openPartition, task, after, outcome, rfl, found, rfl, ran, ok⟩ :=
    replaces
  have once := (sound.present config.name).mp present
  rcases Pool.step_cases h with ⟨_, _, ended, -⟩ | ⟨before, request, old, task', later, same, was,
    ran', calls⟩
  · cases ended
  · cases same
    have here : p.calls[before.length]? = some (request, old) := by simp [was]
    obtain ⟨rfl, rfl⟩ := Prod.mk.inj (Option.some.inj (here.symm.trans found))
    obtain ⟨-, rfl⟩ := Prod.mk.inj (Option.some.inj (ran'.symm.trans ran))
    have unfinished : created config.name (.createNamespace config openPartition, old) = false :=
      created_result (by rw [Task.resume_result ran]; exact fun o none => by cases none)
    rw [was, List.countP_append, List.countP_cons, unfinished, if_neg (by decide)] at once
    rw [calls, List.countP_append, List.countP_cons, created_done ok, if_pos (decide_eq_true rfl)]
    omega

/-- The creations of the name that go on or have succeeded. -/
def engaged (name : String) (p : Calls) : Nat :=
  p.calls.countP (creating name) + p.calls.countP (created name)

theorem engaged_le {name : String} {config : NamespaceConfig} (task : Task Server Outcome) :
    ((if creating name (.createNamespace config openPartition, task) then 1 else 0) +
      if created name (.createNamespace config openPartition, task) then 1 else 0) ≤
        if config.name = name then 1 else 0 := by
  unfold creating created
  by_cases same : config.name = name
  · cases task with
    | await => simp [same, Task.result]
    | done o => cases ok : o.answer.isOk <;> simp [same, Task.result, ok]
  · simp [same]

theorem turn_engaged {name : String} (sound : Sound p) (h : Pool.step (body route) p turn = some q)
    (apart : ¬ Overlaps name p turn) (one : engaged name p ≤ 1) : engaged name q ≤ 1 := by
  unfold engaged at one ⊢
  rcases Pool.step_cases h with ⟨request, task, rfl, first, calls⟩ | ⟨before, request, old, task,
    after, -, was, ran, calls⟩
  · simp only [calls, List.countP_append, List.countP_cons, List.countP_nil]
    cases request with
    | write => simpa [creating, created] using one
    | createNamespace config openPartition =>
      have most := @engaged_le openPartition name config task
      by_cases same : config.name = name
      · have idle : p.calls.countP (creating name) = 0 := by
          rw [List.countP_eq_zero]
          intro call member busy
          exact apart ⟨config, openPartition, rfl, same, call, member, busy⟩
        by_cases present : (p.shared.namespaces.get config.name).isSome
        · obtain ⟨e, taken⟩ := @createNamespace_taken openPartition config p.shared present
          obtain ⟨-, rfl⟩ := Prod.mk.inj (first.symm.trans taken)
          simpa [creating, created, Task.result, Except.isOk, Except.toBool] using one
        · have absent : p.calls.countP (created name) = 0 := by
            rw [same] at present
            have := (sound.present name).not.mp present
            omega
          rw [if_pos same] at most
          omega
      · rw [if_neg same] at most
        omega
  · have unfinished := Task.resume_result ran
    simp only [calls, was, List.countP_append, List.countP_cons] at one ⊢
    cases request with
    | write => simpa [creating, created] using one
    | createNamespace config openPartition =>
      have most := @engaged_le openPartition name config task
      by_cases same : config.name = name
      · simp only [creating, created, same, unfinished] at one
        rw [if_pos same] at most
        simp at one
        omega
      · simp only [creating, created, same] at one
        rw [if_neg same] at most
        simp at one
        omega

theorem engaged_not_replaces {name : String} (sound : Sound p) (one : engaged name p ≤ 1) :
    ¬ Replaces name p turn := by
  rintro ⟨present, i, config, openPartition, task, after, outcome, rfl, found, rfl, ran, ok⟩
  have once := (sound.present config.name).mp present
  have busy : 0 < p.calls.countP (creating config.name) := by
    rw [List.countP_pos_iff]
    refine ⟨_, List.mem_of_getElem? found, ?_⟩
    simp [creating, Task.resume_result ran]
  unfold engaged at one
  omega

theorem sound_start (storage : Storage) : Sound { shared := { storage } } :=
  ⟨fun call member => (List.not_mem_nil member).elim, fun name => by simp [ObjectStore.get_empty]⟩

theorem turn_once {name : String} (sound : Sound p) (h : Pool.step (body route) p turn = some q)
    (keeps : ¬ Replaces name p turn) (once : p.calls.countP (created name) ≤ 1) :
    q.calls.countP (created name) ≤ 1 := by
  rcases turn_cases sound h with ⟨-, count⟩ | ⟨config, places, -, count, replaces⟩
  · rwa [count]
  · rw [count]
    by_cases same : config.name = name
    · subst same
      have absent : p.calls.countP (created config.name) = 0 := by
        have := (sound.present config.name).not.mp fun present => keeps (replaces present)
        omega
      rw [if_pos rfl]
      omega
    · rw [if_neg same]
      omega

/-- At most one creation of a name succeeds, and every acknowledged write stays with the partition
that reads go to, exactly when no creation inserts a namespace that is there. Creations of the name
that do not overlap insert it once. -/
theorem creation_exclusive (route : NamespaceConfig → String → FlushResult Nat) (storage : Storage)
    (name : String) (turns : List (Pool.Turn Request)) (p : Calls)
    (run : exec (Pool.step (body route)) { shared := { storage } } turns = some p) :
    (Exclusive route name p ↔
      Admits (Pool.step (body route)) (fun p turn => ¬ Replaces name p turn)
        { shared := { storage } } turns) ∧
    (Admits (Pool.step (body route)) (fun p turn => ¬ Overlaps name p turn) { shared := { storage } } turns →
      Exclusive route name p) := by
  have safe : Admits (Pool.step (body route)) (fun p turn => ¬ Replaces name p turn)
      { shared := { storage } } turns →
      Exclusive route name p := by
    intro keeps
    let inv : Calls → Prop := fun p => Sound p ∧ p.calls.countP (created name) ≤ 1 ∧
      ∀ call ∈ p.calls, Followed route name p.shared call
    have kept : inv p := by
      refine exec_invariant ?_ ⟨sound_start storage, Nat.zero_le 1,
        fun call member => (List.not_mem_nil member).elim⟩ keeps run
      rintro p turn q ⟨sound, once, followed⟩ keeps h
      exact ⟨turn_sound sound h, turn_once sound h keeps once, turn_followed sound h keeps followed⟩
    obtain ⟨-, once, followed⟩ := kept
    refine ⟨once, ?_⟩
    intro recordId work task outcome member answered ok
    rcases followed _ member recordId work rfl with ⟨e, failed⟩ | ⟨place, resolved, -, placed⟩
    · change task = _ at failed
      rw [failed] at answered
      cases answered
      cases ok
    · exact ⟨place, placed outcome answered, resolved⟩
  refine ⟨⟨?_, safe⟩, fun apart => safe ?_⟩
  · intro exclusive
    have grows : ∀ p turn q, (Sound p ∧ 2 ≤ p.calls.countP (created name)) →
        Pool.step (body route) p turn = some q →
        Sound q ∧ 2 ≤ q.calls.countP (created name) := by
      rintro p turn q ⟨sound, twice⟩ h
      refine ⟨turn_sound sound h, ?_⟩
      rcases turn_cases sound h with ⟨-, count⟩ | ⟨config, places, -, count, -⟩
      · rwa [count]
      · rw [count]
        omega
    refine admits_of_end (fun p turn q => turn_sound) ?_ grows (sound_start storage) run ?_
    · intro p turn q sound replaces h
      exact ⟨turn_sound sound h, replaces_twice sound h (not_not.mp replaces)⟩
    · rintro ⟨-, twice⟩
      have := exclusive.once
      omega
  · have once : ∀ p turn q, (Sound p ∧ engaged name p ≤ 1) → ¬ Overlaps name p turn →
        Pool.step (body route) p turn = some q →
        Sound q ∧ engaged name q ≤ 1 := by
      rintro p turn q ⟨sound, one⟩ apart h
      exact ⟨turn_sound sound h, turn_engaged sound h apart one⟩
    exact admits_under once (fun p turn kept _ => engaged_not_replaces kept.1 kept.2)
      ⟨sound_start storage, Nat.zero_le 1⟩ apart

end Runs

/-! ## With the engine -/

section Example

/-- A partition that gives way once, when it asks for its manifests. -/
def openEngine (env : ServerEnv) (config : NamespaceConfig) (i : Nat) :
    Task Storage (FlushResult Partition) :=
  .await (fun _ => true) id fun _ => .atomically fun storage =>
    let (answer, m) := NamespaceManager.openPartition env config {} i { storage }
    (match answer with
      | some (.error e) => .error e
      | _ => .ok (m.partitions config.name i), m.storage)

/-- A write of a partition that does not give way. -/
def engineWork (env : ServerEnv) (config : NamespaceConfig) (i : Nat) (request : World.Label) :
    Task (Storage × Partition) (FlushResult (Option Nat)) :=
  .atomically fun (storage, p) =>
    if p.isWritable then
      let (answer, m) := NamespaceManager.act env config i request
        { storage, partitions := fun _ _ => p }
      (answer.getD (.ok none), m.storage, m.partitions config.name i)
    else (.error (NamespaceManager.notAccepting i "writes" p.state), storage, p)

/-- The value that a read finds. -/
def engineGet (env : ServerEnv) (renv : ReadEnv) (config : NamespaceConfig) (i : Nat)
    (recordId itemKey : Bytes) (storage : Storage) (p : Partition) : FlushResult (Option Bytes) :=
  match (p.world.mapStored (storage.load (env.place config i))).engine with
  | some s => (Engine.get renv {} recordId itemKey s).map fun found => found.map GetResult.value
  | none => .error (NamespaceManager.notAccepting i "reads" p.state)

def sampleEnv : ServerEnv where
  baseDataDir := ["data"]
  ulid name i k := toString i ++ "/" ++ toString k ++ "/" ++ name
  fileSize := List.length
  serializedLen _ := 0

def sampleNamespace : NamespaceConfig := .ofDocument "a" .simple 2 (some "flushdb/a")

/-- The first partition has all records. -/
def firstPartition (_ : NamespaceConfig) (_ : String) : FlushResult Nat := .ok 0

def sampleCreation : Pool.Turn Request :=
  .call (.createNamespace sampleNamespace (openEngine sampleEnv sampleNamespace))

def samplePut : Pool.Turn Request :=
  .call (.write "a" "r"
    (engineWork sampleEnv sampleNamespace 0 (.put ⟨[114]⟩ ⟨[1]⟩ ⟨[7]⟩ ⟨[]⟩ none {})))

def sampleGet (p : Calls) : FlushResult (Option Bytes) :=
  read firstPartition (engineGet sampleEnv ⟨4096, 10, fun _ _ => true⟩ sampleNamespace 0 ⟨[114]⟩
    ⟨[1]⟩) "a" "r" p.shared

/-- The second creation looks the name up and opens its first partition before the first one is
done. -/
def overlappingTurns : List (Pool.Turn Request) :=
  [sampleCreation, sampleCreation, .resume 1, .resume 0, .resume 0, samplePut]

def acknowledged (p : Calls) (i : Nat) : Bool :=
  (p.calls[i]?.bind fun call => call.2.result).any fun o => o.answer.isOk

theorem creation_exclusive_sample :
    ∃ p, exec (Pool.step (body firstPartition)) { shared := { storage := {} } }
      [sampleCreation, .resume 0, .resume 0, samplePut] = some p ∧
      acknowledged p 0 ∧ acknowledged p 1 ∧ Exclusive firstPartition "a" p := by
  have ends : ((exec (Pool.step (body firstPartition)) { shared := { storage := {} } }
      [sampleCreation, .resume 0, .resume 0, samplePut]).map fun p =>
        (acknowledged p 0, acknowledged p 1)) = some (true, true) := by
    decide +kernel
  obtain ⟨p, run, held⟩ := Option.map_eq_some_iff.mp ends
  obtain ⟨first, second⟩ := Prod.mk.inj held
  refine ⟨p, run, first, second, (creation_exclusive firstPartition {} "a" _ p run).2 ?_⟩
  refine ⟨?_, fun _ _ => ⟨?_, fun _ _ => ⟨?_, fun _ _ => ⟨?_, fun _ _ => trivial⟩⟩⟩⟩
  · rintro ⟨config, openPartition, -, -, call, member, -⟩
    exact (List.not_mem_nil member).elim
  all_goals
    rintro ⟨config, openPartition, later, -⟩
    cases later

/-- Both creations succeed, and a write that the first one's partition has acknowledged is not read
any more. -/
theorem overlapping_replaces :
    ∃ p q, exec (Pool.step (body firstPartition)) { shared := { storage := {} } } overlappingTurns =
      some p ∧
      Pool.step (body firstPartition) p (.resume 1) = some q ∧
        (acknowledged p 0 ∧ acknowledged p 2 ∧ acknowledged q 1) ∧
      sampleGet p = .ok (some ⟨[7]⟩) ∧ sampleGet q = .ok none ∧
        ¬ Exclusive firstPartition "a" q := by
  have ends : ((exec (Pool.step (body firstPartition))
      { shared := { storage := {} } } overlappingTurns).bind fun p =>
      (Pool.step (body firstPartition) p (.resume 1)).map fun q =>
        ((acknowledged p 0, acknowledged p 2, acknowledged q 1), sampleGet p, sampleGet q,
          q.calls.countP (created "a"))) =
      some ((true, true, true), .ok (some ⟨[7]⟩), .ok none, 2) := by decide +kernel
  obtain ⟨p, run, found⟩ := Option.bind_eq_some_iff.mp ends
  obtain ⟨q, last, held⟩ := Option.map_eq_some_iff.mp found
  obtain ⟨acks, rest⟩ := Prod.mk.inj held
  obtain ⟨before, rest⟩ := Prod.mk.inj rest
  obtain ⟨after, twice⟩ := Prod.mk.inj rest
  obtain ⟨first, rest⟩ := Prod.mk.inj acks
  obtain ⟨write, second⟩ := Prod.mk.inj rest
  refine ⟨p, q, run, last, ⟨first, write, second⟩, before, after, ?_⟩
  intro exclusive
  have once := exclusive.once
  omega

end Example

end Server

end FlushDB
