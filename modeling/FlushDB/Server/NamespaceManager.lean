import Mathlib.Data.Prod.Lex
import Mathlib.Data.String.Basic
import FlushDB.Engine.SharedRuns
import FlushDB.Server.NamespaceConfig

/-!
The namespace manager. The partitions of all namespaces share one object store and one data
directory; where each partition reads and writes follows from the configuration of its namespace.
A call of a partition takes its part of the storage, runs the engine on it, and puts it back.
-/

namespace FlushDB
open Lib

/-- The objects and the log files of a process: manifests under their directory and number, tables
below `flushdb/{namespace}/sstables/`, segments in their directory. -/
structure Storage where
  manifests : ObjectStore (String × Nat) Manifest := ObjectStore.empty
  tables : String → Tables := fun _ => ObjectStore.empty
  wal : List String → WalDir := fun _ => ObjectStore.empty

/-- Where a partition reads and writes. -/
structure Place where
  manifests : String
  tables : String
  wal : List String

namespace Storage

def load (storage : Storage) (place : Place) (s : Stored) : Stored :=
  { s with
    tables := storage.tables place.tables
    manifests := storage.manifests.inside place.manifests
    wal := storage.wal place.wal }

def save (storage : Storage) (place : Place) (s : Stored) : Storage where
  manifests := storage.manifests.replace place.manifests s.manifests
  tables := Function.update storage.tables place.tables s.tables
  wal := Function.update storage.wal place.wal s.wal

/-- The paths of the manifests under a prefix in ascending order, each with the number in its file
name. -/
def listManifests (storage : Storage) (directory : String) : List (String ×ₗ Nat) :=
  ((storage.manifests.objects.filter fun object =>
      directory.toList.isPrefixOf (object.1.1 ++ ManifestId.toPathString object.1.2).toList).map
        fun object =>
    toLex (object.1.1 ++ ManifestId.toPathString object.1.2, object.1.2)).insertionSort (· ≤ ·)

end Storage

/-- What a partition keeps in memory: without the storage, which the process has once. -/
def Stored.detached (s : Stored) : Stored :=
  { s with tables := ObjectStore.empty, manifests := ObjectStore.empty, wal := ObjectStore.empty }

def World.mapStored (f : Stored → Stored) (w : World) : World :=
  { w with stored := f w.stored,
           engine := w.engine.map fun s => { s with toStored := f s.toStored } }

inductive PartitionState where
  | starting | active | frozen | draining | stopped
  deriving DecidableEq, Repr

def PartitionState.debug : PartitionState → String
  | .starting => "Starting"
  | .active => "Active"
  | .frozen => "Frozen"
  | .draining => "Draining"
  | .stopped => "Stopped"

structure Partition where
  world : World := {}
  state : PartitionState := .starting

def Partition.isWritable (p : Partition) : Bool := p.state = .active

def Partition.isReadable (p : Partition) : Bool := p.state = .active ∨ p.state = .frozen

structure ServerEnv where
  baseDataDir : List String
  /-- The ULIDs that a partition of a namespace draws. -/
  ulid : String → Nat → Nat → String
  fileSize : List MergeEntry → Nat
  serializedLen : Manifest → Nat

namespace ServerEnv

def engineEnv (env : ServerEnv) (config : NamespaceConfig) (partitionId : Nat) : Env where
  config := { config.engineConfig with ns := partitionNamespace partitionId }
  ulid := env.ulid config.name partitionId
  fileSize := env.fileSize
  serializedLen := env.serializedLen

def place (env : ServerEnv) (config : NamespaceConfig) (partitionId : Nat) : Place where
  manifests := config.manifestsAt partitionId
  tables := partitionNamespace partitionId
  wal := walDir env.baseDataDir config.name partitionId

end ServerEnv

abbrev Answer := Option (FlushResult (Option Nat))

/-- What the opening of a partition finds outside. -/
structure OpenDraw where
  nowMs : Nat := 0
  fault : Option OpenFault := none

/-- `partitions` keeps what a partition leaves when it is closed; `created` is ghost: the
configurations that were accepted. -/
structure NamespaceManager where
  storage : Storage := {}
  namespaces : ObjectStore String NamespaceConfig := ObjectStore.empty
  partitions : String → Nat → Partition := fun _ _ => {}
  created : List NamespaceConfig := []

namespace NamespaceManager

def setPartition (m : NamespaceManager) (name : String) (partitionId : Nat) (p : Partition) :
    NamespaceManager :=
  { m with partitions := Function.update m.partitions name (Function.update (m.partitions name) partitionId p) }

def setState (name : String) (partitionId : Nat) (state : PartitionState) (m : NamespaceManager) :
    NamespaceManager :=
  m.setPartition name partitionId { m.partitions name partitionId with state }

section
variable (env : ServerEnv)

/-- A step of one partition on its part of the storage. -/
def act (config : NamespaceConfig) (partitionId : Nat) (label : World.Label)
    (m : NamespaceManager) : Answer × NamespaceManager :=
  let place := env.place config partitionId
  let p := m.partitions config.name partitionId
  let (answer, world) := World.turn (env.engineEnv config partitionId) label
    (p.world.mapStored (m.storage.load place))
  (answer,
    { m with storage := m.storage.save place world.disk }.setPartition config.name partitionId
      { p with world := world.mapStored Stored.detached })

/-- `Partition::open`. `load_latest` takes the number of the last path listed under its prefix; when
that path is not the newest manifest of the partition, there is no manifest of this number, or there
are manifests after it, so that no epoch can be stored. -/
def openPartition (config : NamespaceConfig) (draw : OpenDraw) (partitionId : Nat)
    (m : NamespaceManager) : Answer × NamespaceManager :=
  let directory := config.manifestsAt partitionId
  let own := m.storage.manifests.inside directory
  let highest := (m.storage.listManifests directory).getLast?.map fun listed => (ofLex listed).2
  if highest = own.keys.getLast? then
    let (answer, m) := act env config partitionId (.openEngine draw.nowMs draw.fault) m
    (answer, setState config.name partitionId .active m)
  else
    match highest.filter fun id => (own.get id).isSome with
    | none =>
      (some (.error (.notFound (directory ++ (highest.map ManifestId.toPathString).getD ""))), m)
    | some id =>
      (some (.error (.preconditionFailed
        s!"key '{directory ++ ManifestId.toPathString (id + 1)}' already exists")), m)

/-- Does the step for the partitions in turn and stops at the first that fails. -/
def eachPartition (f : Nat → NamespaceManager → Answer × NamespaceManager) :
    List Nat → NamespaceManager → Answer × NamespaceManager
  | [], m => (some (.ok none), m)
  | i :: rest, m =>
    match f i m with
    | (some (.error e), m) => (some (.error e), m)
    | (_, m) => eachPartition f rest m

/-- The engine of the partition is gone, with these entries of an unfinished append in its log. -/
def dropPartition (config : NamespaceConfig) (torn : List MemtableEntry) (partitionId : Nat)
    (m : NamespaceManager) :
    Answer × NamespaceManager :=
  let (_, m) := act env config partitionId (.crash torn) m
  (some (.ok none), m)

def dropPartitions (config : NamespaceConfig) (torn : Nat → List MemtableEntry)
    (m : NamespaceManager) : NamespaceManager :=
  (eachPartition (fun i => dropPartition env config (torn i) i) (List.range config.partitionCount) m).2

def createNamespace (config : NamespaceConfig) (draws : Nat → OpenDraw) (m : NamespaceManager) :
    Answer × NamespaceManager :=
  match config.validate with
  | .error e => (some (.error e), m)
  | .ok () =>
    if (m.namespaces.get config.name).isSome then
      (some (.error (.invalidArgument s!"namespace already exists: {config.name}")), m)
    else
      match eachPartition (fun i => openPartition env config (draws i) i)
        (List.range config.partitionCount)
          { m with created := config :: m.created } with
      | (some (.error e), m) => (some (.error e), dropPartitions env config (fun _ => []) m)
      | (_, m) => (some (.ok none), { m with namespaces := m.namespaces.put config.name config })

/-- `Partition::stop`. -/
def stopPartition (config : NamespaceConfig) (draw : Nat → FlushDraw) (partitionId : Nat)
    (m : NamespaceManager) : Answer × NamespaceManager :=
  match act env config partitionId (.close draw) m with
  | (some (.error e), m) => (some (.error e), m)
  | (answer, m) => (answer, setState config.name partitionId .stopped m)

def deleteNamespace (name : String) (draws : Nat → Nat → FlushDraw) (m : NamespaceManager) :
    Answer × NamespaceManager :=
  match m.namespaces.get name with
  | none => (some (.error (.notFound s!"namespace: {name}")), m)
  | some config =>
    match eachPartition (fun i => stopPartition env config (draws i) i)
      (List.range config.partitionCount) m with
    | (some (.error e), m) => (some (.error e), m)
    | (_, m) =>
      (some (.ok none), dropPartitions env config (fun _ => [])
        { m with namespaces := m.namespaces.delete name })

/-- The process that holds the namespace ends. -/
def processEnds (name : String) (torn : Nat → List MemtableEntry) (m : NamespaceManager) :
    Answer × NamespaceManager :=
  match m.namespaces.get name with
  | none => (none, m)
  | some config =>
    (some (.ok none), dropPartitions env config torn { m with namespaces := m.namespaces.delete name })

def notAccepting (partitionId : Nat) (what : String) (state : PartitionState) : FlushError :=
  .resourceExhausted "partition" s!"partition {partitionId} is not accepting {what} (state: {state.debug})"

/-- A request to the partition that the router picked. Only open partitions that are active are
written to; opening, closing and crashing are not requests. -/
def call (name : String) (partitionId : Nat) (request : World.Label) (m : NamespaceManager) :
    Answer × NamespaceManager :=
  match m.namespaces.get name with
  | none => (some (.error (.notFound s!"namespace: {name}")), m)
  | some config =>
    if config.partitionCount ≤ partitionId then
      (some (.error (.invalidArgument s!"partition index out of bounds: {partitionId}")), m)
    else
      let p := m.partitions name partitionId
      match request with
      | .openEngine _ _ | .crash _ | .close _ => (none, m)
      | .maybeFlush _ | .runMaintenance _ _ | .maybeCompact _ =>
        act env config partitionId request m
      | .put _ _ _ _ _ _ | .putBatch _ _ _ _ _ | .delete _ _ _ | .deleteRange _ _ _ _ =>
        if p.isWritable then act env config partitionId request m
        else (some (.error (notAccepting partitionId "writes" p.state)), m)

inductive Label where
  | createNamespace (config : NamespaceConfig) (draws : Nat → OpenDraw)
  | deleteNamespace (name : String) (draws : Nat → Nat → FlushDraw)
  | call (name : String) (partitionId : Nat) (request : World.Label)
  | processEnds (name : String) (torn : Nat → List MemtableEntry)

/-- The namespace that an operation is issued to. -/
def Label.name : Label → String
  | .createNamespace config _ => config.name
  | .deleteNamespace name _ | .call name _ _ | .processEnds name _ => name

def turn : Label → NamespaceManager → Answer × NamespaceManager
  | .createNamespace config draws => createNamespace env config draws
  | .deleteNamespace name draws => deleteNamespace env name draws
  | .call name partitionId request => call env name partitionId request
  | .processEnds name torn => processEnds env name torn

def run (labels : List Label) : NamespaceManager :=
  labels.foldl (fun m label => (turn env label m).2) {}

/-- A read of the partition that the router picked. -/
def read {α : Type} (f : Engine → FlushResult α) (name : String) (partitionId : Nat)
    (m : NamespaceManager) : FlushResult α :=
  match m.namespaces.get name with
  | none => .error (.notFound s!"namespace: {name}")
  | some config =>
    if config.partitionCount ≤ partitionId then
      .error (.invalidArgument s!"partition index out of bounds: {partitionId}")
    else
      let p := m.partitions name partitionId
      if p.isReadable then
        match (p.world.mapStored (m.storage.load (env.place config partitionId))).engine with
        | some s => f s
        | none => .error (notAccepting partitionId "reads" p.state)
      else .error (notAccepting partitionId "reads" p.state)

variable (renv : ReadEnv) (draw : ReadDraw)

def get (name : String) (partitionId : Nat) (recordId itemKey : Bytes) (m : NamespaceManager) :
    FlushResult (Option GetResult) :=
  read env (Engine.get renv draw recordId itemKey) name partitionId m

def scan (name : String) (partitionId : Nat) (recordId : Bytes) (startKey endKey : Option Bytes)
    (options : RangeReadOptions) (m : NamespaceManager) : FlushResult RangeReadResult :=
  read env (Engine.scan renv draw recordId startKey endKey options) name partitionId m

def multiGet (name : String) (partitionId : Nat) (recordId : Bytes) (keys : List Bytes)
    (m : NamespaceManager) :
    FlushResult (List (Option GetResult)) :=
  read env (Engine.multiGet renv draw recordId keys) name partitionId m

end

end NamespaceManager

end FlushDB
