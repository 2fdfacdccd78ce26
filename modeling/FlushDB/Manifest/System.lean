import Mathlib.Logic.Function.Basic
import FlushDB.Lib.ObjectStore
import FlushDB.Lib.Run
import FlushDB.Manifest.Manager

/-!
Any number of manifest managers on one namespace. A call runs as a sequence of backend
operations (a listing, a read, a conditional put, a delete); each of them is atomic, and
other managers may act between any two of them. `started`, `commits`, `pruned`, `results`
and `loads` are ghost histories; a call is known by its place in `started`.
-/

namespace FlushDB.ManifestSystem
open Lib

abbrev ManagerId := Nat

inductive Call where
  | loadLatest
  | update (u : ManifestUpdate)
  | acquireEpoch (kind : EpochKind)
  | pruneOldManifests

/-- What a call does with the manifest that `load_latest` has loaded. -/
inductive Goal where
  | load
  | retry (u : ManifestUpdate) (attempt : Nat)
  | acquire (kind : EpochKind)

/-- The backend operation a manager is about to make. -/
inductive Pc where
  | idle
  | listing (goal : Goal)
  | creating (goal : Goal)
  | fetching (goal : Goal) (id : Nat) (checked : Bool)
  | writing (u : ManifestUpdate) (attempt : Nat)
  | acquiring (kind : EpochKind)
  | pruneListing
  | pruneScanning (entries pending snapshots : List Nat)
  | pruneDeleting (pending : List Nat)

/-- The call that a goal belongs to. -/
def Goal.call : Goal → Call
  | .load => .loadLatest
  | .retry u _ => .update u
  | .acquire kind => .acquireEpoch kind

/-- The call that a manager is in. -/
def Pc.call : Pc → Option Call
  | .idle => none
  | .listing goal | .creating goal | .fetching goal _ _ => some goal.call
  | .writing u _ => some (.update u)
  | .acquiring kind => some (.acquireEpoch kind)
  | .pruneListing | .pruneScanning _ _ _ | .pruneDeleting _ => some .pruneOldManifests

/-- A manager with the call it is in. `since` counts the commits made before its last
`load_latest` began, `loaded` says that one has succeeded; both are ghost. -/
structure Proc where
  manager : ManifestManager
  pc : Pc := .idle
  call : Nat := 0
  since : Nat := 0
  loaded : Bool := false

inductive Origin where
  | update
  | acquisition (kind : EpochKind)
  deriving DecidableEq

/-- A successful conditional put by an update or an acquisition: who made it, holding which
writer epoch, on which manifest, and what it stored. -/
structure Commit where
  call : Nat
  origin : Origin
  heldWriterEpoch : Nat
  update : ManifestUpdate
  nowMs : Nat
  base : Manifest
  stored : Manifest

structure Load where
  since : Nat
  manifest : Manifest

structure State where
  store : ObjectStore Nat Manifest := {}
  procs : ManagerId → Proc
  started : List Call := []
  commits : List Commit := []
  pruned : List Nat := []
  results : List (Nat × FlushResult Unit) := []
  loads : List Load := []

inductive Label where
  | start (id : ManagerId) (call : Call)
  | step (id : ManagerId) (nowMs : Nat)
  | fail (id : ManagerId)

namespace State

def setProc (s : State) (id : ManagerId) (p : Proc) : State :=
  { s with procs := Function.update s.procs id p }

/-- The call of manager `id` returns. -/
def finish (s : State) (id : ManagerId) (p : Proc) (result : FlushResult Unit) : State :=
  { s.setProc id { p with pc := .idle } with results := s.results ++ [(p.call, result)] }

end State

/-- A `load_latest` of manager `id` has brought `m`: the call goes on from there. -/
def loadedWith (s : State) (id : ManagerId) (p : Proc) (goal : Goal) (m : Manifest) : State :=
  let p : Proc := { p with manager := { p.manager with current := m }, loaded := true }
  let s : State := { s with loads := s.loads ++ [{ since := p.since, manifest := m }] }
  match goal with
  | .load => s.finish id p (.ok ())
  | .retry u attempt =>
    match p.manager.revalidate u with
    | .error e => s.finish id p (.error e)
    | .ok () => s.setProc id { p with pc := .writing u attempt }
  | .acquire kind => s.setProc id { p with pc := .acquiring kind }

def unsupportedVersion (m : Manifest) : FlushError :=
  .corruptedData s!"unsupported manifest format_version: {m.formatVersion}"

/-- A manager begins a call. The checks an update makes before its first attempt are local. -/
def start (s : State) (id : ManagerId) (call : Call) : Option State :=
  let p : Proc := { s.procs id with call := s.started.length, since := s.commits.length }
  let s' : State := { s with started := s.started ++ [call] }
  match (s.procs id).pc with
  | .idle =>
    match call with
    | .loadLatest => some (s'.setProc id { p with pc := .listing .load })
    | .update u =>
      match p.manager.validateEpoch u with
      | .error e => some (s'.finish id p (.error e))
      | .ok () =>
        match p.manager.validateUpdate u with
        | .error e => some (s'.finish id p (.error e))
        | .ok () => some (s'.setProc id { p with pc := .writing u 0 })
    | .acquireEpoch kind => some (s'.setProc id { p with pc := .listing (.acquire kind) })
    | .pruneOldManifests => some (s'.setProc id { p with pc := .pruneListing })
  | _ => none

/-- The ids that a pruning run deletes, from its listing and the snapshots it found. -/
def toDelete (currentId : Nat) (entries snapshots : List Nat) : List Nat :=
  let sorted := snapshots.insertionSort (· ≤ ·)
  if sorted.length < 2 then []
  else
    match sorted[sorted.length - 2]? with
    | some cutoff => entries.filter fun id => id < cutoff ∧ id ≠ currentId
    | none => []

/-- Pruning reads the next manifest of its listing, or turns to the deletions. -/
def pruneNext (s : State) (id : ManagerId) (p : Proc) (entries pending snapshots : List Nat) :
    State :=
  match pending with
  | _ :: _ => s.setProc id { p with pc := .pruneScanning entries pending snapshots }
  | [] =>
    match toDelete p.manager.current.manifestId entries snapshots with
    | [] => s.finish id p (.ok ())
    | rest => s.setProc id { p with pc := .pruneDeleting rest }

def casLost (s : State) (id : ManagerId) (p : Proc) (u : ManifestUpdate) (attempt : Nat) : State :=
  if attempt + 1 ≥ maxCasRetries then s.finish id p (.error ManifestManager.casExhausted)
  else
    s.setProc id { p with since := s.commits.length, pc := .listing (.retry u (attempt + 1)) }

def Proc.record (p : Proc) (origin : Origin) (u : ManifestUpdate) (nowMs : Nat) (m : Manifest) :
    Commit where
  call := p.call
  origin := origin
  heldWriterEpoch := p.manager.writerEpoch
  update := u
  nowMs := nowMs
  base := p.manager.current
  stored := m

/-- The conditional put succeeded: the call returns with the stored manifest as its current. -/
def commit (s : State) (id : ManagerId) (p : Proc) (origin : Origin) (u : ManifestUpdate)
    (nowMs : Nat) (store : ObjectStore Nat Manifest) (m : Manifest) (manager : ManifestManager) :
    State :=
  State.finish
    { s with store := store, commits := s.commits ++ [p.record origin u nowMs m] }
    id { p with manager := manager } (.ok ())

/-- The pending backend operation of a manager takes effect. -/
def step (serializedLen : Manifest → Nat) (s : State) (id : ManagerId) (nowMs : Nat) :
    Option State :=
  let p := s.procs id
  match p.pc with
  | .idle => none
  | .listing goal =>
    match s.store.keys.getLast? with
    | none => some (s.setProc id { p with pc := .creating goal })
    | some highest => some (s.setProc id { p with pc := .fetching goal highest true })
  | .creating goal =>
    let m := Manifest.newEmpty p.manager.current.ns nowMs
    match s.store.conditionalPut 0 m with
    | some store => some (loadedWith { s with store := store } id p goal m)
    | none => some (s.setProc id { p with pc := .fetching goal 0 false })
  | .fetching goal k checked =>
    match s.store.get k with
    | none => some (s.finish id p (.error (.notFound (toString k))))
    | some m =>
      if checked && m.formatVersion ≠ 1 then some (s.finish id p (.error (unsupportedVersion m)))
      else some (loadedWith s id p goal m)
  | .writing u attempt =>
    match p.manager.toWrite serializedLen u nowMs with
    | .error e => some (s.finish id p (.error e))
    | .ok m =>
      match s.store.conditionalPut m.manifestId m with
      | some store => some (commit s id p .update u nowMs store m { p.manager with current := m })
      | none => some (casLost s id p u attempt)
  | .acquiring kind =>
    let u := p.manager.epochUpdate kind
    match u.apply nowMs p.manager.current with
    | .error e => some (s.finish id p (.error e))
    | .ok m =>
      match s.store.conditionalPut m.manifestId m with
      | some store =>
        some (commit s id p (.acquisition kind) u nowMs store m (p.manager.acquired m kind))
      | none =>
        some (s.finish id p (.error (.preconditionFailed s!"key '{m.manifestId}' already exists")))
  | .pruneListing =>
    let entries := s.store.keys
    if entries.length ≤ 2 then some (s.finish id p (.ok ()))
    else some (pruneNext s id p entries entries [])
  | .pruneScanning entries pending snapshots =>
    match pending with
    | [] => none
    | k :: rest =>
      match s.store.get k with
      | some m =>
        some (pruneNext s id p entries rest (if m.isSnapshot then snapshots ++ [k] else snapshots))
      | none => some (pruneNext s id p entries rest snapshots)
  | .pruneDeleting pending =>
    match pending with
    | [] => none
    | k :: rest =>
      let s := { s with store := s.store.delete k, pruned := k :: s.pruned }
      match rest with
      | [] => some (s.finish id p (.ok ()))
      | _ => some (s.setProc id { p with pc := .pruneDeleting rest })

/-- The pending listing, read or delete fails without effect. Pruning skips a manifest it
cannot read; every other call returns the error. -/
def fail (s : State) (id : ManagerId) : Option State :=
  let p := s.procs id
  let failed := some (s.finish id p (.error (.io "backend operation failed")))
  match p.pc with
  | .listing _ | .fetching _ _ _ | .pruneListing | .pruneDeleting _ => failed
  | .pruneScanning entries (_ :: rest) snapshots => some (pruneNext s id p entries rest snapshots)
  | _ => none

def next (serializedLen : Manifest → Nat) (s : State) : Label → Option State
  | .start id call => start s id call
  | .step id nowMs => step serializedLen s id nowMs
  | .fail id => fail s id

/-- An empty bucket and managers fresh from `new`. -/
def initial (ns : String) (config : ManagerId → ManifestConfig) (nowMs : ManagerId → Nat) :
    State where
  procs := fun id => { manager := ManifestManager.new ns (nowMs id) (config id) }

section Schedules

/-- The labels of one undisturbed call of a manager whose namespace has a manifest. -/
def loadLatest (id : ManagerId) : List Label := [.start id .loadLatest, .step id 1, .step id 1]

def acquireEpoch (id : ManagerId) (kind : EpochKind) : List Label :=
  [.start id (.acquireEpoch kind), .step id 1, .step id 1, .step id 1]

/-- An update that only carries epochs, and its first attempt. -/
def update (id : ManagerId) (trigger : ManifestUpdateTrigger) (writerEpoch compactorEpoch : Nat) :
    List Label :=
  [.start id (.update
      { trigger, addSSTables := [], removeSSTables := [], newLastFlushedSequence := none,
        writerEpoch, compactorEpoch }),
    .step id 1]

/-- A refresh and one more attempt. -/
def retry (id : ManagerId) : List Label := [.step id 1, .step id 1, .step id 1]

/-- Managers with the default configuration on an empty bucket. -/
def emptyBucket : State := initial "ns" (fun _ => {}) (fun _ => 0)

end Schedules

end FlushDB.ManifestSystem
