import Mathlib.Logic.Relation
import FlushDB.Manifest.Chain

/-!
Pruning makes manifest ids absent again, and absence is all that the conditional put tests.
A manager that still holds a manifest from before the pruned range can commit to a pruned
id: its update returns `Ok` and no load ever brings it back.
-/

namespace FlushDB.ManifestSystem
open Lib

/-- `descendant` comes from `ancestor` by a chain of commits. -/
def Descends (commits : List Commit) (ancestor descendant : Manifest) : Prop :=
  Relation.ReflTransGen (fun a b => ∃ c ∈ commits, c.base = a ∧ c.stored = b) ancestor descendant

/-- A load that began after an update had returned `Ok` brings the update's manifest or a
descendant of it. -/
def UpdatesSurvive (s : State) : Prop :=
  ∀ (i : Nat) (c : Commit), s.commits[i]? = some c → c.origin = .update →
    ∀ l ∈ s.loads, i < l.since → Descends s.commits c.stored l.manifest

theorem Inv.updatesSurvive {s : State} (h : Inv s) : UpdatesSurvive s := by
  intro i c found _ l member later
  obtain ⟨recorded, newer⟩ := h.loads l member
  refine recorded_induction (P := Descends s.commits c.stored) h.chain.commits found .refl ?_
    recorded (by omega)
  intro d committed reached
  exact reached.tail ⟨d, committed, rfl, rfl⟩

/-- No update is swallowed in a run that commits to no pruned id. -/
theorem updates_survive {len : Manifest → Nat} {ns : String} {config : ManagerId → ManifestConfig}
    {nowMs : ManagerId → Nat} {labels : List Label} {s : State}
    (fresh : Admits (next len) NoReuse (initial ns config nowMs) labels)
    (run : exec (next len) (initial ns config nowMs) labels = some s) : UpdatesSurvive s :=
  (inv_run fresh run).updatesSurvive

section Example

/-- Managers that write a snapshot with every update. -/
def snapshotting : State := initial "ns" (fun _ => { snapshotInterval := 1 }) (fun _ => 0)

/-- A pruning run of manager `id` over `entries` manifests that deletes `deleted` of them. -/
def pruneOldManifests (id : ManagerId) (entries deleted : Nat) : List Label :=
  .start id .pruneOldManifests :: .step id 1 :: List.replicate (entries + deleted) (.step id 1)

/-- A flush of manager `id` up to sequence 7. -/
def flushSeven (id : ManagerId) : List Label :=
  [.start id (.update
      { trigger := .flush, addSSTables := [], removeSSTables := [],
        newLastFlushedSequence := some 7,
        writerEpoch := 0, compactorEpoch := 0 }),
    .step id 2]

/-- Three updates by manager 0, which then prunes manifests 0 and 1. -/
def prunedHistory : List Label :=
  loadLatest 0 ++ loadLatest 1 ++ update 0 .flush 0 0 ++ update 0 .flush 0 0 ++ update 0 .flush 0 0 ++
    pruneOldManifests 0 4 2

/-- Manager 1 still holds manifest 0 and commits to id 1. -/
def swallowed : List Label := prunedHistory ++ flushSeven 1 ++ loadLatest 1

theorem swallowed_lost :
    ∃ s, exec (next fun _ => 300) snapshotting swallowed = some s ∧ ¬ UpdatesSurvive s := by
  refine ⟨_, rfl, ?_⟩
  intro survive
  have reached := survive 3 _ rfl rfl _ (List.mem_of_getElem? (i := 2) rfl) (by decide)
  rcases Relation.ReflTransGen.cases_head reached with same | ⟨m, ⟨c, member, base, -⟩, -⟩
  · exact absurd (congrArg Manifest.manifestId same) (by decide)
  · -- no commit was made on what manager 1 stored
    have watermark := congrArg Manifest.lastFlushedSequence base
    clear base
    revert c
    decide

theorem updates_survive_pruned :
    ∃ s, exec (next fun _ => 300) snapshotting (prunedHistory ++ loadLatest 1 ++ flushSeven 1 ++ loadLatest 0) =
        some s ∧ s.pruned = [1, 0] ∧ s.commits.length = 4 ∧ UpdatesSurvive s := by
  have fresh : Admits (next fun _ => 300) NoReuse snapshotting
      (prunedHistory ++ loadLatest 1 ++ flushSeven 1 ++ loadLatest 0) := by decide
  exact ⟨_, rfl, rfl, rfl, updates_survive fresh rfl⟩

end Example

end FlushDB.ManifestSystem
