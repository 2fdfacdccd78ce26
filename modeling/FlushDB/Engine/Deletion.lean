import FlushDB.Lib.ObjectStore
import FlushDB.Lib.Run
import FlushDB.Types.Key

/-!
The queue of deferred deletions. A call takes the whole queue and deletes path after path; at a
deletion that fails it puts the failing path back and gives up the paths behind it.
-/

namespace FlushDB
open Lib

/-- `pending_deletions`, and the storage they are deleted from. -/
structure Deferred (κ σ : Type) where
  pending : List κ
  storage : σ

namespace Deferred
variable {κ σ : Type} [ToString κ]

/-- `backend.delete`: an error of the storage, or `remove`, which is none where there is nothing
under the path. -/
def deletePath (remove : κ → σ → Option σ) (fault : Option String) (path : κ) (storage : σ) :
    FlushResult Unit × σ :=
  match fault with
  | some message => (.error (.io message), storage)
  | none =>
    match remove path storage with
    | some storage => (.ok (), storage)
    | none => (.error (.notFound (toString path)), storage)

def scheduleDeletion (paths : List κ) (d : Deferred κ σ) : Deferred κ σ :=
  { d with pending := d.pending ++ paths }

/-- The loop of `run_deletion`, at the `i`-th path; the queue has been drained before it. -/
def deletePaths (remove : κ → σ → Option σ) (failing : Nat → Option String) :
    Nat → Nat → List κ → σ → FlushResult Nat × Deferred κ σ
  | _, deleted, [], storage => (.ok deleted, ⟨[], storage⟩)
  | i, deleted, path :: rest, storage =>
    match deletePath remove (failing i) path storage with
    | (.ok (), storage) => deletePaths remove failing (i + 1) (deleted + 1) rest storage
    | (.error (.notFound _), storage) =>
      deletePaths remove failing (i + 1) (deleted + 1) rest storage
    | (.error e, storage) => (.error e, ⟨[path], storage⟩)

/-- `failing i` is the error of the `i`-th deletion of the call. -/
def runDeletion (remove : κ → σ → Option σ) (failing : Nat → Option String) (d : Deferred κ σ) :
    FlushResult Nat × Deferred κ σ := deletePaths remove failing 0 0 d.pending d.storage

/-- The storage without what stands under the path. -/
def without (remove : κ → σ → Option σ) (storage : σ) (path : κ) : σ :=
  (remove path storage).getD storage

section
variable {remove : κ → σ → Option σ} {failing : Nat → Option String}

theorem deletePaths_cons {i : Nat} (works : failing i = none) (deleted : Nat) (path : κ)
    (rest : List κ) (storage : σ) :
    deletePaths remove failing i deleted (path :: rest) storage =
      deletePaths remove failing (i + 1) (deleted + 1) rest (without remove storage path) := by
  simp only [deletePaths, deletePath, works, without]
  cases remove path storage with
  | none => rfl
  | some storage => rfl

/-- The deletions before the one that fails are done; of the rest only the failing one is kept. -/
theorem deletePaths_failed {done behind : List κ} {failed : κ} {message : String} (i deleted : Nat)
    (storage : σ) (works : ∀ j < done.length, failing (i + j) = none)
    (fails : failing (i + done.length) = some message) :
    deletePaths remove failing i deleted (done ++ failed :: behind) storage =
      (.error (.io message), ⟨[failed], done.foldl (without remove) storage⟩) := by
  induction done generalizing i deleted storage with
  | nil =>
    simp only [List.nil_append, deletePaths, deletePath, show failing i = some message from fails,
      List.foldl_nil]
  | cons path rest ih =>
    have first : failing i = none := works 0 (Nat.succ_pos _)
    rw [List.cons_append, deletePaths_cons first, List.foldl_cons]
    refine ih (i + 1) (deleted + 1) _ ?_ ?_
    · intro j small
      rw [Nat.add_right_comm]
      exact works (j + 1) (Nat.succ_lt_succ small)
    · rw [Nat.add_right_comm]
      exact fails

theorem deletePaths_done {paths : List κ} (i deleted : Nat) (storage : σ)
    (works : ∀ j < paths.length, failing (i + j) = none) :
    deletePaths remove failing i deleted paths storage =
      (.ok (deleted + paths.length), ⟨[], paths.foldl (without remove) storage⟩) := by
  induction paths generalizing i deleted storage with
  | nil => rfl
  | cons path rest ih =>
    have first : failing i = none := works 0 (Nat.succ_pos _)
    rw [deletePaths_cons first, ih (i + 1), List.foldl_cons, List.length_cons]
    · rw [Nat.add_right_comm]
      rfl
    · intro j small
      rw [Nat.add_right_comm]
      exact works (j + 1) (Nat.succ_lt_succ small)

omit [ToString κ] in
/-- Where nothing stands under any of the paths, nothing goes. -/
theorem foldl_without_absent {paths : List κ} {storage : σ}
    (absent : ∀ path ∈ paths, remove path storage = none) :
    paths.foldl (without remove) storage = storage := by
  induction paths with
  | nil => rfl
  | cons path rest ih =>
    rw [List.foldl_cons, without, absent path List.mem_cons_self]
    exact ih fun other member => absent other (List.mem_cons_of_mem _ member)

/-- A call deletes the whole queue, or the part before the first deletion that fails. -/
theorem runDeletion_cases (remove : κ → σ → Option σ) (failing : Nat → Option String)
    (d : Deferred κ σ) :
    ((∀ i < d.pending.length, failing i = none) ∧
      runDeletion remove failing d = (.ok d.pending.length,
        ⟨[], d.pending.foldl (without remove) d.storage⟩)) ∨
    ∃ done failed behind message, d.pending = done ++ failed :: behind ∧
      (∀ i < done.length, failing i = none) ∧
      failing done.length = some message ∧
      runDeletion remove failing d = (.error (.io message),
        ⟨[failed], done.foldl (without remove) d.storage⟩) := by
  by_cases all : ∀ i < d.pending.length, failing i = none
  · refine Or.inl ⟨all, ?_⟩
    have done := @deletePaths_done κ σ _ remove failing d.pending 0 0 d.storage (by simpa using all)
    rw [Nat.zero_add] at done
    exact done
  · right
    have some_fails : ∃ i, i < d.pending.length ∧ failing i ≠ none := by
      by_contra none
      exact all fun i small => by
        by_contra fails
        exact none ⟨i, small, fails⟩
    classical
    obtain ⟨small, fails⟩ := Nat.find_spec some_fails
    have first := fun i (before : i < Nat.find some_fails) => Nat.find_min some_fails before
    generalize Nat.find some_fails = n at small fails first
    obtain ⟨message, fails⟩ := Option.ne_none_iff_exists'.mp fails
    have length : (d.pending.take n).length = n := List.length_take_of_le small.le
    have split : d.pending = d.pending.take n ++ d.pending[n] :: d.pending.drop (n + 1) := by
      rw [← List.drop_eq_getElem_cons small, List.take_append_drop]
    have works : ∀ i < (d.pending.take n).length, failing i = none := by
      intro i before
      rw [length] at before
      by_contra other
      exact first i before ⟨before.trans small, other⟩
    refine ⟨d.pending.take n, d.pending[n], d.pending.drop (n + 1), message, split,
      works, by rw [length]; exact fails, ?_⟩
    have failed := @deletePaths_failed κ σ _ remove failing (d.pending.take n)
      (d.pending.drop (n + 1)) d.pending[n] message
      0 0 d.storage (by simpa using works) (by rw [length, Nat.zero_add]; exact fails)
    rw [← split] at failed
    exact failed

end

section Paths
variable {ν : Type}

/-- Objects under their paths. -/
abbrev removeObject (path : String) (objects : ObjectStore String ν) :
    Option (ObjectStore String ν) :=
  if (objects.get path).isSome then some (objects.delete path) else none

theorem get_without (objects : ObjectStore String ν) (path other : String) :
    (without removeObject objects path).get other = if other = path then none
      else objects.get other := by
  unfold without removeObject
  split
  · exact ObjectStore.get_delete objects path other
  · rename_i absent
    split
    · rename_i same
      rw [same]
      exact Option.not_isSome_iff_eq_none.mp absent
    · rfl

/-- What is deleted is gone, and nothing else. -/
theorem get_foldl_without (paths : List String) (objects : ObjectStore String ν) (other : String) :
    (paths.foldl (without removeObject) objects).get other = if other ∈ paths then none
      else objects.get other := by
  induction paths generalizing objects with
  | nil => simp
  | cons path rest ih =>
    rw [List.foldl_cons, ih, get_without]
    by_cases here : other = path
    · simp [here]
    · simp [here]

inductive Label where
  | scheduleDeletion (paths : List String)
  | runDeletion (failing : Nat → Option String)

def step (d : Deferred String (ObjectStore String ν)) :
    Label → Option (Deferred String (ObjectStore String ν))
  | .scheduleDeletion paths => some (d.scheduleDeletion paths)
  | .runDeletion failing => some (runDeletion removeObject failing d).2

/-- The paths that the labels schedule. -/
def scheduled : List Label → List String
  | [] => []
  | .scheduleDeletion paths :: rest => paths ++ scheduled rest
  | .runDeletion _ :: rest => scheduled rest

/-- When a deletion of the call fails, every path behind it is the failing one again, or one that
has been deleted before. -/
def FailsLast (d : Deferred String (ObjectStore String ν)) : Label → Prop
  | .scheduleDeletion _ => True
  | .runDeletion failing => ∀ done failed behind, d.pending = done ++ failed :: behind →
      (∀ i < done.length, failing i = none) → failing done.length ≠ none →
        ∀ path ∈ behind, path = failed ∨ path ∈ done

/-- Every path that was scheduled waits or is gone. -/
def Kept (paths : List String) (d : Deferred String (ObjectStore String ν)) : Prop :=
  ∀ path ∈ paths, path ∈ d.pending ∨ d.storage.get path = none

theorem kept_runDeletion {paths : List String} {d : Deferred String (ObjectStore String ν)}
    (kept : Kept paths d) {failing : Nat → Option String}
    (last : FailsLast d (.runDeletion failing)) :
    Kept paths (runDeletion removeObject failing d).2 := by
  rcases runDeletion_cases removeObject failing
    d with ⟨-, run⟩ | ⟨done, failed, behind, message, split, works, fails, run⟩
  · rw [run]
    intro path listed
    right
    rw [get_foldl_without]
    split
    · rfl
    · rename_i other
      exact (kept path listed).resolve_left other
  · rw [run]
    intro path listed
    have behind_kept := last done failed behind split works (by rw [fails]; exact Option.some_ne_none _)
    rcases kept path listed with waits | gone
    · rw [split, List.mem_append, List.mem_cons] at waits
      have place : path = failed ∨ path ∈ done := by
        rcases waits with before | here | after
        · exact Or.inr before
        · exact Or.inl here
        · exact behind_kept path after
      rcases place with here | before
      · exact Or.inl (List.mem_singleton.mpr here)
      · right
        rw [get_foldl_without, if_pos before]
    · right
      rw [get_foldl_without]
      split
      · rfl
      · exact gone

theorem kept_run {paths : List String} {d t : Deferred String (ObjectStore String ν)}
    (kept : Kept paths d) {labels : List Label} (last : Admits step FailsLast d labels)
    (run : exec step d labels = some t) : Kept (paths ++ scheduled labels) t := by
  induction labels generalizing d paths with
  | nil =>
    cases run
    rw [scheduled, List.append_nil]
    exact kept
  | cons a rest ih =>
    obtain ⟨mid, taken, run⟩ := exec_cons run
    have later := last.2 mid taken
    cases a with
    | scheduleDeletion more =>
      cases taken
      have extended : Kept (paths ++ more) (d.scheduleDeletion more) := by
        intro path listed
        rcases List.mem_append.mp listed with old | new
        · exact (kept path old).imp_left (List.mem_append_left _)
        · exact Or.inl (List.mem_append_right _ new)
      rw [scheduled, ← List.append_assoc]
      exact ih extended later run
    | runDeletion failing =>
      cases taken
      exact ih (kept_runDeletion kept last.1) later run

/-- A call that fails keeps the paths it has not deleted exactly when nothing else is queued behind
the path at which it fails; and when all failing calls of a run are of this kind, a call that
succeeds leaves none of the paths that were ever scheduled. -/
theorem failed_deletion_keeps_iff (objects : ObjectStore String ν) :
    (∀ (done : List String) (failed : String) (behind : List String) (failing : Nat → Option String) (message : String),
      (∀ i < done.length, failing i = none) → failing done.length = some message →
        ∃ after, runDeletion removeObject failing ⟨done ++ failed :: behind, objects⟩ =
          (.error (.io message), after) ∧
          ((∀ path ∈ done ++ failed :: behind, path ∉ done → path ∈ after.pending) ↔
            ∀ path ∈ behind, path = failed ∨ path ∈ done)) ∧
    ∀ (labels : List Label) (failing : Nat → Option String) (t u : Deferred String (ObjectStore String ν)) (n : Nat),
      Admits step FailsLast ⟨[], objects⟩ labels → exec step ⟨[], objects⟩ labels = some t →
        runDeletion removeObject failing t = (.ok n, u) →
          ∀ path ∈ scheduled labels, u.storage.get path = none := by
  constructor
  · intro done failed behind failing message works fails
    have run := @deletePaths_failed String (ObjectStore String ν) _ removeObject failing done behind
      failed message 0 0 objects
      (by simpa using works) (by simpa using fails)
    refine ⟨_, run, ?_⟩
    simp only [List.mem_singleton]
    constructor
    · intro kept path after
      by_cases before : path ∈ done
      · exact Or.inr before
      · exact Or.inl (kept path (List.mem_append_right _ (List.mem_cons_of_mem _ after)) before)
    · intro behind_kept path listed other
      rcases List.mem_append.mp listed with before | later
      · exact absurd before other
      · rcases List.mem_cons.mp later with here | after
        · exact here
        · exact (behind_kept path after).resolve_right other
  · intro labels failing t u n last run succeeds path listed
    have start : Kept [] (⟨[], objects⟩ : Deferred String (ObjectStore String ν)) := by
      intro path none
      cases none
    have kept := kept_run start last run
    rw [List.nil_append] at kept
    rcases runDeletion_cases removeObject failing
      t with ⟨-, done⟩ | ⟨done, failed, behind, message, -, -, -, failed_run⟩
    · rw [done] at succeeds
      cases succeeds
      rw [get_foldl_without]
      split
      · rfl
      · rename_i other
        exact (kept path listed).resolve_left other
    · rw [failed_run] at succeeds
      cases succeeds

section Example

def twoObjects : ObjectStore String Nat := (ObjectStore.empty.put "a" 1).put "b" 2

/-- The storage fails at the first deletion. -/
def failsFirst (i : Nat) : Option String := if i = 0 then some "unreachable" else none

/-- Two paths are scheduled and the first deletion fails; after the repetition has succeeded, the
second object is still there. -/
theorem failed_deletion_forgets :
    ∃ t u, exec step ⟨[], twoObjects⟩ [.scheduleDeletion ["a", "b"], .runDeletion failsFirst] = some t ∧
      (runDeletion removeObject failsFirst ⟨["a", "b"], twoObjects⟩).1 =
        .error (.io "unreachable") ∧ "b" ∉ t.pending ∧
      runDeletion removeObject (fun _ => none) t = (.ok 1, u) ∧ u.storage.get "b" = some 2 :=
  ⟨_, _, rfl, rfl, by decide, rfl, rfl⟩

/-- The storage fails at the second deletion. -/
def failsSecond (i : Nat) : Option String := if i = 1 then some "unreachable" else none

/-- A failure at the last path, behind one that is deleted, keeps it, and the repetition deletes
it. -/
theorem failed_deletion_keeps_last :
    (∃ after, runDeletion removeObject failsSecond ⟨["a", "b"], twoObjects⟩ =
      (.error (.io "unreachable"), after) ∧
      ∀ path ∈ ["a", "b"], path ∉ ["a"] → path ∈ after.pending) ∧
    ∃ t u, exec step ⟨[], twoObjects⟩ [.scheduleDeletion ["a", "b"], .runDeletion failsSecond] =
      some t ∧
      runDeletion removeObject (fun _ => none) t = (.ok 1, u) ∧ u.storage.get "a" = none ∧
        u.storage.get "b" = none := by
  have works : ∀ i < ["a"].length, failsSecond i = none := by decide
  obtain ⟨after, run, kept⟩ := (failed_deletion_keeps_iff twoObjects).1 ["a"] "b"
    [] failsSecond "unreachable" works rfl
  refine ⟨⟨after, run, kept.mpr (by simp)⟩, _, _, rfl, rfl, ?_⟩
  have admitted : Admits step FailsLast ⟨[], twoObjects⟩
      [.scheduleDeletion ["a", "b"], .runDeletion failsSecond] := by
    refine ⟨trivial, ?_⟩
    intro t taken
    cases taken
    refine ⟨?_, fun _ _ => trivial⟩
    intro done failed behind split works fails path after
    cases done with
    | nil => exact absurd rfl fails
    | cons first rest =>
      cases rest with
      | nil =>
        cases split
        cases after
      | cons second others => simp [scheduleDeletion] at split
  have deleted := (failed_deletion_keeps_iff twoObjects).2 _ (fun _ => none) _ _ 1 admitted rfl rfl
  exact ⟨deleted "a" (by decide), deleted "b" (by decide)⟩

end Example

end Paths

end Deferred

end FlushDB
