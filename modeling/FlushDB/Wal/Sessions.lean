import FlushDB.Lib.Run
import FlushDB.Wal.Order

/-!
Sessions over one WAL directory. The next sequence number is not stored: opening derives it
from the entries that are left. When the entry with the last number has been deleted with its
segment, the next session assigns numbers again that were assigned before.
-/

namespace FlushDB.WalSessions
open Lib

/-- `assigned` is ghost: every number an append has assigned, in order. -/
structure State where
  dir : WalDir := ObjectStore.empty
  writer : Option WalWriter := none
  assigned : List Nat := []

inductive Label where
  | openDir (config : WalConfig)
  | append (entry : WalEntry)
  | appendBatch (entries : List WalEntry)
  | rotate
  | removeSegment (number : Nat)
  | cleanupSegments (numbers : List Nat)
  | close

/-- Deletes the segments of the list other than the current one. -/
def cleanupSegments (current : Nat) (dir : WalDir) (numbers : List Nat) : WalDir :=
  numbers.foldl (fun dir number => if number = current then dir else dir.delete number) dir

def appended (s : State) (w : WalWriter) (entries : List WalEntry) : Option State :=
  match w.appendBatch s.dir entries with
  | .error _ => none
  | .ok (next, dir) =>
    some { dir, writer := some next,
           assigned := s.assigned ++ List.range' w.nextSequenceNumber entries.length }

def step (s : State) : Label → Option State
  | .openDir config =>
    match s.writer with
    | some _ => none
    | none =>
      match WalWriter.openDir s.dir config with
      | .error _ => none
      | .ok (w, dir) => some { s with dir, writer := some w }
  | .append entry => s.writer.bind fun w => appended s w [entry]
  | .appendBatch entries => s.writer.bind fun w => appended s w entries
  | .rotate => s.writer.bind fun w =>
    match w.rotate s.dir with
    | .error _ => none
    | .ok (next, dir) => some { s with dir, writer := some next }
  | .removeSegment number => s.writer.bind fun w =>
    match w.removeSegment s.dir number with
    | .error _ => none
    | .ok (next, dir) => some { s with dir, writer := some next }
  | .cleanupSegments numbers => s.writer.map fun w =>
    { s with dir := cleanupSegments w.currentSegment s.dir numbers }
  | .close => s.writer.map fun _ => { s with writer := none }

/-- Opening finds the entry with the last assigned number, and what is appended fits its
length prefixes, so that it can be read back. -/
def LastSurvives (s : State) : Label → Prop
  | .openDir _ =>
    ∀ last ∈ s.assigned.getLast?, last ∈ (WalReader.replayAll s.dir).map WalEntry.sequenceNumber
  | .append entry => entry.Fits
  | .appendBatch entries => ∀ entry ∈ entries, entry.Fits
  | _ => True

instance (s : State) : (a : Label) → Decidable (LastSurvives s a)
  | .openDir _ => inferInstanceAs (Decidable (∀ last ∈ s.assigned.getLast?, _ ∈ _))
  | .append entry => inferInstanceAs (Decidable entry.Fits)
  | .appendBatch entries => inferInstanceAs (Decidable (∀ entry ∈ entries, entry.Fits))
  | .rotate | .removeSegment _ | .cleanupSegments _ | .close => isTrue trivial

/-- The directory is ordered, and an open writer continues it. -/
structure Sound (s : State) : Prop where
  ordered : s.dir.Ordered
  opened : ∀ w, s.writer = some w → w.Open s.dir

theorem sound_start : Sound {} := ⟨WalDir.ordered_empty, nofun⟩

theorem sound_cleanup {w : WalWriter} {dir : WalDir} (ordered : dir.Ordered) (opened : w.Open dir)
    (numbers : List Nat) : (cleanupSegments w.currentSegment dir numbers).Ordered ∧
      w.Open (cleanupSegments w.currentSegment dir numbers) := by
  unfold cleanupSegments
  induction numbers generalizing dir with
  | nil => exact ⟨ordered, opened⟩
  | cons number rest ih =>
    rw [List.foldl_cons]
    split
    · exact ih ordered opened
    · rename_i other
      exact ih (ordered.delete number) (opened.delete other)

theorem appended_spec {s t : State} {w : WalWriter} {entries : List WalEntry} (h : Sound s)
    (active : s.writer = some w) (taken : appended s w entries = some t) : Sound t ∧
      t.assigned = s.assigned ++ List.range' w.nextSequenceNumber entries.length ∧
      ∀ v, t.writer = some v → v.nextSequenceNumber = w.nextSequenceNumber + entries.length := by
  obtain ⟨w', dir', appends, ordered, opened, next, -, -⟩ :=
    WalWriter.appendBatch_spec h.ordered (h.opened w active) entries
  simp only [appended, appends, Option.some.injEq] at taken
  subst taken
  refine ⟨⟨ordered, ?_⟩, rfl, ?_⟩
  · rintro v ⟨⟩
    exact opened
  · rintro v ⟨⟩
    exact next

/-- Every step keeps the order, whatever is left in the directory. -/
theorem sound_step {s t : State} {a : Label} (h : Sound s) (taken : step s a = some t) :
    Sound t := by
  cases a with
  | openDir config =>
    simp only [step] at taken
    cases active : s.writer with
    | some w => simp [active] at taken
    | none =>
      obtain ⟨w, dir', opens, ordered, opened, -, -, -⟩ := WalWriter.openDir_spec h.ordered config
      simp only [active, opens, Option.some.injEq] at taken
      subst taken
      refine ⟨ordered, ?_⟩
      rintro v ⟨⟩
      exact opened
  | append entry =>
    obtain ⟨w, active, taken⟩ := Option.bind_eq_some_iff.mp taken
    exact (appended_spec h active taken).1
  | appendBatch entries =>
    obtain ⟨w, active, taken⟩ := Option.bind_eq_some_iff.mp taken
    exact (appended_spec h active taken).1
  | rotate =>
    obtain ⟨w, active, taken⟩ := Option.bind_eq_some_iff.mp taken
    obtain ⟨w', dir', rotates, ordered, opened, -, -, -, -⟩ :=
      WalWriter.rotate_spec h.ordered (h.opened w active)
    simp only [rotates, Option.some.injEq] at taken
    subst taken
    refine ⟨ordered, ?_⟩
    rintro v ⟨⟩
    exact opened
  | removeSegment number =>
    obtain ⟨w, active, taken⟩ := Option.bind_eq_some_iff.mp taken
    split at taken
    · cases taken
    · rename_i w' dir' removes
      obtain rfl := Option.some.inj taken
      obtain ⟨other, rfl, same⟩ := WalWriter.removeSegment_ok removes
      refine ⟨h.ordered.delete number, ?_⟩
      rintro v ⟨⟩
      rw [same]
      have kept := (h.opened w active).delete other
      exact ⟨kept.current, kept.newest, kept.above⟩
  | cleanupSegments numbers =>
    obtain ⟨w, active, rfl⟩ := Option.map_eq_some_iff.mp taken
    obtain ⟨ordered, opened⟩ := sound_cleanup h.ordered (h.opened w active) numbers
    refine ⟨ordered, ?_⟩
    intro v same
    obtain rfl := Option.some.inj (active.symm.trans same)
    exact opened
  | close =>
    obtain ⟨w, active, rfl⟩ := Option.map_eq_some_iff.mp taken
    exact ⟨h.ordered, nofun⟩

structure Inv (s : State) : Prop where
  ordered : s.dir.Ordered
  opened : ∀ w, s.writer = some w → w.Open s.dir ∧ ∀ n ∈ s.assigned, n < w.nextSequenceNumber
  ascending : s.assigned.Pairwise (· < ·)

theorem Inv.sound {s : State} (h : Inv s) : Sound s :=
  ⟨h.ordered, fun w active => (h.opened w active).1⟩

/-- Where the directory stays sound, only the numbers have to be looked at. -/
theorem Sound.inv {s : State} (h : Sound s)
    (below : ∀ w, s.writer = some w → ∀ n ∈ s.assigned, n < w.nextSequenceNumber)
    (ascending : s.assigned.Pairwise (· < ·)) : Inv s :=
  ⟨h.ordered, fun w active => ⟨h.opened w active, below w active⟩, ascending⟩

theorem inv_appended {s t : State} {w : WalWriter} {entries : List WalEntry} (h : Inv s)
    (active : s.writer = some w) (taken : appended s w entries = some t) : Inv t := by
  obtain ⟨-, below⟩ := h.opened w active
  obtain ⟨sound, numbers, next⟩ := appended_spec h.sound active taken
  refine sound.inv ?_ ?_
  · intro v now_active n member
    rw [next v now_active]
    rw [numbers] at member
    rcases List.mem_append.mp member with old | new
    · exact (below n old).trans_le (Nat.le_add_right _ _)
    · exact (List.mem_range'_1.mp new).2
  · rw [numbers, List.pairwise_append]
    refine ⟨h.ascending, List.pairwise_lt_range', ?_⟩
    intro a old b new
    exact (below a old).trans_le (List.mem_range'_1.mp new).1

theorem inv_step {s t : State} {a : Label} (h : Inv s) (survives : LastSurvives s a)
    (taken : step s a = some t) : Inv t := by
  have sound := sound_step h.sound taken
  cases a with
  | openDir config =>
    simp only [step] at taken
    cases active : s.writer with
    | some w => simp [active] at taken
    | none =>
      obtain ⟨w, dir', opens, -, opened, -, holds, -⟩ := WalWriter.openDir_spec h.ordered config
      simp only [active, opens, Option.some.injEq] at taken
      subst taken
      refine sound.inv ?_ h.ascending
      rintro v ⟨⟩ n member
      -- the last number is in the directory, and opening continues above what it finds
      cases final : s.assigned.getLast? with
      | none =>
        rw [List.getLast?_eq_none_iff.mp final] at member
        cases member
      | some last =>
        obtain ⟨e, held, number⟩ := List.mem_map.mp (survives last final)
        have least : n ≤ last := by
          obtain ⟨init, whole⟩ := List.getLast?_eq_some_iff.mp final
          have ascending := h.ascending
          rw [whole] at member ascending
          rcases List.mem_append.mp member with early | same
          · exact ((List.pairwise_append.mp ascending).2.2 n early last (List.mem_singleton_self _)).le
          · exact (List.mem_singleton.mp same).le
        have kept : dir'.Holds e := (holds e).mpr (WalReader.mem_replayAll.mp held)
        have := opened.above e kept
        omega
  | append entry =>
    obtain ⟨w, active, taken⟩ := Option.bind_eq_some_iff.mp taken
    exact inv_appended h active taken
  | appendBatch entries =>
    obtain ⟨w, active, taken⟩ := Option.bind_eq_some_iff.mp taken
    exact inv_appended h active taken
  | rotate =>
    obtain ⟨w, active, taken⟩ := Option.bind_eq_some_iff.mp taken
    obtain ⟨opened, below⟩ := h.opened w active
    obtain ⟨w', dir', rotates, -, -, next, -, -, -⟩ := WalWriter.rotate_spec h.ordered opened
    simp only [rotates, Option.some.injEq] at taken
    subst taken
    refine sound.inv ?_ h.ascending
    rintro v ⟨⟩
    exact fun n member => next ▸ below n member
  | removeSegment number =>
    obtain ⟨w, active, taken⟩ := Option.bind_eq_some_iff.mp taken
    obtain ⟨-, below⟩ := h.opened w active
    split at taken
    · cases taken
    · rename_i w' dir' removes
      obtain rfl := Option.some.inj taken
      obtain ⟨-, -, same⟩ := WalWriter.removeSegment_ok removes
      refine sound.inv ?_ h.ascending
      rintro v ⟨⟩
      rw [same]
      exact below
  | cleanupSegments numbers =>
    obtain ⟨w, active, rfl⟩ := Option.map_eq_some_iff.mp taken
    obtain ⟨-, below⟩ := h.opened w active
    refine sound.inv ?_ h.ascending
    intro v same
    obtain rfl := Option.some.inj (active.symm.trans same)
    exact below
  | close =>
    obtain ⟨w, active, rfl⟩ := Option.map_eq_some_iff.mp taken
    exact sound.inv (nofun) h.ascending

/-- Sequence numbers ascend in every run in which each re-opening finds the last of them. -/
theorem sequence_numbers_ascend {labels : List Label} {s : State}
    (survives : Admits step LastSurvives {} labels) (run : exec step {} labels = some s) :
    s.assigned.Pairwise (· < ·) := by
  have start : Inv {} := ⟨WalDir.ordered_empty, nofun, .nil⟩
  exact (exec_invariant (fun _ _ _ kept ok taken => inv_step kept ok taken) start survives run).ascending

section Example

def sampleEntry : WalEntry where
  sequenceNumber := 0
  entryType := .put
  ns := ⟨[110, 115]⟩
  recordId := ⟨[114]⟩
  itemKey := ⟨[107]⟩
  itemValue := ⟨[118]⟩
  itemMetadata := ⟨[]⟩
  idempotencyToken := .none
  origin := 0

/-- One write, a rotation, the deletion of the first segment, and a second session. -/
def cleanedRestart : List Label :=
  [.openDir {}, .append sampleEntry, .rotate, .cleanupSegments [1], .close, .openDir {},
    .append sampleEntry]

theorem cleanedRestart_repeats :
    ∃ s, exec step {} cleanedRestart = some s ∧ ¬ s.assigned.Pairwise (· < ·) :=
  ⟨_, rfl, by decide⟩

theorem sequence_numbers_ascend_restart :
    ∃ s, exec step {} [.openDir {}, .appendBatch [sampleEntry, sampleEntry], .rotate,
      .append sampleEntry,
        .rotate, .cleanupSegments [1], .close, .openDir {}, .append sampleEntry] = some s ∧
      s.assigned = [1, 2, 3, 4] ∧ s.assigned.Pairwise (· < ·) := by
  have survives : Admits step LastSurvives {} [.openDir {}, .appendBatch [sampleEntry, sampleEntry],
      .rotate,
      .append sampleEntry, .rotate, .cleanupSegments [1], .close, .openDir {},
        .append sampleEntry] := by decide
  exact ⟨_, rfl, rfl, sequence_numbers_ascend survives rfl⟩

end Example

end FlushDB.WalSessions
