import Mathlib.Data.List.MinMax
import FlushDB.Manifest.Types

/-! Which compactions a manifest calls for, and whether writes have to wait for them. -/

namespace FlushDB

structure CompactionConfig where
  l0CompactionTrigger : Nat := 4
  l0SlowdownTrigger : Nat := 8
  l0StopTrigger : Nat := 12
  l1MaxBytes : Nat := 256 * 1024 * 1024
  l2MaxBytes : Nat := 2560 * 1024 * 1024
  targetFragmentSize : Nat := 64 * 1024 * 1024

inductive CompactionType where
  | l0ToL1 | levelToLevel | tombstoneGC
  deriving DecidableEq, Repr

structure CompactionTask where
  taskType : CompactionType
  sourceLevel : Level
  targetLevel : Level
  inputSSTables : List SSTableMeta
  targetSSTables : List SSTableMeta

inductive WriteStallStatus where
  | normal
  | slowdown (l0Count delayMs : Nat)
  | stopped (l0Count : Nat)
  deriving DecidableEq, Repr

namespace CompactionScheduler

def combinedKeyRange : List SSTableMeta → Option (Bytes × Bytes)
  | [] => none
  | first :: rest =>
    some (rest.foldl
      (fun range t =>
        (if t.minKey < range.1 then t.minKey else range.1,
          if range.2 < t.maxKey then t.maxKey else range.2))
      (first.minKey, first.maxKey))

def checkL0Trigger (config : CompactionConfig) (m : Manifest) : Option CompactionTask :=
  if m.l0Count ≤ config.l0CompactionTrigger then none
  else
    let l0 := m.sstablesAtLevel .L0
    (combinedKeyRange l0).map fun (minKey, maxKey) =>
      { taskType := .l0ToL1
        sourceLevel := .L0
        targetLevel := .L1
        inputSSTables := l0
        targetSSTables := m.findOverlapping .L1 minKey maxKey }

/-- The size a level may reach, for the levels that overflow. -/
def maxBytes (config : CompactionConfig) : Level → Option Nat
  | .L1 => some config.l1MaxBytes
  | .L2 => some config.l2MaxBytes
  | .L3 | .L0 => none

/-- The oldest table of the level moves down. -/
def checkLevelTrigger (config : CompactionConfig) (m : Manifest) (level : Level) :
    Option CompactionTask := do
  let limit ← maxBytes config level
  if m.levelSizeBytes level ≤ limit then none
  else
    let target ← level.next
    let input ← (m.sstablesAtLevel level).argmin SSTableMeta.createdAtMs
    return {
      taskType := .levelToLevel
      sourceLevel := level
      targetLevel := target
      inputSSTables := [input]
      targetSSTables := m.findOverlapping target input.minKey input.maxKey }

def checkTriggers (config : CompactionConfig) (m : Manifest) : List CompactionTask :=
  (checkL0Trigger config m).toList ++ (checkLevelTrigger config m .L1).toList ++
    (checkLevelTrigger config m .L2).toList

def writeStallStatus (config : CompactionConfig) (m : Manifest) : WriteStallStatus :=
  if m.l0Count ≥ config.l0StopTrigger then .stopped m.l0Count
  else if m.l0Count > config.l0SlowdownTrigger then
    .slowdown m.l0Count (m.l0Count - config.l0SlowdownTrigger)
  else .normal

theorem combinedKeyRange_contains {tables : List SSTableMeta} {low high : Bytes}
    (h : combinedKeyRange tables = some (low, high)) :
    ∀ t ∈ tables, low ≤ t.minKey ∧ t.maxKey ≤ high := by
  have general : ∀ (rest : List SSTableMeta) (range : Bytes × Bytes),
      let final := rest.foldl
        (fun range t =>
          (if t.minKey < range.1 then t.minKey else range.1,
            if range.2 < t.maxKey then t.maxKey else range.2)) range
      final.1 ≤ range.1 ∧ range.2 ≤ final.2 ∧ ∀ t ∈ rest, final.1 ≤ t.minKey ∧
        t.maxKey ≤ final.2 := by
    intro rest
    induction rest with
    | nil =>
      intro range
      exact ⟨le_refl _, le_refl _, by simp⟩
    | cons t rest ih =>
      intro range
      rw [List.foldl_cons]
      obtain ⟨low, high, inside⟩ := ih
        (if t.minKey < range.1 then t.minKey else range.1,
          if range.2 < t.maxKey then t.maxKey else range.2)
      have lower : (if t.minKey < range.1 then t.minKey else range.1) ≤ range.1 ∧
          (if t.minKey < range.1 then t.minKey else range.1) ≤ t.minKey := by
        split
        · rename_i less
          exact ⟨less.le, le_refl _⟩
        · rename_i more
          exact ⟨le_refl _, not_lt.mp more⟩
      have upper : range.2 ≤ (if range.2 < t.maxKey then t.maxKey else range.2) ∧
          t.maxKey ≤ (if range.2 < t.maxKey then t.maxKey else range.2) := by
        split
        · rename_i less
          exact ⟨less.le, le_refl _⟩
        · rename_i more
          exact ⟨le_refl _, not_lt.mp more⟩
      refine ⟨low.trans lower.1, upper.1.trans high, ?_⟩
      intro other member
      rcases List.mem_cons.mp member with rfl | later
      · exact ⟨low.trans lower.2, upper.2.trans high⟩
      · exact inside other later
  cases tables with
  | nil => cases h
  | cons first rest =>
    have final := general rest (first.minKey, first.maxKey)
    simp only [combinedKeyRange, Option.some.injEq] at h
    rw [h] at final
    intro t member
    rcases List.mem_cons.mp member with rfl | later
    · exact ⟨final.1, final.2.1⟩
    · exact final.2.2 t later

end CompactionScheduler

end FlushDB
