import Mathlib.Data.Nat.Bitwise
import Mathlib.Data.List.Nodup
import FlushDB.Lib.Run

/-!
The version generator. The timestamp and the next sequence stand in one word, which threads
update with a compare-exchange in a loop. Every step of a thread is a step of its own: it reads
the clock, loads the word, and tries to replace it.
-/

namespace FlushDB
open Lib

structure OrderedKey where
  timestampMs : UInt64
  nodeId : UInt16
  sequence : UInt16
  deriving DecidableEq

/-- The fields decide in their order. -/
instance : LT OrderedKey where
  lt a b := a.timestampMs < b.timestampMs ∨ (a.timestampMs = b.timestampMs ∧
    (a.nodeId < b.nodeId ∨ (a.nodeId = b.nodeId ∧ a.sequence < b.sequence)))

namespace VersionGenerator

def timestampShift : UInt64 := 16
def seqMask : UInt64 := 0xFFFF

def pack (timestampMs : UInt64) (nextSeq : UInt16) : UInt64 :=
  (timestampMs <<< timestampShift) ||| nextSeq.toUInt64

def unpack (state : UInt64) : UInt64 × UInt16 :=
  (state >>> timestampShift, (state &&& seqMask).toUInt16)

/-- Where a thread is in `next_version`. -/
inductive Phase where
  | idle
  | looping
  | clockRead (currentMs : UInt64)
  | loaded (currentMs state : UInt64)
  | spinning (targetTs : UInt64)

/-- `returned` is ghost: the keys in the order of their compare-exchanges. -/
structure Generator where
  nodeId : UInt16
  state : UInt64 := pack 0 0
  phases : Nat → Phase := fun _ => .idle
  returned : List OrderedKey := []

def new (nodeId : UInt16) : Generator := { nodeId }

/-- The word to store and the key to return; nothing when the sequence of the millisecond is used
up. -/
def attempt (nodeId : UInt16) (currentMs state : UInt64) : Option (UInt64 × OrderedKey) :=
  let (lastTs, nextSeq) := unpack state
  if currentMs > lastTs then some (pack currentMs 1, ⟨currentMs, nodeId, 0⟩)
  else if nextSeq = 0xFFFF then none
  else some (state + 1, ⟨lastTs, nodeId, nextSeq⟩)

inductive Label where
  | nextVersion (thread : Nat)
  | readClock (thread : Nat) (currentMs : UInt64)
  | load (thread : Nat)
  | compareExchange (thread : Nat)
  | spin (thread : Nat) (now : UInt64)

namespace Generator

def goto (g : Generator) (thread : Nat) (phase : Phase) : Generator :=
  { g with phases := Function.update g.phases thread phase }

def step (g : Generator) : Label → Option Generator
  | .nextVersion thread =>
    match g.phases thread with
    | .idle => some (g.goto thread .looping)
    | _ => none
  | .readClock thread currentMs =>
    match g.phases thread with
    | .looping => some (g.goto thread (.clockRead currentMs))
    | _ => none
  | .load thread =>
    match g.phases thread with
    | .clockRead currentMs =>
      match attempt g.nodeId currentMs g.state with
      | some _ => some (g.goto thread (.loaded currentMs g.state))
      | none => some (g.goto thread (.spinning (unpack g.state).1))
    | _ => none
  | .compareExchange thread =>
    match g.phases thread with
    | .loaded currentMs state =>
      match attempt g.nodeId currentMs state with
      | some (newState, key) =>
        if g.state = state then
          some { g.goto thread .idle with state := newState, returned := g.returned ++ [key] }
        else some (g.goto thread .looping)
      | none => none
    | _ => none
  | .spin thread now =>
    match g.phases thread with
    | .spinning targetTs => some (if now > targetTs then g.goto thread .looping else g)
    | _ => none

end Generator

/-- The readings of the clock fit the 48 bits of the timestamp. -/
def Label.Fits : Label → Prop
  | .readClock _ currentMs => currentMs.toNat < 2 ^ 48
  | _ => True

/-- The word that is one below the one stored with the key. -/
def rank (key : OrderedKey) : Nat := key.timestampMs.toNat * 2 ^ 16 + key.sequence.toNat

theorem lt_of_rank {a b : OrderedKey} (node : a.nodeId = b.nodeId) (less : rank a < rank b) :
    a < b := by
  unfold rank at less
  have small := a.sequence.toNat_lt
  have small' := b.sequence.toNat_lt
  rcases Nat.lt_trichotomy a.timestampMs.toNat b.timestampMs.toNat with earlier | same | later
  · exact Or.inl (UInt64.lt_iff_toNat_lt.mpr earlier)
  · refine Or.inr ⟨UInt64.toNat_inj.mp same, Or.inr ⟨node, UInt16.lt_iff_toNat_lt.mpr ?_⟩⟩
    omega
  · omega

theorem toNat_pack {timestampMs : UInt64} (fits : timestampMs.toNat < 2 ^ 48) (nextSeq : UInt16) :
    (pack timestampMs nextSeq).toNat = timestampMs.toNat * 2 ^ 16 + nextSeq.toNat := by
  have small := nextSeq.toNat_lt
  have shifted : (timestampMs <<< timestampShift).toNat = timestampMs.toNat <<< 16 := by
    rw [UInt64.toNat_shiftLeft, show timestampShift.toNat % 64 = 16 from rfl, Nat.shiftLeft_eq,
      Nat.mod_eq_of_lt (by omega)]
  rw [pack, UInt64.toNat_or, shifted, UInt16.toNat_toUInt64, ← Nat.shiftLeft_add_eq_or_of_lt small,
    Nat.shiftLeft_eq]

theorem toNat_unpack (state : UInt64) :
    state.toNat = (unpack state).1.toNat * 2 ^ 16 + (unpack state).2.toNat ∧
      (unpack state).1.toNat < 2 ^ 48 := by
  have bound := state.toNat_lt
  have high : (unpack state).1.toNat = state.toNat / 2 ^ 16 := by
    rw [unpack, UInt64.toNat_shiftRight, show timestampShift.toNat % 64 = 16 from rfl,
      Nat.shiftRight_eq_div_pow]
  have low : (unpack state).2.toNat = state.toNat % 2 ^ 16 := by
    rw [unpack, UInt64.toNat_toUInt16, UInt64.toNat_and, show seqMask.toNat = 2 ^ 16 - 1 from rfl,
      Nat.and_two_pow_sub_one_eq_mod, Nat.mod_mod]
  omega

/-- An attempt moves the word forward, and the sequence stays below its 16 bits. -/
theorem attempt_spec {nodeId : UInt16} {currentMs state newState : UInt64} {key : OrderedKey}
    (fits : currentMs.toNat < 2 ^ 48) (h : attempt nodeId currentMs state = some (newState, key)) :
    key.nodeId = nodeId ∧ state.toNat ≤ rank key ∧ newState.toNat = rank key + 1 ∧
      key.sequence.toNat + 1 < 2 ^ 16 := by
  obtain ⟨word, -⟩ := toNat_unpack state
  have small := (unpack state).2.toNat_lt
  unfold attempt at h
  dsimp only at h
  split at h
  · rename_i advances
    obtain ⟨rfl, rfl⟩ := Prod.mk.inj (Option.some.inj h)
    have later := UInt64.lt_iff_toNat_lt.mp advances
    refine ⟨rfl, ?_, ?_, show (0 : UInt16).toNat + 1 < 2 ^ 16 by decide⟩
    · show state.toNat ≤ currentMs.toNat * 2 ^ 16 + 0
      omega
    · rw [toNat_pack fits]
      simp [rank]
  split at h
  · cases h
  · rename_i left
    obtain ⟨rfl, rfl⟩ := Prod.mk.inj (Option.some.inj h)
    have below : (unpack state).2.toNat ≠ 2 ^ 16 - 1 := fun full => left (UInt16.toNat_inj.mp full)
    refine ⟨rfl, word.le, ?_, ?_⟩
    · show (state + 1).toNat = (unpack state).1.toNat * 2 ^ 16 + (unpack state).2.toNat + 1
      have bound := (toNat_unpack state).2
      rw [UInt64.toNat_add, show (1 : UInt64).toNat = 1 from rfl]
      omega
    · show (unpack state).2.toNat + 1 < 2 ^ 16
      omega

/-- The keys ascend and the word is the one stored with the last of them. -/
structure Generator.Ordered (g : Generator) : Prop where
  node : ∀ key ∈ g.returned, key.nodeId = g.nodeId
  below : ∀ key ∈ g.returned, rank key < g.state.toNat
  ascends : g.returned.Pairwise fun a b => rank a < rank b
  last : ∀ key ∈ g.returned.getLast?, g.state.toNat = rank key + 1 ∧ key.sequence.toNat + 1 < 2 ^ 16
  clock : ∀ thread currentMs, (g.phases thread = .clockRead currentMs ∨
    ∃ state, g.phases thread = .loaded currentMs state) →
    currentMs.toNat < 2 ^ 48

theorem Generator.Ordered.goto {g : Generator} (h : g.Ordered) {thread : Nat} {phase : Phase}
    (fits : ∀ currentMs, (phase = .clockRead currentMs ∨ ∃ state, phase = .loaded currentMs state) →
      currentMs.toNat < 2 ^ 48) :
    (g.goto thread phase).Ordered := by
  refine ⟨h.node, h.below, h.ascends, h.last, ?_⟩
  intro other currentMs reached
  by_cases same : other = thread
  · subst same
    simp only [Generator.goto, Function.update_self] at reached
    exact fits currentMs reached
  · simp only [Generator.goto, Function.update_of_ne same] at reached
    exact h.clock other currentMs reached

theorem Generator.step_ordered {g g' : Generator} {a : Label} (h : g.Ordered) (fits : a.Fits)
    (taken : g.step a = some g') :
    g'.Ordered := by
  cases a with
  | nextVersion thread =>
    simp only [Generator.step] at taken
    split at taken
    · obtain rfl := Option.some.inj taken
      exact h.goto (by simp)
    · cases taken
  | readClock thread currentMs =>
    simp only [Generator.step] at taken
    split at taken
    · obtain rfl := Option.some.inj taken
      refine h.goto ?_
      rintro ms (same | ⟨state, impossible⟩)
      · obtain rfl := Phase.clockRead.inj same
        exact fits
      · cases impossible
    · cases taken
  | load thread =>
    simp only [Generator.step] at taken
    split at taken
    · rename_i currentMs reading
      split at taken
      · obtain rfl := Option.some.inj taken
        refine h.goto ?_
        rintro ms (impossible | ⟨state, same⟩)
        · cases impossible
        · obtain ⟨rfl, -⟩ := Phase.loaded.inj same
          exact h.clock thread _ (Or.inl reading)
      · obtain rfl := Option.some.inj taken
        exact h.goto (by simp)
    · cases taken
  | compareExchange thread =>
    simp only [Generator.step] at taken
    split at taken
    · rename_i currentMs state loaded
      split at taken
      · rename_i newState key attempted
        obtain ⟨node, reached, stored, room⟩ := attempt_spec
          (h.clock thread currentMs (Or.inr ⟨state, loaded⟩)) attempted
        split at taken
        · rename_i unchanged
          obtain rfl := Option.some.inj taken
          have idle := @Generator.Ordered.goto _ h thread .idle (by simp)
          have before : ∀ old ∈ g.returned, rank old < rank key := by
            intro old member
            exact (h.below old member).trans_le (unchanged ▸ reached)
          refine ⟨?_, ?_, ?_, ?_, idle.clock⟩
          · intro k member
            rcases List.mem_append.mp member with old | last
            · exact h.node k old
            · rw [List.mem_singleton.mp last]
              exact node
          · intro k member
            show rank k < newState.toNat
            rcases List.mem_append.mp member with old | last
            · have := before k old
              omega
            · rw [List.mem_singleton.mp last]
              omega
          · refine List.pairwise_append.mpr ⟨h.ascends, List.pairwise_singleton _ _, ?_⟩
            intro old member k last
            rw [List.mem_singleton.mp last]
            exact before old member
          · intro k member
            obtain rfl : key = k := by simpa using member
            exact ⟨stored, room⟩
        · obtain rfl := Option.some.inj taken
          exact h.goto (by simp)
      · cases taken
    · cases taken
  | spin thread now =>
    simp only [Generator.step] at taken
    split at taken
    · obtain rfl := Option.some.inj taken
      split
      · exact h.goto (by simp)
      · exact h
    · cases taken

/-- In every interleaving, whatever the clocks say, the keys ascend strictly in the order of their
compare-exchanges, and the word is the timestamp of the last key with the sequence after its own. -/
theorem returned_ascend {nodeId : UInt16} {labels : List Label} {g : Generator}
    (fits : ∀ a ∈ labels, a.Fits) (run : exec Generator.step (new nodeId) labels = some g) :
    g.returned.Pairwise (· < ·) ∧ g.returned.Nodup ∧
      ∀ key ∈ g.returned.getLast?, (unpack g.state).1 = key.timestampMs ∧
        (unpack g.state).2.toNat = key.sequence.toNat + 1 := by
  have start : (new nodeId).Ordered :=
    ⟨(fun key member => nomatch member), (fun key member => nomatch member), .nil,
      (fun key member => nomatch member), by simp [new]⟩
  have ordered : g.Ordered :=
    exec_within (fun _ _ _ kept ok taken => Generator.step_ordered kept ok taken) start fits run
  refine ⟨?_, ?_, ?_⟩
  · refine ordered.ascends.imp_of_mem ?_
    intro a b first second less
    exact lt_of_rank ((ordered.node a first).trans (ordered.node b second).symm) less
  · refine ordered.ascends.imp ?_
    rintro a b less rfl
    exact lt_irrefl _ less
  · intro key last
    obtain ⟨stored, room⟩ := ordered.last key last
    obtain ⟨word, -⟩ := toNat_unpack g.state
    have small := (unpack g.state).2.toNat_lt
    unfold rank at stored
    refine ⟨UInt64.toNat_inj.mp ?_, ?_⟩
    all_goals omega

section Example

/-- Two threads load the same word, one of them wins; the other loads again with a clock that has
gone back. -/
def racingRun : List Label :=
  [.nextVersion 0, .nextVersion 1, .readClock 0 7, .readClock 1 7, .load 0, .load 1,
    .compareExchange 1, .compareExchange 0,
    .readClock 0 3, .load 0, .compareExchange 0]

theorem returned_ascend_racing :
    ∃ g, exec Generator.step (new 5) racingRun = some g ∧ g.returned = [⟨7, 5, 0⟩, ⟨7, 5, 1⟩] ∧
      g.returned.Pairwise (· < ·) ∧ g.returned.Nodup ∧
      ∀ key ∈ g.returned.getLast?, (unpack g.state).1 = key.timestampMs ∧
        (unpack g.state).2.toNat = key.sequence.toNat + 1 := by
  have summary : (exec Generator.step (new 5) racingRun).map Generator.returned =
      some [⟨7, 5, 0⟩, ⟨7, 5, 1⟩] := by
    decide +kernel
  obtain ⟨g, run, keys⟩ := Option.map_eq_some_iff.mp summary
  have fits : ∀ a ∈ racingRun, a.Fits := by
    intro a member
    simp only [racingRun, List.mem_cons, List.not_mem_nil, or_false] at member
    rcases member with rfl | rfl | rfl | rfl | rfl | rfl | rfl | rfl | rfl | rfl | rfl
    all_goals simp [Label.Fits]
  exact ⟨g, run, keys, returned_ascend fits run⟩

end Example

end VersionGenerator

end FlushDB
