import FlushDB.Lib.Codec
import FlushDB.Types.Entry
import Mathlib.Tactic.IntervalCases

/-!
Tokens by their parts, and the tokens of the items of a batch. The first eight bytes are the
generation time; the index of an item goes into the next four.
-/

namespace FlushDB
open Lib

/-- `u64::to_be_bytes` -/
def toBeBytes (value : UInt64) : Vector UInt8 8 :=
  ⟨(leBytes 8 value.toNat).reverse.toArray, by simp⟩

/-- `u64::from_be_bytes` -/
def fromBeBytes (bytes : Vector UInt8 8) : UInt64 := .ofNat (fromLeBytes bytes.toList.reverse)

/-- `u32::to_le_bytes` -/
def toLeBytes (value : UInt32) : Vector UInt8 4 := ⟨(leBytes 4 value.toNat).toArray, by simp⟩

theorem toLeBytes_injective : Function.Injective toLeBytes := by
  intro a b same
  have bytes : leBytes 4 a.toNat = leBytes 4 b.toNat := congrArg Vector.toList same
  have numbers := congrArg fromLeBytes bytes
  rw [fromLeBytes_uint32, fromLeBytes_uint32] at numbers
  exact UInt32.toNat_inj.mp numbers

namespace IdempotencyToken

def fromParts (generationTime : UInt64) (token : Vector UInt8 16) : IdempotencyToken :=
  ⟨toBeBytes generationTime ++ token⟩

def generationTime (token : IdempotencyToken) : UInt64 := fromBeBytes (token.data.take 8)

def deriveForIndex (token : IdempotencyToken) (index : UInt32) : IdempotencyToken :=
  if token.isNone ∨ index = 0 then token
  else
    let derived := token.data
    let idx := toLeBytes index
    let derived := derived.set 8 (derived[8] ^^^ idx[0])
    let derived := derived.set 9 (derived[9] ^^^ idx[1])
    let derived := derived.set 10 (derived[10] ^^^ idx[2])
    let derived := derived.set 11 (derived[11] ^^^ idx[3])
    ⟨derived⟩

/-- Generated at time zero, with the bytes of the index and nothing else. -/
def indexToken (index : UInt32) : IdempotencyToken :=
  fromParts 0 (toLeBytes index ++ (Vector.replicate 12 0 : Vector UInt8 12))

/-- A token that is none is as it was, and so is the token of item zero. -/
theorem deriveForIndex_data {token : IdempotencyToken} (real : token.isNone = false)
    (index : UInt32) :
    (token.deriveForIndex index).data =
      (((token.data.set 8 (token.data[8] ^^^ (toLeBytes index)[0])).set 9
        (token.data[9] ^^^ (toLeBytes index)[1])).set 10
        (token.data[10] ^^^ (toLeBytes index)[2])).set 11
          (token.data[11] ^^^ (toLeBytes index)[3]) := by
  unfold deriveForIndex
  by_cases zero : index = 0
  · subst zero
    rw [if_pos (Or.inr rfl)]
    have bytes : toLeBytes 0 = #v[0, 0, 0, 0] := rfl
    simp [bytes]
  · rw [if_neg (by simp [real, zero])]
    simp

/-- The four bytes behind the generation time have the index in them. -/
theorem getElem_deriveForIndex {token : IdempotencyToken} (real : token.isNone = false)
    (index : UInt32) {k : Nat} (inside : k < 4) :
    (token.deriveForIndex index).data[8 + k] = token.data[8 + k] ^^^ (toLeBytes index)[k] := by
  rw [getElem_congr_coll (deriveForIndex_data real index)]
  interval_cases k <;> simp

theorem getElem_deriveForIndex_other {token : IdempotencyToken} (real : token.isNone = false)
    (index : UInt32) {k : Nat} (inside : k < 24) (other : k < 8 ∨ 12 ≤ k) :
    (token.deriveForIndex index).data[k] = token.data[k] := by
  rw [getElem_congr_coll (deriveForIndex_data real index)]
  rw [Vector.getElem_set_ne, Vector.getElem_set_ne, Vector.getElem_set_ne, Vector.getElem_set_ne]
  all_goals omega

theorem generationTime_deriveForIndex {token : IdempotencyToken} (real : token.isNone = false)
    (index : UInt32) :
    (token.deriveForIndex index).generationTime = token.generationTime := by
  refine congrArg fromBeBytes (Vector.ext fun k inside => ?_)
  rw [Vector.getElem_take, Vector.getElem_take]
  exact getElem_deriveForIndex_other real index (by omega) (Or.inl (by omega))

theorem deriveForIndex_injective {token : IdempotencyToken} (real : token.isNone = false) :
    Function.Injective token.deriveForIndex := by
  intro i j same
  refine toLeBytes_injective (Vector.ext fun k inside => ?_)
  have byte := getElem_deriveForIndex real i inside
  rw [getElem_congr_coll (congrArg data same), getElem_deriveForIndex real j inside] at byte
  exact ((UInt8.xor_right_inj _).mp byte).symm

theorem isNone_iff {token : IdempotencyToken} :
    token.isNone = true ↔ ∀ (k : Nat) (inside : k < 24), token.data[k] = 0 := by
  unfold isNone none
  rw [decide_eq_true_iff]
  constructor
  · rintro rfl k inside
    exact Vector.getElem_replicate inside
  · intro zero
    refine congrArg IdempotencyToken.mk (Vector.ext fun k inside => ?_)
    rw [zero k inside, Vector.getElem_replicate]

theorem getElem_indexToken (index : UInt32) {k : Nat} (inside : k < 4) :
    (indexToken index).data[8 + k] = (toLeBytes index)[k] := by
  unfold indexToken fromParts
  have behind : 8 ≤ 8 + k := Nat.le_add_right ..
  rw [Vector.getElem_append_right _ behind, Vector.getElem_append_left (by omega)]
  exact getElem_congr_idx (by omega)

theorem getElem_indexToken_other (index : UInt32) {k : Nat} (inside : k < 24)
    (other : k < 8 ∨ 12 ≤ k) :
    (indexToken index).data[k] = 0 := by
  have early : toBeBytes 0 = Vector.replicate 8 0 := rfl
  unfold indexToken fromParts
  rcases other with before | behind
  · rw [Vector.getElem_append_left before, getElem_congr_coll early, Vector.getElem_replicate]
  · have later : 8 ≤ k := by omega
    have last : 4 ≤ k - 8 := by omega
    rw [Vector.getElem_append_right _ later, Vector.getElem_append_right _ last,
      Vector.getElem_replicate]

/-- The index takes a token away that is the index itself. -/
theorem deriveForIndex_isNone_iff {token : IdempotencyToken} (real : token.isNone = false)
    (index : UInt32) :
    (token.deriveForIndex index).isNone = true ↔ token = indexToken index := by
  rw [isNone_iff]
  constructor
  · intro zero
    have same : token.data = (indexToken index).data := by
      refine Vector.ext fun k inside => ?_
      by_cases other : k < 8 ∨ 12 ≤ k
      · rw [getElem_indexToken_other index inside other,
          ← getElem_deriveForIndex_other real index inside other, zero k inside]
      · obtain ⟨n, rfl⟩ := Nat.exists_eq_add_of_le (show 8 ≤ k by omega)
        have word : n < 4 := by omega
        rw [getElem_indexToken index word]
        have gone := zero (8 + n) inside
        rw [getElem_deriveForIndex real index word] at gone
        exact UInt8.xor_eq_zero_iff.mp gone
    cases token
    exact congrArg IdempotencyToken.mk same
  · rintro rfl k inside
    by_cases other : k < 8 ∨ 12 ≤ k
    · rw [getElem_deriveForIndex_other real index inside other,
        getElem_indexToken_other index inside other]
    · obtain ⟨n, rfl⟩ := Nat.exists_eq_add_of_le (show 8 ≤ k by omega)
      have word : n < 4 := by omega
      rw [getElem_deriveForIndex real index word, getElem_indexToken index word, UInt8.xor_self]

end IdempotencyToken

end FlushDB
