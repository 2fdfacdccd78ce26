import Mathlib.Logic.Function.Basic

/-!
Steps of a hash that lose nothing: the bits shifted by at least half the width and added to
themselves, a rotation, and a multiplication by a number that has an inverse.
-/

namespace FlushDB.Lib

section Word
variable {w k : Nat}

theorem xorShift_injective (half : w ≤ k + k) :
    Function.Injective fun x : BitVec w => x ^^^ (x >>> k) := by
  -- done twice, the step is undone
  have undone : Function.LeftInverse (fun x : BitVec w => x ^^^ (x >>> k)) fun x =>
      x ^^^ (x >>> k) := by
    intro x
    have gone : x >>> (k + k) = 0#w := BitVec.ushiftRight_eq_zero half
    dsimp only
    rw [BitVec.ushiftRight_xor_distrib, ← BitVec.shiftRight_add, gone, BitVec.xor_zero,
      BitVec.xor_assoc, BitVec.xor_self,
      BitVec.xor_zero]
  exact undone.injective

theorem rotate_injective (inside : k ≤ w) :
    Function.Injective fun x : BitVec w => (x <<< k) ||| (x >>> (w - k)) := by
  intro x y same
  apply BitVec.eq_of_getLsbD_eq
  intro i bound
  by_cases low : i < w - k
  · have bit := congrArg (fun z : BitVec w => z.getLsbD (i + k)) same
    rw [BitVec.getLsbD_eq_getElem bound, BitVec.getLsbD_eq_getElem bound]
    simpa [show ¬ i + k < k by omega, show i + k < w by omega, show w ≤ w - k + (i + k) by omega] using bit
  · have bit := congrArg (fun z : BitVec w => z.getLsbD (i - (w - k))) same
    simpa [show i - (w - k) < k by omega, show w - k + (i - (w - k)) = i by omega] using bit

end Word

theorem mul_inverse_injective {c inverse : UInt64} (undoes : c * inverse = 1) :
    Function.Injective fun x : UInt64 => x * c := by
  intro x y same
  have undone := congrArg (· * inverse) same
  simpa only [UInt64.mul_assoc, undoes, UInt64.mul_one] using undone

end FlushDB.Lib
