import Mathlib.Data.Nat.Bitwise
import Mathlib.Logic.Function.Iterate

/-!
Checksums that run over their input byte by byte. Where one step loses neither the state nor the
byte, two inputs that differ in one place have different checksums; CRC-32 is of this kind.
-/

namespace FlushDB.Lib

section Fold
variable {σ β : Type*} {step : σ → β → σ}

theorem foldl_injective (state : ∀ b, Function.Injective (step · b)) (input : List β) :
    Function.Injective (input.foldl step ·) := by
  induction input with
  | nil => exact Function.injective_id
  | cons b rest ih =>
    intro s t same
    exact state b (ih same)

/-- Two inputs that differ in one place lead to different states. -/
theorem foldl_set_ne (state : ∀ b, Function.Injective (step · b))
    (byte : ∀ s, Function.Injective (step s)) {input : List β} {i : Nat} (inside : i < input.length)
    {b : β} (changed : b ≠ input[i]) (s : σ) :
    (input.set i b).foldl step s ≠ input.foldl step s := by
  induction input generalizing s i with
  | nil => exact absurd inside (Nat.not_lt_zero i)
  | cons first rest ih =>
    cases i with
    | zero =>
      intro same
      exact changed (byte s (foldl_injective state rest same))
    | succ i => exact ih (Nat.lt_of_succ_lt_succ inside) changed (step s first)

end Fold

/-- The checksum tells apart two inputs that differ in one byte. -/
def DetectsByte (checksum : List UInt8 → UInt32) : Prop :=
  ∀ (data : List UInt8) (i : Nat) (inside : i < data.length) (b : UInt8), b ≠ data[i] →
    checksum (data.set i b) ≠ checksum data

namespace Crc32

/-- One bit, with the reflected polynomial. -/
def bitStep (crc : UInt32) : UInt32 :=
  if crc &&& 1 = 1 then (crc >>> 1) ^^^ 0xEDB88320 else crc >>> 1

def byteStep (crc : UInt32) (b : UInt8) : UInt32 := bitStep^[8] (crc ^^^ b.toUInt32)

theorem and_one (c : UInt32) : (c &&& 1 = 1) ↔ c.toNat % 2 = 1 := by
  rw [← UInt32.toNat_inj, UInt32.toNat_and]
  simp [Nat.and_one_is_mod]

theorem toNat_half (c : UInt32) : (c >>> 1).toNat = c.toNat / 2 := by
  rw [UInt32.toNat_shiftRight]
  simp [Nat.shiftRight_eq_div_pow]

/-- The polynomial sets the highest bit, which a shift leaves clear. -/
theorem testBit_polynomial (c : UInt32) : ((c >>> 1) ^^^ 0xEDB88320).toNat.testBit 31 = true := by
  have small : c.toNat / 2 < 2 ^ 31 := by
    have := c.toNat_lt
    omega
  rw [UInt32.toNat_xor, Nat.testBit_xor, toNat_half, Nat.testBit_lt_two_pow small]
  decide

theorem testBit_half (c : UInt32) : (c >>> 1).toNat.testBit 31 = false := by
  have small : c.toNat / 2 < 2 ^ 31 := by
    have := c.toNat_lt
    omega
  rw [toNat_half, Nat.testBit_lt_two_pow small]

theorem half_injective {c d : UInt32} (parity : c.toNat % 2 = d.toNat % 2)
    (same : c >>> 1 = d >>> 1) : c = d := by
  apply UInt32.toNat_inj.mp
  have halves : c.toNat / 2 = d.toNat / 2 := by rw [← toNat_half, ← toNat_half, same]
  omega

/-- The highest bit of the result is the bit that was shifted out. -/
theorem bitStep_injective : Function.Injective bitStep := by
  intro c d same
  simp only [bitStep, and_one] at same
  split at same
  · rename_i odd
    split at same
    · rename_i odd'
      exact half_injective (odd.trans odd'.symm) (UInt32.xor_left_inj 0xEDB88320 |>.mp same)
    · have := testBit_polynomial c
      rw [same, testBit_half] at this
      cases this
  · rename_i even
    split at same
    · have := testBit_polynomial d
      rw [← same, testBit_half] at this
      cases this
    · rename_i even'
      exact half_injective (by omega) same

theorem byteStep_state (b : UInt8) : Function.Injective (byteStep · b) := by
  intro s t same
  exact (UInt32.xor_left_inj b.toUInt32).mp (bitStep_injective.iterate 8 same)

theorem byteStep_byte (crc : UInt32) : Function.Injective (byteStep crc) := by
  intro b c same
  have wide : b.toUInt32 = c.toUInt32 := (UInt32.xor_right_inj crc).mp
    (bitStep_injective.iterate 8 same)
  apply UInt8.toNat_inj.mp
  rw [← UInt8.toNat_toUInt32, wide, UInt8.toNat_toUInt32]

end Crc32

/-- CRC-32 as used by Ethernet and zip. -/
def crc32 (data : List UInt8) : UInt32 := data.foldl Crc32.byteStep 0xFFFFFFFF ^^^ 0xFFFFFFFF

theorem crc32_detects : DetectsByte crc32 := by
  intro data i inside b changed same
  exact foldl_set_ne Crc32.byteStep_state Crc32.byteStep_byte inside changed _
    ((UInt32.xor_left_inj 0xFFFFFFFF).mp same)

/-- The check value of the standard, the checksum of `123456789`. -/
example : crc32 [49, 50, 51, 52, 53, 54, 55, 56, 57] = 0xCBF43926 := by decide +kernel

end FlushDB.Lib
