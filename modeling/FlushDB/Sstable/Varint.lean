import FlushDB.Sstable.BlockFormat
import Mathlib.Algebra.BigOperators.Ring.Finset
import Mathlib.Tactic.Ring

/-!
Varints on machine words. The encoder shifts the word by seven bits a byte, the decoder puts groups
of seven bits above each other. The tenth group has room for one bit only, and the decoder shifts
the others out.
-/

namespace FlushDB
open Lib

namespace Varint

/-- The bytes that are pushed. -/
def encodeVarint (value : UInt64) : List UInt8 :=
  let byte := (value &&& 0x7F).toUInt8
  let v := value >>> 7
  if v = 0 then [byte] else (byte ||| 0x80) :: encodeVarint v
termination_by value.toNat
decreasing_by
  have more : (value >>> 7).toNat ≠ 0 := fun zero => ‹¬ _› (UInt64.toNat_inj.mp zero)
  rw [UInt64.toNat_shiftRight] at more ⊢
  simp only [UInt64.reduceToNat, Nat.reduceMod, Nat.shiftRight_eq_div_pow] at more ⊢
  omega

/-- The loop from the `i`-th byte on. -/
def decodeFrom (i shift : Nat) (value : UInt64) : List UInt8 → FlushResult (UInt64 × Nat)
  | [] => .error (.corruptedData "varint is truncated")
  | byte :: rest =>
    if i ≥ 10 then .error (.corruptedData "varint exceeds 10 bytes")
    else
      let value := value ||| ((byte &&& 0x7F).toUInt64 <<< UInt64.ofNat shift)
      if byte &&& 0x80 = 0 then .ok (value, i + 1) else decodeFrom (i + 1) (shift + 7) value rest

def decodeVarint (buf : List UInt8) : FlushResult (UInt64 × Nat) :=
  if buf.isEmpty then .error (.corruptedData "varint buffer is empty") else decodeFrom 0 0 0 buf

/-- `u64::leading_zeros`. -/
def leadingZeros (value : UInt64) : Nat := if value = 0 then 64 else 63 - value.toNat.log2

def varintLen (value : UInt64) : Nat :=
  if value = 0 then 1
  else
    let bits := 64 - leadingZeros value
    (bits + 6) / 7

theorem toNat_shiftRight_seven (value : UInt64) : (value >>> 7).toNat = value.toNat / 128 := by
  rw [UInt64.toNat_shiftRight]
  simp only [UInt64.reduceToNat, Nat.reduceMod, Nat.shiftRight_eq_div_pow]

theorem toNat_low_seven (value : UInt64) : (value &&& 0x7F).toUInt8.toNat = value.toNat % 128 := by
  rw [UInt64.toNat_toUInt8, UInt64.toNat_and, show (0x7F : UInt64).toNat = 2 ^ 7 - 1 from rfl,
    Nat.and_two_pow_sub_one_eq_mod]
  omega

theorem toNat_or_high {byte : UInt8} (low : byte.toNat < 128) :
    (byte ||| 0x80).toNat = byte.toNat + 128 := by
  rw [UInt8.toNat_or, show (0x80 : UInt8).toNat = 2 ^ 7 * 1 from rfl, Nat.or_comm,
    ← Nat.two_pow_add_eq_or_of_lt low]
  omega

theorem toNat_group (byte : UInt8) : (byte &&& 0x7F).toUInt64.toNat = byte.toNat % 128 := by
  rw [UInt8.toNat_toUInt64, UInt8.toNat_and, show (0x7F : UInt8).toNat = 2 ^ 7 - 1 from rfl,
    Nat.and_two_pow_sub_one_eq_mod]

theorem high_clear_iff (byte : UInt8) : byte &&& 0x80 = 0 ↔ byte.toNat < 128 := by
  rw [← UInt8.toNat_inj, UInt8.toNat_and, show (0x80 : UInt8).toNat = 2 ^ 7 from rfl,
    Nat.and_two_pow, Nat.testBit_eq_decide_div_mod_eq]
  have bound := byte.toNat_lt
  by_cases high : byte.toNat / 2 ^ 7 % 2 = 1
  · simp only [high, decide_true, Bool.toNat_true, one_mul]
    refine ⟨fun zero => absurd zero (by decide), fun low => ?_⟩
    omega
  · simp only [high, decide_false, Bool.toNat_false, zero_mul]
    refine ⟨fun _ => ?_, fun _ => rfl⟩
    omega

theorem encodeVarint_eq (value : UInt64) :
    encodeVarint value = if value.toNat / 128 = 0 then [UInt8.ofNat (value.toNat % 128)]
      else UInt8.ofNat (value.toNat % 128 + 128) :: encodeVarint (value >>> 7) := by
  have low : value.toNat % 128 < 128 := Nat.mod_lt _ (by decide)
  have byte : (value &&& 0x7F).toUInt8 = UInt8.ofNat (value.toNat % 128) := by
    apply UInt8.toNat_inj.mp
    rw [toNat_low_seven, UInt8.toNat_ofNat']
    omega
  have more : UInt8.ofNat (value.toNat % 128) ||| 0x80 = UInt8.ofNat (value.toNat % 128 + 128) := by
    have same : (UInt8.ofNat (value.toNat % 128)).toNat = value.toNat % 128 := by
      rw [UInt8.toNat_ofNat']
      omega
    apply UInt8.toNat_inj.mp
    rw [toNat_or_high (by rw [same]; exact low), same, UInt8.toNat_ofNat']
    omega
  have last : value >>> 7 = 0 ↔ value.toNat / 128 = 0 := by
    rw [← UInt64.toNat_inj, toNat_shiftRight_seven]
    rfl
  rw [encodeVarint, byte, more]
  simp only [last]

/-- The words are written as the numbers they are. -/
theorem encodeVarint_toNat (value : UInt64) :
    encodeVarint value = Lib.encodeVarint value.toNat := by
  have written : ∀ (fuel : Nat) (value : UInt64), value.toNat < 128 ^ (fuel + 1) →
      encodeVarint value = varintBytes (fuel + 1) value.toNat := by
    intro fuel
    induction fuel with
    | zero =>
      intro value small
      have last : value.toNat / 128 = 0 := Nat.div_eq_of_lt small
      rw [encodeVarint_eq, varintBytes, if_pos last, if_pos last]
    | succ fuel ih =>
      intro value small
      rw [encodeVarint_eq, varintBytes, ih (value >>> 7), toNat_shiftRight_seven]
      rw [toNat_shiftRight_seven, Nat.div_lt_iff_lt_mul (by decide), ← Nat.pow_succ]
      exact small
  exact written 9 value (lt_trans value.toNat_lt (by decide))

theorem decodeFrom_consumed {i shift n : Nat} {value v : UInt64} {buf : List UInt8}
    (read : decodeFrom i shift value buf = .ok (v, n)) :
    i < n ∧ n ≤ 10 ∧ n ≤ i + buf.length := by
  induction buf generalizing i shift value with
  | nil => cases read
  | cons byte rest ih =>
    unfold decodeFrom at read
    split at read
    · cases read
    · dsimp only at read
      rw [List.length_cons]
      split at read
      · obtain ⟨-, rfl⟩ := Prod.mk.inj (Except.ok.inj read)
        omega
      · have later := ih read
        omega

/-- A group goes above those that were read, and out of the word at its top. -/
theorem toNat_or_group {i : Nat} (room : i < 10) (value : UInt64) (byte : UInt8) :
    (value ||| ((byte &&& 0x7F).toUInt64 <<< UInt64.ofNat (7 * i))).toNat =
      value.toNat ||| ((byte.toNat % 128) <<< (7 * i)) % 2 ^ 64 := by
  have shift : (UInt64.ofNat (7 * i)).toNat % 64 = 7 * i := by
    rw [UInt64.toNat_ofNat']
    omega
  rw [UInt64.toNat_or, UInt64.toNat_shiftLeft, toNat_group, shift]

theorem readVarint_toNat (i : Nat) (value : UInt64) (buf : List UInt8) :
    (readVarint i value.toNat buf).mapError FlushError.corruptedData =
      (decodeFrom i (7 * i) value buf).map fun read => (read.1.toNat, buf.drop (read.2 - i)) := by
  induction buf generalizing i value with
  | nil => rfl
  | cons byte rest ih =>
    unfold readVarint decodeFrom
    split
    · rfl
    · rename_i inside
      have room : i < 10 := by omega
      dsimp only
      rw [← toNat_or_group room]
      by_cases last : byte.toNat < 128
      · rw [if_pos last, if_pos ((high_clear_iff byte).mpr last)]
        simp [Except.mapError, Except.map]
      · rw [if_neg last, if_neg fun clear => last ((high_clear_iff byte).mp clear), ih, Nat.mul_add_one]
        cases read : decodeFrom (i + 1) (7 * i + 7)
          (value ||| ((byte &&& 0x7F).toUInt64 <<< UInt64.ofNat (7 * i))) rest with
        | error e => rfl
        | ok pair =>
          have behind := (decodeFrom_consumed read).1
          simp only [Except.map]
          rw [show pair.2 - i = pair.2 - (i + 1) + 1 by omega, List.drop_succ_cons]

end Varint

/-- The number at the start of a buffer, as the blocks and the index read it. -/
theorem Sst.varint_eq (buf : List UInt8) :
    Sst.varint buf = (Varint.decodeVarint buf).map fun read => (read.1.toNat, buf.drop read.2) := by
  have words := Varint.readVarint_toNat 0 0 buf
  unfold Sst.varint Lib.decodeVarint Varint.decodeVarint
  split
  · rename_i message failed
    split at failed
    · obtain rfl := Except.error.inj failed
      rename_i empty
      rw [if_pos empty]
      rfl
    · rename_i more
      rw [show (0 : UInt64).toNat = 0 from rfl, failed] at words
      rw [if_neg more]
      exact words
  · rename_i read found
    split at found
    · cases found
    · rename_i more
      rw [show (0 : UInt64).toNat = 0 from rfl, found] at words
      rw [if_neg more]
      exact words

namespace Varint

theorem varintLen_eq {value : UInt64} (nonzero : value ≠ 0) :
    varintLen value = (value.toNat.log2 + 7) / 7 := by
  have positive : value.toNat ≠ 0 := fun zero => nonzero (UInt64.toNat_inj.mp zero)
  have bound : value.toNat.log2 < 64 := (Nat.log2_lt positive).mpr value.toNat_lt
  simp only [varintLen, leadingZeros, if_neg nonzero]
  omega

theorem log2_div_128 {n : Nat} (more : n / 128 ≠ 0) : n.log2 = (n / 128).log2 + 7 := by
  have least := Nat.log2_self_le more
  have greatest := @Nat.lt_log2_self (n / 128)
  rw [Nat.log2_eq_iff (by rintro rfl; exact more rfl)]
  simp only [Nat.pow_add] at greatest ⊢
  omega

theorem length_encodeVarint (value : UInt64) : (encodeVarint value).length = varintLen value := by
  induction size : value.toNat using Nat.strong_induction_on generalizing value with
  | _ n ih =>
    subst size
    rw [encodeVarint_eq]
    split
    · rename_i last
      by_cases zero : value = 0
      · subst zero
        rfl
      · have positive : value.toNat ≠ 0 := fun same => zero (UInt64.toNat_inj.mp same)
        have small : value.toNat.log2 < 7 := (Nat.log2_lt positive).mpr (by omega)
        rw [varintLen_eq zero, List.length_singleton]
        omega
    · rename_i more
      have rest : value >>> 7 ≠ 0 := fun zero => more (by rw [← toNat_shiftRight_seven, zero]; rfl)
      have nonzero : value ≠ 0 := by
        rintro rfl
        exact more rfl
      have less : (value >>> 7).toNat < value.toNat := by
        rw [toNat_shiftRight_seven]
        omega
      rw [List.length_cons, ih _ less _ rfl, varintLen_eq rest, varintLen_eq nonzero,
        toNat_shiftRight_seven, log2_div_128 more]
      omega

theorem decodeVarint_encoded (value : UInt64) (rest : List UInt8) :
    decodeVarint (encodeVarint value ++ rest) = .ok (value, (encodeVarint value).length) ∧
      (encodeVarint value).length = varintLen value := by
  refine ⟨?_, length_encodeVarint value⟩
  have whole := Lib.decodeVarint_encodeVarint value.toNat_lt rest
  have read := Sst.varint_eq (encodeVarint value ++ rest)
  unfold Sst.varint at read
  rw [encodeVarint_toNat, whole, ← encodeVarint_toNat] at read
  cases words : decodeVarint (encodeVarint value ++ rest) with
  | error e =>
    rw [words] at read
    cases read
  | ok pair =>
    rw [words] at read
    obtain ⟨same, left⟩ := Prod.mk.inj (Except.ok.inj read)
    have consumed : pair.2 ≤ (encodeVarint value ++ rest).length := by
      unfold decodeVarint at words
      split at words
      · cases words
      · have behind := (decodeFrom_consumed words).2.2
        omega
    have length := congrArg List.length left
    rw [List.length_drop] at length
    rw [List.length_append] at length consumed
    have value_eq : pair.1 = value := UInt64.toNat_inj.mp same.symm
    have stop : pair.2 = (encodeVarint value).length := by omega
    rw [← stop, ← value_eq]

/-! ## What is decoded -/

theorem toNat_or_group_eq {i : Nat} (room : i < 10) {value : UInt64} (below : value.toNat < 128 ^ i)
    (byte : UInt8) :
    (value ||| ((byte &&& 0x7F).toUInt64 <<< UInt64.ofNat (7 * i))).toNat =
      (value.toNat + byte.toNat % 128 * 128 ^ i) % 2 ^ 64 := by
  have power : 128 ^ i = 2 ^ (7 * i) := by rw [Nat.pow_mul]
  have split : 2 ^ 64 = 2 ^ (64 - 7 * i) * 2 ^ (7 * i) := by
    rw [← Nat.pow_add, Nat.sub_add_cancel (by omega)]
  have kept : byte.toNat % 128 * 2 ^ (7 * i) % 2 ^ 64 =
      byte.toNat % 128 % 2 ^ (64 - 7 * i) * 2 ^ (7 * i) := by
    rw [split, Nat.mul_mod_mul_right]
  have low : byte.toNat % 128 % 2 ^ (64 - 7 * i) < 2 ^ (64 - 7 * i) :=
    Nat.mod_lt _ (Nat.two_pow_pos _)
  have small : value.toNat + byte.toNat % 128 % 2 ^ (64 - 7 * i) * 2 ^ (7 * i) < 2 ^ 64 := by
    have top : (byte.toNat % 128 % 2 ^ (64 - 7 * i) + 1) * 2 ^ (7 * i) ≤ 2 ^ 64 :=
      split ▸ Nat.mul_le_mul_right _ low
    rw [Nat.add_mul, Nat.one_mul, ← power] at top
    rw [← power]
    omega
  rw [power] at below ⊢
  rw [toNat_or_group room, Nat.shiftLeft_eq, Nat.add_mod, kept, Nat.mod_eq_of_lt value.toNat_lt,
    Nat.mod_eq_of_lt small, Nat.or_comm,
    ← Nat.shiftLeft_eq, ← Nat.shiftLeft_add_eq_or_of_lt below, Nat.add_comm]

/-- The number that groups of seven bits make, the lowest first. -/
def groups : List UInt8 → Nat
  | [] => 0
  | b :: rest => b.toNat % 128 + 128 * groups rest

theorem groups_lt (bytes : List UInt8) : groups bytes < 128 ^ bytes.length := by
  induction bytes with
  | nil => exact Nat.one_pos
  | cons b rest ih =>
    have digit : b.toNat % 128 < 128 := Nat.mod_lt _ (by decide)
    rw [groups, List.length_cons, Nat.pow_succ]
    omega

theorem groups_concat (bytes : List UInt8) (b : UInt8) :
    groups (bytes ++ [b]) = groups bytes + b.toNat % 128 * 128 ^ bytes.length := by
  induction bytes with
  | nil => simp [groups]
  | cons c rest ih =>
    rw [List.cons_append, groups, ih, groups, List.length_cons, Nat.pow_succ]
    ring

theorem sum_groups (n : Nat) (buf : List UInt8) :
    ∑ i ∈ Finset.range n, (buf.getD i 0).toNat % 128 * 128 ^ i = groups (buf.take n) := by
  induction n generalizing buf with
  | zero => simp [groups]
  | succ n ih =>
    rw [Finset.sum_range_succ']
    cases buf with
    | nil => simp [groups]
    | cons b rest =>
      simp only [List.getD_cons_succ, List.getD_cons_zero, List.take_succ_cons, groups, pow_succ,
        ← ih rest, Finset.mul_sum]
      rw [Nat.add_comm, pow_zero, mul_one]
      refine congrArg _ (Finset.sum_congr rfl fun i _ => ?_)
      ring

/-- The decoder computes modulo the word. -/
theorem decodeFrom_groups {i n : Nat} {value v : UInt64} {buf : List UInt8}
    (below : value.toNat < 128 ^ i) (read : decodeFrom i (7 * i) value buf = .ok (v, n)) :
    v.toNat = (value.toNat + 128 ^ i * groups (buf.take (n - i))) % 2 ^ 64 := by
  induction buf generalizing i value with
  | nil => cases read
  | cons byte rest ih =>
    have behind := (decodeFrom_consumed read).1
    unfold decodeFrom at read
    split at read
    · cases read
    · rename_i inside
      have group := toNat_or_group_eq (by omega) below byte
      dsimp only at read
      rw [show n - i = n - (i + 1) + 1 by omega, List.take_succ_cons, groups]
      split at read
      · obtain ⟨rfl, rfl⟩ := Prod.mk.inj (Except.ok.inj read)
        rw [group, Nat.sub_self, List.take_zero, groups, Nat.mul_zero, Nat.add_zero, Nat.mul_comm]
      · have fits : (value ||| ((byte &&& 0x7F).toUInt64 <<< UInt64.ofNat (7 * i))).toNat <
            128 ^ (i + 1) := by
          have digit : byte.toNat % 128 * 128 ^ i ≤ 127 * 128 ^ i :=
            Nat.mul_le_mul_right _ (by omega)
          refine lt_of_le_of_lt (group ▸ Nat.mod_le _ _) ?_
          rw [Nat.pow_succ]
          omega
        rw [ih fits read, group, Nat.add_mod, Nat.mod_mod, ← Nat.add_mod, Nat.pow_succ]
        congr 1
        ring

/-- The last byte that is read is the first without the high bit. -/
theorem decodeFrom_last {i shift n : Nat} {value v : UInt64} {buf : List UInt8}
    (read : decodeFrom i shift value buf = .ok (v, n)) :
    (∀ b ∈ buf.take (n - i - 1), 128 ≤ b.toNat) ∧ ∃ last, buf[n - i - 1]? = some last ∧
      last.toNat < 128 := by
  induction buf generalizing i shift value with
  | nil => cases read
  | cons byte rest ih =>
    unfold decodeFrom at read
    split at read
    · cases read
    · dsimp only at read
      split at read
      · rename_i clear
        obtain ⟨-, rfl⟩ := Prod.mk.inj (Except.ok.inj read)
        rw [show i + 1 - i - 1 = 0 by omega]
        exact ⟨nofun, byte, rfl, (high_clear_iff byte).mp clear⟩
      · rename_i more
        have behind := (decodeFrom_consumed read).1
        obtain ⟨high, last, found, low⟩ := ih read
        rw [show n - i - 1 = n - (i + 1) - 1 + 1 by omega, List.take_succ_cons, List.getElem?_cons_succ]
        refine ⟨?_, last, found, low⟩
        intro b member
        rcases List.mem_cons.mp member with rfl | later
        · exact not_lt.mp fun small => more ((high_clear_iff b).mpr small)
        · exact high b later

/-- What is decoded is the number of the groups exactly when the tenth of them, where there is one,
has no bit beside the lowest. -/
theorem decodeVarint_exact_iff {buf : List UInt8} {v : UInt64} {n : Nat}
    (read : decodeVarint buf = .ok (v, n)) :
    v.toNat = ∑ i ∈ Finset.range n, (buf.getD i 0).toNat % 128 * 128 ^ i ↔
      ((∀ b ∈ buf.take 9, 128 ≤ b.toNat) → (buf.getD 9 0).toNat ≤ 1) := by
  unfold decodeVarint at read
  split at read
  · cases read
  obtain ⟨-, most, inside⟩ := decodeFrom_consumed read
  have word := decodeFrom_groups (by decide) read
  obtain ⟨high, last, found, low⟩ := decodeFrom_last read
  rw [show (0 : UInt64).toNat = 0 from rfl, Nat.zero_add, Nat.pow_zero, Nat.one_mul,
    Nat.sub_zero] at word
  rw [Nat.sub_zero] at high found
  rw [sum_groups, word]
  by_cases ten : n = 10
  · subst ten
    have tenth : buf.getD 9 0 = last := by rw [List.getD_eq_getElem?_getD, found, Option.getD_some]
    have nine : (buf.take 9).length = 9 := by
      rw [List.length_take]
      omega
    have whole : groups (buf.take 10) = groups (buf.take 9) + last.toNat * 128 ^ 9 := by
      rw [List.take_add_one, found, Option.toList_some, groups_concat, nine, Nat.mod_eq_of_lt low]
    have front := groups_lt (buf.take 9)
    rw [nine] at front
    rw [tenth, whole]
    constructor
    · intro same _
      have fits := Nat.mod_lt (groups (buf.take 9) + last.toNat * 128 ^ 9) (show 0 < 2 ^ 64 by decide)
      omega
    · intro small
      have bit := small high
      exact Nat.mod_eq_of_lt (by omega)
  · have short : (buf.take n).length ≤ 9 := by
      rw [List.length_take]
      omega
    have fits : groups (buf.take n) < 2 ^ 64 :=
      (groups_lt _).trans_le ((Nat.pow_le_pow_right (by decide) short).trans (by decide))
    have ends : last ∈ buf.take 9 := List.mem_of_getElem? (i := n - 1) (by
      rw [List.getElem?_take_of_lt (by omega)]
      exact found)
    exact iff_of_true (Nat.mod_eq_of_lt fits) fun all => absurd (all last ends) (not_le.mpr low)

section Example

/-- Nine empty groups, and a tenth whose bit stands for 2⁶⁴. -/
def tooLarge : List UInt8 := List.replicate 9 0x80 ++ [0x02]

theorem tooLarge_accepted :
    ¬ ∀ (buf : List UInt8) (v : UInt64) (n : Nat), decodeVarint buf = .ok (v, n) →
      v.toNat = ∑ i ∈ Finset.range n, (buf.getD i 0).toNat % 128 * 128 ^ i := by
  intro exactly
  exact absurd (exactly tooLarge 0 10 rfl) (by decide +kernel)

def largest : List UInt8 := List.replicate 9 0xFF ++ [0x01]

theorem decodeVarint_exact_largest :
    (0xFFFFFFFFFFFFFFFF : UInt64).toNat = ∑ i ∈ Finset.range 10,
      (largest.getD i 0).toNat % 128 * 128 ^ i :=
  (decodeVarint_exact_iff (show decodeVarint largest =
    .ok (0xFFFFFFFFFFFFFFFF, 10) by decide +kernel)).mpr fun _ => by decide

end Example

end Varint

end FlushDB
