import Mathlib.Data.Nat.Bitwise

/-!
Numbers as bytes: little-endian fields of a fixed width, and varints of seven bits a byte, the
lowest first, with the high bit set on every byte but the last.
-/

namespace FlushDB.Lib

/-- The low `width` bytes of a number. -/
def leBytes : Nat → Nat → List UInt8
  | 0, _ => []
  | width + 1, value => UInt8.ofNat value :: leBytes width (value / 256)

def fromLeBytes : List UInt8 → Nat
  | [] => 0
  | b :: rest => b.toNat + 256 * fromLeBytes rest

@[simp]
theorem length_leBytes (width value : Nat) : (leBytes width value).length = width := by
  induction width generalizing value with
  | zero => rfl
  | succ width ih => simp [leBytes, ih]

@[simp]
theorem take_leBytes {width value n : Nat} (whole : width ≤ n) :
    (leBytes width value).take n = leBytes width value :=
  List.take_of_length_le (by rw [length_leBytes]; exact whole)

@[simp]
theorem drop_leBytes {width value n : Nat} (whole : width ≤ n) :
    (leBytes width value).drop n = [] :=
  List.drop_eq_nil_of_le (by rw [length_leBytes]; exact whole)

theorem fromLeBytes_leBytes {width value : Nat} (fits : value < 256 ^ width) :
    fromLeBytes (leBytes width value) = value := by
  induction width generalizing value with
  | zero =>
    have zero : value = 0 := by simpa using fits
    simp [leBytes, fromLeBytes, zero]
  | succ width ih =>
    have low : (UInt8.ofNat value).toNat = value % 256 := UInt8.toNat_ofNat'
    have high : value / 256 < 256 ^ width := by
      rw [Nat.div_lt_iff_lt_mul (by decide)]
      rwa [Nat.pow_succ] at fits
    simp only [leBytes, fromLeBytes, low, ih high]
    omega

/-- Only the remainder is written. -/
theorem leBytes_mod (width value : Nat) :
    leBytes width (value % 256 ^ width) = leBytes width value := by
  induction width generalizing value with
  | zero => rfl
  | succ width ih =>
    have low : UInt8.ofNat (value % 256 ^ (width + 1)) = UInt8.ofNat value := by
      apply UInt8.toNat_inj.mp
      rw [UInt8.toNat_ofNat', UInt8.toNat_ofNat',
        Nat.mod_mod_of_dvd _ (Dvd.intro_left _ (Nat.pow_succ ..).symm)]
    have high : value % 256 ^ (width + 1) / 256 = value / 256 % 256 ^ width := by
      rw [Nat.pow_succ', Nat.mod_mul_right_div_self]
    rw [leBytes, leBytes, low, high, ih]

theorem fromLeBytes_uint32 (value : UInt32) : fromLeBytes (leBytes 4 value.toNat) = value.toNat :=
  fromLeBytes_leBytes value.toNat_lt

theorem fromLeBytes_lt {bytes : List UInt8} {width : Nat} (length : bytes.length = width) :
    fromLeBytes bytes < 256 ^ width := by
  induction bytes generalizing width with
  | nil =>
    obtain rfl := length
    decide
  | cons b rest ih =>
    obtain rfl := length
    have low := b.toNat_lt
    have high := ih rfl
    rw [fromLeBytes, List.length_cons, Nat.pow_succ]
    omega

/-- As many bytes that stand for one number are the same bytes. -/
theorem fromLeBytes_injective {a b : List UInt8} (length : a.length = b.length)
    (same : fromLeBytes a = fromLeBytes b) : a = b := by
  induction a generalizing b with
  | nil => exact (List.length_eq_zero_iff.mp length.symm).symm
  | cons x rest ih =>
    cases b with
    | nil => cases length
    | cons y rest' =>
      have low := x.toNat_lt
      have low' := y.toNat_lt
      simp only [fromLeBytes] at same
      have head : x = y := UInt8.toNat_inj.mp (by omega)
      have tail := ih (Nat.succ.inj length) (by omega)
      rw [head, tail]

theorem fromLeBytes_zero {bytes : List UInt8} (zero : ∀ b ∈ bytes, b = 0) :
    fromLeBytes bytes = 0 := by
  induction bytes with
  | nil => rfl
  | cons b rest ih =>
    rw [fromLeBytes, zero b List.mem_cons_self, ih fun b member => zero b (List.mem_cons_of_mem _ member)]
    rfl

/-- `fuel` bounds the number of bytes. -/
def varintBytes : Nat → Nat → List UInt8
  | 0, _ => []
  | fuel + 1, value =>
    if value / 128 = 0 then [UInt8.ofNat (value % 128)]
    else UInt8.ofNat (value % 128 + 128) :: varintBytes fuel (value / 128)

/-- Ten bytes hold 64 bits. -/
def encodeVarint (value : Nat) : List UInt8 := varintBytes 10 value

theorem length_varintBytes (fuel value : Nat) : (varintBytes fuel value).length ≤ fuel := by
  induction fuel generalizing value with
  | zero => exact Nat.le_refl _
  | succ fuel ih =>
    unfold varintBytes
    split
    · exact Nat.succ_le_succ (Nat.zero_le _)
    · exact Nat.succ_le_succ (ih _)

theorem length_encodeVarint_le (value : Nat) : (encodeVarint value).length ≤ 10 :=
  length_varintBytes 10 value

/-- Reads on from the `i`-th byte. -/
def readVarint : Nat → Nat → List UInt8 → Except String (Nat × List UInt8)
  | _, _, [] => .error "varint is truncated"
  | i, value, b :: rest =>
    if i ≥ 10 then .error "varint exceeds 10 bytes"
    else
      let value := value ||| ((b.toNat % 128) <<< (7 * i)) % 2 ^ 64
      if b.toNat < 128 then .ok (value, rest) else readVarint (i + 1) value rest

/-- The number at the start of the buffer and what follows it. -/
def decodeVarint (buf : List UInt8) : Except String (Nat × List UInt8) :=
  if buf.isEmpty then .error "varint buffer is empty" else readVarint 0 0 buf

/-- The seven bits of one byte go above those that were read. -/
theorem varint_or {read low i : Nat} (below : read < 2 ^ (7 * i))
    (fits : low * 2 ^ (7 * i) < 2 ^ 64) :
    read ||| (low <<< (7 * i)) % 2 ^ 64 = read + low * 2 ^ (7 * i) := by
  rw [Nat.mod_eq_of_lt (by rw [Nat.shiftLeft_eq]; exact fits), Nat.or_comm,
    ← Nat.shiftLeft_add_eq_or_of_lt below, Nat.shiftLeft_eq, Nat.add_comm]

theorem readVarint_varintBytes {fuel i value read : Nat} (bytes : i + (fuel + 1) = 10)
    (below : read < 2 ^ (7 * i)) (fits : value * 2 ^ (7 * i) < 2 ^ 64) (rest : List UInt8) :
    readVarint i read (varintBytes (fuel + 1) value ++ rest) =
      .ok (read + value * 2 ^ (7 * i), rest) := by
  induction fuel generalizing i value read with
  | zero =>
    obtain rfl : i = 9 := by omega
    have small : value < 128 := by omega
    have byte : (UInt8.ofNat (value % 128)).toNat = value := by
      rw [UInt8.toNat_ofNat']
      omega
    have last : value / 128 = 0 := by omega
    simp only [varintBytes, if_pos last, List.cons_append, List.nil_append, readVarint, byte,
      if_pos small]
    rw [if_neg (by decide), Nat.mod_eq_of_lt small, varint_or below fits]
  | succ fuel ih =>
    have room : ¬ i ≥ 10 := by omega
    unfold varintBytes
    split
    · rename_i last
      have small : value < 128 := by omega
      have byte : (UInt8.ofNat (value % 128)).toNat = value := by
        rw [UInt8.toNat_ofNat']
        omega
      simp only [List.cons_append, List.nil_append, readVarint, byte, if_neg room, if_pos small]
      rw [Nat.mod_eq_of_lt small, varint_or below fits]
    · have byte : (UInt8.ofNat (value % 128 + 128)).toNat = value % 128 + 128 := by
        rw [UInt8.toNat_ofNat']
        omega
      have more : ¬ value % 128 + 128 < 128 := by omega
      have low : (value % 128 + 128) % 128 = value % 128 := by omega
      have split : value = value % 128 + 128 * (value / 128) := by omega
      have next : 2 ^ (7 * (i + 1)) = 128 * 2 ^ (7 * i) := by
        rw [show 7 * (i + 1) = 7 + 7 * i by omega, Nat.pow_add]
      have lowFits : value % 128 * 2 ^ (7 * i) < 2 ^ 64 :=
        lt_of_le_of_lt (Nat.mul_le_mul_right _ (Nat.mod_le _ _)) fits
      have sum : value * 2 ^ (7 * i) = value % 128 * 2 ^ (7 * i) + value / 128 * 2 ^ (7 * (i + 1)) := by
        rw [next, ← Nat.mul_assoc, Nat.mul_comm (value / 128) 128, ← Nat.add_mul, ← split]
      have below' : read + value % 128 * 2 ^ (7 * i) < 2 ^ (7 * (i + 1)) := by
        have digit : value % 128 * 2 ^ (7 * i) ≤ 127 * 2 ^ (7 * i) :=
          Nat.mul_le_mul_right _ (by omega)
        omega
      simp only [List.cons_append, readVarint, byte, if_neg room, if_neg more, low]
      rw [varint_or below lowFits, ih (by omega) below' (by omega), sum]
      congr 2
      omega

theorem decodeVarint_encodeVarint {value : Nat} (fits : value < 2 ^ 64) (rest : List UInt8) :
    decodeVarint (encodeVarint value ++ rest) = .ok (value, rest) := by
  have nonempty : (encodeVarint value ++ rest).isEmpty = false := by
    unfold encodeVarint varintBytes
    split
    · rfl
    · rfl
  rw [decodeVarint, nonempty, if_neg Bool.false_ne_true, encodeVarint,
    readVarint_varintBytes rfl (by decide) (by simpa using fits)]
  simp

/-- A decoder that has read one thing after another has read the first. -/
theorem bind_ok {ε α β : Type*} {x : Except ε α} {f : α → Except ε β} {b : β}
    (h : x.bind f = .ok b) :
    ∃ a, x = .ok a ∧ f a = .ok b := by
  cases x with
  | error e => cases h
  | ok a => exact ⟨a, rfl, h⟩

theorem map_ok {ε α β : Type*} {x : Except ε α} {f : α → β} {b : β} (h : x.map f = .ok b) :
    ∃ a, x = .ok a ∧ f a = b := by
  cases x with
  | error e => cases h
  | ok a => exact ⟨a, rfl, Except.ok.inj h⟩

end FlushDB.Lib
