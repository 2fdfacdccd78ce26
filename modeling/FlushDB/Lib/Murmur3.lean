import FlushDB.Lib.Codec

/-!
The reference of MurmurHash3 for 64-bit words and 128 bits: blocks of sixteen bytes are mixed into
two words, then what is left of the bytes, then the length.
-/

namespace FlushDB.Lib.Murmur3

def rotl (x k : UInt64) : UInt64 := (x <<< k) ||| (x >>> (64 - k))

def c1 : UInt64 := 0x87c37b91114253d5
def c2 : UInt64 := 0x4cf5ad432745937f

def mixK1 (k1 : UInt64) : UInt64 := rotl (k1 * c1) 31 * c2
def mixK2 (k2 : UInt64) : UInt64 := rotl (k2 * c2) 33 * c1

def fmix64 (k : UInt64) : UInt64 :=
  let k := (k ^^^ (k >>> 33)) * 0xff51afd7ed558ccd
  let k := (k ^^^ (k >>> 33)) * 0xc4ceb9fe1a85ec53
  k ^^^ (k >>> 33)

/-- Bytes as a word, the lowest first. -/
def littleEndian (bytes : List UInt8) : UInt64 := .ofNat (fromLeBytes bytes)

def mixBlock (h : UInt64 × UInt64) (block : List UInt8) : UInt64 × UInt64 :=
  let h1 := (rotl (h.1 ^^^ mixK1 (littleEndian (block.take 8))) 27 + h.2) * 5 + 0x52dce729
  let h2 := (rotl (h.2 ^^^ mixK2 (littleEndian (block.drop 8))) 31 + h1) * 5 + 0x38495ab5
  (h1, h2)

def blockAt (data : List UInt8) (i : Nat) : List UInt8 := (data.drop (16 * i)).take 16

def blocks (data : List UInt8) : List (List UInt8) :=
  (List.range (data.length / 16)).map (blockAt data)

def tail (data : List UInt8) : List UInt8 := data.drop (16 * (data.length / 16))

/-- The first eight bytes of the tail go into the first word, and those behind them, if any, into
the second. -/
def mixTail (h : UInt64 × UInt64) (tail : List UInt8) : UInt64 × UInt64 :=
  (if 0 < tail.length then h.1 ^^^ mixK1 (littleEndian (tail.take 8)) else h.1,
    if 8 < tail.length then h.2 ^^^ mixK2 (littleEndian (tail.drop 8)) else h.2)

def finalize (h : UInt64 × UInt64) (length : Nat) : UInt64 × UInt64 :=
  let h1 := h.1 ^^^ .ofNat length
  let h2 := h.2 ^^^ .ofNat length
  let h1 := h1 + h2
  let h2 := h2 + h1
  let h1 := fmix64 h1
  let h2 := fmix64 h2
  let h1 := h1 + h2
  (h1, h2 + h1)

def hash128 (data : List UInt8) (seed : UInt32) : UInt64 × UInt64 :=
  finalize (mixTail ((blocks data).foldl mixBlock (seed.toUInt64, seed.toUInt64)) (tail data))
    data.length

theorem length_tail (data : List UInt8) : (tail data).length < 16 := by
  rw [tail, List.length_drop]
  omega

/-! ## Bytes put to their places -/

/-- The bytes, each shifted to its place, from a place on. -/
def placed (place : Nat) : List UInt8 → UInt64
  | [] => 0
  | b :: rest => placed (place + 1) rest ^^^ (b.toUInt64 <<< .ofNat (8 * place))

theorem xor_byte {b : Nat} (byte : b < 256) (n : Nat) : (n * 256) ^^^ b = b + 256 * n := by
  have small : b < 2 ^ 8 := byte
  rw [Nat.mul_comm, Nat.add_comm, show 256 = 2 ^ 8 from rfl]
  apply Nat.eq_of_testBit_eq
  intro i
  rw [Nat.testBit_xor, Nat.testBit_two_pow_mul, Nat.testBit_two_pow_mul_add n small]
  by_cases low : i < 8
  · simp [low, not_le.mpr low]
  · have high : 8 ≤ i := not_lt.mp low
    have gone : b.testBit i = false := Nat.testBit_lt_two_pow
      (small.trans_le (Nat.pow_le_pow_right (by decide) high))
    simp [low, high, gone]

theorem toNat_placed {bytes : List UInt8} {place : Nat} (fits : place + bytes.length ≤ 8) :
    (placed place bytes).toNat = fromLeBytes bytes * 256 ^ place := by
  induction bytes generalizing place with
  | nil => simp [placed, fromLeBytes]
  | cons b rest ih =>
    rw [List.length_cons] at fits
    have byte := b.toNat_lt
    have shift : (UInt64.ofNat (8 * place)).toNat % 64 = 8 * place := by
      rw [UInt64.toNat_ofNat']
      omega
    have power : 2 ^ (8 * place) = 256 ^ place := Nat.pow_mul 2 8 place
    have room : b.toNat * 256 ^ place < 2 ^ 64 := by
      calc b.toNat * 256 ^ place < 256 * 256 ^ place :=
        Nat.mul_lt_mul_of_pos_right byte (Nat.pow_pos (by decide))
        _ = 256 ^ (place + 1) := Nat.pow_succ'.symm
        _ ≤ 256 ^ 8 := Nat.pow_le_pow_right (by decide) (by omega)
    have digits : (fromLeBytes rest * 256) <<< (8 * place) ^^^ b.toNat <<< (8 * place) =
        (b.toNat + 256 * fromLeBytes rest) <<< (8 * place) := by rw [← Nat.shiftLeft_xor_distrib, xor_byte byte]
    rw [Nat.shiftLeft_eq, Nat.shiftLeft_eq, Nat.shiftLeft_eq, power] at digits
    rw [placed, UInt64.toNat_xor,
      ih (by omega), UInt64.toNat_shiftLeft, UInt8.toNat_toUInt64, shift, Nat.shiftLeft_eq, power,
      Nat.mod_eq_of_lt room, fromLeBytes, Nat.pow_succ', ← Nat.mul_assoc, digits]

theorem placed_eq {bytes : List UInt8} (short : bytes.length ≤ 8) :
    placed 0 bytes = littleEndian bytes := by
  apply UInt64.toNat_inj.mp
  rw [toNat_placed (by omega), littleEndian, UInt64.toNat_ofNat', Nat.pow_zero, Nat.mul_one, Nat.mod_eq_of_lt]
  exact (fromLeBytes_lt rfl).trans_le (Nat.pow_le_pow_right (by decide) short)

end FlushDB.Lib.Murmur3
