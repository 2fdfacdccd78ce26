import Mathlib.Data.List.Basic
import Mathlib.Algebra.GroupWithZero.Nat

/-!
Base64 with padding. Three bytes are four groups of six bits; a last chunk of one or two bytes is
filled up with `=`. The decoder looks at the bytes of the text, and takes `=` for zero bits wherever
it stands.
-/

namespace FlushDB.Lib.Base64

def chars : List Char := "ABCDEFGHIJKLMNOPQRSTUVWXYZabcdefghijklmnopqrstuvwxyz0123456789+/".toList

/-- The character of the low six bits. -/
def charOf (bits : Nat) : Char := chars.getD (bits &&& 0x3F) '='

def encodeChunk (b0 : UInt8) (b1 b2 : Option UInt8) : List Char :=
  let triple := (b0.toNat <<< 16) ||| ((b1.getD 0).toNat <<< 8) ||| (b2.getD 0).toNat
  [charOf (triple >>> 18), charOf (triple >>> 12), if b1.isSome then charOf (triple >>> 6) else '=',
    if b2.isSome then charOf triple else '=']

def encodeChunks : List UInt8 → List Char
  | [] => []
  | [b0] => encodeChunk b0 none none
  | [b0, b1] => encodeChunk b0 (some b1) none
  | b0 :: b1 :: b2 :: rest => encodeChunk b0 (some b1) (some b2) ++ encodeChunks rest

def encode (bytes : List UInt8) : String := .ofList (encodeChunks bytes)

def utf8Bytes (s : String) : List UInt8 := s.toList.flatMap String.utf8EncodeChar

/-- The code of an ASCII character. -/
def code (c : Char) : UInt8 := c.val.toUInt8

def valueOf (c : UInt8) : Option Nat :=
  if code 'A' ≤ c ∧ c ≤ code 'Z' then some (c - code 'A').toNat
  else if code 'a' ≤ c ∧ c ≤ code 'z' then some (c - code 'a' + 26).toNat
  else if code '0' ≤ c ∧ c ≤ code '9' then some (c - code '0' + 52).toNat
  else if c = code '+' then some 62
  else if c = code '/' then some 63
  else if c = code '=' then some 0
  else none

section Decode
variable {ε : Type} (error : String → ε)

def charToVal (c : UInt8) : Except ε Nat :=
  match valueOf c with
  | some v => .ok v
  | none => .error (error s!"invalid base64 char: {c}")

/-- The bytes of four groups, without those that the padding leaves out. -/
def unpack (v0 v1 v2 v3 : Nat) (c2 c3 : UInt8) : List UInt8 :=
  let triple := (v0 <<< 18) ||| (v1 <<< 12) ||| (v2 <<< 6) ||| v3
  .ofNat ((triple >>> 16) &&& 0xFF) :: ((if c2 ≠ code '=' then [.ofNat ((triple >>> 8) &&& 0xFF)] else []) ++
    if c3 ≠ code '=' then [.ofNat (triple &&& 0xFF)] else [])

/-- The length has been checked: there is no rest of fewer than four. -/
def decodeChunks : List UInt8 → Except ε (List UInt8)
  | c0 :: c1 :: c2 :: c3 :: rest => do
    let v0 ← charToVal error c0
    let v1 ← charToVal error c1
    let v2 ← charToVal error c2
    let v3 ← charToVal error c3
    let later ← decodeChunks rest
    return unpack v0 v1 v2 v3 c2 c3 ++ later
  | _ => .ok []

def decode (s : String) : Except ε (List UInt8) :=
  let bytes := utf8Bytes s
  if bytes.length % 4 ≠ 0 then .error (error "invalid base64 length") else decodeChunks error bytes

end Decode

/-- The alphabet is of ASCII characters, and each stands for its place. -/
theorem char_spec : ∀ v < 64, String.utf8EncodeChar (chars.getD v '=') = [code (chars.getD v '=')] ∧
    valueOf (code (chars.getD v '=')) = some v ∧ code (chars.getD v '=') ≠ code '=' := by
  decide +kernel

theorem shiftLeft_or {low i : Nat} (below : low < 2 ^ i) (high : Nat) :
    high <<< i ||| low = high * 2 ^ i + low := by
  rw [← Nat.shiftLeft_add_eq_or_of_lt below, Nat.shiftLeft_eq]

theorem triple_eq (b0 b1 b2 : UInt8) :
    b0.toNat <<< 16 ||| b1.toNat <<< 8 ||| b2.toNat = b0.toNat * 65536 + b1.toNat * 256 + b2.toNat := by
  have low := b2.toNat_lt
  have middle := b1.toNat_lt
  rw [Nat.or_assoc, shiftLeft_or low, shiftLeft_or (by omega)]
  omega

theorem groups_eq {t : Nat} (fits : t < 2 ^ 24) :
    (t / 2 ^ 18 % 64) <<< 18 ||| (t / 2 ^ 12 % 64) <<< 12 ||| (t / 2 ^ 6 % 64) <<< 6 ||| t % 64 =
      t := by
  have fourth : t % 64 < 2 ^ 6 := Nat.mod_lt _ (by decide)
  have third : t / 2 ^ 6 % 64 * 2 ^ 6 + t % 64 < 2 ^ 12 := by omega
  have second : t / 2 ^ 12 % 64 * 2 ^ 12 + (t / 2 ^ 6 % 64 * 2 ^ 6 + t % 64) < 2 ^ 18 := by omega
  rw [Nat.or_assoc, Nat.or_assoc, shiftLeft_or fourth, shiftLeft_or third, shiftLeft_or second]
  omega

theorem charOf_eq (bits : Nat) : charOf bits = chars.getD (bits % 64) '=' := by
  rw [charOf, show 0x3F = 2 ^ 6 - 1 from rfl, Nat.and_two_pow_sub_one_eq_mod]

theorem utf8_charOf (bits : Nat) : String.utf8EncodeChar (charOf bits) = [code (charOf bits)] := by
  rw [charOf_eq]
  exact (char_spec _ (Nat.mod_lt _ (by decide))).1

theorem code_charOf_ne (bits : Nat) : code (charOf bits) ≠ code '=' := by
  rw [charOf_eq]
  exact (char_spec _ (Nat.mod_lt _ (by decide))).2.2

section RoundTrip
variable {ε : Type} {error : String → ε}

theorem charToVal_charOf (bits : Nat) : charToVal error (code (charOf bits)) = .ok (bits % 64) := by
  rw [charToVal, charOf_eq, (char_spec _ (Nat.mod_lt _ (by decide))).2.1]

theorem charToVal_padding : charToVal error (code '=') = .ok 0 := rfl

theorem unpack_groups {t : Nat} (fits : t < 2 ^ 24) (c2 c3 : UInt8) :
    unpack (t >>> 18 % 64) (t >>> 12 % 64) (t >>> 6 % 64) (t % 64) c2 c3 =
      UInt8.ofNat (t / 2 ^ 16) :: ((if c2 ≠ code '=' then [UInt8.ofNat (t / 2 ^ 8)] else []) ++
        if c3 ≠ code '=' then [UInt8.ofNat t] else []) := by
  have byte : ∀ n, UInt8.ofNat (n &&& 0xFF) = UInt8.ofNat n := fun n => by
    apply UInt8.toNat_inj.mp
    rw [show 0xFF = 2 ^ 8 - 1 from rfl, Nat.and_two_pow_sub_one_eq_mod, UInt8.toNat_ofNat',
      UInt8.toNat_ofNat', Nat.mod_mod]
  simp only [unpack, byte, Nat.shiftRight_eq_div_pow, groups_eq fits]

theorem decodeChunks_group {t : Nat} (fits : t < 2 ^ 24) {c2 c3 : UInt8}
    (third : charToVal error c2 = .ok (t >>> 6 % 64)) (fourth : charToVal error c3 = .ok (t % 64))
    (rest : List UInt8) :
    decodeChunks error (code (charOf (t >>> 18)) :: code (charOf (t >>> 12)) :: c2 :: c3 :: rest) =
      (decodeChunks error rest).map fun later =>
        UInt8.ofNat (t / 2 ^ 16) :: ((if c2 ≠ code '=' then [UInt8.ofNat (t / 2 ^ 8)] else []) ++
          if c3 ≠ code '=' then [UInt8.ofNat t] else []) ++ later := by
  rw [decodeChunks, charToVal_charOf, charToVal_charOf, third, fourth]
  cases decodeChunks error rest with
  | error e => rfl
  | ok later => exact congrArg (fun bytes => Except.ok (bytes ++ later)) (unpack_groups fits c2 c3)

theorem ofNat_eq {n : Nat} {b : UInt8} (same : n % 256 = b.toNat) : UInt8.ofNat n = b :=
  UInt8.toNat_inj.mp (UInt8.toNat_ofNat'.trans same)

/-- A chunk of the text is decoded to the bytes that it was made of: the padding stands for the zero
bits that are missing. -/
theorem decodeChunks_encodeChunk (b0 : UInt8) {b1 b2 : Option UInt8} (inner : b2.isSome → b1.isSome)
    (rest : List UInt8) :
    decodeChunks error ((encodeChunk b0 b1 b2).map code ++ rest) =
      (decodeChunks error rest).map fun later => b0 :: (b1.toList ++ b2.toList) ++ later := by
  have high := b0.toNat_lt
  have middle := (b1.getD 0).toNat_lt
  have low := (b2.getD 0).toNat_lt
  have absent : ((none : Option UInt8).getD 0).toNat = 0 := rfl
  rw [encodeChunk, triple_eq b0 (b1.getD 0) (b2.getD 0)]
  generalize number : b0.toNat * 65536 + (b1.getD 0).toNat * 256 + (b2.getD 0).toNat = t
  have fits : t < 2 ^ 24 := by omega
  have first : UInt8.ofNat (t / 2 ^ 16) = b0 := ofNat_eq (by omega)
  have second : UInt8.ofNat (t / 2 ^ 8) = b1.getD 0 := ofNat_eq (by omega)
  have third : UInt8.ofNat t = b2.getD 0 := ofNat_eq (by omega)
  simp only [List.map_cons, List.map_nil, List.cons_append, List.nil_append]
  cases b1 with
  | none =>
    obtain rfl : b2 = none := by
      cases b2 with
      | none => rfl
      | some b => exact absurd (inner rfl) (by decide)
    rw [absent] at number
    have missing : charToVal error (code '=') = .ok (t >>> 6 % 64) := by
      rw [charToVal_padding, Nat.shiftRight_eq_div_pow, show t / 2 ^ 6 % 64 = 0 by omega]
    have last : charToVal error (code '=') = .ok (t % 64) := by
      rw [charToVal_padding, show t % 64 = 0 by omega]
    simp only [Option.isSome_none, Bool.false_eq_true, ↓reduceIte]
    rw [decodeChunks_group fits missing last, first]
    rfl
  | some b1 =>
    cases b2 with
    | none =>
      rw [absent] at number
      have missing : charToVal error (code '=') = .ok (t % 64) := by
        rw [charToVal_padding, show t % 64 = 0 by omega]
      simp only [Option.isSome_none, Option.isSome_some, Bool.false_eq_true, ↓reduceIte]
      rw [decodeChunks_group fits (charToVal_charOf _) missing, first, if_pos (code_charOf_ne _),
        second]
      rfl
    | some b2 =>
      simp only [Option.isSome_some, ↓reduceIte]
      rw [decodeChunks_group fits (charToVal_charOf _) (charToVal_charOf _), first,
        if_pos (code_charOf_ne _),
        if_pos (code_charOf_ne _), second, third]
      rfl

theorem decodeChunks_encodeChunks (bytes : List UInt8) :
    decodeChunks error ((encodeChunks bytes).map code) = .ok bytes := by
  induction bytes using encodeChunks.induct with
  | case1 => rfl
  | case2 b0 =>
    rw [encodeChunks, ← List.append_nil ((encodeChunk b0 none none).map code),
      decodeChunks_encodeChunk b0 id]
    rfl
  | case3 b0 b1 =>
    rw [encodeChunks, ← List.append_nil ((encodeChunk b0 (some b1) none).map code),
      decodeChunks_encodeChunk b0 fun _ => rfl]
    rfl
  | case4 b0 b1 b2 rest ih =>
    rw [encodeChunks, List.map_append, decodeChunks_encodeChunk b0 fun _ => rfl, ih]
    rfl

theorem utf8_encodeChunk (b0 : UInt8) (b1 b2 : Option UInt8) :
    ∀ c ∈ encodeChunk b0 b1 b2, String.utf8EncodeChar c = [code c] := by
  intro c member
  have padding : String.utf8EncodeChar '=' = [code '='] := rfl
  simp only [encodeChunk, List.mem_cons, List.not_mem_nil, or_false] at member
  rcases member with rfl | rfl | rfl | rfl
  · exact utf8_charOf _
  · exact utf8_charOf _
  · split
    · exact utf8_charOf _
    · exact padding
  · split
    · exact utf8_charOf _
    · exact padding

theorem length_encodeChunk (b0 : UInt8) (b1 b2 : Option UInt8) :
    (encodeChunk b0 b1 b2).length = 4 :=
  rfl

theorem encodeChunks_spec (bytes : List UInt8) :
    (∀ c ∈ encodeChunks bytes, String.utf8EncodeChar c = [code c]) ∧
      (encodeChunks bytes).length % 4 = 0 := by
  induction bytes using encodeChunks.induct with
  | case1 => exact ⟨nofun, rfl⟩
  | case2 b0 => exact ⟨utf8_encodeChunk b0 none none, by rw [encodeChunks, length_encodeChunk]⟩
  | case3 b0 b1 =>
    exact ⟨utf8_encodeChunk b0 (some b1) none, by rw [encodeChunks, length_encodeChunk]⟩
  | case4 b0 b1 b2 rest ih =>
    rw [encodeChunks]
    refine ⟨List.forall_mem_append.mpr ⟨utf8_encodeChunk b0 (some b1) (some b2), ih.1⟩, ?_⟩
    rw [List.length_append, length_encodeChunk, Nat.add_mod_left]
    exact ih.2

theorem utf8Bytes_encode (bytes : List UInt8) :
    utf8Bytes (encode bytes) = (encodeChunks bytes).map code := by
  rw [utf8Bytes, encode, String.toList_ofList, List.map_eq_flatMap]
  exact List.flatMap_congr (encodeChunks_spec bytes).1

theorem decode_encode (bytes : List UInt8) : decode error (encode bytes) = .ok bytes := by
  have whole := (encodeChunks_spec bytes).2
  rw [decode, utf8Bytes_encode, List.length_map, if_neg (not_not.mpr whole), decodeChunks_encodeChunks]

end RoundTrip

end FlushDB.Lib.Base64
