import FlushDB.Lib.Murmur3
import FlushDB.Sstable.Tokens

/-!
The hash of the filters and of the tokens, as it is written: a loop over the blocks and a case of
its own for each length of the tail. It is the reference, and what the model of the table files
uses.
-/

namespace FlushDB
open Lib

namespace Hash
open Sst

/-- One turn of the loop. `mixK1` and `mixK2` are the three steps that are done to a word before it
is taken in. -/
def mixBlockAt (data : List UInt8) (h : UInt64 × UInt64) (i : Nat) : UInt64 × UInt64 :=
  let (h1, h2) := h
  let offset := i * 16
  let k1 := word ((data.drop offset).take 8)
  let k2 := word ((data.drop (offset + 8)).take 8)
  let h1 := h1 ^^^ mixK1 k1
  let h1 := rotateLeft h1 27
  let h1 := h1 + h2
  let h1 := h1 * 5 + 0x52dce729
  let h2 := h2 ^^^ mixK2 k2
  let h2 := rotateLeft h2 31
  let h2 := h2 + h1
  let h2 := h2 * 5 + 0x38495ab5
  (h1, h2)

def mixTail (tail : List UInt8) (h1 h2 : UInt64) : UInt64 × UInt64 :=
  let t i := (tail.getD i 0).toUInt64
  let k1 : UInt64 := 0
  let k2 : UInt64 := 0
  match tail.length with
  | 15 =>
    let k2 := k2 ^^^ (t 14 <<< 48) ^^^ (t 13 <<< 40) ^^^ (t 12 <<< 32) ^^^ (t 11 <<< 24) ^^^
      (t 10 <<< 16) ^^^ (t 9 <<< 8) ^^^ t 8
    let h2 := h2 ^^^ mixK2 k2
    let k1 := k1 ^^^ (t 7 <<< 56) ^^^ (t 6 <<< 48) ^^^ (t 5 <<< 40) ^^^ (t 4 <<< 32) ^^^
      (t 3 <<< 24) ^^^ (t 2 <<< 16) ^^^
      (t 1 <<< 8) ^^^ t 0
    let h1 := h1 ^^^ mixK1 k1
    (h1, h2)
  | 14 =>
    let k2 := k2 ^^^ (t 13 <<< 40) ^^^ (t 12 <<< 32) ^^^ (t 11 <<< 24) ^^^ (t 10 <<< 16) ^^^
      (t 9 <<< 8) ^^^ t 8
    let h2 := h2 ^^^ mixK2 k2
    let k1 := k1 ^^^ (t 7 <<< 56) ^^^ (t 6 <<< 48) ^^^ (t 5 <<< 40) ^^^ (t 4 <<< 32) ^^^
      (t 3 <<< 24) ^^^ (t 2 <<< 16) ^^^
      (t 1 <<< 8) ^^^ t 0
    let h1 := h1 ^^^ mixK1 k1
    (h1, h2)
  | 13 =>
    let k2 := k2 ^^^ (t 12 <<< 32) ^^^ (t 11 <<< 24) ^^^ (t 10 <<< 16) ^^^ (t 9 <<< 8) ^^^ t 8
    let h2 := h2 ^^^ mixK2 k2
    let k1 := k1 ^^^ (t 7 <<< 56) ^^^ (t 6 <<< 48) ^^^ (t 5 <<< 40) ^^^ (t 4 <<< 32) ^^^
      (t 3 <<< 24) ^^^ (t 2 <<< 16) ^^^
      (t 1 <<< 8) ^^^ t 0
    let h1 := h1 ^^^ mixK1 k1
    (h1, h2)
  | 12 =>
    let k2 := k2 ^^^ (t 11 <<< 24) ^^^ (t 10 <<< 16) ^^^ (t 9 <<< 8) ^^^ t 8
    let h2 := h2 ^^^ mixK2 k2
    let k1 := k1 ^^^ (t 7 <<< 56) ^^^ (t 6 <<< 48) ^^^ (t 5 <<< 40) ^^^ (t 4 <<< 32) ^^^
      (t 3 <<< 24) ^^^ (t 2 <<< 16) ^^^
      (t 1 <<< 8) ^^^ t 0
    let h1 := h1 ^^^ mixK1 k1
    (h1, h2)
  | 11 =>
    let k2 := k2 ^^^ (t 10 <<< 16) ^^^ (t 9 <<< 8) ^^^ t 8
    let h2 := h2 ^^^ mixK2 k2
    let k1 := k1 ^^^ (t 7 <<< 56) ^^^ (t 6 <<< 48) ^^^ (t 5 <<< 40) ^^^ (t 4 <<< 32) ^^^
      (t 3 <<< 24) ^^^ (t 2 <<< 16) ^^^
      (t 1 <<< 8) ^^^ t 0
    let h1 := h1 ^^^ mixK1 k1
    (h1, h2)
  | 10 =>
    let k2 := k2 ^^^ (t 9 <<< 8) ^^^ t 8
    let h2 := h2 ^^^ mixK2 k2
    let k1 := k1 ^^^ (t 7 <<< 56) ^^^ (t 6 <<< 48) ^^^ (t 5 <<< 40) ^^^ (t 4 <<< 32) ^^^
      (t 3 <<< 24) ^^^ (t 2 <<< 16) ^^^
      (t 1 <<< 8) ^^^ t 0
    let h1 := h1 ^^^ mixK1 k1
    (h1, h2)
  | 9 =>
    let k2 := k2 ^^^ t 8
    let h2 := h2 ^^^ mixK2 k2
    let k1 := k1 ^^^ (t 7 <<< 56) ^^^ (t 6 <<< 48) ^^^ (t 5 <<< 40) ^^^ (t 4 <<< 32) ^^^
      (t 3 <<< 24) ^^^ (t 2 <<< 16) ^^^
      (t 1 <<< 8) ^^^ t 0
    let h1 := h1 ^^^ mixK1 k1
    (h1, h2)
  | 8 =>
    let k1 := k1 ^^^ (t 7 <<< 56) ^^^ (t 6 <<< 48) ^^^ (t 5 <<< 40) ^^^ (t 4 <<< 32) ^^^
      (t 3 <<< 24) ^^^ (t 2 <<< 16) ^^^
      (t 1 <<< 8) ^^^ t 0
    let h1 := h1 ^^^ mixK1 k1
    (h1, h2)
  | 7 =>
    let k1 := k1 ^^^ (t 6 <<< 48) ^^^ (t 5 <<< 40) ^^^ (t 4 <<< 32) ^^^ (t 3 <<< 24) ^^^
      (t 2 <<< 16) ^^^ (t 1 <<< 8) ^^^ t 0
    let h1 := h1 ^^^ mixK1 k1
    (h1, h2)
  | 6 =>
    let k1 := k1 ^^^ (t 5 <<< 40) ^^^ (t 4 <<< 32) ^^^ (t 3 <<< 24) ^^^ (t 2 <<< 16) ^^^
      (t 1 <<< 8) ^^^ t 0
    let h1 := h1 ^^^ mixK1 k1
    (h1, h2)
  | 5 =>
    let k1 := k1 ^^^ (t 4 <<< 32) ^^^ (t 3 <<< 24) ^^^ (t 2 <<< 16) ^^^ (t 1 <<< 8) ^^^ t 0
    let h1 := h1 ^^^ mixK1 k1
    (h1, h2)
  | 4 =>
    let k1 := k1 ^^^ (t 3 <<< 24) ^^^ (t 2 <<< 16) ^^^ (t 1 <<< 8) ^^^ t 0
    let h1 := h1 ^^^ mixK1 k1
    (h1, h2)
  | 3 =>
    let k1 := k1 ^^^ (t 2 <<< 16) ^^^ (t 1 <<< 8) ^^^ t 0
    let h1 := h1 ^^^ mixK1 k1
    (h1, h2)
  | 2 =>
    let k1 := k1 ^^^ (t 1 <<< 8) ^^^ t 0
    let h1 := h1 ^^^ mixK1 k1
    (h1, h2)
  | 1 =>
    let k1 := k1 ^^^ t 0
    let h1 := h1 ^^^ mixK1 k1
    (h1, h2)
  | _ => (h1, h2)

def murmurhash3X64128 (data : List UInt8) (seed : UInt32) : UInt64 × UInt64 :=
  let seed := seed.toUInt64
  let nblocks := data.length / 16
  let (h1, h2) := (List.range nblocks).foldl (mixBlockAt data) (seed, seed)
  let (h1, h2) := mixTail (data.drop (nblocks * 16)) h1 h2
  let h1 := h1 ^^^ .ofNat data.length
  let h2 := h2 ^^^ .ofNat data.length
  let h1 := h1 + h2
  let h2 := h2 + h1
  let h1 := fmix64 h1
  let h2 := fmix64 h2
  let h1 := h1 + h2
  let h2 := h2 + h1
  (h1, h2)

/-! ## The cases -/

section Tail
variable (h1 h2 : UInt64)

theorem placed_zero (b : UInt8) (rest : List UInt8) :
    Murmur3.placed 0 (b :: rest) = Murmur3.placed 1 rest ^^^ b.toUInt64 :=
  congrArg (Murmur3.placed 1 rest ^^^ ·) UInt64.shiftLeft_zero

/-- Up to eight bytes are put to their places in the first word. -/
theorem mixTail_first : ∀ {tail : List UInt8}, 0 < tail.length → tail.length ≤ 8 →
    mixTail tail h1 h2 = (h1 ^^^ mixK1 (Murmur3.placed 0 tail), h2)
  | [_], _, _ => by rw [placed_zero]; rfl
  | [_, _], _, _ => by rw [placed_zero]; rfl
  | [_, _, _], _, _ => by rw [placed_zero]; rfl
  | [_, _, _, _], _, _ => by rw [placed_zero]; rfl
  | [_, _, _, _, _], _, _ => by rw [placed_zero]; rfl
  | [_, _, _, _, _, _], _, _ => by rw [placed_zero]; rfl
  | [_, _, _, _, _, _, _], _, _ => by rw [placed_zero]; rfl
  | [_, _, _, _, _, _, _, _], _, _ => by rw [placed_zero]; rfl

/-- What is behind eight bytes is put to its places in the second word. -/
theorem mixTail_second :
    ∀ {first second : List UInt8}, first.length = 8 → 0 < second.length → second.length < 8 →
    mixTail (first ++ second) h1 h2 = (h1 ^^^ mixK1 (Murmur3.placed 0 first),
      h2 ^^^ mixK2 (Murmur3.placed 0 second))
  | [_, _, _, _, _, _, _, _], [_], _, _, _ => by rw [placed_zero, placed_zero]; rfl
  | [_, _, _, _, _, _, _, _], [_, _], _, _, _ => by rw [placed_zero, placed_zero]; rfl
  | [_, _, _, _, _, _, _, _], [_, _, _], _, _, _ => by rw [placed_zero, placed_zero]; rfl
  | [_, _, _, _, _, _, _, _], [_, _, _, _], _, _, _ => by rw [placed_zero, placed_zero]; rfl
  | [_, _, _, _, _, _, _, _], [_, _, _, _, _], _, _, _ => by rw [placed_zero, placed_zero]; rfl
  | [_, _, _, _, _, _, _, _], [_, _, _, _, _, _], _, _, _ => by rw [placed_zero, placed_zero]; rfl
  | [_, _, _, _, _, _, _, _], [_, _, _, _, _, _, _], _, _, _ =>
    by rw [placed_zero, placed_zero]; rfl

theorem mixTail_eq {tail : List UInt8} (short : tail.length < 16) :
    mixTail tail h1 h2 = Murmur3.mixTail (h1, h2) tail := by
  rw [Murmur3.mixTail]
  by_cases empty : tail.length = 0
  · obtain rfl := List.length_eq_zero_iff.mp empty
    rfl
  have nonempty : 0 < tail.length := Nat.pos_of_ne_zero empty
  rw [if_pos nonempty]
  by_cases more : 8 < tail.length
  · have first : (tail.take 8).length = 8 := by
      rw [List.length_take]
      omega
    have second : (tail.drop 8).length = tail.length - 8 := List.length_drop
    have mixed := mixTail_second h1 h2 first (by omega) (show (tail.drop 8).length < 8 by omega)
    rw [List.take_append_drop, Murmur3.placed_eq first.le, Murmur3.placed_eq (by omega)] at mixed
    rw [if_pos more, mixed]
    rfl
  · have few : tail.length ≤ 8 := not_lt.mp more
    rw [if_neg more, mixTail_first h1 h2 nonempty few, Murmur3.placed_eq few,
      List.take_of_length_le few]
    rfl

end Tail

theorem mixBlockAt_eq (data : List UInt8) (h : UInt64 × UInt64) (i : Nat) :
    mixBlockAt data h i = Murmur3.mixBlock h (Murmur3.blockAt data i) := by
  have low : (Murmur3.blockAt data i).take 8 = (data.drop (i * 16)).take 8 := by
    rw [Murmur3.blockAt, List.take_take, Nat.mul_comm]
    rfl
  have high : (Murmur3.blockAt data i).drop 8 = (data.drop (i * 16 + 8)).take 8 := by
    rw [Murmur3.blockAt, List.drop_take, List.drop_drop, Nat.mul_comm]
  rw [Murmur3.mixBlock, low, high]
  rfl

/-- The hash is MurmurHash3, whatever the bytes and the seed are. -/
theorem murmurhash3X64128_eq (data : List UInt8) (seed : UInt32) :
    murmurhash3X64128 data seed = Murmur3.hash128 data seed := by
  have blocks : (List.range (data.length / 16)).foldl (mixBlockAt data) (seed.toUInt64, seed.toUInt64) =
      (Murmur3.blocks data).foldl Murmur3.mixBlock (seed.toUInt64, seed.toUInt64) := by
    rw [Murmur3.blocks, List.foldl_map]
    exact congrFun (congrFun (congrArg List.foldl (funext fun h => funext fun i => mixBlockAt_eq data h i)) _) _
  have tail : data.drop (data.length / 16 * 16) = Murmur3.tail data := by
    rw [Murmur3.tail, Nat.mul_comm]
  rw [murmurhash3X64128, Murmur3.hash128]
  dsimp only
  rw [blocks, tail, mixTail_eq _ _ (Murmur3.length_tail data)]
  rfl

/-! ## The hash of the table files -/

theorem mixBlock_first (data : List UInt8) (h : UInt64 × UInt64) :
    Murmur3.mixBlock h (Murmur3.blockAt data 0) = (mixFirst data h.1 h.2, mixSecond data h.1 h.2) := by
  rw [← mixBlockAt_eq, mixBlockAt, mixFirst, mixSecond, mixFirst]
  rfl

/-- The blocks that are cut off in turn are the blocks of the reference. -/
theorem hashBlocks_eq (blocks : Nat) (data : List UInt8) (h : UInt64 × UInt64) :
    hashBlocks blocks data h.1 h.2 =
      ((((List.range blocks).map (Murmur3.blockAt data)).foldl Murmur3.mixBlock h).1,
        (((List.range blocks).map (Murmur3.blockAt data)).foldl Murmur3.mixBlock h).2,
          data.drop (16 * blocks)) := by
  induction blocks generalizing data h with
  | zero => rfl
  | succ blocks ih =>
    have later : (List.range blocks).map (Murmur3.blockAt data ∘ Nat.succ) =
        (List.range blocks).map (Murmur3.blockAt (data.drop 16)) := by
      refine List.map_congr_left fun i _ => ?_
      rw [Function.comp_apply, Murmur3.blockAt, Murmur3.blockAt, List.drop_drop,
        Nat.succ_eq_add_one, Nat.mul_add_one, Nat.add_comm 16]
    rw [List.range_succ_eq_map, List.map_cons, List.map_map, later, List.foldl_cons, mixBlock_first,
      hashBlocks_succ,
      ih (data.drop 16) (mixFirst data h.1 h.2, mixSecond data h.1 h.2), List.drop_drop,
        Nat.mul_add_one, Nat.add_comm 16]

/-- A part of the tail that is empty changes nothing. -/
theorem mixTail_words (h : UInt64 × UInt64) (tail : List UInt8) :
    Murmur3.mixTail h tail = (h.1 ^^^ mixK1 (word (tail.take 8)),
      h.2 ^^^ mixK2 (word (tail.drop 8))) := by
  have nothing1 : mixK1 (word []) = 0 := by decide
  have nothing2 : mixK2 (word []) = 0 := by decide
  have first : (if 0 < tail.length then h.1 ^^^ mixK1 (word (tail.take 8)) else h.1) =
      h.1 ^^^ mixK1 (word (tail.take 8)) := by
    split
    · rfl
    · rename_i empty
      obtain rfl := List.length_eq_zero_iff.mp (Nat.eq_zero_of_not_pos empty)
      rw [List.take_nil, nothing1, UInt64.xor_zero]
  have second : (if 8 < tail.length then h.2 ^^^ mixK2 (word (tail.drop 8)) else h.2) =
      h.2 ^^^ mixK2 (word (tail.drop 8)) := by
    split
    · rfl
    · rename_i few
      rw [List.drop_eq_nil_of_le (not_lt.mp few), nothing2, UInt64.xor_zero]
  rw [← first, ← second]
  rfl

/-- The filters and the tokens are hashed with it. -/
theorem murmurhash3X64128_files (data : List UInt8) (seed : UInt32) :
    Sst.murmurhash3X64128 data seed.toUInt64 = Murmur3.hash128 data seed := by
  have blocks := hashBlocks_eq (data.length / 16) data (seed.toUInt64, seed.toUInt64)
  dsimp only at blocks
  unfold Sst.murmurhash3X64128
  rw [blocks, Murmur3.hash128, mixTail_words]
  rfl

end Hash

end FlushDB
