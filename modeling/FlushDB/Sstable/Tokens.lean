import FlushDB.Lib.Mixing
import FlushDB.Sstable.Prefilters

/-!
The idempotency tokens of a file, kept as hashes. The number of hashes is written in 32 bits, and a
block that has more is not read back.
-/

namespace FlushDB.Sst
open Lib

namespace DedupBlock

def contains (d : DedupBlock) (token : IdempotencyToken) : Bool :=
  if token.isNone then false
  else
    match binarySearchBy (fun hash => compare hash (hashToken token)) d.hashes with
    | .ok _ => true
    | .error _ => false

theorem build_sorted (tokens : List IdempotencyToken) :
    (build tokens).hashes.Pairwise fun a b => a ≤ b := by
  refine (List.pairwise_mergeSort ?_ ?_ _).imp fun le => of_decide_eq_true le
  · intro a b c first second
    exact decide_eq_true ((of_decide_eq_true first).trans (of_decide_eq_true second))
  · intro a b
    rcases le_total a b with le | ge
    · simp [le]
    · simp [ge]

/-- The search finds exactly the hashes of the block. -/
theorem contains_iff {d : DedupBlock} (sorted : d.hashes.Pairwise fun a b => a ≤ b)
    (token : IdempotencyToken) :
    d.contains token = true ↔ token.isNone = false ∧ hashToken token ∈ d.hashes := by
  rw [← binarySearchBy_compare_iff sorted]
  unfold contains
  split
  · rename_i none
    simp [none]
  · rename_i some
    split
    · rename_i i found
      simp [some, found]
    · rename_i i missed
      simp [missed]

end DedupBlock

/-- The hashes of the tokens that the entries carry. -/
def tokenHashes (entries : List MemtableEntry) : List Bytes :=
  ((entries.map MemtableEntry.idempotencyKey).filter fun token => !token.isNone).map
    DedupBlock.hashToken

/-- The block answers for the tokens of the entries, and for no token with another hash. -/
structure DedupBlock.Answers (d : DedupBlock) (entries : List MemtableEntry) : Prop where
  written : ∀ e ∈ entries, e.idempotencyKey.isNone = false → d.contains e.idempotencyKey = true
  others : ∀ token, DedupBlock.hashToken token ∉ tokenHashes entries → d.contains token = false
  none : d.contains .none = false

theorem mem_tokenHashes {entries : List MemtableEntry} {hash : Bytes} :
    hash ∈ tokenHashes entries ↔ ∃ e ∈ entries, e.idempotencyKey.isNone = false ∧
      DedupBlock.hashToken e.idempotencyKey = hash := by
  simp only [tokenHashes, List.mem_map, List.mem_filter, Bool.not_eq_true']
  constructor
  · rintro ⟨token, ⟨⟨e, member, rfl⟩, carried⟩, same⟩
    exact ⟨e, member, carried, same⟩
  · rintro ⟨e, member, carried, same⟩
    exact ⟨e.idempotencyKey, ⟨⟨e, member, rfl⟩, carried⟩, same⟩

/-- What is read back of the tokens of a written file: those in its written blocks. -/
theorem dedup_read {codec : Codec} {config : SstConfig} {entries : List MemtableEntry}
    {state : WriteState} {s : Sections}
    (added : SSTableWriter.addEntries codec config {} entries = .ok state)
    (finished : SSTableWriter.sections codec config state = .ok s) :
    ∃ d : DedupBlock, (∀ token, d.contains token = true ↔ token.isNone = false ∧
        DedupBlock.hashToken token ∈
          tokenHashes (SSTableWriter.writtenEntries config.blockSizeTarget entries)) ∧
      DedupBlock.deserialize s.dedup =
        if (tokenHashes (SSTableWriter.writtenEntries config.blockSizeTarget
          entries)).dedup.length < 2 ^ 32 then .ok d
        else corrupted "dedup block count mismatch" := by
  obtain ⟨closed, -, -, closes, -, -, rfl⟩ := SSTableWriter.sections_ok finished
  obtain ⟨pending, cuts, -⟩ := SSTableWriter.closeBlock_cuts added closes
  have hashes : (DedupBlock.build closed.tokens).hashes =
      (tokenHashes (SSTableWriter.writtenEntries config.blockSizeTarget entries)).dedup.mergeSort
        (· ≤ ·) := by
    rw [DedupBlock.build, cuts.tokens, List.filter_filter]
    simp only [Bool.and_self, tokenHashes, SSTableWriter.writtenEntries]
  refine ⟨DedupBlock.build closed.tokens, fun token => ?_, ?_⟩
  · rw [DedupBlock.contains_iff (DedupBlock.build_sorted _), hashes, List.mem_mergeSort, List.mem_dedup]
  · rw [DedupBlock.deserialize_serialize_eq fun h => DedupBlock.build_sized, hashes,
      List.length_mergeSort]

/-- The tokens of a written file are read back, each found and no other, exactly when those in the
written blocks have fewer than 2^32 hashes, and every hash of a token is among them. -/
theorem tokens_remembered_iff {codec : Codec} {config : SstConfig} {entries : List MemtableEntry}
    {state : WriteState} {s : Sections}
    (added : SSTableWriter.addEntries codec config {} entries = .ok state)
    (finished : SSTableWriter.sections codec config state = .ok s) :
    (∃ d, DedupBlock.deserialize s.dedup = .ok d ∧ d.Answers entries) ↔
      (tokenHashes (SSTableWriter.writtenEntries config.blockSizeTarget entries)).dedup.length <
        2 ^ 32 ∧
        tokenHashes entries ⊆ tokenHashes (SSTableWriter.writtenEntries config.blockSizeTarget entries) := by
  obtain ⟨d, found, read⟩ := dedup_read added finished
  rw [read]
  split
  · rename_i few
    constructor
    · rintro ⟨d', same, answers⟩
      obtain rfl := Except.ok.inj same
      refine ⟨few, fun hash carried => ?_⟩
      obtain ⟨e, member, some, rfl⟩ := mem_tokenHashes.mp carried
      exact ((found e.idempotencyKey).mp (answers.written e member some)).2
    · rintro ⟨-, all⟩
      refine ⟨d, rfl, ?_, ?_, ?_⟩
      · intro e member some
        exact (found e.idempotencyKey).mpr ⟨some, all (mem_tokenHashes.mpr ⟨e, member, some, rfl⟩)⟩
      · intro token other
        rw [← Bool.not_eq_true, found]
        rintro ⟨-, inside⟩
        obtain ⟨e, member, some, same⟩ := mem_tokenHashes.mp inside
        exact other (mem_tokenHashes.mpr ⟨e, SSTableWriter.writtenEntries_part.subset member, some, same⟩)
      · rw [← Bool.not_eq_true, found]
        exact fun both => absurd both.1 (by decide)
  · rename_i many
    refine iff_of_false ?_ fun both => many both.1
    rintro ⟨other, read, -⟩
    cases read

section Hash

theorem rotateLeft_injective : Function.Injective fun x : UInt64 => rotateLeft x 31 := by
  intro x y same
  exact UInt64.toBitVec_inj.mp (@rotate_injective 64 31 (by decide) _ _ (congrArg UInt64.toBitVec same))

theorem xorShift33_injective : Function.Injective fun x : UInt64 => x ^^^ (x >>> 33) := by
  intro x y same
  exact UInt64.toBitVec_inj.mp (@xorShift_injective 64 33 (by decide) _ _ (congrArg UInt64.toBitVec same))

theorem mixK1_injective : Function.Injective mixK1 := by
  have first : Function.Injective fun k : UInt64 => k * hashC1 :=
    @mul_inverse_injective hashC1 0xa98409e882ce4d7d (by decide)
  have last : Function.Injective fun k : UInt64 => k * hashC2 :=
    @mul_inverse_injective hashC2 0xa81e14edd9de2c7f (by decide)
  exact last.comp (rotateLeft_injective.comp first)

theorem fmix64_injective : Function.Injective fmix64 := by
  have first : Function.Injective fun k : UInt64 => k * 0xff51afd7ed558ccd :=
    @mul_inverse_injective _ 0x4f74430c22a54005 (by decide)
  have second : Function.Injective fun k : UInt64 => k * 0xc4ceb9fe1a85ec53 :=
    @mul_inverse_injective _ 0x9cb4b2f8129337db (by decide)
  exact xorShift33_injective.comp (second.comp (xorShift33_injective.comp (first.comp xorShift33_injective)))

/-- What is done behind the last byte. -/
def finishHash (h1 h2 : UInt64) : UInt64 × UInt64 :=
  let h1 := h1 + h2
  let h2 := h2 + h1
  let h1 := fmix64 h1
  let h2 := fmix64 h2
  let h1 := h1 + h2
  (h1, h2 + h1)

theorem finishHash_injective (h2 : UInt64) : Function.Injective fun h1 => finishHash h1 h2 := by
  intro x y same
  obtain ⟨first, second⟩ := Prod.mk.inj same
  rw [first, UInt64.add_left_inj] at second
  rw [second, UInt64.add_left_inj] at first
  exact (UInt64.add_left_inj h2).mp (fmix64_injective first)

/-- What one block makes of the first word. -/
def mixFirst (data : List UInt8) (h1 h2 : UInt64) : UInt64 :=
  (rotateLeft (h1 ^^^ mixK1 (word (data.take 8))) 27 + h2) * 5 + 0x52dce729

def mixSecond (data : List UInt8) (h1 h2 : UInt64) : UInt64 :=
  (rotateLeft (h2 ^^^ mixK2 (word ((data.drop 8).take 8))) 31 + mixFirst data h1 h2) * 5 + 0x38495ab5

theorem hashBlocks_succ (blocks : Nat) (data : List UInt8) (h1 h2 : UInt64) :
    hashBlocks (blocks + 1) data h1 h2 = hashBlocks blocks (data.drop 16) (mixFirst data h1 h2)
      (mixSecond data h1 h2) := by
  -- left to itself, the kernel computes with the constants instead of unfolding the recursion
  delta hashBlocks
  rfl

/-- The whole blocks are mixed in, whatever stands behind them. -/
theorem hashBlocks_append {blocks : Nat} {front : List UInt8} (whole : front.length = 16 * blocks)
    (tail : List UInt8) (h1 h2 : UInt64) :
    hashBlocks blocks (front ++ tail) h1 h2 = ((hashBlocks blocks front h1 h2).1,
      (hashBlocks blocks front h1 h2).2.1, tail) := by
  induction blocks generalizing front h1 h2 with
  | zero =>
    obtain rfl := List.length_eq_zero_iff.mp whole
    rfl
  | succ blocks ih =>
    have first : mixFirst (front ++ tail) h1 h2 = mixFirst front h1 h2 := by
      rw [mixFirst, mixFirst, List.take_append_of_le_length (by omega)]
    have second : mixSecond (front ++ tail) h1 h2 = mixSecond front h1 h2 := by
      rw [mixSecond, mixSecond, first,
        List.drop_append_of_le_length (by omega), List.take_append_of_le_length (by
        rw [List.length_drop]
        omega)]
    have behind : (front ++ tail).drop 16 = front.drop 16 ++ tail :=
      List.drop_append_of_le_length (by omega)
    have rest : (front.drop 16).length = 16 * blocks := by
      rw [List.length_drop]
      omega
    rw [hashBlocks_succ, first, second, behind, ih rest, hashBlocks_succ]

/-- Behind a whole block, the last eight bytes are mixed into the first word only. -/
theorem murmurhash3X64128_tail {front : List UInt8} (whole : front.length = 16) (seed : UInt64) :
    ∃ p q, ∀ tail : List UInt8, tail.length = 8 →
      murmurhash3X64128 (front ++ tail) seed = finishHash (p ^^^ mixK1 (word tail)) q := by
  refine ⟨(hashBlocks 1 front seed seed).1 ^^^ UInt64.ofNat 24,
    (hashBlocks 1 front seed seed).2.1 ^^^ mixK2 (word []) ^^^ UInt64.ofNat 24, ?_⟩
  intro tail eight
  have length : (front ++ tail).length = 24 := by rw [List.length_append, whole, eight]
  have blocks := @hashBlocks_append 1 front whole tail seed seed
  unfold murmurhash3X64128
  rw [length, show 24 / 16 = 1 from rfl, blocks]
  dsimp only
  rw [List.drop_eq_nil_of_le eight.le, List.take_of_length_le eight.le,
    UInt64.xor_assoc (hashBlocks 1 front seed seed).1,
    UInt64.xor_comm (mixK1 (word tail)), ← UInt64.xor_assoc]
  rfl

/-- The token with this number in its last eight bytes. -/
def numbered (i : Nat) : IdempotencyToken :=
  ⟨⟨(List.replicate 16 0 ++ leBytes 8 i).toArray, by simp⟩⟩

theorem hashToken_numbered {i j : Nat} (small : i < 2 ^ 64) (small' : j < 2 ^ 64)
    (same : DedupBlock.hashToken (numbered i) = DedupBlock.hashToken (numbered j)) : i = j := by
  obtain ⟨p, q, hashes⟩ := @murmurhash3X64128_tail (List.replicate 16 0) List.length_replicate 0x42
  have bytes : ∀ n, (numbered n).data.toList = List.replicate 16 0 ++ leBytes 8 n := fun n => rfl
  simp only [DedupBlock.hashToken, bytes, hashes _ (length_leBytes 8 _), Bytes.mk.injEq] at same
  obtain ⟨first, second⟩ := List.append_inj same (by rw [length_leBytes, length_leBytes])
  have wide : ∀ a b : UInt64, leBytes 8 a.toNat = leBytes 8 b.toNat → a = b := by
    intro a b equal
    have numbers := congrArg fromLeBytes equal
    rw [fromLeBytes_leBytes a.toNat_lt, fromLeBytes_leBytes b.toNat_lt] at numbers
    exact UInt64.toNat_inj.mp numbers
  have mixed := finishHash_injective q (Prod.ext (wide _ _ first) (wide _ _ second))
  have words := mixK1_injective ((UInt64.xor_right_inj p).mp mixed)
  have numbers := congrArg UInt64.toNat words
  rw [word, word, fromLeBytes_leBytes (show i < 256 ^ 8 from small),
    fromLeBytes_leBytes (show j < 256 ^ 8 from small'),
    UInt64.toNat_ofNat_of_lt' small, UInt64.toNat_ofNat_of_lt' small'] at numbers
  exact numbers

theorem numbered_carried {i : Nat} (positive : i ≠ 0) (small : i < 2 ^ 64) :
    (numbered i).isNone = false := by
  refine decide_eq_false fun same => positive ?_
  have zero : numbered 0 = .none := by decide
  exact hashToken_numbered small (by decide) (congrArg DedupBlock.hashToken (same.trans zero.symm))

end Hash

section Example

/-- Versions of one key, each with a token of its own. -/
def numberedEntry (n i : Nat) : MemtableEntry :=
  { sampleEntry 1 7 (n - i) with idempotencyKey := numbered (i + 1) }

def numberedEntries (n : Nat) : List MemtableEntry := (List.range n).map (numberedEntry n)

variable {n : Nat}

theorem tokenHashes_numbered (small : n + 1 < 2 ^ 64) :
    (tokenHashes (numberedEntries n)).dedup.length = n := by
  have tokens : (numberedEntries n).map MemtableEntry.idempotencyKey =
      (List.range n).map fun i => numbered (i + 1) := by
    rw [numberedEntries, List.map_map]
    rfl
  have carried : ((List.range n).map fun i => numbered (i + 1)).filter (fun token => !token.isNone) =
      (List.range n).map fun i => numbered (i + 1) := by
    refine List.filter_eq_self.mpr fun token member => ?_
    obtain ⟨i, listed, rfl⟩ := List.mem_map.mp member
    have below := List.mem_range.mp listed
    rw [numbered_carried (Nat.succ_ne_zero i) (by omega)]
    rfl
  rw [tokenHashes, tokens, carried, List.map_map, List.Nodup.dedup, List.length_map, List.length_range]
  refine List.Nodup.map_on ?_ List.nodup_range
  intro i left j right same
  have below := List.mem_range.mp left
  have below' := List.mem_range.mp right
  exact Nat.succ.inj (hashToken_numbered (by omega) (by omega) same)

theorem tokens_remembered_pair :
    ∃ state s d, SSTableWriter.addEntries plainCodec plainConfig {} (numberedEntries 2) = .ok state ∧
      SSTableWriter.sections plainCodec plainConfig state = .ok s ∧
        DedupBlock.deserialize s.dedup = .ok d ∧
      d.contains (numbered 1) = true ∧ d.contains .none = false := by
  have counted : SSTableWriter.Counted plainConfig.blockSizeTarget (numberedEntries 2) :=
    SSTableWriter.counted_of_target (by decide) _
  obtain ⟨state, s, added, finished⟩ := @SSTableWriter.sections_total plainCodec plainConfig
    (numberedEntries 2)
    plainCodec_lossless counted (by decide)
  obtain ⟨d, read, answers⟩ := (tokens_remembered_iff added finished).mpr (by
    rw [counted.writtenEntries, tokenHashes_numbered (by decide)]
    exact ⟨by decide, List.Subset.refl _⟩)
  exact ⟨state, s, d, added, finished, read, answers.written
    (numberedEntry 2 0) (by decide) (by decide), answers.none⟩

/-- The number of hashes is written as zero, and the block is not read back. -/
theorem many_tokens_lost :
    ∃ state s, SSTableWriter.addEntries plainCodec plainConfig {} (numberedEntries (2 ^ 32)) =
      .ok state ∧
      SSTableWriter.sections plainCodec plainConfig state = .ok s ∧
      DedupBlock.deserialize s.dedup = corrupted "dedup block count mismatch" := by
  have nonempty : numberedEntries (2 ^ 32) ≠ [] := by
    intro empty
    have length := congrArg List.length empty
    rw [numberedEntries, List.length_map, List.length_range] at length
    cases length
  have counted : SSTableWriter.Counted plainConfig.blockSizeTarget (numberedEntries (2 ^ 32)) :=
    SSTableWriter.counted_of_target (by decide) _
  obtain ⟨state, s, added, finished⟩ := @SSTableWriter.sections_total plainCodec plainConfig
    (numberedEntries (2 ^ 32))
    plainCodec_lossless counted nonempty
  obtain ⟨d, -, read⟩ := dedup_read added finished
  refine ⟨state, s, added, finished, ?_⟩
  rw [read, counted.writtenEntries, tokenHashes_numbered (by decide), if_neg (lt_irrefl _)]

end Example

end FlushDB.Sst
