import FlushDB.Lib.Separated
import FlushDB.Types.Key
import Mathlib.Data.Prod.Lex
import Mathlib.Order.Hom.Basic

/-!
Composite keys as pairs. The encoding of a record id and an item key is an order embedding of the
pairs, ordered by the record id first, into the keys.
-/

namespace FlushDB
open Lib

theorem separator_le (b : UInt8) : separator ≤ b := UInt8.le_iff_toNat_le.mpr (Nat.zero_le _)

/-- A record id and an item key that `CompositeKey::new` accepts. -/
structure KeyPair where
  recordId : Bytes
  itemKey : Bytes
  validRecordId : validateRecordId recordId = .ok ()
  validItemKey : validateItemKey itemKey = .ok ()

namespace KeyPair

def parts (p : KeyPair) : Bytes ×ₗ Bytes := toLex (p.recordId, p.itemKey)

theorem parts_injective : Function.Injective parts := by
  intro p q same
  obtain ⟨recordId, itemKey, _, _⟩ := p
  obtain ⟨recordId', itemKey', _, _⟩ := q
  obtain ⟨rfl, rfl⟩ := Prod.mk.inj (toLex.injective same)
  rfl

instance : LinearOrder KeyPair := LinearOrder.lift' parts parts_injective

def key (p : KeyPair) : CompositeKey := CompositeKey.encode p.recordId p.itemKey.data

theorem clean (p : KeyPair) : separator ∉ p.recordId.data :=
  (validateRecordId_ok p.validRecordId).2.1

theorem new_eq (p : KeyPair) : CompositeKey.new p.recordId p.itemKey = .ok p.key := by
  simp only [CompositeKey.new, p.validRecordId, p.validItemKey, bind, Except.bind]
  rfl

@[simp]
theorem key_recordId (p : KeyPair) : p.key.recordId = p.recordId :=
  CompositeKey.encode_recordId p.clean

@[simp]
theorem key_itemKey (p : KeyPair) : p.key.itemKey = p.itemKey := CompositeKey.encode_itemKey p.clean

theorem key_lt_key {p q : KeyPair} : p.key < q.key ↔ p < q := by
  have pairs : p < q ↔ p.recordId < q.recordId ∨ p.recordId = q.recordId ∧ p.itemKey < q.itemKey :=
    Prod.Lex.toLex_lt_toLex
  rw [pairs]
  refine (joined_lt_joined separator_le p.clean q.clean).trans ?_
  rw [Bytes.data_injective.eq_iff]
  exact Iff.rfl

/-- The encoding keeps the order of the pairs. -/
def keyEmbedding : KeyPair ↪o CompositeKey := OrderEmbedding.ofMapLEIff key fun p q => by
  rw [← not_lt, ← not_lt, key_lt_key]

end KeyPair

namespace CompositeKey

theorem lt_mark_iff {item : List UInt8} :
    item < [rangeTombstonePrefix] ↔ item.head? ≠ some rangeTombstonePrefix := by
  cases item with
  | nil => simp
  | cons b rest =>
    have most : b ≤ rangeTombstonePrefix := UInt8.le_iff_toNat_le.mpr (Nat.le_of_lt_succ b.toNat_lt)
    rw [List.cons_lt_cons_iff]
    simp [most.lt_iff_ne]

theorem maxKeyForRecord_ok {recordId : Bytes} (valid : validateRecordId recordId = .ok ()) :
    maxKeyForRecord recordId = .ok (encode recordId [rangeTombstonePrefix]) := by
  simp only [maxKeyForRecord, valid, bind, Except.bind]
  rfl

/-- Keys of one record have only keys of the record between them. -/
theorem recordId_contiguous {a b key : CompositeKey} (same : a.recordId = b.recordId)
    (low : a ≤ key) (high : key ≤ b) :
    key.recordId = a.recordId :=
  recordId_of_between a.recordId_clean ((encode_nil_le a).trans low) high same.symm

theorem between_bounds_iff {recordId : Bytes} (clean : separator ∉ recordId.data)
    (key : CompositeKey) :
    encode recordId [] ≤ key ∧ key < encode recordId [rangeTombstonePrefix] ↔
      key.recordId = recordId ∧ key.itemKey.data.head? ≠ some rangeTombstonePrefix := by
  constructor
  · rintro ⟨low, high⟩
    have same := recordId_of_between clean low high.le (encode_recordId clean)
    refine ⟨same, ?_⟩
    rw [← encode_parts key, same, encode_lt_encode] at high
    exact lt_mark_iff.mp high
  · rintro ⟨rfl, unmarked⟩
    refine ⟨encode_nil_le key, ?_⟩
    conv_lhs => rw [← encode_parts key]
    exact encode_lt_encode.mpr (lt_mark_iff.mpr unmarked)

end CompositeKey

/-- Encoded keys can be taken apart again, are ordered as the pairs are, and the keys of a record
stand together: from its first key to the mark are those that do not start with the mark. -/
theorem keys_ordered_as_pairs :
    (∀ p : KeyPair, ∃ key, CompositeKey.new p.recordId p.itemKey = .ok key ∧
      key.recordId = p.recordId ∧ key.itemKey = p.itemKey) ∧
      (∀ (p q : KeyPair) (a b : CompositeKey), CompositeKey.new p.recordId p.itemKey = .ok a →
        CompositeKey.new q.recordId q.itemKey = .ok b →
        (a ≤ b ↔ toLex (p.recordId, p.itemKey) ≤ toLex (q.recordId, q.itemKey))) ∧
      (∀ a b key : CompositeKey, a.recordId = b.recordId → a ≤ key → key ≤ b →
        key.recordId = a.recordId) ∧
      ∀ recordId, validateRecordId recordId = .ok () →
        ∃ low high, CompositeKey.minKeyForRecord recordId = .ok low ∧
        CompositeKey.maxKeyForRecord recordId = .ok high ∧ ∀ key : CompositeKey, low ≤ key ∧
          key < high ↔
          key.recordId = recordId ∧ key.itemKey.data.head? ≠ some rangeTombstonePrefix := by
  refine ⟨?_, ?_, fun _ _ _ => CompositeKey.recordId_contiguous, ?_⟩
  · intro p
    exact ⟨p.key, p.new_eq, p.key_recordId, p.key_itemKey⟩
  · intro p q a b first second
    obtain rfl := Except.ok.inj (p.new_eq.symm.trans first)
    obtain rfl := Except.ok.inj (q.new_eq.symm.trans second)
    exact KeyPair.keyEmbedding.le_iff_le
  · intro recordId valid
    refine ⟨_, _, CompositeKey.minKeyForRecord_ok valid, CompositeKey.maxKeyForRecord_ok valid, ?_⟩
    exact CompositeKey.between_bounds_iff (validateRecordId_ok valid).2.1

end FlushDB
