import FlushDB.Engine.Engine
import FlushDB.Server.Routing
import FlushDB.Types.DerivedTokens

/-!
The items of a put request and their tokens. A request has one token, and each item gets its own,
derived from its index. The engine does not look for duplicates of an item whose token is none.
-/

namespace FlushDB
open Lib

/-- The message of a token. -/
structure TokenMessage where
  generationTime : UInt64
  token : Bytes
  deriving DecidableEq

structure Item where
  key : Bytes
  value : Bytes
  metadata : Bytes

structure PutItemsRequest where
  idempotencyToken : Option TokenMessage
  namespaceName : String
  id : String
  items : List Item

def protoToIdempotencyToken (proto : Option TokenMessage) : FlushResult IdempotencyToken :=
  match proto with
  | none => .ok .none
  | some tok =>
    if tok.generationTime = 0 ∧ tok.token.isEmpty then .ok .none
    else if sized : tok.token.data.length = 16 then
      .ok (.fromParts tok.generationTime ⟨tok.token.data.toArray, sized⟩)
    else .error (.invalidArgument "idempotency token must be exactly 16 bytes")

def validateRequestNamespace (namespaceName : String) : FlushResult Unit :=
  if namespaceName.isEmpty then .error (.invalidArgument "namespace: must not be empty") else .ok ()

def validateItems (items : List Item) : FlushResult Unit :=
  if items.isEmpty then .error (.invalidArgument "items: must not be empty")
  else
    match items.find? fun item => item.key.len > maxItemKeyLen with
    | some item =>
      .error (.invalidArgument s!"item key length {item.key.len} exceeds maximum of {maxItemKeyLen}")
    | none => .ok ()

/-- The items with their tokens, from the `index`-th on. -/
def batchItems (base : IdempotencyToken) (index : Nat) : List Item → List PutBatchItem
  | [] => []
  | item :: rest =>
    { itemKey := item.key, value := item.value, metadata := item.metadata,
      idempotencyToken := base.deriveForIndex (.ofNat index) } ::
      batchItems base (index + 1) rest

/-- The batch that is put into the record of the request. -/
def PutItemsRequest.batch (req : PutItemsRequest) : FlushResult (List PutBatchItem) := do
  validateRequestNamespace req.namespaceName
  validateRequestRecordId req.id
  validateItems req.items
  let base ← protoToIdempotencyToken req.idempotencyToken
  return batchItems base 0 req.items

theorem batchItems_tokens (base : IdempotencyToken) (index : Nat) (items : List Item) :
    (batchItems base index items).map PutBatchItem.idempotencyToken =
      (List.range items.length).map fun k => base.deriveForIndex (.ofNat (index + k)) := by
  induction items generalizing index with
  | nil => rfl
  | cons item rest ih =>
    rw [batchItems, List.map_cons, ih, List.length_cons, List.range_succ_eq_map, List.map_cons,
      List.map_map]
    refine congrArg (_ :: ·) (List.map_congr_left fun k _ => ?_)
    rw [Function.comp_apply, Nat.succ_eq_add_one, Nat.add_right_comm, Nat.add_assoc]

theorem PutItemsRequest.batch_ok {req : PutItemsRequest} {batch : List PutBatchItem}
    (made : req.batch = .ok batch) :
    ∃ base, protoToIdempotencyToken req.idempotencyToken = .ok base ∧
      batch = batchItems base 0 req.items := by
  obtain ⟨_, -, made⟩ := bind_ok made
  obtain ⟨_, -, made⟩ := bind_ok made
  obtain ⟨_, -, made⟩ := bind_ok made
  obtain ⟨base, converted, made⟩ := bind_ok made
  exact ⟨base, converted, (Except.ok.inj made).symm⟩

section Batch
variable {proto : Option TokenMessage} {base : IdempotencyToken}

/-- What the tokens of two items are promised to be. -/
structure IdempotencyToken.Derived (base : IdempotencyToken) (i j : UInt32) : Prop where
  distinct : base.deriveForIndex i ≠ base.deriveForIndex j
  generated : (base.deriveForIndex i).generationTime = base.generationTime ∧
    (base.deriveForIndex j).generationTime = base.generationTime
  real : (base.deriveForIndex i).isNone = false ∧ (base.deriveForIndex j).isNone = false

theorem derived_iff (real : base.isNone = false) {i j : UInt32} (distinct : i ≠ j) :
    base.Derived i j ↔ base ≠ .indexToken i ∧ base ≠ .indexToken j := by
  have kept : ∀ index, (base.deriveForIndex index).isNone = false ↔ base ≠ .indexToken index :=
    fun index => by
    rw [← Bool.not_eq_true, IdempotencyToken.deriveForIndex_isNone_iff real]
  rw [← kept i, ← kept j]
  refine ⟨IdempotencyToken.Derived.real, fun tokens => ⟨?_, ?_, tokens⟩⟩
  · exact (IdempotencyToken.deriveForIndex_injective real).ne distinct
  · exact ⟨IdempotencyToken.generationTime_deriveForIndex real i,
      IdempotencyToken.generationTime_deriveForIndex real j⟩

theorem batchItems_real_iff (real : base.isNone = false) (items : List Item) :
    (∀ item ∈ batchItems base 0 items, item.idempotencyToken.isNone = false) ↔
      ∀ k < items.length, base ≠ .indexToken (.ofNat k) := by
  have tokens : ∀ P : IdempotencyToken → Prop, (∀ item ∈ batchItems base 0 items,
      P item.idempotencyToken) ↔
      ∀ k < items.length, P (base.deriveForIndex (.ofNat k)) := by
    intro P
    rw [← @List.forall_mem_map _ _ PutBatchItem.idempotencyToken _ P, batchItems_tokens,
      List.forall_mem_map]
    simp only [List.mem_range, Nat.zero_add]
  rw [tokens fun token => token.isNone = false]
  refine forall₂_congr fun k _ => ?_
  rw [← Bool.not_eq_true, IdempotencyToken.deriveForIndex_isNone_iff real]

/-- In every request whose token is not none: two items have tokens of their own exactly when the
token is not the index of one of them, and no item goes without a token exactly when it is the index
of no item. -/
theorem batch_tokens_iff (converted : protoToIdempotencyToken proto = .ok base)
    (real : base.isNone = false) :
    (∀ i j : UInt32, i ≠ j → (base.Derived i j ↔ base ≠ .indexToken i ∧ base ≠ .indexToken j)) ∧
      ∀ (req : PutItemsRequest) (batch : List PutBatchItem), req.idempotencyToken = proto →
        req.batch = .ok batch →
        ((∀ item ∈ batch, item.idempotencyToken.isNone = false) ↔
          ∀ k < req.items.length, base ≠ .indexToken (.ofNat k)) := by
  refine ⟨fun i j distinct => derived_iff real distinct, ?_⟩
  intro req batch sent made
  obtain ⟨base', same, rfl⟩ := PutItemsRequest.batch_ok made
  rw [sent, converted] at same
  obtain rfl := Except.ok.inj same
  exact batchItems_real_iff real req.items

end Batch

section Example

/-- Generated at time zero, with the index one. -/
def oneMessage : TokenMessage where
  generationTime := 0
  token := ⟨1 :: List.replicate 15 0⟩

/-- The item with the index one loses its token. -/
theorem oneMessage_lost :
    ¬ ∀ (proto : Option TokenMessage) (base : IdempotencyToken),
      protoToIdempotencyToken proto = .ok base → base.isNone = false →
      ∀ i j : UInt32, i ≠ j → base.Derived i j := by
  intro always
  exact absurd ((always (some oneMessage) (.indexToken 1) rfl (by decide)) 1 2 (by decide)).real.1 (by decide)

def timedMessage : TokenMessage where
  generationTime := 1
  token := ⟨1 :: List.replicate 15 0⟩

theorem timedMessage_derived :
    (IdempotencyToken.fromParts 1 ⟨(1 :: List.replicate 15 0).toArray, rfl⟩).Derived 0 1 :=
  ((@batch_tokens_iff (some timedMessage) _ rfl (by decide)).1 0 1 (by decide)).mpr (by decide)

end Example

end FlushDB
