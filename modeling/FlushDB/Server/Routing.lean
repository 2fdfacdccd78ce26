import FlushDB.Lib.Checksum
import FlushDB.Server.NamespaceConfig

/-!
The partition of a record. The router takes a key out of the record id, as the strategy of the
namespace says, and masks its hash. A string is cut at a byte, which stops the program where the
byte lies inside a character.
-/

namespace FlushDB

/-- The bytes of a string in UTF-8. -/
def byteLen (chars : List Char) : Nat := (chars.map Char.utf8Size).sum

/-- `&s[..n]`: nothing where the byte is no boundary of characters. -/
def bytePrefix : List Char → Nat → Option (List Char)
  | _, 0 => some []
  | [], _ + 1 => none
  | c :: rest, n + 1 =>
    if c.utf8Size ≤ n + 1 then (bytePrefix rest (n + 1 - c.utf8Size)).map (c :: ·) else none

/-- The fields between the matches of a delimiter; `skip` characters of a match are still to
come. -/
def splitFrom (delimiter : List Char) : Nat → List Char → List Char → List (List Char)
  | _, field, [] => [field]
  | skip + 1, field, _ :: rest => splitFrom delimiter skip field rest
  | 0, field, c :: rest =>
    if delimiter.isPrefixOf (c :: rest) then field :: splitFrom delimiter (delimiter.length - 1) [] rest
    else splitFrom delimiter 0 (field ++ [c]) rest

/-- `str::split`: the empty delimiter matches before every character and at the end. -/
def splitFields (delimiter chars : List Char) : List (List Char) :=
  if delimiter.isEmpty then [] :: chars.map (fun c => [c]) ++ [[]]
    else splitFrom delimiter 0 [] chars

/-- The hash functions of the packages. -/
structure Hashes where
  crc32 : List UInt8 → UInt32
  fnv : String → UInt64

structure LocalPartitionRouter where
  strategy : PartitionKeyStrategy
  partitionCount : Nat
  partitionMask : Nat
  deriving DecidableEq

namespace LocalPartitionRouter

def new (config : NamespaceConfig) : LocalPartitionRouter where
  strategy := config.partitionKeyStrategy
  partitionCount := config.partitionCount
  partitionMask := config.partitionCount - 1

section
variable (h : Hashes)

def partitionHash (chars : List Char) : Nat := (h.crc32 (chars.flatMap String.utf8EncodeChar)).toNat

/-- Nothing where the program stops; sums are looked after in a build with overflow checks. -/
def route (overflowChecks : Bool) (r : LocalPartitionRouter) (recordId : String) :
    Option (FlushResult Nat) :=
  match r.strategy with
  | .simple => some (.ok (partitionHash h recordId.toList &&& r.partitionMask))
  | .composite delimiter fieldIndices =>
    let fields := splitFields delimiter.toList recordId.toList
    let maxIndex := fieldIndices.foldl max 0
    if fields.length ≤ maxIndex then
      if overflowChecks ∧ 2 ^ 64 ≤ maxIndex + 1 then none
      else some (.error (.invalidArgument
        s!"record_id: expected at least {(maxIndex + 1) % 2 ^ 64} fields, got {fields.length}"))
    else do
      let selected ← fieldIndices.mapM fun i => fields[i]?
      return .ok (partitionHash h (List.intercalate delimiter.toList selected) &&& r.partitionMask)
  | .byPrefix length => do
    let chars ← bytePrefix recordId.toList (min length (byteLen recordId.toList))
    return .ok (partitionHash h chars &&& r.partitionMask)
  | .customHash hashName =>
    if hashName = "crc32" then some (.ok (partitionHash h recordId.toList &&& r.partitionMask))
    else if hashName = "fnv" then some (.ok ((h.fnv recordId).toNat % 2 ^ 32 &&& r.partitionMask))
    else some (.error (.invalidArgument s!"hash_name: unknown hash function: {hashName}"))

end

end LocalPartitionRouter

/-- The check of a request; the engine has its own with other texts. -/
def validateRequestRecordId (recordId : String) : FlushResult Unit :=
  if recordId.toList.isEmpty then .error (.invalidArgument "record_id: must not be empty")
  else if recordId.toList.contains (Char.ofNat 0) then
    .error (.invalidArgument "record_id: must not contain null bytes")
  else if byteLen recordId.toList > maxRecordIdLen then
    .error (.invalidArgument
      s!"record_id: length {byteLen recordId.toList} exceeds maximum of {maxRecordIdLen}")
  else .ok ()

/-- The part of a record id that its partition depends on: all of it, the selected fields, or its
first bytes. -/
def PartitionKeyStrategy.routingKey (strategy : PartitionKeyStrategy) (chars : List Char) :
    Option (List (List Char)) :=
  match strategy with
  | .simple | .customHash _ => some [chars]
  | .composite delimiter fieldIndices =>
    fieldIndices.mapM fun i => (splitFields delimiter.toList chars)[i]?
  | .byPrefix length => (bytePrefix chars (min length (byteLen chars))).map fun front => [front]

/-- Where the strategy cuts the id there is a boundary of characters, and in a build with overflow
checks no field has the greatest index there is. -/
def PartitionKeyStrategy.Cuttable (strategy : PartitionKeyStrategy) (overflowChecks : Bool)
    (chars : List Char) : Prop :=
  match strategy with
  | .simple | .customHash _ => True
  | .composite _ fieldIndices => overflowChecks = true → ∀ i ∈ fieldIndices, i + 1 < 2 ^ 64
  | .byPrefix length =>
    ∃ front back, chars = front ++ back ∧ byteLen front = min length (byteLen chars)

section Cuts

theorem byteLen_cons (c : Char) (rest : List Char) :
    byteLen (c :: rest) = c.utf8Size + byteLen rest := by
  simp [byteLen]

theorem length_le_byteLen (chars : List Char) : chars.length ≤ byteLen chars := by
  induction chars with
  | nil => exact Nat.le_refl _
  | cons c rest ih =>
    have positive := c.utf8Size_pos
    rw [byteLen_cons, List.length_cons]
    omega

/-- A string is cut after a front of its characters. -/
theorem bytePrefix_some_iff {chars front : List Char} {n : Nat} :
    bytePrefix chars n = some front ↔ ∃ back, chars = front ++ back ∧ byteLen front = n := by
  induction chars generalizing n front with
  | nil =>
    cases n with
    | zero =>
      simp only [bytePrefix, Option.some.injEq]
      constructor
      · rintro rfl
        exact ⟨[], rfl, rfl⟩
      · rintro ⟨back, split, -⟩
        exact (List.append_eq_nil_iff.mp split.symm).1.symm
    | succ n =>
      simp only [bytePrefix, reduceCtorEq, false_iff]
      rintro ⟨back, split, size⟩
      rw [(List.append_eq_nil_iff.mp split.symm).1] at size
      cases size
  | cons c rest ih =>
    cases n with
    | zero =>
      simp only [bytePrefix, Option.some.injEq]
      constructor
      · rintro rfl
        exact ⟨c :: rest, rfl, rfl⟩
      · rintro ⟨back, -, size⟩
        have short := length_le_byteLen front
        exact (List.length_eq_zero_iff.mp (by omega)).symm
    | succ n =>
      simp only [bytePrefix]
      constructor
      · intro cut
        split at cut
        · rename_i fits
          obtain ⟨front, found, rfl⟩ := Option.map_eq_some_iff.mp cut
          obtain ⟨back, rfl, size⟩ := ih.mp found
          refine ⟨back, rfl, ?_⟩
          rw [byteLen_cons, size]
          omega
        · cases cut
      · rintro ⟨back, split, size⟩
        cases front with
        | nil => cases size
        | cons d front =>
          obtain ⟨rfl, rest⟩ := List.cons.inj split
          rw [byteLen_cons] at size
          rw [if_pos (by omega), ih.mpr ⟨back, rest, by omega⟩]
          rfl

theorem length_splitFrom (delimiter chars field : List Char) (skip : Nat) :
    (splitFrom delimiter skip field chars).length ≤ chars.length + 1 := by
  induction chars generalizing skip field with
  | nil => cases skip <;> simp [splitFrom]
  | cons c rest ih =>
    cases skip with
    | succ skip =>
      have := ih field skip
      simp only [splitFrom, List.length_cons]
      omega
    | zero =>
      unfold splitFrom
      split
      · have := ih [] (delimiter.length - 1)
        simp only [List.length_cons]
        omega
      · have := ih (field ++ [c]) 0
        simp only [List.length_cons]
        omega

theorem length_splitFields (delimiter chars : List Char) :
    (splitFields delimiter chars).length ≤ chars.length + 2 := by
  unfold splitFields
  split
  · simp
  · have := length_splitFrom delimiter chars [] 0
    omega

end Cuts

section Fields

theorem foldl_max_le_iff (indices : List Nat) (start bound : Nat) :
    indices.foldl max start ≤ bound ↔ start ≤ bound ∧ ∀ i ∈ indices, i ≤ bound := by
  induction indices generalizing start with
  | nil => simp
  | cons i rest ih =>
    rw [List.foldl_cons, ih, Nat.max_le, List.forall_mem_cons, and_assoc]

theorem le_foldl_max {indices : List Nat} {i : Nat} (member : i ∈ indices) :
    i ≤ indices.foldl max 0 :=
  ((foldl_max_le_iff indices 0 _).mp (Nat.le_refl _)).2 i member

/-- The fields up to the greatest index are there to be selected. -/
theorem select_some_iff {fields : List (List Char)} (indices : List Nat) (nonempty : fields ≠ []) :
    (∃ selected, indices.mapM (fun i => fields[i]?) = some selected) ↔
      indices.foldl max 0 < fields.length := by
  have present : (∃ selected, indices.mapM (fun i => fields[i]?) = some selected) ↔
      ∀ i ∈ indices, i < fields.length := by
    induction indices with
    | nil => exact ⟨fun _ i member => absurd member List.not_mem_nil, fun _ => ⟨[], rfl⟩⟩
    | cons i rest ih =>
      rw [List.forall_mem_cons, ← ih, List.mapM_cons]
      constructor
      · rintro ⟨selected, found⟩
        obtain ⟨field, here, found⟩ := Option.bind_eq_some_iff.mp found
        obtain ⟨others, found, -⟩ := Option.bind_eq_some_iff.mp found
        exact ⟨(List.getElem?_eq_some_iff.mp here).1, others, found⟩
      · rintro ⟨here, others, found⟩
        rw [List.getElem?_eq_getElem here, found]
        exact ⟨_, rfl⟩
  have positive := List.length_pos_of_ne_nil nonempty
  have greatest := foldl_max_le_iff indices 0 (fields.length - 1)
  rw [present]
  constructor
  · intro bounded
    have := greatest.mpr ⟨Nat.zero_le _, fun i member => Nat.le_pred_of_lt (bounded i member)⟩
    omega
  · intro bounded i member
    exact Nat.lt_of_le_of_lt (le_foldl_max member) bounded

theorem splitFields_ne_nil (delimiter chars : List Char) : splitFields delimiter chars ≠ [] := by
  have split : ∀ skip field, splitFrom delimiter skip field chars ≠ [] := by
    induction chars with
    | nil => intro skip field; cases skip <;> exact List.cons_ne_nil _ _
    | cons c rest ih =>
      intro skip field
      cases skip with
      | succ skip => exact ih skip field
      | zero =>
        unfold splitFrom
        split
        · exact List.cons_ne_nil _ _
        · exact ih 0 _
  unfold splitFields
  split
  · exact List.cons_ne_nil _ _
  · exact split 0 []

end Fields

section Routes
variable (h : Hashes) (overflowChecks : Bool) {config : NamespaceConfig} {recordId : String}

theorem validateRequestRecordId_ok (valid : validateRequestRecordId recordId = .ok ()) :
    byteLen recordId.toList ≤ maxRecordIdLen := by
  unfold validateRequestRecordId at valid
  split at valid
  · cases valid
  split at valid
  · cases valid
  split at valid
  · cases valid
  · omega

/-- An id of an accepted length has fewer fields than there are indices. -/
theorem few_fields (valid : validateRequestRecordId recordId = .ok ()) (delimiter : List Char) :
    (splitFields delimiter recordId.toList).length + 1 < 2 ^ 64 := by
  have fields := length_splitFields delimiter recordId.toList
  have chars := length_le_byteLen recordId.toList
  have bytes := validateRequestRecordId_ok valid
  have limit : maxRecordIdLen + 3 < 2 ^ 64 := by decide
  omega

theorem validate_partitionCount_pos (valid : config.validate = .ok ()) :
    0 < config.partitionCount := by
  obtain ⟨_, _, ⟨k, power⟩, _⟩ := NamespaceConfig.validate_ok valid
  rw [power]
  exact Nat.two_pow_pos k

namespace LocalPartitionRouter

theorem route_lt (positive : 0 < config.partitionCount) {p : Nat}
    (routed : route h overflowChecks (new config) recordId = some (.ok p)) :
    p < config.partitionCount := by
  have masked : ∀ {n : Nat}, some (Except.ok (n &&& (new config).partitionMask) : FlushResult Nat) =
      some (.ok p) → p < config.partitionCount := by
    intro n same
    obtain rfl := Except.ok.inj (Option.some.inj same)
    have below : n &&& (config.partitionCount - 1) ≤ config.partitionCount - 1 := Nat.and_le_right
    simp only [new]
    omega
  unfold route at routed
  split at routed
  · exact masked routed
  · dsimp only at routed
    split at routed
    · split at routed <;> cases routed
    · obtain ⟨selected, -, done⟩ := Option.bind_eq_some_iff.mp routed
      exact masked done
  · obtain ⟨front, -, done⟩ := Option.bind_eq_some_iff.mp routed
    exact masked done
  · split at routed
    · exact masked routed
    · split at routed
      · exact masked routed
      · cases routed

/-- The program comes to an end at ids that can be cut. -/
theorem route_some_iff (valid : validateRequestRecordId recordId = .ok ()) :
    (∃ r, route h overflowChecks (new config) recordId = some r) ↔
      config.partitionKeyStrategy.Cuttable overflowChecks recordId.toList := by
  unfold route PartitionKeyStrategy.Cuttable
  simp only [new]
  cases config.partitionKeyStrategy with
  | simple => exact ⟨fun _ => trivial, fun _ => ⟨_, rfl⟩⟩
  | customHash hashName =>
    refine ⟨fun _ => trivial, fun _ => ?_⟩
    dsimp only
    split
    · exact ⟨_, rfl⟩
    · split <;> exact ⟨_, rfl⟩
  | byPrefix length =>
    constructor
    · rintro ⟨r, routed⟩
      obtain ⟨front, cut, -⟩ := Option.bind_eq_some_iff.mp routed
      obtain ⟨back, split, size⟩ := bytePrefix_some_iff.mp cut
      exact ⟨front, back, split, size⟩
    · rintro ⟨front, back, split, size⟩
      dsimp only
      rw [bytePrefix_some_iff.mpr ⟨back, split, size⟩]
      exact ⟨_, rfl⟩
  | composite delimiter fieldIndices =>
    have few := few_fields valid delimiter.toList
    dsimp only
    constructor
    · rintro ⟨r, routed⟩ checked i member
      have greatest := le_foldl_max member
      by_contra large
      rw [if_pos (by omega), if_pos ⟨checked, by omega⟩] at routed
      cases routed
    · intro bounded
      split
      · split
        · rename_i absent overflow
          have below : fieldIndices.foldl max 0 ≤ 2 ^ 64 - 2 := by
            refine (foldl_max_le_iff _ _ _).mpr ⟨by omega, fun i member => ?_⟩
            have := bounded overflow.1 i member
            omega
          omega
        · exact ⟨_, rfl⟩
      · rename_i present
        obtain ⟨selected, found⟩ := (select_some_iff fieldIndices (splitFields_ne_nil _ _)).mpr
          (Nat.lt_of_not_le present)
        rw [found]
        exact ⟨_, rfl⟩

theorem route_congr {a b : String} {key : List (List Char)}
    (first : config.partitionKeyStrategy.routingKey a.toList = some key)
    (second : config.partitionKeyStrategy.routingKey b.toList = some key) :
    route h overflowChecks (new config) a = route h overflowChecks (new config) b := by
  cases strategy : config.partitionKeyStrategy with
  | simple =>
    rw [strategy] at first second
    obtain rfl := String.toList_inj.mp (List.cons.inj
      ((Option.some.inj first).trans (Option.some.inj second).symm)).1
    rfl
  | customHash hashName =>
    rw [strategy] at first second
    obtain rfl := String.toList_inj.mp (List.cons.inj
      ((Option.some.inj first).trans (Option.some.inj second).symm)).1
    rfl
  | byPrefix length =>
    rw [strategy] at first second
    obtain ⟨front, cut, rfl⟩ := Option.map_eq_some_iff.mp first
    obtain ⟨front', cut', same⟩ := Option.map_eq_some_iff.mp second
    obtain rfl := (List.cons.inj same).1
    simp only [route, new, strategy, cut, cut']
  | composite delimiter fieldIndices =>
    rw [strategy] at first second
    have present : ∀ {recordId : String}, PartitionKeyStrategy.routingKey
        (.composite delimiter fieldIndices) recordId.toList = some key →
        ¬(splitFields delimiter.toList recordId.toList).length ≤ fieldIndices.foldl max 0 :=
          fun found =>
      Nat.not_le_of_lt ((select_some_iff fieldIndices (splitFields_ne_nil _ _)).mp ⟨key, found⟩)
    simp only [PartitionKeyStrategy.routingKey] at first second
    simp only [route, new, strategy, if_neg (present first), if_neg (present second), first, second]

end LocalPartitionRouter

/-- Ids of accepted namespaces find their partition or are refused where the strategy cuts between
characters, and the routing key decides which. -/
theorem route_total_iff (valid : config.validate = .ok ())
    (validId : validateRequestRecordId recordId = .ok ()) :
    ((∃ r, LocalPartitionRouter.route h overflowChecks (.new config) recordId = some r ∧
      ∀ p, r = .ok p → p < config.partitionCount) ∧
        ∀ other key, config.partitionKeyStrategy.routingKey recordId.toList = some key →
          config.partitionKeyStrategy.routingKey other.toList = some key →
          LocalPartitionRouter.route h overflowChecks (.new config) recordId =
            LocalPartitionRouter.route h overflowChecks (.new config) other) ↔
      config.partitionKeyStrategy.Cuttable overflowChecks recordId.toList := by
  rw [← LocalPartitionRouter.route_some_iff h overflowChecks validId]
  constructor
  · rintro ⟨⟨r, routed, -⟩, -⟩
    exact ⟨r, routed⟩
  · rintro ⟨r, routed⟩
    refine ⟨⟨r, routed, ?_⟩, fun other key first second =>
      LocalPartitionRouter.route_congr h overflowChecks first second⟩
    rintro p rfl
    exact LocalPartitionRouter.route_lt h overflowChecks (validate_partitionCount_pos valid) routed

end Routes

/-- A namespace that routes by the first byte. -/
def byFirstByte : NamespaceConfig :=
  { name := "n", partitionKeyStrategy := .byPrefix 1, partitionCount := 4,
    s3PathPrefix := defaultS3PathPrefix "n" }

/-- CRC-32, and FNV-1a over the bytes of a string and the byte that ends them. -/
def Hashes.published : Hashes where
  crc32 := Lib.crc32
  fnv recordId := (recordId.toList.flatMap String.utf8EncodeChar ++ [0xFF]).foldl
    (fun state (b : UInt8) => (state ^^^ b.toUInt64) * 0x100000001B3)
    0xCBF29CE484222325

theorem byFirstByte_valid : byFirstByte.validate = .ok () := by decide +kernel

theorem route_total_ascii :
    (∃ r, LocalPartitionRouter.route .published true (.new byFirstByte) "ab" = some r ∧
      ∀ p, r = .ok p → p < 4) ∧
      ∀ other key, byFirstByte.partitionKeyStrategy.routingKey "ab".toList = some key →
        byFirstByte.partitionKeyStrategy.routingKey other.toList = some key →
        LocalPartitionRouter.route .published true (.new byFirstByte) "ab" =
          LocalPartitionRouter.route .published true (.new byFirstByte) other :=
  (route_total_iff .published true byFirstByte_valid
    (by decide +kernel)).mpr ⟨['a'], ['b'], by decide, by decide⟩

/-- A byte inside the first character stops the program. -/
theorem accented_not_routed :
    byFirstByte.validate = .ok () ∧ validateRequestRecordId "é" = .ok () ∧
      ∀ h overflowChecks, LocalPartitionRouter.route h overflowChecks (.new byFirstByte) "é" =
        none := by
  refine ⟨byFirstByte_valid, by decide +kernel, fun h overflowChecks => ?_⟩
  have cut : bytePrefix "é".toList (min 1 (byteLen "é".toList)) = none := by decide +kernel
  simp only [LocalPartitionRouter.route, LocalPartitionRouter.new, byFirstByte, cut]
  rfl

end FlushDB
