import FlushDB.Engine.Reads
import FlushDB.Engine.Steps
import FlushDB.Types.KeyOrder

/-!
Predicates of a request. A range comes with a flag at each end and with empty keys for open ends,
and is made half open by a zero byte behind a key that is to be passed. The read and the range
delete that get the bounds take keys up to lengths of their own.
-/

namespace FlushDB
open Lib

/-- The message; an empty key leaves its end open. -/
structure MatchRange where
  startKey : Bytes
  endKey : Bytes
  startInclusive : Bool
  endInclusive : Bool

inductive PredicateKind where
  | matchKeys (keys : List Bytes)
  | matchRange (range : MatchRange)
  | matchAll (all : Bool)

structure Predicate where
  predicate : Option PredicateKind

inductive ParsedPredicate where
  | matchKeys (keys : List Bytes)
  | matchRange (startKey endKey : Option Bytes) (startInclusive endInclusive : Bool)
  | matchAll
  deriving DecidableEq

/-- The next key after all that are no greater. -/
def Bytes.pushZero (key : Bytes) : Bytes := ⟨key.data ++ [0x00]⟩

def MatchRange.parsedStart (r : MatchRange) : Option Bytes :=
  if r.startKey.isEmpty then none else if r.startInclusive then some r.startKey
    else some r.startKey.pushZero

def MatchRange.parsedEnd (r : MatchRange) : Option Bytes :=
  if r.endKey.isEmpty then none else if r.endInclusive then some r.endKey.pushZero
    else some r.endKey

def parsePredicate (predicate : Option Predicate) : FlushResult ParsedPredicate :=
  match predicate.bind Predicate.predicate with
  | none => .error (.invalidArgument "must specify a predicate")
  | some (.matchKeys keys) =>
    if keys.isEmpty then .error (.invalidArgument "match_keys.keys: must specify at least one key")
      else .ok (.matchKeys keys)
  | some (.matchRange r) =>
    if !r.startKey.isEmpty ∧ !r.endKey.isEmpty ∧ r.startKey > r.endKey then
      .error (.invalidArgument "match_range: start_key must be <= end_key")
    else .ok (.matchRange r.parsedStart r.parsedEnd true false)
  | some (.matchAll _) => .ok .matchAll

/-- The item keys that a request for the range means. -/
def MatchRange.Requests (r : MatchRange) (key : Bytes) : Prop :=
  (r.startKey.isEmpty = false → if r.startInclusive then r.startKey ≤ key else r.startKey < key) ∧
    (r.endKey.isEmpty = false → if r.endInclusive then key ≤ r.endKey else key < r.endKey)

/-- The keys from the start on and before the end. -/
def HalfOpen (startKey endKey : Option Bytes) (key : Bytes) : Prop :=
  (∀ low ∈ startKey, low ≤ key) ∧ ∀ high ∈ endKey, key < high

/-- The bounds leave room for the zero byte, and the start also for the mark of a range delete. -/
def MatchRange.Fits (r : MatchRange) : Prop :=
  (r.startKey.isEmpty = false → r.startKey.len + (if r.startInclusive then 0 else 1) + 1 ≤ maxItemKeyLen) ∧
    (r.endKey.isEmpty = false → r.endKey.len + (if r.endInclusive then 1 else 0) ≤ maxItemKeyLen)

instance (r : MatchRange) : Decidable r.Fits := inferInstanceAs (Decidable (_ ∧ _))

/-- A read of the record and a range delete in it take the bounds; the handler passes open ends to
the range delete as empty keys. -/
structure BoundsAccepted (env : Env) (origin : Nat) (pressured : Bool) (s : Engine)
    (recordId : Bytes) (startKey endKey : Option Bytes) : Prop where
  start : ∀ options, ∃ low, ReadPath.startBound recordId startKey options = .ok low
  stop : ∃ high, ReadPath.endBound recordId endKey = .ok high
  delete : ∃ entry, Engine.prepareDeleteRange env origin recordId (startKey.getD .new)
    (endKey.getD .new) pressured s = .ok entry

theorem Bytes.pushZero_le_iff {a b : Bytes} : a.pushZero ≤ b ↔ a < b :=
  append_least_le_iff separator_le

theorem Bytes.lt_pushZero_iff {a b : Bytes} : b < a.pushZero ↔ b ≤ a :=
  lt_append_least_iff separator_le

theorem Bytes.len_pushZero (a : Bytes) : a.pushZero.len = a.len + 1 := List.length_append

theorem parsePredicate_matchRange {r : MatchRange} {parsed : ParsedPredicate}
    (accepted : parsePredicate (some ⟨some (.matchRange r)⟩) = .ok parsed) :
    parsed = .matchRange r.parsedStart r.parsedEnd true false := by
  simp only [parsePredicate, Option.bind_some] at accepted
  split at accepted
  · cases accepted
  · exact (Except.ok.inj accepted).symm

namespace MatchRange
variable (r : MatchRange)

/-- The half-open range has the keys that were asked for. -/
theorem halfOpen_parsed (key : Bytes) :
    HalfOpen r.parsedStart r.parsedEnd key ↔ r.Requests key := by
  have low : (∀ low ∈ r.parsedStart, low ≤ key) ↔
      (r.startKey.isEmpty = false → if r.startInclusive then r.startKey ≤ key
        else r.startKey < key) := by
    unfold parsedStart
    cases r.startKey.isEmpty with
    | true => simp
    | false =>
      cases r.startInclusive with
      | true => simp
      | false => simp [Bytes.pushZero_le_iff]
  have high : (∀ high ∈ r.parsedEnd, key < high) ↔
      (r.endKey.isEmpty = false → if r.endInclusive then key ≤ r.endKey else key < r.endKey) := by
    unfold parsedEnd
    cases r.endKey.isEmpty with
    | true => simp
    | false =>
      cases r.endInclusive with
      | true => simp [Bytes.lt_pushZero_iff]
      | false => simp
  exact and_congr low high

theorem parsedStart_cases : (r.startKey.isEmpty = true ∧ r.parsedStart = none) ∨
    r.startKey.isEmpty = false ∧ ∃ start, r.parsedStart = some start ∧
      start.len = r.startKey.len + (if r.startInclusive then 0 else 1) := by
  unfold parsedStart
  cases r.startKey.isEmpty with
  | true => exact Or.inl ⟨rfl, rfl⟩
  | false =>
    refine Or.inr ⟨rfl, ?_⟩
    cases r.startInclusive with
    | true => exact ⟨_, rfl, rfl⟩
    | false => exact ⟨_, rfl, Bytes.len_pushZero _⟩

theorem parsedEnd_cases : (r.endKey.isEmpty = true ∧ r.parsedEnd = none) ∨
    r.endKey.isEmpty = false ∧ ∃ stop, r.parsedEnd = some stop ∧
      stop.len = r.endKey.len + (if r.endInclusive then 1 else 0) := by
  unfold parsedEnd
  cases r.endKey.isEmpty with
  | true => exact Or.inl ⟨rfl, rfl⟩
  | false =>
    refine Or.inr ⟨rfl, ?_⟩
    cases r.endInclusive with
    | true => exact ⟨_, rfl, Bytes.len_pushZero _⟩
    | false => exact ⟨_, rfl, rfl⟩

end MatchRange

section Accepted
variable {env : Env} {origin : Nat} {pressured : Bool} {s : Engine} {recordId : Bytes}
  {startKey endKey : Option Bytes}

theorem new_accepts_iff (valid : validateRecordId recordId = .ok ()) (itemKey : Bytes) :
    (∃ key, CompositeKey.new recordId itemKey = .ok key) ↔ itemKey.len ≤ maxItemKeyLen := by
  constructor
  · rintro ⟨key, made⟩
    exact (CompositeKey.new_bounds made).2.2
  · intro short
    have item : validateItemKey itemKey = .ok () := if_neg (by omega)
    exact ⟨_, KeyPair.new_eq ⟨recordId, itemKey, valid, item⟩⟩

theorem rangeTombstoneKey_accepts_iff (valid : validateRecordId recordId = .ok ())
    (startKey : Bytes) :
    (∃ key, CompositeKey.rangeTombstoneKey recordId startKey = .ok key) ↔
      startKey.len + 1 ≤ maxItemKeyLen := by
  constructor
  · rintro ⟨key, made⟩
    exact (CompositeKey.rangeTombstoneKey_bounds made).2.2
  · intro short
    have room : ¬ 1 + startKey.len > maxItemKeyLen := by omega
    simp only [CompositeKey.rangeTombstoneKey, valid, bind, Except.bind, room, if_false]
    exact ⟨_, rfl⟩

theorem startBound_accepts_iff (valid : validateRecordId recordId = .ok ()) :
    (∀ options, ∃ low, ReadPath.startBound recordId startKey options = .ok low) ↔
      ∀ start ∈ startKey, start.len ≤ maxItemKeyLen := by
  constructor
  · rintro accepted start rfl
    exact (new_accepts_iff valid start).mp (accepted {})
  · intro short options
    unfold ReadPath.startBound
    cases options.resumeFrom with
    | some token => exact ⟨_, rfl⟩
    | none =>
      cases startKey with
      | some start => exact (new_accepts_iff valid start).mpr (short start rfl)
      | none => exact ⟨_, CompositeKey.minKeyForRecord_ok valid⟩

theorem endBound_accepts_iff (valid : validateRecordId recordId = .ok ()) :
    (∃ high, ReadPath.endBound recordId endKey = .ok high) ↔
      ∀ stop ∈ endKey, stop.len ≤ maxItemKeyLen := by
  cases endKey with
  | none => simp [ReadPath.endBound, CompositeKey.maxKeyForRecord_ok valid]
  | some stop => exact (new_accepts_iff valid stop).trans (by simp)

theorem prepareDeleteRange_accepts_iff (valid : validateRecordId recordId = .ok ())
    (flowing : Engine.checkWriteStall env pressured s = .ok ()) (startKey endKey : Bytes) :
    (∃ entry, Engine.prepareDeleteRange env origin recordId startKey endKey pressured s = .ok entry) ↔
      startKey.len + 1 ≤ maxItemKeyLen := by
  rw [← rangeTombstoneKey_accepts_iff valid startKey]
  unfold Engine.prepareDeleteRange
  simp only [flowing, bind, Except.bind]
  cases CompositeKey.rangeTombstoneKey recordId startKey with
  | error e => simp
  | ok key => simp [pure, Except.pure]

theorem boundsAccepted_iff (valid : validateRecordId recordId = .ok ())
    (flowing : Engine.checkWriteStall env pressured s = .ok ()) :
    BoundsAccepted env origin pressured s recordId startKey endKey ↔
      (∀ start ∈ startKey, start.len + 1 ≤ maxItemKeyLen) ∧
        ∀ stop ∈ endKey, stop.len ≤ maxItemKeyLen := by
  constructor
  · rintro ⟨-, stop, delete⟩
    refine ⟨?_, (endBound_accepts_iff valid).mp stop⟩
    rintro start rfl
    exact (prepareDeleteRange_accepts_iff valid flowing _ _).mp delete
  · rintro ⟨room, short⟩
    refine ⟨(startBound_accepts_iff valid).mpr ?_, (endBound_accepts_iff valid).mpr short, ?_⟩
    · intro start given
      have := room start given
      omega
    · apply (prepareDeleteRange_accepts_iff valid flowing _ _).mpr
      cases startKey with
      | none => decide
      | some start => exact room start rfl

end Accepted

/-- The bounds of a parsed range select what was asked for, and every valid record takes them
exactly when the bytes that are added leave them short enough. -/
theorem parsed_range_accepted_iff {r : MatchRange} {startKey endKey : Option Bytes}
    {startInclusive endInclusive : Bool}
    (accepted : parsePredicate (some ⟨some (.matchRange r)⟩) =
      .ok (.matchRange startKey endKey startInclusive endInclusive)) :
    (startInclusive = true ∧ endInclusive = false ∧ ∀ key, HalfOpen startKey endKey key ↔
      r.Requests key) ∧
      ∀ (env : Env) (origin : Nat) (pressured : Bool) (s : Engine) (recordId : Bytes),
        validateRecordId recordId = .ok () →
        Engine.checkWriteStall env pressured s = .ok () →
        (BoundsAccepted env origin pressured s recordId startKey endKey ↔ r.Fits) := by
  obtain ⟨rfl, rfl, rfl, rfl⟩ := ParsedPredicate.matchRange.inj (parsePredicate_matchRange accepted)
  refine ⟨⟨rfl, rfl, r.halfOpen_parsed⟩, ?_⟩
  intro env origin pressured s recordId valid flowing
  rw [boundsAccepted_iff valid flowing]
  apply and_congr
  · rcases r.parsedStart_cases with ⟨empty, none⟩ | ⟨given, start, parsed, long⟩
    · simp [empty, none]
    · simp [given, parsed, long]
  · rcases r.parsedEnd_cases with ⟨empty, none⟩ | ⟨given, stop, parsed, long⟩
    · simp [empty, none]
    · simp [given, parsed, long]

section Example

def longestKey : Bytes := ⟨List.replicate 4096 1⟩

/-- From the middle of the keys on, without its start. -/
def shortRange : MatchRange := ⟨⟨[128]⟩, .new, false, false⟩

/-- An engine that has just been opened takes the bounds. -/
theorem parsed_range_accepted_short :
    parsePredicate (some ⟨some (.matchRange shortRange)⟩) =
      .ok (.matchRange (some ⟨[128, 0]⟩) none true false) ∧
      (∀ key, HalfOpen (some ⟨[128, 0]⟩) none key ↔ shortRange.Requests key) ∧
      ∃ w s, exec (World.step (World.sampleEnv 1000)) {} [.openEngine 0 none] = some w ∧
        w.engine = some s ∧
        BoundsAccepted (World.sampleEnv 1000) 0 false s ⟨[114]⟩ (some ⟨[128, 0]⟩) none := by
  have parsed : parsePredicate (some ⟨some (.matchRange shortRange)⟩) =
      .ok (.matchRange (some ⟨[128, 0]⟩) none true false) := by
    decide
  have valid : validateRecordId ⟨[114]⟩ = .ok () := by decide
  have flows : ((exec (World.step (World.sampleEnv 1000)) {} [.openEngine 0 none]).bind
      World.engine).map (fun s =>
      (Engine.checkWriteStall (World.sampleEnv 1000) false s).toOption) =
        some (some ()) := by decide +kernel
  obtain ⟨s, found, flowing⟩ := Option.map_eq_some_iff.mp flows
  obtain ⟨w, run, active⟩ := Option.bind_eq_some_iff.mp found
  obtain ⟨⟨-, -, selects⟩, accepted⟩ := parsed_range_accepted_iff parsed
  have taken := (accepted (World.sampleEnv 1000) 0 false s ⟨[114]⟩ valid
    (FlushResult.ok_of_toOption flowing)).mpr (by decide)
  exact ⟨parsed, selects, w, s, run, active, taken⟩

/-- A start of the greatest length that is to be passed, and one that is not. -/
theorem longestKey_refused :
    longestKey.len = maxItemKeyLen ∧ validateRecordId ⟨[114]⟩ = .ok () ∧
      (∃ start, parsePredicate (some ⟨some (.matchRange ⟨longestKey, .new, false, false⟩)⟩) =
          .ok (.matchRange (some start) none true false) ∧
            ¬ ∃ low, ReadPath.startBound ⟨[114]⟩ (some start) {} = .ok low) ∧
      parsePredicate (some ⟨some (.matchRange ⟨longestKey, .new, true, false⟩)⟩) =
          .ok (.matchRange (some longestKey) none true false) ∧
        ¬ ∃ key, CompositeKey.rangeTombstoneKey ⟨[114]⟩ longestKey = .ok key := by
  have long : longestKey.len = maxItemKeyLen := List.length_replicate
  have valid : validateRecordId ⟨[114]⟩ = .ok () := by decide
  have parsed : ∀ inclusive,
      parsePredicate (some ⟨some (.matchRange ⟨longestKey, .new, inclusive, false⟩)⟩) =
      .ok (.matchRange (MatchRange.parsedStart ⟨longestKey, .new, inclusive, false⟩) none true false) := by
    intro inclusive
    simp [parsePredicate, MatchRange.parsedEnd, Bytes.isEmpty, Bytes.new]
  refine ⟨long, valid, ⟨longestKey.pushZero, parsed false, ?_⟩, parsed true, ?_⟩
  · rw [show ReadPath.startBound ⟨[114]⟩ (some longestKey.pushZero) {} =
      CompositeKey.new ⟨[114]⟩ longestKey.pushZero from rfl,
      new_accepts_iff valid, Bytes.len_pushZero, long]
    decide
  · rw [rangeTombstoneKey_accepts_iff valid, long]
    decide

end Example

end FlushDB
