import FlushDB.Wal.SegmentBytes

/-!
A changed byte before the last entry of a segment. The checksum covers the body only. A change
of the body or of the checksum is reported; a change of the length moves the place where the
checksum is looked for, and the reader may take what it finds there for the end of the segment.
-/

namespace FlushDB
open Lib

namespace SegmentReader
variable {crc32 : List UInt8 → UInt32}

/-- The iteration ends without an error, after fewer entries than there should be. -/
def EndsShort (crc32 : List UInt8 → UInt32) (expected : Nat) (r : SegmentReader) : Prop :=
  ∃ entries : List WalEntry, entries.length < expected ∧
    ∀ fuel > entries.length, drain (SegmentEntryIterator.next crc32) fuel r.entries =
      some (entries.map .ok)

theorem endsShort_iff {expected : Nat} {r : SegmentReader} :
    r.EndsShort crc32 expected ↔ ∃ entries : List WalEntry, entries.length < expected ∧
      r.results crc32 = entries.map .ok := by
  constructor
  · rintro ⟨entries, few, given⟩
    refine ⟨entries, few, ?_⟩
    have all := r.drain_entries (Nat.lt_succ_of_le (le_max_right entries.length (r.results crc32).length))
    rw [given _ (Nat.lt_succ_of_le (le_max_left _ _))] at all
    exact (Option.some.inj all).symm
  · rintro ⟨entries, few, same⟩
    refine ⟨entries, few, ?_⟩
    intro fuel enough
    rw [drain_entries _ (by rw [same, List.length_map]; exact enough), same]

/-- The length that the bytes begin with. -/
def announced (bytes : List UInt8) : Nat := fromLeBytes (bytes.take 4)

/-- The checksum behind the announced body is that of the body. -/
def ChecksumHolds (crc32 : List UInt8 → UInt32) (bytes : List UInt8) : Prop :=
  (crc32 ((bytes.drop 4).take (announced bytes))).toNat =
    fromLeBytes ((bytes.drop (4 + announced bytes)).take 4)

/-- Nothing is announced, or more than there is, or the checksum fails with too little or only
zeros behind it. -/
def TakenForEnd (crc32 : List UInt8 → UInt32) (bytes : List UInt8) : Prop :=
  bytes.length < 4 ∨ announced bytes = 0 ∨ bytes.length < 4 + announced bytes + 4 ∨
    (¬ ChecksumHolds crc32 bytes ∧ isTailCorruption (bytes.drop (4 + announced bytes + 4)) = true)

/-- An end is found in the bytes before so many entries. An announced body whose checksum holds
is passed as an entry. -/
def EndsEarly (crc32 : List UInt8 → UInt32) : Nat → List UInt8 → Prop
  | 0, _ => False
  | expected + 1, bytes =>
    TakenForEnd crc32 bytes ∨
      ChecksumHolds crc32 bytes ∧
        (∃ entry, WalEntry.decodeBody ((bytes.drop 4).take (announced bytes)) = .ok entry) ∧
        EndsEarly crc32 expected (bytes.drop (4 + announced bytes + 4))

/-- What the reader does with any bytes. -/
theorem nextEntry_cases (r : SegmentReader) :
    (TakenForEnd crc32 r.remaining ∧ r.nextEntry crc32 = .ok none) ∨
    (¬ TakenForEnd crc32 r.remaining ∧ ChecksumHolds crc32 r.remaining ∧
      ((∃ entry, WalEntry.decodeBody ((r.remaining.drop 4).take (announced r.remaining)) = .ok entry ∧
          r.nextEntry crc32 = .ok
            (some (entry, ⟨r.header, r.remaining.drop (4 + announced r.remaining + 4)⟩))) ∨
        ∃ e, WalEntry.decodeBody ((r.remaining.drop 4).take (announced r.remaining)) = .error e ∧
          r.nextEntry crc32 = .error e)) ∨
    (¬ TakenForEnd crc32 r.remaining ∧ ¬ ChecksumHolds crc32 r.remaining ∧
      ∃ e, r.nextEntry crc32 = .error e) := by
  by_cases short : r.remaining.length < 4
  · exact Or.inl ⟨Or.inl short, by simp only [nextEntry, if_pos short]⟩
  by_cases zero : announced r.remaining = 0
  · refine Or.inl ⟨Or.inr (Or.inl zero), ?_⟩
    simp only [announced] at zero
    simp only [nextEntry, if_neg short, if_pos zero]
  by_cases cut : r.remaining.length < 4 + announced r.remaining + 4
  · refine Or.inl ⟨Or.inr (Or.inr (Or.inl cut)), ?_⟩
    simp only [announced] at zero cut
    simp only [nextEntry, if_neg short, if_neg zero, if_pos cut]
  by_cases holds : ChecksumHolds crc32 r.remaining
  · have going : ¬ TakenForEnd crc32 r.remaining := by
      rintro (h | h | h | h)
      · exact short h
      · exact zero h
      · exact cut h
      · exact h.1 holds
    refine Or.inr (Or.inl ⟨going, holds, ?_⟩)
    simp only [announced] at zero cut ⊢
    simp only [ChecksumHolds, announced] at holds
    simp only [nextEntry, if_neg short, if_neg zero, if_neg cut, ← holds, validateCrc_same]
    cases decoded : WalEntry.decodeBody ((r.remaining.drop 4).take (fromLeBytes (r.remaining.take 4))) with
    | ok entry => exact Or.inl ⟨entry, rfl, rfl⟩
    | error e => exact Or.inr ⟨e, rfl, rfl⟩
  · have failed := holds
    simp only [ChecksumHolds] at failed
    by_cases tail : isTailCorruption (r.remaining.drop (4 + announced r.remaining + 4)) = true
    · refine Or.inl ⟨Or.inr (Or.inr (Or.inr ⟨holds, tail⟩)), ?_⟩
      simp only [announced] at zero cut failed tail
      simp only [nextEntry, if_neg short, if_neg zero, if_neg cut, validateCrc_other failed,
        if_pos tail]
    · have going : ¬ TakenForEnd crc32 r.remaining := by
        rintro (h | h | h | h)
        · exact short h
        · exact zero h
        · exact cut h
        · exact tail h.2
      refine Or.inr (Or.inr ⟨going, holds, ?_⟩)
      simp only [announced] at zero cut failed tail
      simp only [nextEntry, if_neg short, if_neg zero, if_neg cut, validateCrc_other failed,
        if_neg tail]
      exact ⟨_, rfl⟩

/-- The iteration ends short exactly where the bytes hold an early end. -/
theorem endsShort_iff_endsEarly {expected : Nat} {r : SegmentReader} :
    r.EndsShort crc32 expected ↔ EndsEarly crc32 expected r.remaining := by
  rw [endsShort_iff]
  induction expected generalizing r with
  | zero => simp [EndsEarly]
  | succ expected ih =>
    rw [EndsEarly]
    rcases @nextEntry_cases crc32 r with ⟨ended, given⟩ | ⟨going, holds, read⟩ | ⟨going, fails, e,
      given⟩
    · rw [results_none given]
      exact ⟨fun _ => Or.inl ended, fun _ => ⟨[], Nat.succ_pos _, rfl⟩⟩
    · rcases read with ⟨entry, decoded, given⟩ | ⟨e, refused, given⟩
      · rw [results_some given]
        constructor
        · rintro ⟨entries, few, same⟩
          cases entries with
          | nil => cases same
          | cons first rest =>
            obtain ⟨-, same⟩ := List.cons.inj same
            exact Or.inr ⟨holds, ⟨entry, decoded⟩, ih.mp ⟨rest, Nat.lt_of_succ_lt_succ few, same⟩⟩
        · rintro (ended | ⟨-, -, early⟩)
          · exact absurd ended going
          · obtain ⟨rest, few, same⟩ := (@ih ⟨r.header, _⟩).mpr early
            exact ⟨entry :: rest, Nat.succ_lt_succ few, by rw [same, List.map_cons]⟩
      · rw [results_error given]
        constructor
        · rintro ⟨entries, -, same⟩
          cases entries with
          | nil => cases same
          | cons first rest => cases (List.cons.inj same).1
        · rintro (ended | ⟨-, ⟨entry, decoded⟩, -⟩)
          · exact absurd ended going
          · rw [refused] at decoded
            cases decoded
    · rw [results_error given]
      constructor
      · rintro ⟨entries, -, same⟩
        cases entries with
        | nil => cases same
        | cons first rest => cases (List.cons.inj same).1
      · rintro (ended | ⟨holds, -⟩)
        · exact absurd ended going
        · exact absurd holds fails

section Damage
variable {h : SegmentHeader} {e : WalEntry} {after : List WalEntry}

/-- What other entries follow is not taken for a torn tail. -/
theorem isTailCorruption_encodeAll (sized : ∀ e ∈ after, e.bodySize < 2 ^ 32)
    (follows : after ≠ []) :
    isTailCorruption (encodeAll crc32 after) = false := by
  obtain ⟨first, rest, rfl⟩ := List.exists_cons_of_ne_nil follows
  have size := first.totalSize_ge
  have length : (encodeAll crc32 (first :: rest)).length =
      first.totalSize + (encodeAll crc32 rest).length := by
    rw [encodeAll, List.flatMap_cons, List.length_append, WalEntry.length_encodeInto, encodeAll]
  have nonempty : (encodeAll crc32 (first :: rest)).isEmpty = false := by
    rw [List.isEmpty_eq_false_iff, ← List.length_pos_iff, length]
    omega
  have long : ¬ (encodeAll crc32 (first :: rest)).length < 8 := by omega
  have written : ¬ (encodeAll crc32 (first :: rest)).all (· = 0) = true := by
    intro zeros
    have prefixed : (encodeAll crc32 (first :: rest)).take 4 = leBytes 4 first.bodySize := by
      rw [encodeAll, List.flatMap_cons, WalEntry.encodeInto, List.append_assoc]
      exact List.take_left' (length_leBytes _ _)
    have read := @fromLeBytes_leBytes 4 first.bodySize (sized first List.mem_cons_self)
    have zero : fromLeBytes ((encodeAll crc32 (first :: rest)).take 4) = 0 :=
      fromLeBytes_zero fun b member => by
      simpa using List.all_eq_true.mp zeros b (List.mem_of_mem_take member)
    have := first.bodySize_ge
    rw [prefixed, read] at zero
    omega
  simp only [isTailCorruption, nonempty, Bool.false_or, Bool.or_eq_false_iff, decide_eq_false_iff_not]
  exact ⟨long, Bool.eq_false_iff.mpr written⟩

/-- A changed body no longer has the checksum that follows it. -/
theorem nextEntry_body_changed (detects : DetectsByte crc32) (fits : e.bodySize < 2 ^ 32)
    {rest : List UInt8} (going : isTailCorruption rest = false) {j : Nat} {b : UInt8}
    (inside : j < e.body.length) (changed : e.body[j]? ≠ some b) :
    ∃ err, nextEntry crc32 ⟨h, leBytes 4 e.bodySize ++
      (e.body.set j b ++ leBytes 4 (crc32 e.body).toNat) ++ rest⟩ = .error err := by
  have nonempty : e.body.set j b ≠ [] := by
    rw [← List.length_pos_iff, List.length_set]
    omega
  rw [List.getElem?_eq_getElem inside] at changed
  have other : (crc32 (e.body.set j b)).toNat ≠ (crc32 e.body).toNat := fun same =>
    detects e.body j inside b (fun kept => changed (congrArg some kept.symm)) (UInt32.toNat_inj.mp same)
  rw [nextEntry_frame nonempty
    (by rwa [List.length_set, e.length_body]) (by rw [List.length_set, e.length_body])
    (length_leBytes _ _), fromLeBytes_uint32, validateCrc_other other]
  simp only [going, Bool.false_eq_true, if_false]
  exact ⟨_, rfl⟩

/-- A changed checksum is not that of the body before it. -/
theorem nextEntry_crc_changed (fits : e.bodySize < 2 ^ 32) {rest : List UInt8}
    (going : isTailCorruption rest = false) {k : Nat} {b : UInt8} (inside : k < 4)
    (changed : (leBytes 4 (crc32 e.body).toNat)[k]? ≠ some b) :
    ∃ err, nextEntry crc32 ⟨h, leBytes 4 e.bodySize ++
      (e.body ++ (leBytes 4 (crc32 e.body).toNat).set k b) ++ rest⟩ = .error err := by
  have last : k < (leBytes 4 (crc32 e.body).toNat).length := by
    rw [length_leBytes]
    exact inside
  have other : (crc32 e.body).toNat ≠ fromLeBytes ((leBytes 4 (crc32 e.body).toNat).set k b) := by
    intro same
    have unchanged := fromLeBytes_injective List.length_set.symm ((fromLeBytes_uint32 _).trans same)
    have found := List.getElem?_set_self last (a := b)
    rw [← unchanged] at found
    exact changed found
  rw [nextEntry_frame e.body_ne_nil
    (by rwa [e.length_body]) e.length_body.symm (by rw [List.length_set, length_leBytes]),
    validateCrc_other other]
  simp only [going, Bool.false_eq_true, if_false]
  exact ⟨_, rfl⟩

theorem nextEntry_damaged (detects : DetectsByte crc32)
    (sized : ∀ other ∈ e :: after, other.bodySize < 2 ^ 32) (follows : after ≠ []) {i : Nat}
    {b : UInt8} (behind : 4 ≤ i) (inside : i < (e.encodeInto crc32).length)
    (changed : b ≠ (e.encodeInto crc32)[i]) :
    ∃ err, nextEntry crc32 ⟨h, (e.encodeInto crc32).set i b ++ encodeAll crc32 after⟩ = .error err := by
  obtain ⟨j, rfl⟩ : ∃ j, i = 4 + j := ⟨i - 4, by omega⟩
  have going := @isTailCorruption_encodeAll crc32 after
    (fun other member => sized other (List.mem_cons_of_mem _ member)) follows
  have fits := sized e List.mem_cons_self
  have at_j : (e.encodeInto crc32)[4 + j]? = (e.body ++ leBytes 4 (crc32 e.body).toNat)[j]? := by
    rw [WalEntry.encodeInto, List.getElem?_append_right (by simp), length_leBytes, Nat.add_sub_cancel_left]
  have changed : (e.body ++ leBytes 4 (crc32 e.body).toNat)[j]? ≠ some b := by
    rw [← at_j, List.getElem?_eq_getElem inside]
    exact fun same => changed (Option.some.inj same).symm
  have moved : (e.encodeInto crc32).set (4 + j) b =
      leBytes 4 e.bodySize ++ ((e.body ++ leBytes 4 (crc32 e.body).toNat).set j b) := by
    rw [WalEntry.encodeInto, List.set_append_right _ _ (by simp), length_leBytes, Nat.add_sub_cancel_left]
  rw [moved]
  by_cases body : j < e.body.length
  · rw [List.getElem?_append_left body] at changed
    rw [List.set_append_left _ _ body]
    exact nextEntry_body_changed detects fits going body changed
  · rw [List.getElem?_append_right (by omega)] at changed
    rw [List.set_append_right _ _ (by omega)]
    apply nextEntry_crc_changed fits going _ changed
    simp only [WalEntry.length_encodeInto, WalEntry.totalSize] at inside
    rw [e.length_body]
    omega

/-- The entries before the damage are passed, if they are not refused. -/
theorem endsShort_append {before : List WalEntry} (sized : ∀ e ∈ before, e.bodySize < 2 ^ 32)
    (rest : List UInt8) (expected : Nat) :
    EndsShort crc32 (before.length + expected) ⟨h, encodeAll crc32 before ++ rest⟩ ↔
      (∀ e ∈ before, e.Decodes) ∧ EndsShort crc32 expected ⟨h, rest⟩ := by
  induction before with
  | nil => simp [encodeAll]
  | cons e others ih =>
    have small := sized e List.mem_cons_self
    have given := @nextEntry_whole crc32 h e small (encodeAll crc32 others ++ rest)
    have later := ih fun e member => sized e (List.mem_cons_of_mem _ member)
    rw [endsShort_iff, encodeAll, List.flatMap_cons, ← encodeAll, List.append_assoc]
    cases decoded : WalEntry.decodeBody e.body with
    | error err =>
      rw [decoded] at given
      rw [results_error given]
      constructor
      · rintro ⟨entries, -, same⟩
        cases entries with
        | nil => cases same
        | cons first kept => cases (List.cons.inj same).1
      · rintro ⟨all, -⟩
        have passes := (all e List.mem_cons_self).decoded
        rw [decoded] at passes
        cases passes
    | ok entry =>
      have decodes : e.Decodes := ⟨small, by rw [decoded]; rfl⟩
      rw [decoded] at given
      rw [results_some given, List.forall_mem_cons, and_assoc, ← later, endsShort_iff]
      constructor
      · rintro ⟨entries, few, same⟩
        cases entries with
        | nil => cases same
        | cons first kept =>
          rw [List.length_cons, List.length_cons] at few
          exact ⟨decodes, kept, by omega, (List.cons.inj same).2⟩
      · rintro ⟨-, entries, few, same⟩
        refine ⟨entry :: entries, ?_, by rw [same, List.map_cons]⟩
        rw [List.length_cons, List.length_cons]
        omega

end Damage

/-- The bytes of a segment after one byte of an entry has changed. -/
theorem set_file {before after : List WalEntry} {damaged : WalEntry}
    {segmentNumber startingSequence now i : Nat} {b : UInt8}
    (inside : i < (damaged.encodeInto crc32).length) :
    ((SegmentWriter.create segmentNumber startingSequence now).appendBatch crc32
      (before ++ damaged :: after)).file.set
        (segmentHeaderSize + (encodeAll crc32 before).length + i) b =
      (SegmentHeader.new segmentNumber startingSequence now).encode ++
        (encodeAll crc32 before ++ ((damaged.encodeInto crc32).set i b ++ encodeAll crc32 after)) := by
  have header := (SegmentHeader.new segmentNumber startingSequence now).length_encode
  rw [SegmentWriter.appendBatch, SegmentWriter.create, encodeAll_append,
    show encodeAll crc32 (damaged :: after) =
    damaged.encodeInto crc32 ++ encodeAll crc32 after from List.flatMap_cons]
  dsimp only
  rw [List.set_append_right _
    _ (by omega), List.set_append_right _ _ (by omega), List.set_append_left _ _ (by omega), header]
  congr 4
  omega

section Example

/-- The first of two entries announces nothing after its lowest length byte has become zero: the
iteration ends at once, and without an error. -/
theorem length_zeroed_unreported :
    ∃ reader, openFile "segment"
      (((SegmentWriter.create 1 1 0).appendBatch Lib.crc32 [tornEntry 1, tornEntry 2]).file.set 32 0) =
        .ok reader ∧ reader.EndsShort Lib.crc32 [tornEntry 1, tornEntry 2].length := by
  have zeroed := @set_file Lib.crc32 [] [tornEntry 2] (tornEntry 1) 1 1 0 0 0 (by decide)
  obtain ⟨read, opens, -⟩ := @openFile_header (SegmentHeader.new 1 1 0) (by decide) "segment"
    (encodeAll Lib.crc32 [] ++ (((tornEntry 1).encodeInto Lib.crc32).set 0 0 ++ encodeAll Lib.crc32
      [tornEntry 2]))
  refine ⟨_, zeroed ▸ opens, ?_⟩
  rw [endsShort_iff_endsEarly]
  exact Or.inl (Or.inr (Or.inl rfl))

end Example

/-- A changed byte before the last entry is not passed over in silence exactly when it lies behind
the length, when an entry before it is refused, or when the length it belongs to does not lead to
an early end. -/
theorem damage_reported_iff (detects : DetectsByte crc32) {before after : List WalEntry}
    {damaged : WalEntry} (sized : ∀ e ∈ before ++ damaged :: after, e.bodySize < 2 ^ 32)
    (follows : after ≠ []) {i : Nat} {b : UInt8} (inside : i < (damaged.encodeInto crc32).length)
    (changed : b ≠ (damaged.encodeInto crc32)[i]) (path : String) (segmentNumber now : Nat)
    {startingSequence : Nat} (starts : startingSequence < 2 ^ 64) :
    ∃ reader, openFile path (((SegmentWriter.create segmentNumber startingSequence now).appendBatch crc32
        (before ++ damaged :: after)).file.set
          (segmentHeaderSize + (encodeAll crc32 before).length + i) b) = .ok reader ∧
      (¬ reader.EndsShort crc32 (before ++ damaged :: after).length ↔
        4 ≤ i ∨ (∃ e ∈ before, ¬ e.Decodes) ∨
          ¬ EndsEarly crc32 (damaged :: after).length
            ((damaged.encodeInto crc32).set i b ++ encodeAll crc32 after)) := by
  obtain ⟨read, opens, -⟩ := @openFile_header (SegmentHeader.new segmentNumber startingSequence now)
    starts path
    (encodeAll crc32 before ++ ((damaged.encodeInto crc32).set i b ++ encodeAll crc32 after))
  refine ⟨_, by rw [set_file inside]; exact opens, ?_⟩
  have earlier : ∀ e ∈ before, e.bodySize < 2 ^ 32 :=
    fun e member => sized e (List.mem_append_left _ member)
  have later : ∀ e ∈ damaged :: after, e.bodySize < 2 ^ 32 :=
    fun e member => sized e (List.mem_append_right _ member)
  have reported_behind : 4 ≤ i →
      ¬ EndsEarly crc32 (damaged :: after).length
        ((damaged.encodeInto crc32).set i b ++ encodeAll crc32 after) := by
    intro behind
    obtain ⟨err, given⟩ := @nextEntry_damaged crc32 read damaged after detects later follows i b
      behind inside changed
    rw [← endsShort_iff_endsEarly (r := ⟨read, _⟩), endsShort_iff, results_error given]
    rintro ⟨entries, -, same⟩
    cases entries with
    | nil => cases same
    | cons first rest => cases (List.cons.inj same).1
  have refused : (∃ e ∈ before, ¬ e.Decodes) ↔ ¬ ∀ e ∈ before, e.Decodes := by
    simp only [not_forall, exists_prop]
  rw [List.length_append, endsShort_append earlier, endsShort_iff_endsEarly, refused, not_and_or]
  constructor
  · exact fun reported => Or.inr reported
  · rintro (behind | reported)
    · exact Or.inr (reported_behind behind)
    · exact reported

section Example

/-- A changed byte in the body of the first of two entries. -/
theorem damage_reported_iff_body :
    ∃ reader, openFile "segment"
      (((SegmentWriter.create 1 1 0).appendBatch Lib.crc32 [tornEntry 1, tornEntry 2]).file.set
        (segmentHeaderSize + (encodeAll Lib.crc32 []).length + 4) 9) = .ok reader ∧
      (¬ reader.EndsShort Lib.crc32 [tornEntry 1, tornEntry 2].length ↔ 4 ≤ 4 ∨
        (∃ e ∈ [], ¬ WalEntry.Decodes e) ∨
        ¬ EndsEarly Lib.crc32 2 (((tornEntry 1).encodeInto Lib.crc32).set 4 9 ++ encodeAll Lib.crc32
          [tornEntry 2])) :=
  have inside : 4 < ((tornEntry 1).encodeInto Lib.crc32).length := by
    rw [WalEntry.length_encodeInto]
    decide
  have byte : ((tornEntry 1).encodeInto Lib.crc32)[4] = 1 := rfl
  have changed : (9 : UInt8) ≠ ((tornEntry 1).encodeInto Lib.crc32)[4] := by
    rw [byte]
    decide
  @damage_reported_iff Lib.crc32 crc32_detects [] [tornEntry 2]
    (tornEntry 1) (by decide) (List.cons_ne_nil _ _) 4 9 inside
    changed "segment" 1 0 1 (by decide)

end Example

end SegmentReader

end FlushDB
