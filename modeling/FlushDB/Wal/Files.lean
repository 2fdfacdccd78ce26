import Mathlib.Data.Option.Basic
import FlushDB.Wal.SegmentBytes
import FlushDB.Wal.Order

/-!
The log as files. The writer and the reader of segments work on bytes; where the files hold the
entries of a directory, the reader gives what the directory says.
-/

namespace FlushDB
open Lib

/-- The bytes of every segment file. -/
abbrev WalFiles := ObjectStore Nat (List UInt8)

structure WalEnv where
  crc32 : List UInt8 → UInt32
  partitionDir : String

namespace WalFiles
variable (env : WalEnv)

def segmentReader (files : WalFiles) (number : Nat) : FlushResult SegmentReader :=
  match files.get number with
  | some data => SegmentReader.openFile (segmentPath env.partitionDir number) data
  | none => .error (.io "no such file")

def createSegment (files : WalFiles) (number startingSequence now : Nat) : FlushResult WalFiles :=
  match files.conditionalPut number (SegmentWriter.create number startingSequence now).file with
  | some files => .ok files
  | none => .error (.io "file exists")

/-- The entries before the first error. -/
def okPrefix : List (FlushResult WalEntry) → List WalEntry
  | .ok entry :: rest => entry :: okPrefix rest
  | _ => []

/-- The highest number of the first segment of the list that holds an entry. -/
def highestSequence (files : WalFiles) : List Nat → FlushResult (Option Nat)
  | [] => .ok none
  | number :: rest =>
    match segmentReader env files number with
    | .error e => .error e
    | .ok reader =>
      match ((okPrefix (reader.results env.crc32)).map WalEntry.sequenceNumber).max? with
      | some highest => .ok (some highest)
      | none => highestSequence files rest

/-- `WalWriter::open`. -/
def openWriter (files : WalFiles) (config : WalConfig) (now : Nat) :
    FlushResult (WalWriter × WalFiles) :=
  match files.keys.getLast? with
  | none =>
    match createSegment files 1 1 now with
    | .error e => .error e
    | .ok files => .ok (⟨config, 1, segmentHeaderSize, 1, [1]⟩, files)
  | some last =>
    match highestSequence env files files.keys.reverse with
    | .error e => .error e
    | .ok highest =>
      let nextSequence := (highest.map (· + 1)).getD 1
      match createSegment files (last + 1) nextSequence now with
      | .error e => .error e
      | .ok created =>
        .ok (⟨config, last + 1, segmentHeaderSize, nextSequence, files.keys ++ [last + 1]⟩, created)

def rotate (w : WalWriter) (files : WalFiles) (now : Nat) : FlushResult (WalWriter × WalFiles) :=
  match createSegment files (w.currentSegment + 1) w.nextSequenceNumber now with
  | .error e => .error e
  | .ok files =>
    .ok ({ w with
      currentSegment := w.currentSegment + 1
      currentSize := segmentHeaderSize
      segmentNumbers := w.segmentNumbers ++ [w.currentSegment + 1] }, files)

/-- The bytes go to the open file; one that has been unlinked keeps none of them. -/
def writeEntries (files : WalFiles) (number : Nat) (entries : List WalEntry) : WalFiles :=
  match files.get number with
  | some data => files.put number (data ++ encodeAll env.crc32 entries)
  | none => files

def appendBatch (w : WalWriter) (files : WalFiles) (entries : List WalEntry) (now : Nat) :
    FlushResult (WalWriter × WalFiles) :=
  let assigned := WalWriter.assign w.nextSequenceNumber entries
  let written := writeEntries env files w.currentSegment assigned
  let next : WalWriter :=
    { w with
      nextSequenceNumber := w.nextSequenceNumber + entries.length
      currentSize := w.currentSize + (assigned.map WalEntry.totalSize).sum }
  if next.currentSize ≥ next.config.segmentSizeTarget then rotate next written now
    else .ok (next, written)

def removeSegment (w : WalWriter) (files : WalFiles) (number : Nat) :
    FlushResult (WalWriter × WalFiles) :=
  if number = w.currentSegment then .error (.invalidArgument "cannot remove the active segment")
  else
    match files.get number with
    | none => .error (.io "no such file")
    | some _ =>
      .ok ({ w with segmentNumbers := w.segmentNumbers.filter (· ≠ number) }, files.delete number)

/-- The `WalReader` of a directory. -/
structure Reader where
  files : WalFiles
  segmentNumbers : List Nat

/-- `WalReader::open`; there may be no directory. -/
def openReader (files : Option WalFiles) : FlushResult Reader :=
  match files with
  | none => .error (.io s!"WAL directory does not exist: {env.partitionDir}")
  | some files => .ok ⟨files, files.keys⟩

/-- A `for` loop that leaves at the first error. -/
def collect : List (FlushResult WalEntry) → FlushResult (List WalEntry)
  | [] => .ok []
  | .error e :: _ => .error e
  | .ok entry :: rest =>
    match collect rest with
    | .error e => .error e
    | .ok entries => .ok (entry :: entries)

def readSegment (files : WalFiles) (number : Nat) : FlushResult (List WalEntry) :=
  match segmentReader env files number with
  | .error e => .error e
  | .ok reader => collect (reader.results env.crc32)

def replayAllOf (files : WalFiles) : List Nat → FlushResult (List WalEntry)
  | [] => .ok []
  | number :: rest =>
    match readSegment env files number with
    | .error e => .error e
    | .ok entries =>
      match replayAllOf files rest with
      | .error e => .error e
      | .ok later => .ok (entries ++ later)

def Reader.replayAll (r : Reader) : FlushResult (List WalEntry) :=
  replayAllOf env r.files r.segmentNumbers

/-- Whether a segment is skipped, from the segments that follow it. One that does not open is no
reason to skip. -/
def skips (files : WalFiles) (minSequence : Nat) : List Nat → Bool
  | [] => false
  | next :: _ =>
    match segmentReader env files next with
    | .ok reader => reader.header.startingSequenceNumber ≤ minSequence
    | .error _ => false

def replayFromOf (files : WalFiles) (minSequence : Nat) : List Nat → FlushResult (List WalEntry)
  | [] => .ok []
  | number :: rest =>
    if skips env files minSequence rest then replayFromOf files minSequence rest
    else
      match readSegment env files number with
      | .error e => .error e
      | .ok entries =>
        match replayFromOf files minSequence rest with
        | .error e => .error e
        | .ok later => .ok (entries.filter (fun e => e.sequenceNumber ≥ minSequence) ++ later)

def Reader.replayFrom (r : Reader) (minSequence : Nat) : FlushResult (List WalEntry) :=
  replayFromOf env r.files minSequence r.segmentNumbers

/-- `segmentNumbers` are those from the index on. -/
structure WalEntryIterator where
  files : WalFiles
  segmentNumbers : List Nat
  currentReader : Option SegmentReader := none
  minSequence : Option Nat
  done : Bool := false

def Reader.iter (r : Reader) : WalEntryIterator :=
  { files := r.files, segmentNumbers := r.segmentNumbers, minSequence := none }

def Reader.iterFrom (r : Reader) (minSequence : Nat) : WalEntryIterator :=
  { files := r.files, segmentNumbers := r.segmentNumbers, minSequence := some minSequence }

namespace WalEntryIterator

/-- The next segment that is not skipped, and the numbers behind it. -/
def openNextSegment (files : WalFiles) (minSequence : Option Nat) :
    List Nat → FlushResult (Option (SegmentReader × List Nat))
  | [] => .ok none
  | number :: rest =>
    if minSequence.any fun m => skips env files m rest then openNextSegment files minSequence rest
    else
      match segmentReader env files number with
      | .error e => .error e
      | .ok reader => .ok (some (reader, rest))

theorem openNextSegment_shorter {files : WalFiles} {minSequence : Option Nat}
    {numbers rest : List Nat} {reader : SegmentReader}
    (h : openNextSegment env files minSequence numbers = .ok (some (reader, rest))) :
    rest.length < numbers.length := by
  induction numbers with
  | nil => cases h
  | cons number others ih =>
    unfold openNextSegment at h
    split at h
    · exact (ih h).trans (Nat.lt_succ_self _)
    · split at h
      · cases h
      · obtain ⟨-, rfl⟩ := Prod.mk.inj (Option.some.inj (Except.ok.inj h))
        exact Nat.lt_succ_self _

/-- What is left to read of the current segment. -/
def unread (it : WalEntryIterator) : Nat :=
  match it.currentReader with
  | none => 0
  | some reader => reader.remaining.length + 1

/-- The loop of `next`. -/
def advance (it : WalEntryIterator) : Option (FlushResult WalEntry × WalEntryIterator) :=
  match _ : it.currentReader with
  | none =>
    match _ : openNextSegment env it.files it.minSequence it.segmentNumbers with
    | .ok none => none
    | .ok (some (reader, rest)) =>
      advance { it with currentReader := some reader, segmentNumbers := rest }
    | .error e => some (.error e, { it with done := true })
  | some reader =>
    match _ : reader.nextEntry env.crc32 with
    | .ok (some (entry, reader)) =>
      if it.minSequence.any fun m => entry.sequenceNumber < m then
        advance { it with currentReader := some reader }
      else some (.ok entry, { it with currentReader := some reader })
    | .ok none => advance { it with currentReader := none }
    | .error e => some (.error e, { it with done := true })
termination_by (it.segmentNumbers.length, it.unread)
decreasing_by
  · exact Prod.Lex.left _ _ (openNextSegment_shorter env ‹_›)
  · rename_i current given _
    apply Prod.Lex.right
    have := SegmentReader.nextEntry_shorter given
    simp only [unread, current]
    omega
  · rename_i current _
    apply Prod.Lex.right
    simp only [unread, current]
    omega

def next (it : WalEntryIterator) : Option (FlushResult WalEntry × WalEntryIterator) :=
  if it.done then none else advance env it

end WalEntryIterator

section Reads
variable {env}

/-- The segment file opens, and is read as the segment says. -/
def Reads (env : WalEnv) (files : WalFiles) (number : Nat) (segment : Segment) : Prop :=
  ∃ reader, segmentReader env files number = .ok reader ∧
    reader.header.startingSequenceNumber = segment.startingSequence ∧
    reader.results env.crc32 = segment.entries.map fun e => .ok e.reread

/-- The files are read as the directory says. -/
structure Readable (env : WalEnv) (files : WalFiles) (dir : WalDir) : Prop where
  numbers : files.keys = dir.keys
  reads : ∀ n segment, dir.get n = some segment → Reads env files n segment

theorem collect_reread (entries : List WalEntry) :
    collect (entries.map fun e => .ok e.reread) = .ok (entries.map WalEntry.reread) := by
  induction entries with
  | nil => rfl
  | cons e rest ih => simp only [List.map_cons, collect, ih]

theorem okPrefix_reread (entries : List WalEntry) :
    okPrefix (entries.map fun e => .ok e.reread) = entries.map WalEntry.reread := by
  induction entries with
  | nil => rfl
  | cons e rest ih => simp only [List.map_cons, okPrefix, ih]

theorem map_sequenceNumber_reread (entries : List WalEntry) :
    (entries.map WalEntry.reread).map WalEntry.sequenceNumber =
      entries.map WalEntry.sequenceNumber := by
  rw [List.map_map]
  rfl

theorem filter_reread (minSequence : Nat) (entries : List WalEntry) :
    (entries.map WalEntry.reread).filter (fun e => e.sequenceNumber ≥ minSequence) =
      (entries.filter fun e => e.sequenceNumber ≥ minSequence).map WalEntry.reread := by
  rw [List.filter_map]
  rfl

variable {files : WalFiles} {dir : WalDir}

theorem readSegment_eq {n : Nat} {segment : Segment} (reads : Reads env files n segment) :
    readSegment env files n = .ok (segment.entries.map WalEntry.reread) := by
  obtain ⟨reader, opens, -, results⟩ := reads
  simp only [readSegment, opens, results, collect_reread]

theorem segmentEntries_eq {n : Nat} {segment : Segment} (found : dir.get n = some segment) :
    WalReader.segmentEntries dir n = segment.entries := by
  simp only [WalReader.segmentEntries, found, Option.map_some, Option.getD_some]

theorem replayAll_eq (h : Readable env files dir) {numbers : List Nat}
    (present : ∀ n ∈ numbers, (dir.get n).isSome) :
    replayAllOf env files numbers =
      .ok ((numbers.flatMap (WalReader.segmentEntries dir)).map WalEntry.reread) := by
  induction numbers with
  | nil => rfl
  | cons n rest ih =>
    obtain ⟨segment, found⟩ := Option.isSome_iff_exists.mp (present n List.mem_cons_self)
    have later := ih fun k member => present k (List.mem_cons_of_mem _ member)
    simp only [replayAllOf, readSegment_eq (h.reads n segment found), later, List.flatMap_cons,
      segmentEntries_eq found,
      List.map_append]

theorem skips_eq (h : Readable env files dir) (minSequence : Nat) {numbers : List Nat}
    (present : ∀ n ∈ numbers, (dir.get n).isSome) :
    skips env files minSequence numbers = WalReader.skips dir minSequence numbers := by
  cases numbers with
  | nil => rfl
  | cons n rest =>
    obtain ⟨segment, found⟩ := Option.isSome_iff_exists.mp (present n List.mem_cons_self)
    obtain ⟨reader, opens, starts, -⟩ := h.reads n segment found
    simp only [skips, opens, starts, WalReader.skips, found, Option.any_some]

theorem replayFrom_eq (h : Readable env files dir) (minSequence : Nat) {numbers : List Nat}
    (present : ∀ n ∈ numbers, (dir.get n).isSome) :
    replayFromOf env files minSequence numbers =
      .ok ((WalReader.replaySegments dir minSequence numbers).map WalEntry.reread) := by
  induction numbers with
  | nil => rfl
  | cons n rest ih =>
    obtain ⟨segment, found⟩ := Option.isSome_iff_exists.mp (present n List.mem_cons_self)
    have behind : ∀ k ∈ rest, (dir.get k).isSome :=
      fun k member => present k (List.mem_cons_of_mem _ member)
    simp only [replayFromOf, WalReader.replaySegments, skips_eq h minSequence behind, ih behind]
    split
    · rfl
    · simp only [readSegment_eq (h.reads n segment found), segmentEntries_eq found, List.map_append,
        filter_reread]

theorem highestSequence_eq (h : Readable env files dir) {numbers : List Nat}
    (present : ∀ n ∈ numbers, (dir.get n).isSome) :
    highestSequence env files numbers = .ok (WalWriter.highestSequence dir numbers) := by
  induction numbers with
  | nil => rfl
  | cons n rest ih =>
    obtain ⟨segment, found⟩ := Option.isSome_iff_exists.mp (present n List.mem_cons_self)
    obtain ⟨reader, opens, -, results⟩ := h.reads n segment found
    have later := ih fun k member => present k (List.mem_cons_of_mem _ member)
    simp only [highestSequence, opens, results, okPrefix_reread, map_sequenceNumber_reread,
      WalWriter.highestSequence, found,
      Option.bind_some]
    cases (segment.entries.map WalEntry.sequenceNumber).max? with
    | some highest => rfl
    | none => exact later

namespace WalEntryIterator
variable {m : Nat}

/-- What an iterator has still to give: the rest of the segment it reads and the segments behind. -/
inductive Pending (dir : WalDir) (m : Nat) (env : WalEnv) :
    WalEntryIterator → List WalEntry → Prop where
  | closed {files : WalFiles} {numbers : List Nat} (readable : Readable env files dir)
      (present : ∀ n ∈ numbers, (dir.get n).isSome) :
      Pending dir m env ⟨files, numbers, none, some m, false⟩ (WalReader.replaySegments dir m numbers)
  | reading {files : WalFiles} {numbers : List Nat} {reader : SegmentReader} {entries : List WalEntry}
      (readable : Readable env files dir) (present : ∀ n ∈ numbers, (dir.get n).isSome)
      (results : reader.results env.crc32 = entries.map fun e => .ok e.reread) :
      Pending dir m env ⟨files, numbers, some reader, some m, false⟩
        (entries.filter (fun e => e.sequenceNumber ≥ m) ++ WalReader.replaySegments dir m numbers)

/-- The loop ends when nothing is left, and otherwise gives the first entry that is. -/
def Gives (dir : WalDir) (m : Nat) (env : WalEnv)
    (given : Option (FlushResult WalEntry × WalEntryIterator)) : List WalEntry → Prop
  | [] => given = none
  | e :: rest => ∃ next, given = some (.ok e.reread, next) ∧ Pending dir m env next rest

theorem advance_closed {it : WalEntryIterator} (idle : it.currentReader = none) :
    it.advance env = match openNextSegment env it.files it.minSequence it.segmentNumbers with
      | .ok none => none
      | .ok (some (reader, rest)) =>
        advance env { it with currentReader := some reader, segmentNumbers := rest }
      | .error e => some (.error e, { it with done := true }) := by
  rw [advance]
  split
  · split
    · rename_i opened
      simp only [opened]
    · rename_i opened
      simp only [opened]
    · rename_i opened
      simp only [opened]
  · rename_i busy
    rw [idle] at busy
    cases busy

theorem advance_reading {it : WalEntryIterator} {reader : SegmentReader}
    (busy : it.currentReader = some reader) :
    it.advance env = match reader.nextEntry env.crc32 with
      | .ok (some (entry, reader)) =>
        if it.minSequence.any fun m => entry.sequenceNumber < m then
          advance env { it with currentReader := some reader }
        else some (.ok entry, { it with currentReader := some reader })
      | .ok none => advance env { it with currentReader := none }
      | .error e => some (.error e, { it with done := true }) := by
  rw [advance]
  split
  · rename_i idle
    rw [busy] at idle
    cases idle
  · rename_i other same
    rw [busy] at same
    obtain rfl := Option.some.inj same
    split
    · rename_i given
      simp only [given]
    · rename_i given
      simp only [given]
    · rename_i given
      simp only [given]

/-- From within a segment, once what lies behind it is known to be given. -/
theorem gives_reading {numbers : List Nat} {reader : SegmentReader} {entries : List WalEntry}
    (readable : Readable env files dir) (present : ∀ n ∈ numbers, (dir.get n).isSome)
    (follows : Gives dir m env (advance env ⟨files, numbers, none, some m, false⟩)
      (WalReader.replaySegments dir m numbers))
    (results : reader.results env.crc32 = entries.map fun e => .ok e.reread) :
    Gives dir m env (advance env ⟨files, numbers, some reader, some m, false⟩)
      (entries.filter (fun e => e.sequenceNumber ≥ m) ++ WalReader.replaySegments dir m numbers) := by
  induction entries generalizing reader with
  | nil =>
    have ended := SegmentReader.nextEntry_of_results_nil results
    rw [advance_reading rfl, ended]
    exact follows
  | cons e rest ih =>
    obtain ⟨following, given, later⟩ := SegmentReader.nextEntry_of_results_cons results
    rw [advance_reading rfl, given]
    by_cases low : e.sequenceNumber < m
    · rw [List.filter_cons_of_neg (by simp only [decide_eq_true_eq]; omega)]
      simp only [Option.any_some, WalEntry.reread_sequenceNumber, low, decide_true, if_true]
      exact ih later
    · rw [List.filter_cons_of_pos (by simp only [decide_eq_true_eq]; omega), List.cons_append]
      simp only [Option.any_some, WalEntry.reread_sequenceNumber, low, decide_false,
        Bool.false_eq_true, if_false]
      exact ⟨_, rfl, .reading readable present later⟩

/-- The next segment is opened, unless nothing is left to give. -/
theorem openNextSegment_cases {numbers : List Nat} (readable : Readable env files dir)
    (present : ∀ n ∈ numbers, (dir.get n).isSome) :
    (openNextSegment env files (some m) numbers = .ok none ∧
      WalReader.replaySegments dir m numbers = []) ∨
      ∃ (reader : SegmentReader) (entries : List WalEntry) (rest : List Nat),
        openNextSegment env files (some m) numbers = .ok (some (reader, rest)) ∧
        (∀ n ∈ rest, (dir.get n).isSome) ∧ reader.results env.crc32 =
          entries.map (fun e => .ok e.reread) ∧
        WalReader.replaySegments dir m numbers =
          entries.filter (fun e => e.sequenceNumber ≥ m) ++ WalReader.replaySegments dir m rest := by
  induction numbers with
  | nil => exact Or.inl ⟨rfl, rfl⟩
  | cons n rest ih =>
    have behind : ∀ k ∈ rest, (dir.get k).isSome :=
      fun k member => present k (List.mem_cons_of_mem _ member)
    rw [WalReader.replaySegments, openNextSegment, Option.any_some, skips_eq readable m behind]
    by_cases skip : WalReader.skips dir m rest = true
    · rw [if_pos skip, if_pos skip]
      exact ih behind
    · obtain ⟨segment, found⟩ := Option.isSome_iff_exists.mp (present n List.mem_cons_self)
      obtain ⟨reader, opens, -, results⟩ := readable.reads n segment found
      rw [if_neg skip, if_neg skip, opens, segmentEntries_eq found]
      exact Or.inr ⟨reader, segment.entries, rest, rfl, behind, results, rfl⟩

/-- From between two segments. -/
theorem gives_closed {numbers : List Nat} (readable : Readable env files dir)
    (present : ∀ n ∈ numbers, (dir.get n).isSome) :
    Gives dir m env (advance env ⟨files, numbers, none, some m, false⟩)
      (WalReader.replaySegments dir m numbers) := by
  generalize size : numbers.length = length
  induction length using Nat.strongRecOn generalizing numbers with
  | ind length ih =>
    rw [advance_closed rfl]
    rcases @openNextSegment_cases env files dir m numbers readable present with
      ⟨ended, nothing⟩ | ⟨reader, entries, rest, opens, behind, results, left⟩
    · rw [ended, nothing]
      rfl
    · have shorter := openNextSegment_shorter env opens
      rw [opens, left]
      exact gives_reading readable behind (ih rest.length (by omega) behind rfl) results

theorem gives_next {it : WalEntryIterator} {left : List WalEntry}
    (pending : Pending dir m env it left) :
    Gives dir m env (it.next env) left := by
  cases pending with
  | closed readable present => exact gives_closed readable present
  | reading readable present results =>
    exact gives_reading readable present (gives_closed readable present) results

theorem drain_pending {it : WalEntryIterator} {left : List WalEntry}
    (pending : Pending dir m env it left) {fuel : Nat} (enough : left.length < fuel) :
    drain (next env) fuel it = some (left.map fun e => .ok e.reread) := by
  induction left generalizing it fuel with
  | nil =>
    obtain ⟨fuel, rfl⟩ : ∃ n, fuel = n + 1 :=
      ⟨fuel - 1, by simp only [List.length_nil] at enough; omega⟩
    have ended : it.next env = none := gives_next pending
    simp only [drain, ended, List.map_nil]
  | cons e rest ih =>
    simp only [List.length_cons] at enough
    obtain ⟨fuel, rfl⟩ : ∃ n, fuel = n + 1 := ⟨fuel - 1, by omega⟩
    obtain ⟨following, given, later⟩ := gives_next pending
    rw [drain_cons given, ih later (by omega)]
    rfl

end WalEntryIterator

end Reads

end WalFiles

end FlushDB
