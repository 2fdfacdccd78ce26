import FlushDB.Wal.Files
import FlushDB.Wal.Sessions

/-!
Sessions and crashes over the files of a log. Beside the files runs the directory of the
entries that lie wholly on disk. As long as a crash leaves the header of the newest segment,
the files are read as this directory says; a file cut within its header stops every reader.
-/

namespace FlushDB.WalDisk
open Lib WalFiles

/-- There are no files before the first session has made the directory. -/
structure State where
  files : Option WalFiles := none
  writer : Option WalWriter := none

def State.segments (s : State) : WalFiles := s.files.getD ObjectStore.empty

/-- `now` is the clock. A crash ends the process and cuts the newest segment file. -/
inductive Label where
  | session (label : WalSessions.Label) (now : Nat)
  | crash (length : Nat)

/-- Deletes the segments of the list other than the current one. -/
def cleanupSegments (current : Nat) (files : WalFiles) (numbers : List Nat) : WalFiles :=
  numbers.foldl (fun files number => if number = current then files else files.delete number) files

section Step
variable (env : WalEnv)

def appended (s : State) (w : WalWriter) (entries : List WalEntry) (now : Nat) : Option State :=
  -- the counter is a `u64`, and counting past its end overflows
  if 2 ^ 64 ≤ w.nextSequenceNumber + entries.length then none
  else
    match appendBatch env w s.segments entries now with
    | .error _ => none
    | .ok (next, files) => some ⟨some files, some next⟩

def step (s : State) : Label → Option State
  | .session (.openDir config) now =>
    match s.writer with
    | some _ => none
    | none =>
      match openWriter env s.segments config now with
      | .error _ => none
      | .ok (w, files) => some ⟨some files, some w⟩
  | .session (.append entry) now => s.writer.bind fun w => appended env s w [entry] now
  | .session (.appendBatch entries) now => s.writer.bind fun w => appended env s w entries now
  | .session .rotate now => s.writer.bind fun w =>
    match rotate w s.segments now with
    | .error _ => none
    | .ok (next, files) => some ⟨some files, some next⟩
  | .session (.removeSegment number) _ => s.writer.bind fun w =>
    match removeSegment w s.segments number with
    | .error _ => none
    | .ok (next, files) => some ⟨some files, some next⟩
  | .session (.cleanupSegments numbers) _ => s.writer.map fun w =>
    { s with files := some (cleanupSegments w.currentSegment s.segments numbers) }
  | .session .close _ => s.writer.map fun _ => { s with writer := none }
  | .crash length => s.segments.keys.getLast?.bind fun newest =>
    (s.segments.get newest).map fun data => ⟨some (s.segments.put newest (data.take length)), none⟩

end Step

/-- What lies wholly on disk: a crash keeps the entries that end before the cut. -/
def diskStep (d : WalSessions.State) : Label → Option WalSessions.State
  | .session label _ => WalSessions.step d label
  | .crash length => d.dir.keys.getLast?.bind fun newest =>
    (d.dir.get newest).map fun segment =>
      let kept : Segment :=
        { segment with entries := wholeEntries (length - segmentHeaderSize) segment.entries }
      { d with dir := d.dir.put newest kept, writer := none }

/-- What is appended can be read back, and a crash leaves the header of the newest segment. -/
def Intact (_ : State) : Label → Prop
  | .session (.append entry) _ => entry.Decodes
  | .session (.appendBatch entries) _ => ∀ entry ∈ entries, entry.Decodes
  | .crash length => segmentHeaderSize ≤ length
  | _ => True

instance (s : State) : (a : Label) → Decidable (Intact s a)
  | .session (.append entry) _ => inferInstanceAs (Decidable entry.Decodes)
  | .session (.appendBatch entries) _ =>
    inferInstanceAs (Decidable (∀ entry ∈ entries, entry.Decodes))
  | .crash length => inferInstanceAs (Decidable (segmentHeaderSize ≤ length))
  | .session (.openDir _) _
  | .session .rotate _ | .session (.removeSegment _) _ | .session (.cleanupSegments _) _
  | .session .close _ => isTrue trivial

/-- The bytes of a segment file, with what may be left of another entry. -/
def fileOf (crc32 : List UInt8 → UInt32) (number now : Nat) (segment : Segment)
    (torn : List UInt8) : List UInt8 :=
  (SegmentHeader.new number segment.startingSequence now).encode ++
    (encodeAll crc32 segment.entries ++ torn)

structure ShowsSegment (env : WalEnv) (number : Nat) (file : List UInt8) (segment : Segment) :
    Prop where
  starts : segment.startingSequence < 2 ^ 64
  readable : ∀ e ∈ segment.entries, e.Decodes ∧ e.sequenceNumber < 2 ^ 64
  bytes : ∃ now torn, SegmentReader.Torn env.crc32 torn ∧
    file = fileOf env.crc32 number now segment torn

/-- The files hold the entries of the directory. -/
def Shows (env : WalEnv) (files : WalFiles) (dir : WalDir) : Prop :=
  ∀ n, Option.Rel (ShowsSegment env n) (files.get n) (dir.get n)

/-- The file of a segment holds whole entries only, so that it can be appended to. -/
def Whole (env : WalEnv) (files : WalFiles) (dir : WalDir) (n : Nat) : Prop :=
  ∃ now segment, dir.get n = some segment ∧ files.get n = some (fileOf env.crc32 n now segment [])

section Show
variable {env : WalEnv} {files : WalFiles} {dir : WalDir}

theorem Shows.none_iff (h : Shows env files dir) (n : Nat) :
    files.get n = none ↔ dir.get n = none := by
  have related := h n
  cases at_file : files.get n with
  | none =>
    cases at_dir : dir.get n with
    | none => simp
    | some segment =>
      rw [at_file, at_dir] at related
      cases related
  | some file =>
    cases at_dir : dir.get n with
    | none =>
      rw [at_file, at_dir] at related
      cases related
    | some segment => simp

theorem Shows.segment (h : Shows env files dir) {n : Nat} {segment : Segment}
    (found : dir.get n = some segment) :
    ∃ file, files.get n = some file ∧ ShowsSegment env n file segment := by
  have related := h n
  rw [found] at related
  cases at_file : files.get n with
  | none =>
    rw [at_file] at related
    cases related
  | some file =>
    rw [at_file] at related
    cases related with
    | some shown => exact ⟨file, rfl, shown⟩

theorem Shows.file (h : Shows env files dir) {n : Nat} {file : List UInt8}
    (at_n : files.get n = some file) :
    ∃ segment, dir.get n = some segment ∧ ShowsSegment env n file segment := by
  have present : dir.get n ≠ none := fun absent => by
    rw [(h.none_iff n).mpr absent] at at_n
    cases at_n
  obtain ⟨segment, found⟩ := Option.ne_none_iff_exists'.mp present
  obtain ⟨same_file, same, shown⟩ := h.segment found
  obtain rfl := Option.some.inj (at_n.symm.trans same)
  exact ⟨segment, found, shown⟩

theorem Shows.keys (h : Shows env files dir) : files.keys = dir.keys := by
  apply ObjectStore.keys_congr
  intro n
  rw [Bool.eq_iff_iff, Option.isSome_iff_ne_none, Option.isSome_iff_ne_none, ne_eq, ne_eq, h.none_iff n]

theorem Shows.readable (h : Shows env files dir) : Readable env files dir := by
  refine ⟨h.keys, ?_⟩
  intro n segment found
  obtain ⟨file, at_n, starts, readable, now, torn, cut, rfl⟩ := h.segment found
  obtain ⟨read, opens, starting⟩ := @SegmentReader.openFile_header
    (SegmentHeader.new n segment.startingSequence now) starts
    (segmentPath env.partitionDir n) (encodeAll env.crc32 segment.entries ++ torn)
  refine ⟨_, ?_, starting, SegmentReader.results_reread readable cut⟩
  rw [segmentReader, at_n]
  exact opens

theorem Shows.put (h : Shows env files dir) {n : Nat} {file : List UInt8} {segment : Segment}
    (shown : ShowsSegment env n file segment) :
    Shows env (files.put n file) (dir.put n segment) := by
  intro k
  rw [ObjectStore.get_put, ObjectStore.get_put]
  split
  · rename_i same
    subst same
    exact .some shown
  · exact h k

theorem Shows.delete (h : Shows env files dir) (n : Nat) :
    Shows env (files.delete n) (dir.delete n) := by
  intro k
  rw [ObjectStore.get_delete, ObjectStore.get_delete]
  split
  · exact .none
  · exact h k

theorem Whole.delete {n k : Nat} (h : Whole env files dir n) (other : n ≠ k) :
    Whole env (files.delete k) (dir.delete k) n := by
  obtain ⟨now, segment, found, at_n⟩ := h
  exact ⟨now, segment, by rw [ObjectStore.get_delete_ne _ other]; exact found,
    by rw [ObjectStore.get_delete_ne _ other]; exact at_n⟩

theorem createSegment_shows (h : Shows env files dir) {dir' : WalDir} {n start : Nat}
    (starts : start < 2 ^ 64) (now : Nat)
    (created : WalWriter.createSegment dir n start = .ok dir') :
    ∃ files', createSegment files n start now = .ok files' ∧ Shows env files' dir' ∧
      Whole env files' dir' n := by
  obtain ⟨absent, rfl⟩ := WalWriter.createSegment_ok created
  have free := (h.none_iff n).mpr absent
  have bytes : (SegmentWriter.create n start now).file =
      fileOf env.crc32 n now { startingSequence := start, entries := [] } [] := by
    simp [SegmentWriter.create, fileOf, encodeAll]
  refine ⟨files.put n (SegmentWriter.create n start now).file, ?_, ?_, ?_⟩
  · simp only [createSegment, ObjectStore.conditionalPut, free, Option.isSome_none,
      Bool.false_eq_true, if_false]
  · refine h.put ⟨starts, ?_, now, [], SegmentReader.torn_nil _, bytes⟩
    intro e member
    cases member
  · exact ⟨now, _, ObjectStore.get_put_self _ _ _, by rw [ObjectStore.get_put_self, bytes]⟩

theorem rotate_shows (h : Shows env files dir) {w w' : WalWriter} {dir' : WalDir}
    (bounded : w.nextSequenceNumber < 2 ^ 64) (now : Nat)
    (rotated : w.rotate dir = .ok (w', dir')) :
    ∃ files', rotate w files now = .ok (w', files') ∧ Shows env files' dir' ∧
      Whole env files' dir' w'.currentSegment := by
  unfold WalWriter.rotate at rotated
  split at rotated
  · cases rotated
  · rename_i made creates
    obtain ⟨rfl, rfl⟩ := Prod.mk.inj (Except.ok.inj rotated)
    obtain ⟨files', created, shows', whole⟩ := createSegment_shows h bounded now creates
    exact ⟨files', by simp only [rotate, created], shows', whole⟩

theorem readable_assign {entries : List WalEntry} (decodes : ∀ e ∈ entries, e.Decodes) {first : Nat}
    (bounded : first + entries.length ≤ 2 ^ 64) :
    ∀ e ∈ WalWriter.assign first entries, e.Decodes ∧ e.sequenceNumber < 2 ^ 64 := by
  induction entries generalizing first with
  | nil =>
    intro e member
    cases member
  | cons head rest ih =>
    rw [List.length_cons] at bounded
    intro e member
    rcases List.mem_cons.mp member with rfl | later
    · exact ⟨(decodes head List.mem_cons_self).renumbered first, show first < 2 ^ 64 by omega⟩
    · exact ih (fun e member => decodes e (List.mem_cons_of_mem _ member)) (by omega) e later

theorem writeEntries_shows (h : Shows env files dir) {n : Nat} (whole : Whole env files dir n)
    {entries : List WalEntry} (readable : ∀ e ∈ entries, e.Decodes ∧ e.sequenceNumber < 2 ^ 64) :
    Shows env (writeEntries env files n entries) (WalWriter.writeEntries dir n entries) ∧
      Whole env (writeEntries env files n entries) (WalWriter.writeEntries dir n entries) n := by
  obtain ⟨now, segment, found, at_n⟩ := whole
  obtain ⟨file, same, starts, before, -⟩ := h.segment found
  have bytes : fileOf env.crc32 n now segment [] ++ encodeAll env.crc32 entries =
      fileOf env.crc32 n now { segment with entries := segment.entries ++ entries } [] := by
    simp only [fileOf, encodeAll_append, List.append_assoc, List.append_nil]
  simp only [writeEntries, at_n, WalWriter.writeEntries, found, bytes]
  refine ⟨h.put ⟨starts, ?_, now, [], SegmentReader.torn_nil _, rfl⟩, now, _,
    ObjectStore.get_put_self _ _ _, ObjectStore.get_put_self _ _ _⟩
  intro e member
  rcases List.mem_append.mp member with old | new
  · exact before e old
  · exact readable e new

theorem appendBatch_shows (h : Shows env files dir) {w w' : WalWriter} {dir' : WalDir}
    (whole : Whole env files dir w.currentSegment) {entries : List WalEntry}
    (decodes : ∀ e ∈ entries, e.Decodes) (bounded : w.nextSequenceNumber + entries.length < 2 ^ 64)
    (now : Nat) (done : w.appendBatch dir entries = .ok (w', dir')) :
    ∃ files', appendBatch env w files entries now = .ok (w', files') ∧ Shows env files' dir' ∧
      Whole env files' dir' w'.currentSegment := by
  obtain ⟨written, whole'⟩ := writeEntries_shows h whole (readable_assign decodes bounded.le)
  unfold WalWriter.appendBatch at done
  dsimp only at done
  split at done
  · rename_i full
    obtain ⟨files', rotated, shows', fresh⟩ := @rotate_shows env _ _ written _ w' dir' bounded now done
    refine ⟨files', ?_, shows', fresh⟩
    simp only [appendBatch]
    rw [if_pos full]
    exact rotated
  · rename_i room
    obtain ⟨rfl, rfl⟩ := Prod.mk.inj (Except.ok.inj done)
    refine ⟨_, ?_, written, whole'⟩
    simp only [appendBatch]
    rw [if_neg room]

theorem openWriter_shows (h : Shows env files dir) {config : WalConfig} {w : WalWriter}
    {dir' : WalDir} (bounded : w.nextSequenceNumber < 2 ^ 64) (now : Nat)
    (opens : WalWriter.openDir dir config = .ok (w, dir')) :
    ∃ files', openWriter env files config now = .ok (w, files') ∧ Shows env files' dir' ∧
      Whole env files' dir' w.currentSegment := by
  have keys := h.keys
  have highest := @highestSequence_eq env files dir h.readable dir.keys.reverse fun n member =>
    ObjectStore.mem_keys.mp (List.mem_reverse.mp member)
  unfold WalWriter.openDir at opens
  split at opens
  · rename_i nothing
    split at opens
    · cases opens
    · rename_i made creates
      obtain ⟨rfl, rfl⟩ := Prod.mk.inj (Except.ok.inj opens)
      obtain ⟨files', created, shows', whole⟩ := createSegment_shows h
        (show 1 < 2 ^ 64 by decide) now creates
      refine ⟨files', ?_, shows', whole⟩
      simp only [openWriter, keys, nothing, created]
  · rename_i last final
    dsimp only at opens
    split at opens
    · cases opens
    · rename_i made creates
      obtain ⟨rfl, rfl⟩ := Prod.mk.inj (Except.ok.inj opens)
      obtain ⟨files', created, shows', whole⟩ := createSegment_shows h bounded now creates
      refine ⟨files', ?_, shows', whole⟩
      simp only [openWriter, keys, final, highest, created]

theorem removeSegment_shows (h : Shows env files dir) {w w' : WalWriter} {files' : WalFiles}
    {n : Nat} (removed : removeSegment w files n = .ok (w', files')) :
    ∃ dir', w.removeSegment dir n = .ok (w', dir') ∧ Shows env files' dir' ∧
      (Whole env files dir w.currentSegment → Whole env files' dir' w'.currentSegment) := by
  unfold removeSegment at removed
  split at removed
  · cases removed
  · rename_i other
    split at removed
    · cases removed
    · rename_i file at_n
      obtain ⟨rfl, rfl⟩ := Prod.mk.inj (Except.ok.inj removed)
      obtain ⟨segment, found, -⟩ := h.file at_n
      refine ⟨dir.delete n, ?_, h.delete n, fun whole => whole.delete (Ne.symm other)⟩
      simp only [WalWriter.removeSegment, if_neg other, found]

theorem cleanupSegments_shows (h : Shows env files dir) {current : Nat}
    (whole : Whole env files dir current) (numbers : List Nat) :
    Shows env (cleanupSegments current files numbers)
      (WalSessions.cleanupSegments current dir numbers) ∧
      Whole env (cleanupSegments current files numbers)
        (WalSessions.cleanupSegments current dir numbers) current := by
  unfold cleanupSegments WalSessions.cleanupSegments
  induction numbers generalizing files dir with
  | nil => exact ⟨h, whole⟩
  | cons number rest ih =>
    rw [List.foldl_cons, List.foldl_cons]
    split
    · exact ih h whole
    · rename_i other
      exact ih (h.delete number) (whole.delete (Ne.symm other))

/-- A cut behind the header leaves the entries before it. -/
theorem showsSegment_take {n : Nat} {file : List UInt8} {segment : Segment}
    (h : ShowsSegment env n file segment) {length : Nat} (header : segmentHeaderSize ≤ length) :
    ShowsSegment env n (file.take length)
      { segment with entries := wholeEntries (length - segmentHeaderSize) segment.entries } := by
  obtain ⟨starts, readable, now, torn, cut, rfl⟩ := h
  have size := (SegmentHeader.new n segment.startingSequence now).length_encode
  have leading := wholeEntries_leading (length - segmentHeaderSize) segment.entries
  obtain ⟨left, isTorn, same⟩ := take_encodeAll (fun e member => (readable e member).1.sized) cut
    (length - segmentHeaderSize)
  refine ⟨starts, fun e member => readable e (leading.subset member), now, left, isTorn, ?_⟩
  rw [fileOf, List.take_append, size, same, List.take_of_length_le (size.symm ▸ header)]
  rfl

end Show

/-- The files and what lies on disk go along with each other. -/
structure Mirrors (env : WalEnv) (s : State) (d : WalSessions.State) : Prop where
  writer : s.writer = d.writer
  shows : Shows env s.segments d.dir
  whole : ∀ w, d.writer = some w → Whole env s.segments d.dir w.currentSegment
  bounded : ∀ w, d.writer = some w → w.nextSequenceNumber < 2 ^ 64
  numbered : ∀ e, d.dir.Holds e → e.sequenceNumber + 1 < 2 ^ 64
  sound : WalSessions.Sound d

section Run
variable {env : WalEnv} {s t : State} {d : WalSessions.State}

theorem mirrors_start : Mirrors env {} {} := by
  refine ⟨rfl, ?_, nofun, nofun, ?_, WalSessions.sound_start⟩
  · intro n
    exact .none
  · rintro e ⟨n, segment, found, -⟩
    cases found

/-- An open writer bounds the numbers of all entries. -/
theorem mirrors_open {files : WalFiles} {w : WalWriter} {e : WalSessions.State}
    (active : e.writer = some w) (sound : WalSessions.Sound e) (shows' : Shows env files e.dir)
    (whole : Whole env files e.dir w.currentSegment) (bounded : w.nextSequenceNumber < 2 ^ 64) :
    Mirrors env ⟨some files, some w⟩ e := by
  refine ⟨active.symm, shows', ?_, ?_, ?_, sound⟩
  · intro v same
    obtain rfl := Option.some.inj (active.symm.trans same)
    exact whole
  · intro v same
    obtain rfl := Option.some.inj (active.symm.trans same)
    exact bounded
  · intro e held
    have := (sound.opened w active).above e held
    omega

theorem appended_mirrors (h : Mirrors env s d) {w : WalWriter} (active : d.writer = some w)
    {entries : List WalEntry} (decodes : ∀ e ∈ entries, e.Decodes) {now : Nat}
    (taken : appended env s w entries now = some t) :
    ∃ e, WalSessions.appended d w entries = some e ∧ Mirrors env t e := by
  obtain ⟨w', dir', appends, -, -, next, -, -⟩ :=
    WalWriter.appendBatch_spec h.sound.ordered (h.sound.opened w active) entries
  unfold appended at taken
  split at taken
  · cases taken
  · rename_i room
    have bounded : w.nextSequenceNumber + entries.length < 2 ^ 64 := by omega
    obtain ⟨files', done, shows', whole⟩ := appendBatch_shows h.shows
      (h.whole w active) decodes bounded now appends
    have reached : WalSessions.appended d w entries = some
        { dir := dir', writer := some w',
          assigned := d.assigned ++ List.range' w.nextSequenceNumber entries.length } := by
      simp only [WalSessions.appended, appends]
    rw [done] at taken
    obtain rfl := Option.some.inj taken
    exact ⟨_, reached, mirrors_open rfl (WalSessions.appended_spec h.sound active reached).1 shows'
      whole (by omega)⟩

theorem diskStep_crash {newest : Nat} {segment : Segment}
    (final : d.dir.keys.getLast? = some newest) (found : d.dir.get newest = some segment)
    (length : Nat) :
    diskStep d (.crash length) = some
      { d with
        dir := d.dir.put newest
          { segment with entries := wholeEntries (length - segmentHeaderSize) segment.entries }
        writer := none } := by
  simp only [diskStep, final, Option.bind_some, found, Option.map_some]

/-- A new session goes on after the numbers in the files, below the end of the counter. -/
theorem Mirrors.opens (h : Mirrors env s d) (config : WalConfig) (now : Nat) :
    ∃ w dir' files', WalWriter.openDir d.dir config = .ok (w, dir') ∧
      openWriter env s.segments config now = .ok (w, files') ∧
      Shows env files' dir' ∧ Whole env files' dir' w.currentSegment ∧
        w.nextSequenceNumber < 2 ^ 64 := by
  obtain ⟨w, dir', opens, -, -, -, -, source⟩ := WalWriter.openDir_spec h.sound.ordered config
  have bounded : w.nextSequenceNumber < 2 ^ 64 := by
    rcases source with ⟨first, -⟩ | ⟨e, held, next⟩
    · omega
    · have := h.numbered e held
      omega
  obtain ⟨files', done, shows', whole⟩ := openWriter_shows h.shows bounded now opens
  exact ⟨w, dir', files', opens, done, shows', whole, bounded⟩

theorem openDir_mirrors (h : Mirrors env s d) {config : WalConfig} {now : Nat}
    (taken : step env s (.session (.openDir config) now) = some t) :
    ∃ e, WalSessions.step d (.openDir config) = some e ∧ Mirrors env t e := by
  simp only [step] at taken
  cases active : s.writer with
  | some w => simp [active] at taken
  | none =>
    obtain ⟨w, dir', files', opens, done, shows', whole, bounded⟩ := h.opens config now
    have reached : WalSessions.step d (.openDir config) =
        some { d with dir := dir', writer := some w } := by
      simp only [WalSessions.step, ← h.writer, active, opens]
    simp only [active, done, Option.some.injEq] at taken
    subst taken
    exact ⟨_, reached, mirrors_open rfl (WalSessions.sound_step h.sound reached) shows' whole bounded⟩

theorem rotate_mirrors (h : Mirrors env s d) {now : Nat}
    (taken : step env s (.session .rotate now) = some t) :
    ∃ e, WalSessions.step d .rotate = some e ∧ Mirrors env t e := by
  obtain ⟨w, active, taken⟩ := Option.bind_eq_some_iff.mp taken
  rw [h.writer] at active
  obtain ⟨w', dir', rotates, -, -, next, -, -, -⟩ :=
    WalWriter.rotate_spec h.sound.ordered (h.sound.opened w active)
  obtain ⟨files', done, shows', whole⟩ := rotate_shows h.shows (h.bounded w active) now rotates
  have reached : WalSessions.step d .rotate = some { d with dir := dir', writer := some w' } := by
    simp only [WalSessions.step, active, Option.bind_some, rotates]
  simp only [done, Option.some.injEq] at taken
  subst taken
  have bounded : w'.nextSequenceNumber < 2 ^ 64 := by
    rw [next]
    exact h.bounded w active
  exact ⟨_, reached, mirrors_open rfl (WalSessions.sound_step h.sound reached) shows' whole bounded⟩

theorem removeSegment_mirrors (h : Mirrors env s d) {number now : Nat}
    (taken : step env s (.session (.removeSegment number) now) = some t) :
    ∃ e, WalSessions.step d (.removeSegment number) = some e ∧ Mirrors env t e := by
  obtain ⟨w, active, taken⟩ := Option.bind_eq_some_iff.mp taken
  rw [h.writer] at active
  split at taken
  · cases taken
  · rename_i w' files' removes
    obtain rfl := Option.some.inj taken
    obtain ⟨dir', removed, shows', whole⟩ := removeSegment_shows h.shows removes
    have reached : WalSessions.step d (.removeSegment number) =
        some { d with dir := dir', writer := some w' } := by
      simp only [WalSessions.step, active, Option.bind_some, removed]
    obtain ⟨-, -, same⟩ := WalWriter.removeSegment_ok removed
    have bounded : w'.nextSequenceNumber < 2 ^ 64 := by
      rw [same]
      exact h.bounded w active
    exact ⟨_, reached, mirrors_open rfl (WalSessions.sound_step h.sound reached) shows'
      (whole (h.whole w active)) bounded⟩

theorem cleanupSegments_mirrors (h : Mirrors env s d) {numbers : List Nat} {now : Nat}
    (taken : step env s (.session (.cleanupSegments numbers) now) = some t) :
    ∃ e, WalSessions.step d (.cleanupSegments numbers) = some e ∧ Mirrors env t e := by
  obtain ⟨w, active, rfl⟩ := Option.map_eq_some_iff.mp taken
  have writer : d.writer = some w := h.writer.symm.trans active
  obtain ⟨shows', whole⟩ := cleanupSegments_shows h.shows (h.whole w writer) numbers
  have reached : WalSessions.step d (.cleanupSegments numbers) =
      some { d with dir := WalSessions.cleanupSegments w.currentSegment d.dir numbers } := by
    simp only [WalSessions.step, writer, Option.map_some]
  refine ⟨_, reached, ?_⟩
  rw [active]
  exact mirrors_open writer (WalSessions.sound_step h.sound reached) shows' whole (h.bounded w writer)

theorem close_mirrors (h : Mirrors env s d) {now : Nat}
    (taken : step env s (.session .close now) = some t) :
    ∃ e, WalSessions.step d .close = some e ∧ Mirrors env t e := by
  obtain ⟨w, active, rfl⟩ := Option.map_eq_some_iff.mp taken
  have writer : d.writer = some w := h.writer.symm.trans active
  have reached : WalSessions.step d .close = some { d with writer := none } := by
    simp only [WalSessions.step, writer, Option.map_some]
  have closed : ∀ other, (none : Option WalWriter) ≠ some other := by simp
  exact ⟨_, reached, rfl, h.shows, fun _ active => absurd active (closed _),
    fun _ active => absurd active (closed _), h.numbered,
    WalSessions.sound_step h.sound reached⟩

/-- A crash that leaves the header cuts the entries of the newest segment. -/
theorem crash_mirrors (h : Mirrors env s d) {length : Nat} (header : segmentHeaderSize ≤ length)
    (taken : step env s (.crash length) = some t) :
    ∃ e, diskStep d (.crash length) = some e ∧ Mirrors env t e := by
  have keys := h.shows.keys
  obtain ⟨newest, final, taken⟩ := Option.bind_eq_some_iff.mp taken
  obtain ⟨file, at_newest, rfl⟩ := Option.map_eq_some_iff.mp taken
  obtain ⟨segment, found, shown⟩ := h.shows.file at_newest
  have leading := wholeEntries_leading (length - segmentHeaderSize) segment.entries
  rw [keys] at final
  refine ⟨_, diskStep_crash final found length, rfl, ?_, nofun, nofun, ?_, ?_⟩
  · exact h.shows.put (showsSegment_take shown header)
  · intro e held
    apply h.numbered e
    exact WalDir.holds_cut found leading.subset held
  · exact ⟨h.sound.ordered.cut found leading.sublist, nofun⟩

/-- One step of the files is one step of what lies on disk. -/
theorem step_mirrors (h : Mirrors env s d) {a : Label} (intact : Intact s a)
    (taken : step env s a = some t) :
    ∃ e, diskStep d a = some e ∧ Mirrors env t e := by
  cases a with
  | crash length => exact crash_mirrors h intact taken
  | session label now =>
    cases label with
    | openDir config => exact openDir_mirrors h taken
    | append entry =>
      obtain ⟨w, active, taken⟩ := Option.bind_eq_some_iff.mp taken
      rw [h.writer] at active
      have decodes : ∀ e ∈ [entry], e.Decodes := fun e member => by
        rw [List.mem_singleton.mp member]
        exact intact
      obtain ⟨e, reached, mirrors⟩ := appended_mirrors h active decodes taken
      exact ⟨e, by simp only [diskStep, WalSessions.step, active, Option.bind_some, reached], mirrors⟩
    | appendBatch entries =>
      obtain ⟨w, active, taken⟩ := Option.bind_eq_some_iff.mp taken
      rw [h.writer] at active
      obtain ⟨e, reached, mirrors⟩ := appended_mirrors h active intact taken
      exact ⟨e, by simp only [diskStep, WalSessions.step, active, Option.bind_some, reached], mirrors⟩
    | rotate => exact rotate_mirrors h taken
    | removeSegment number => exact removeSegment_mirrors h taken
    | cleanupSegments numbers => exact cleanupSegments_mirrors h taken
    | close => exact close_mirrors h taken

theorem run_mirrors {labels : List Label} (intact : Admits (step env) Intact {} labels)
    (run : exec (step env) {} labels = some s) :
    ∃ d, exec diskStep {} labels = some d ∧ Mirrors env s d := by
  have sim : ∀ s d a t, Mirrors env s d → Intact s a → step env s a = some t →
      ∃ e, diskStep d a = some e ∧ Mirrors env t e :=
    fun _ _ _ _ mirrors ok taken => step_mirrors mirrors ok taken
  exact exec_simulates sim mirrors_start intact run

theorem present_keys {dir : WalDir} : ∀ n ∈ dir.keys, (dir.get n).isSome :=
  fun _ member => ObjectStore.mem_keys.mp member

/-- All is replayed that lies on disk. -/
theorem Mirrors.replayAll {files : WalFiles} (h : Mirrors env s d) (there : s.files = some files) :
    Reader.replayAll env ⟨files, files.keys⟩ = .ok
      ((WalReader.replayAll d.dir).map WalEntry.reread) := by
  have shows' := h.shows
  simp only [State.segments, there, Option.getD_some] at shows'
  rw [Reader.replayAll, shows'.keys, replayAll_eq shows'.readable present_keys]
  rfl

theorem filter_replayAll (h : Mirrors env s d) (minSequence : Nat) :
    ((WalReader.replayAll d.dir).map WalEntry.reread).filter (fun e => e.sequenceNumber ≥ minSequence) =
      (WalReader.replayFrom d.dir minSequence).map WalEntry.reread := by
  rw [filter_reread, WalReader.replayFrom_eq h.sound.ordered]

theorem Mirrors.replayFrom {files : WalFiles} (h : Mirrors env s d) (there : s.files = some files)
    (minSequence : Nat) :
    Reader.replayFrom env ⟨files, files.keys⟩ minSequence =
      .ok ((WalReader.replayFrom d.dir minSequence).map WalEntry.reread) := by
  have shows' := h.shows
  simp only [State.segments, there, Option.getD_some] at shows'
  rw [Reader.replayFrom, shows'.keys, replayFrom_eq shows'.readable minSequence present_keys]
  rfl

theorem Mirrors.iterFrom {files : WalFiles} (h : Mirrors env s d) (there : s.files = some files)
    (minSequence : Nat) {fuel : Nat}
    (enough : (WalReader.replayFrom d.dir minSequence).length < fuel) :
    drain (WalEntryIterator.next env) fuel (Reader.iterFrom ⟨files, files.keys⟩ minSequence) =
      some ((WalReader.replayFrom d.dir minSequence).map fun e => .ok e.reread) := by
  have shows' := h.shows
  simp only [State.segments, there, Option.getD_some] at shows'
  have pending : WalEntryIterator.Pending d.dir minSequence env
      (Reader.iterFrom ⟨files, files.keys⟩ minSequence)
      (WalReader.replayFrom d.dir minSequence) := by
    rw [Reader.iterFrom, shows'.keys]
    exact .closed shows'.readable present_keys
  exact WalEntryIterator.drain_pending pending enough

/-- In the files that any run leaves, both ways of skipping segments give what the whole replay
gives from the least number on. -/
theorem skipping_loses_nothing {labels : List Label} (intact : Admits (step env) Intact {} labels)
    (run : exec (step env) {} labels = some s) {files : WalFiles} (there : s.files = some files)
    (minSequence : Nat) :
    ∃ reader entries, openReader env s.files = .ok reader ∧ reader.replayAll env = .ok entries ∧
      reader.replayFrom env minSequence = .ok (entries.filter fun e => e.sequenceNumber ≥ minSequence) ∧
      ∀ fuel > (entries.filter fun e => e.sequenceNumber ≥ minSequence).length,
        drain (WalEntryIterator.next env) fuel (reader.iterFrom minSequence) =
          some ((entries.filter fun e => e.sequenceNumber ≥ minSequence).map .ok) := by
  obtain ⟨d, -, mirrors⟩ := run_mirrors intact run
  refine ⟨⟨files, files.keys⟩, (WalReader.replayAll d.dir).map
    WalEntry.reread, by rw [there]; rfl, mirrors.replayAll there, ?_, ?_⟩
  · rw [filter_replayAll mirrors, mirrors.replayFrom there]
  · rw [filter_replayAll mirrors]
    intro fuel enough
    rw [List.length_map] at enough
    rw [mirrors.iterFrom there minSequence enough, List.map_map]
    rfl

/-- Reader and writer open, and what lies wholly on disk is replayed. -/
structure Recovers (env : WalEnv) (files : Option WalFiles) (onDisk : WalDir) : Prop where
  replayAll : ∃ reader, openReader env files = .ok reader ∧
    reader.replayAll env = .ok ((WalReader.replayAll onDisk).map WalEntry.stored)
  replayFrom : ∀ minSequence, ∃ reader, openReader env files = .ok reader ∧
    reader.replayFrom env minSequence =
    .ok (((WalReader.replayAll onDisk).filter fun e => e.sequenceNumber ≥ minSequence).map WalEntry.stored)
  writer : ∀ config now, ∃ w written, openWriter env (files.getD ObjectStore.empty) config now =
    .ok (w, written)

/-- Files that a crash leaves with their headers recover, if no field of an entry comes out cut. -/
theorem Mirrors.recovers_iff {files : WalFiles} (h : Mirrors env s d)
    (there : s.files = some files) :
    Recovers env s.files d.dir ↔ ∀ e, d.dir.Holds e → e.Fits := by
  have opened : openReader env s.files = .ok ⟨files, files.keys⟩ := by
    rw [there]
    rfl
  have readable : ∀ e ∈ WalReader.replayAll d.dir, e.Decodes ∧ e.sequenceNumber < 2 ^ 64 := by
    intro e member
    obtain ⟨n, segment, found, inside⟩ := WalReader.mem_replayAll.mp member
    obtain ⟨file, -, shown⟩ := h.shows.segment found
    exact shown.readable e inside
  constructor
  · intro recovers e held
    obtain ⟨reader, opens, replayed⟩ := recovers.replayAll
    rw [opened] at opens
    obtain rfl := Except.ok.inj opens
    rw [h.replayAll there] at replayed
    have same := List.map_inj_left.mp (Except.ok.inj replayed)
    have member := WalReader.mem_replayAll.mpr held
    exact WalEntry.fits_of_reread (readable e member).1 (same e member)
  · intro fits
    have same : ∀ e ∈ WalReader.replayAll d.dir, e.reread = e.stored := fun e member =>
      WalEntry.reread_stored ⟨fits e (WalReader.mem_replayAll.mp member), (readable e member).2⟩
    refine ⟨⟨⟨files, files.keys⟩, opened, ?_⟩, ?_, ?_⟩
    · rw [h.replayAll there, List.map_congr_left same]
    · intro minSequence
      refine ⟨⟨files, files.keys⟩, opened, ?_⟩
      rw [h.replayFrom there, WalReader.replayFrom_eq h.sound.ordered]
      have kept : ∀ e ∈ (WalReader.replayAll d.dir).filter fun e => e.sequenceNumber ≥ minSequence,
          e.reread = e.stored :=
        fun e member => same e (List.mem_of_mem_filter member)
      rw [List.map_congr_left kept]
    · intro config now
      obtain ⟨w, dir', written, -, done, -⟩ := h.opens config now
      exact ⟨w, written, done⟩

/-- A newest file without its header does not open, and with it no reader of the directory. -/
theorem openWriter_short {files : WalFiles} {newest : Nat} {data : List UInt8}
    (final : files.keys.getLast? = some newest) (found : files.get newest = some data)
    (short : data.length < segmentHeaderSize) (config : WalConfig) (now : Nat) :
    ∃ e, openWriter env files config now = .error e := by
  obtain ⟨older, listed⟩ := List.getLast?_eq_some_iff.mp final
  have refused : ∃ e, segmentReader env files newest = .error e := by
    simp only [segmentReader, found, SegmentReader.openFile, if_pos short]
    exact ⟨_, rfl⟩
  obtain ⟨e, refused⟩ := refused
  refine ⟨e, ?_⟩
  have scan : files.keys.reverse = newest :: older.reverse := by
    rw [listed, List.reverse_append]
    rfl
  simp only [openWriter, final, scan, highestSequence, refused]

theorem not_recovers {files : WalFiles} {onDisk : WalDir} {newest : Nat} {data : List UInt8}
    (final : files.keys.getLast? = some newest) (found : files.get newest = some data)
    (short : data.length < segmentHeaderSize) : ¬ Recovers env (some files) onDisk := by
  intro recovers
  obtain ⟨w, written, opens⟩ := recovers.writer {} 0
  obtain ⟨e, fails⟩ := @openWriter_short env files newest data final found short {} 0
  rw [Option.getD_some, fails] at opens
  cases opens

/-- After any run and a crash that cuts the newest file, the log recovers exactly when the file
has kept its header and what lies on disk fits its length fields. -/
theorem crash_recovers_iff {labels : List Label} (intact : Admits (step env) Intact {} labels)
    (run : exec (step env) {} labels = some s) {length : Nat}
    (crashed : step env s (.crash length) = some t) :
    ∃ before onDisk, exec diskStep {} labels = some before ∧
      diskStep before (.crash length) = some onDisk ∧
      (Recovers env t.files onDisk.dir ↔ segmentHeaderSize ≤ length ∧ ∀ e, onDisk.dir.Holds e →
        e.Fits) := by
  obtain ⟨before, reached, mirrors⟩ := run_mirrors intact run
  obtain ⟨newest, final, taken⟩ := Option.bind_eq_some_iff.mp crashed
  obtain ⟨file, at_newest, rfl⟩ := Option.map_eq_some_iff.mp taken
  by_cases header : segmentHeaderSize ≤ length
  · obtain ⟨onDisk, cut, after⟩ := crash_mirrors mirrors header crashed
    refine ⟨before, onDisk, reached, cut, ?_⟩
    rw [after.recovers_iff rfl]
    exact ⟨fun fits => ⟨header, fits⟩, fun both => both.2⟩
  · have keys := mirrors.shows.keys
    obtain ⟨segment, found, -⟩ := mirrors.shows.file at_newest
    have last : (s.segments.put newest (file.take length)).keys.getLast? = some newest := by
      rw [ObjectStore.keys_put_present (by rw [at_newest]; rfl), final]
    rw [keys] at final
    refine ⟨before, _, reached, diskStep_crash final found length, ?_, fun kept => absurd kept.1 header⟩
    have short : (file.take length).length < segmentHeaderSize := by
      rw [List.length_take]
      omega
    exact fun recovers => absurd recovers (not_recovers last (ObjectStore.get_put_self _ _ _) short)

end Run

section Example

def sampleEnv : WalEnv where
  crc32 := Lib.crc32
  partitionDir := "wal"

/-- Three entries in two segments. -/
def twoSegments : List Label :=
  [.session (.openDir {}) 0, .session (.append WalSessions.sampleEntry) 1, .session .rotate 2,
    .session (.appendBatch [WalSessions.sampleEntry, WalSessions.sampleEntry]) 3]

theorem skipping_loses_nothing_sample :
    ∃ s reader entries, exec (step sampleEnv) {} twoSegments = some s ∧
      openReader sampleEnv s.files = .ok reader ∧
      reader.replayAll sampleEnv = .ok entries ∧
      reader.replayFrom sampleEnv 2 = .ok (entries.filter fun e => e.sequenceNumber ≥ 2) ∧
      ∀ fuel > (entries.filter fun e => e.sequenceNumber ≥ 2).length,
        drain (WalEntryIterator.next sampleEnv) fuel (reader.iterFrom 2) =
          some ((entries.filter fun e => e.sequenceNumber ≥ 2).map .ok) := by
  have intact : Admits (step sampleEnv) Intact {} twoSegments := by decide +kernel
  have ends : ((exec (step sampleEnv) {} twoSegments).bind State.files).isSome = true := by
    decide +kernel
  obtain ⟨files, whole⟩ := Option.isSome_iff_exists.mp ends
  obtain ⟨s, run, there⟩ := Option.bind_eq_some_iff.mp whole
  obtain ⟨reader, entries, opens, all, skipped, iterated⟩ :=
    skipping_loses_nothing intact run there 2
  exact ⟨s, reader, entries, run, opens, all, skipped, iterated⟩

/-- A crash within the checksum of the last entry. -/
theorem crash_recovers_iff_torn :
    ∃ s t before onDisk, exec (step sampleEnv) {} twoSegments = some s ∧
      step sampleEnv s (.crash 145) = some t ∧
      exec diskStep {} twoSegments = some before ∧ diskStep before (.crash 145) = some onDisk ∧
      (Recovers sampleEnv t.files onDisk.dir ↔ segmentHeaderSize ≤ 145 ∧ ∀ e, onDisk.dir.Holds e →
        e.Fits) := by
  have intact : Admits (step sampleEnv) Intact {} twoSegments := by decide +kernel
  have ends : ((exec (step sampleEnv) {} twoSegments).bind fun s =>
      step sampleEnv s (.crash 145)).isSome = true := by decide +kernel
  obtain ⟨t, whole⟩ := Option.isSome_iff_exists.mp ends
  obtain ⟨s, run, crashed⟩ := Option.bind_eq_some_iff.mp whole
  obtain ⟨before, onDisk, reached, cut, recovers⟩ := crash_recovers_iff intact run crashed
  exact ⟨s, t, before, onDisk, run, crashed, reached, cut, recovers⟩

/-- The first segment has just been created, and its header is one byte short. -/
theorem header_cut_unrecovered :
    ∃ s t before onDisk, exec (step sampleEnv) {} [.session (.openDir {}) 0] = some s ∧
      step sampleEnv s (.crash 31) = some t ∧
      exec diskStep {} [.session (.openDir {}) 0] = some before ∧
        diskStep before (.crash 31) = some onDisk ∧
      ¬ Recovers sampleEnv t.files onDisk.dir :=
  ⟨_, _, _, _, rfl, rfl, rfl, rfl, @not_recovers sampleEnv _ _ 1 _ rfl rfl (by decide)⟩

end Example

end FlushDB.WalDisk
