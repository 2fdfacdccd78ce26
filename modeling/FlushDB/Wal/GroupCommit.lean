import FlushDB.Lib.Run
import FlushDB.Wal.Order

/-!
The group commit. Clients send their entries through a channel; one loop takes what has come in,
writes it as one group, syncs the segment and only then tells the clients. A group that fails ends
the loop.
-/

namespace FlushDB.GroupCommit
open Lib

inductive FsyncMode where
  | sync
  | batchSync
  deriving DecidableEq

structure Config where
  wal : WalConfig := {}
  fsyncMode : FsyncMode := .sync
  groupCommitMaxBytes : Nat := 262144

/-- A segment as the disk has it: the first `synced` entries survive a crash. -/
structure SegmentFile where
  segment : Segment
  synced : Nat := 0

structure Log where
  writer : WalWriter
  dir : ObjectStore Nat SegmentFile

/-- What the disk does with one group. `cut` is the number of whole entries that reach the file
when its write fails. -/
structure Disk where
  cut : Option Nat := none
  rotateSyncs : Bool := true
  creates : Bool := true
  syncs : Bool := true
  joins : Bool := true

namespace Log

def write (log : Log) (entries : List WalEntry) : ObjectStore Nat SegmentFile :=
  match log.dir.get log.writer.currentSegment with
  | some file =>
    log.dir.put log.writer.currentSegment
      { file with segment := { file.segment with entries := file.segment.entries ++ entries } }
  | none => log.dir

def syncCurrent (log : Log) : Log :=
  match log.dir.get log.writer.currentSegment with
  | some file =>
    { log with dir := log.dir.put log.writer.currentSegment { file with synced := file.segment.entries.length } }
  | none => log

def sync (ok : Bool) (log : Log) : FlushResult Unit × Log :=
  if ok then (.ok (), log.syncCurrent) else (.error (.io "sync_data"), log)

def create (log : Log) : Log where
  writer :=
    { log.writer with
      currentSegment := log.writer.currentSegment + 1
      currentSize := segmentHeaderSize
      segmentNumbers := log.writer.segmentNumbers ++ [log.writer.currentSegment + 1] }
  dir := log.dir.put (log.writer.currentSegment + 1)
    { segment := { startingSequence := log.writer.nextSequenceNumber, entries := [] } }

def rotate (disk : Disk) (log : Log) : FlushResult Unit × Log :=
  match log.sync disk.rotateSyncs with
  | (.error e, log) => (.error e, log)
  | (.ok (), log) =>
    if (log.dir.get (log.writer.currentSegment + 1)).isSome ∨ disk.creates = false then
      (.error (.io "create_new"), log)
    else (.ok (), log.create)

/-- The numbers are spent also when the write fails. -/
def appendBatch (disk : Disk) (entries : List WalEntry) (log : Log) : FlushResult Unit × Log :=
  let assigned := WalWriter.assign log.writer.nextSequenceNumber entries
  let spent := { log.writer with nextSequenceNumber := log.writer.nextSequenceNumber + entries.length }
  match disk.cut with
  | some whole =>
    (.error (.io "write_all"), { writer := spent, dir := log.write (assigned.take whole) })
  | none =>
    let next : Log :=
      { writer := { spent with currentSize := spent.currentSize + (assigned.map WalEntry.totalSize).sum }
        dir := log.write assigned }
    if next.writer.currentSize ≥ next.writer.config.segmentSizeTarget then next.rotate disk
      else (.ok (), next)

/-- The blocking part of the loop. -/
def commit (disk : Disk) (mode : FsyncMode) (entries : List WalEntry) (log : Log) :
    FlushResult Unit × Log :=
  match log.appendBatch disk entries with
  | (.error e, log) => (.error e, log)
  | (.ok (), log) => if mode = .sync then log.sync disk.syncs else (.ok (), log)

end Log

inductive PendingCommit where
  | single (entry : WalEntry)
  | batch (entries : List WalEntry)

def PendingCommit.entries : PendingCommit → List WalEntry
  | .single entry => [entry]
  | .batch entries => entries

def PendingCommit.bytes (p : PendingCommit) : Nat := (p.entries.map WalEntry.totalSize).sum

/-- Where `commit_loop` is. A notifier is named by the place of its submission in the channel. -/
inductive Phase where
  | receiving
  | collecting (notifiers : List Nat) (entries : List WalEntry) (bytes : Nat)
  | notifying (result : FlushResult Unit) (notifiers : List Nat)
  | exited (result : FlushResult Unit)

/-- `submitted` is ghost: what the channel has taken, in its order. `notified` lists what the
notifiers were sent; one that is dropped was sent nothing. -/
structure State where
  config : Config
  log : Log
  queue : List (PendingCommit × Nat) := []
  closed : Bool := false
  phase : Phase := .receiving
  hasUnsynced : Bool := false
  currentSegment : Nat
  submitted : List PendingCommit := []
  notified : List (Nat × FlushResult Unit) := []

inductive Label where
  | submit (entry : WalEntry)
  | submitBatch (entries : List WalEntry)
  | close
  | recv
  | tryRecv
  | commit (disk : Disk)
  | notify
  | timeout (syncs : Bool)
  | disconnect (syncs : Bool)

def channelCapacity : Nat := 4096

/-- A send waits while the channel is full, and fails once the loop has gone. -/
def send (p : PendingCommit) (s : State) : Option State :=
  if s.closed then none
  else
    match s.phase with
    | .exited _ => some s
    | _ =>
      if s.queue.length < channelCapacity then
        some { s with queue := s.queue ++ [(p, s.submitted.length)],
                      submitted := s.submitted ++ [p] }
      else none

/-- The loop returns; what is left in the channel is dropped with it. -/
def exit (result : FlushResult Unit) (s : State) : State :=
  { s with phase := .exited result, queue := [] }

def step (s : State) : Label → Option State
  | .submit entry => send (.single entry) s
  | .submitBatch entries => if entries.isEmpty then some s else send (.batch entries) s
  | .close => some { s with closed := true }
  | .recv =>
    match s.phase, s.queue with
    | .receiving, (p, id) :: queue =>
      some { s with queue, phase := .collecting [id] p.entries p.bytes }
    | _, _ => none
  | .tryRecv =>
    match s.phase, s.queue with
    | .collecting notifiers entries bytes, (p, id) :: queue =>
      if bytes ≥ s.config.groupCommitMaxBytes then none
      else some { s with queue,
                         phase := .collecting (notifiers ++ [id])
                           (entries ++ p.entries) (bytes + p.bytes) }
    | _, _ => none
  | .commit disk =>
    -- the interval may pass after any message, so a group may end after any of them
    match s.phase with
    | .collecting notifiers entries _ =>
      let (result, log) := s.log.commit disk s.config.fsyncMode entries
      if disk.joins then
        some { s with log, currentSegment := log.writer.currentSegment,
                      phase := .notifying result notifiers }
      else some (exit (.error (.io "join")) { s with log })
    | _ => none
  | .notify =>
    match s.phase with
    | .notifying result (id :: rest) =>
      some { s with phase := .notifying result rest, notified := s.notified ++ [(id, result)] }
    | .notifying (.ok ()) [] =>
      some { s with phase := .receiving,
                    hasUnsynced := s.hasUnsynced || s.config.fsyncMode != .sync }
    | .notifying (.error e) [] => some (exit (.error e) s)
    | _ => none
  | .timeout syncs =>
    match s.phase with
    | .receiving =>
      if s.config.fsyncMode = .batchSync ∧ s.hasUnsynced then
        match s.log.sync syncs with
        | (.ok (), log) => some { s with log, hasUnsynced := false }
        | (.error e, log) => some (exit (.error e) { s with log })
      else none
    | _ => none
  | .disconnect syncs =>
    match s.phase with
    | .receiving =>
      if s.closed ∧ s.queue = [] then
        if s.hasUnsynced then
          let (result, log) := s.log.sync syncs
          some (exit result { s with log })
        else some (exit (.ok ()) s)
      else none
    | _ => none

/-- The loop starts on a writer that has just opened the directory. -/
def start (dir : ObjectStore Nat SegmentFile) (config : Config) : Option State :=
  match WalWriter.openDir (dir.mapValues SegmentFile.segment) config.wal with
  | .error _ => none
  | .ok (writer, opened) =>
    (opened.get writer.currentSegment).map fun segment =>
      { config
        log := { writer, dir := dir.put writer.currentSegment { segment } }
        currentSegment := writer.currentSegment }

namespace Log

/-- The entries of the segments from `first` to the current one. -/
def written (first : Nat) (log : Log) : List WalEntry :=
  (List.range' first (log.writer.currentSegment + 1 - first)).flatMap fun n =>
    ((log.dir.get n).map fun file => file.segment.entries).getD []

/-- The entry lies in the synced part of a segment file. -/
def Durable (log : Log) (e : WalEntry) : Prop :=
  ∃ n file, log.dir.get n = some file ∧ e ∈ file.segment.entries.take file.synced

structure Open (first : Nat) (log : Log) : Prop where
  reached : first ≤ log.writer.currentSegment
  current : ∃ file, log.dir.get log.writer.currentSegment = some file

section
variable {first : Nat} {log : Log}

theorem written_split (reached : first ≤ log.writer.currentSegment) :
    log.written first =
      ((List.range' first (log.writer.currentSegment - first)).flatMap fun n =>
        ((log.dir.get n).map fun file => file.segment.entries).getD []) ++
      ((log.dir.get log.writer.currentSegment).map fun file => file.segment.entries).getD [] := by
  have numbers : List.range' first (log.writer.currentSegment + 1 - first) =
      List.range' first (log.writer.currentSegment - first) ++ [log.writer.currentSegment] := by
    rw [show log.writer.currentSegment + 1 - first = log.writer.currentSegment - first + 1 by omega,
      List.range'_concat]
    congr 2
    omega
  rw [written, numbers, List.flatMap_append, List.flatMap_singleton]

/-- The segments before the current one are not touched. -/
theorem written_put {file : SegmentFile} (reached : first ≤ log.writer.currentSegment)
    (writer : WalWriter) (same : writer.currentSegment = log.writer.currentSegment) :
    written first { writer, dir := log.dir.put log.writer.currentSegment file } =
      ((List.range' first (log.writer.currentSegment - first)).flatMap fun n =>
        ((log.dir.get n).map fun file => file.segment.entries).getD []) ++
          file.segment.entries := by
  rw [written_split (by rw [same]; exact reached)]
  simp only [same, ObjectStore.get_put_self, Option.map_some, Option.getD_some]
  congr 1
  apply List.flatMap_congr
  intro n member
  have below := List.mem_range'_1.mp member
  rw [ObjectStore.get_put_ne _ _ (by omega)]

theorem durable_put {n : Nat} {file grown : SegmentFile} {writer : WalWriter} {e : WalEntry}
    (found : log.dir.get n = some file)
    (kept : file.segment.entries.take file.synced <+: grown.segment.entries.take grown.synced)
    (durable : log.Durable e) : Durable { writer, dir := log.dir.put n grown } e := by
  obtain ⟨k, other, at_k, member⟩ := durable
  by_cases same : k = n
  · subst k
    obtain rfl := Option.some.inj (found.symm.trans at_k)
    exact ⟨n, grown, ObjectStore.get_put_self _ _ _, kept.subset member⟩
  · exact ⟨k, other, by rw [ObjectStore.get_put_ne _ _ same]; exact at_k, member⟩

/-- What a group leaves behind: nothing durable is lost, and a part of its entries follows what was
written before, all of them when it succeeded. -/
structure Wrote (first : Nat) (log : Log) (entries : List WalEntry) (result : FlushResult Unit)
    (next : Log) :
    Prop where
  opened : next.Open first
  kept : ∀ e, log.Durable e → next.Durable e
  part : ∃ tail, next.written first = log.written first ++ tail ∧
    tail <+: WalWriter.assign log.writer.nextSequenceNumber entries
  number : result = .ok () → next.writer.nextSequenceNumber =
    log.writer.nextSequenceNumber + entries.length
  whole : result = .ok () →
    next.written first = log.written first ++ WalWriter.assign log.writer.nextSequenceNumber entries

theorem sync_spec (opened : log.Open first) {ok : Bool} {result : FlushResult Unit} {next : Log}
    (synced : log.sync ok = (result, next)) :
    next.Open first ∧ next.writer = log.writer ∧ next.written first = log.written first ∧
      (∀ e, log.Durable e → next.Durable e) ∧
      (result = .ok () → ∀ file, log.dir.get log.writer.currentSegment = some file →
        ∀ e ∈ file.segment.entries, next.Durable e) := by
  unfold sync at synced
  split at synced
  · obtain ⟨rfl, rfl⟩ := Prod.mk.inj synced
    obtain ⟨file, found⟩ := opened.current
    simp only [syncCurrent, found]
    refine ⟨⟨opened.reached, _, ObjectStore.get_put_self _ _ _⟩, trivial, ?_, ?_, ?_⟩
    · rw [written_put opened.reached log.writer rfl, written_split opened.reached, found]
      rfl
    · intro e durable
      apply durable_put found _ durable
      rw [List.take_length]
      exact List.take_prefix _ _
    · intro _ same found' e member
      obtain rfl := Option.some.inj found'
      exact ⟨_, _, ObjectStore.get_put_self _ _ _, by simpa using member⟩
  · obtain ⟨rfl, rfl⟩ := Prod.mk.inj synced
    exact ⟨opened, rfl, rfl, fun _ durable => durable, fun failed => nomatch failed⟩

theorem create_spec (opened : log.Open first)
    (free : log.dir.get (log.writer.currentSegment + 1) = none) :
    log.create.Open first ∧ log.create.written first = log.written first ∧
      ∀ e, log.Durable e → log.create.Durable e := by
  refine ⟨⟨Nat.le_succ_of_le opened.reached, _, ObjectStore.get_put_self _ _ _⟩, ?_, ?_⟩
  · rw [written_split (Nat.le_succ_of_le opened.reached)]
    simp only [create, ObjectStore.get_put_self, Option.map_some, Option.getD_some, List.append_nil,
      written]
    apply List.flatMap_congr
    intro n member
    have below := List.mem_range'_1.mp member
    have reached := opened.reached
    rw [ObjectStore.get_put_ne _ _ (by omega)]
  · rintro e ⟨n, file, found, member⟩
    exact ⟨n, file, ObjectStore.extends_put _ free n file found, member⟩

theorem rotate_spec (opened : log.Open first) {disk : Disk} {result : FlushResult Unit} {next : Log}
    (rotated : log.rotate disk = (result, next)) :
    next.Open first ∧ next.writer.nextSequenceNumber = log.writer.nextSequenceNumber ∧
      next.written first = log.written first ∧ (∀ e, log.Durable e → next.Durable e) ∧
      (result = .ok () → ∀ file, log.dir.get log.writer.currentSegment = some file →
        ∀ e ∈ file.segment.entries, next.Durable e) := by
  unfold rotate at rotated
  split at rotated
  · rename_i e mid synced
    obtain ⟨rfl, rfl⟩ := Prod.mk.inj rotated
    obtain ⟨opened', writer, same, kept, -⟩ := sync_spec opened synced
    exact ⟨opened', by rw [writer], same, kept, fun failed => nomatch failed⟩
  · rename_i mid synced
    obtain ⟨opened', writer, same, kept, all⟩ := sync_spec opened synced
    split at rotated
    · obtain ⟨rfl, rfl⟩ := Prod.mk.inj rotated
      exact ⟨opened', by rw [writer], same, kept, fun failed => nomatch failed⟩
    · rename_i free
      obtain ⟨rfl, rfl⟩ := Prod.mk.inj rotated
      have absent : mid.dir.get (mid.writer.currentSegment + 1) = none := by
        simpa using (not_or.mp free).1
      obtain ⟨opened'', same', kept'⟩ := create_spec opened' absent
      refine ⟨opened'', by simp [create, writer], same'.trans same, fun e durable => kept' e (kept e durable), ?_⟩
      intro _ file found e member
      exact kept' e (all rfl file found e member)

theorem write_spec (opened : log.Open first) (entries : List WalEntry) (writer : WalWriter)
    (same : writer.currentSegment = log.writer.currentSegment) :
    Open first { writer, dir := log.write entries } ∧
      written first { writer, dir := log.write entries } = log.written first ++ entries ∧
      (∀ e, log.Durable e → Durable { writer, dir := log.write entries } e) ∧
      ∃ file, (log.write entries).get log.writer.currentSegment = some file ∧
        ∀ e ∈ entries, e ∈ file.segment.entries := by
  obtain ⟨file, found⟩ := opened.current
  simp only [write, found]
  refine ⟨⟨by rw [same]; exact opened.reached, _,
    by rw [same]; exact ObjectStore.get_put_self _ _ _⟩, ?_, ?_, ?_⟩
  · rw [written_put opened.reached writer same, written_split opened.reached, found]
    simp
  · intro e durable
    apply durable_put found _ durable
    rw [List.take_append]
    exact List.prefix_append _ _
  · exact ⟨_, ObjectStore.get_put_self _ _ _, fun e member => List.mem_append_right _ member⟩

/-- The group lies in the current file, or in one that the rotation has synced. -/
theorem appendBatch_spec (opened : log.Open first) {disk : Disk} {entries : List WalEntry}
    {result : FlushResult Unit} {next : Log}
    (done : log.appendBatch disk entries = (result, next)) :
    Wrote first log entries result next ∧
      (result = .ok () → ∀ e ∈ WalWriter.assign log.writer.nextSequenceNumber entries,
        next.Durable e ∨ ∃ file, next.dir.get next.writer.currentSegment = some file ∧
          e ∈ file.segment.entries) := by
  unfold appendBatch at done
  dsimp only at done
  split at done
  · rename_i whole _
    obtain ⟨rfl, rfl⟩ := Prod.mk.inj done
    obtain ⟨opened', same, kept, -⟩ := write_spec opened
      ((WalWriter.assign log.writer.nextSequenceNumber entries).take whole)
      { log.writer with nextSequenceNumber := log.writer.nextSequenceNumber + entries.length } rfl
    refine ⟨⟨opened', kept, ⟨_, same, List.take_prefix _ _⟩, ?_, ?_⟩, ?_⟩
    all_goals intro failed; cases failed
  · obtain ⟨opened', same, kept, file, found, member⟩ := write_spec opened
      (WalWriter.assign log.writer.nextSequenceNumber entries)
      { log.writer with
        nextSequenceNumber := log.writer.nextSequenceNumber + entries.length
        currentSize := log.writer.currentSize +
          ((WalWriter.assign log.writer.nextSequenceNumber entries).map WalEntry.totalSize).sum }
            rfl
    split at done
    · obtain ⟨opened'', number, same', kept', synced⟩ := rotate_spec opened' done
      refine ⟨⟨opened'', fun e durable => kept' e (kept e durable),
        ⟨_, same'.trans same, List.prefix_refl _⟩, fun _ => number, fun _ => same'.trans same⟩, ?_⟩
      intro succeeded e assigned
      exact Or.inl (synced succeeded file found e (member e assigned))
    · obtain ⟨rfl, rfl⟩ := Prod.mk.inj done
      refine ⟨⟨opened', kept, ⟨_, same, List.prefix_refl _⟩, fun _ => rfl, fun _ => same⟩, ?_⟩
      intro _ e assigned
      exact Or.inr ⟨file, found, member e assigned⟩

/-- A group that succeeds is written whole and lies in a synced file. -/
theorem commit_spec (opened : log.Open first) {disk : Disk} {entries : List WalEntry}
    {result : FlushResult Unit} {next : Log}
    (done : log.commit disk .sync entries = (result, next)) :
    Wrote first log entries result next ∧
      (result = .ok () → ∀ e ∈ WalWriter.assign log.writer.nextSequenceNumber entries,
        next.Durable e) := by
  unfold commit at done
  split at done
  · rename_i e mid appended
    obtain ⟨rfl, rfl⟩ := Prod.mk.inj done
    exact ⟨(appendBatch_spec opened appended).1, fun failed => nomatch failed⟩
  · rename_i mid appended
    obtain ⟨wrote, placed⟩ := appendBatch_spec opened appended
    rw [if_pos rfl] at done
    obtain ⟨opened', writer, same, kept, synced⟩ := sync_spec wrote.opened done
    have whole : next.written first = log.written first ++ WalWriter.assign
        log.writer.nextSequenceNumber entries :=
      same.trans (wrote.whole rfl)
    refine ⟨⟨opened', fun e durable => kept e (wrote.kept e durable), ⟨_, whole, List.prefix_refl _⟩,
      fun _ => by rw [writer, wrote.number rfl], fun _ => whole⟩, ?_⟩
    intro succeeded e assigned
    rcases placed rfl e assigned with durable | ⟨file, found, member⟩
    · exact kept e durable
    · exact synced succeeded file found e member

end

end Log

def entriesOf (l : List (PendingCommit × Nat)) : List WalEntry := l.flatMap fun p => p.1.entries

/-- Everything that was taken up is written, and nothing else. -/
structure Whole (first number : Nat) (log : Log) (done : List (PendingCommit × Nat)) : Prop where
  written : log.written first = WalWriter.assign number (entriesOf done)
  next : log.writer.nextSequenceNumber = number + (entriesOf done).length

def AtPhase (first number : Nat) (log : Log) (queue done rest : List (PendingCommit × Nat)) :
    Phase → Prop
  | .receiving => Whole first number log done ∧ rest = queue
  | .collecting notifiers entries _ => Whole first number log done ∧
      ∃ group, rest = group ++ queue ∧ notifiers = group.map Prod.snd ∧ entries = entriesOf group
  | .notifying (.ok ()) notifiers =>
    Whole first number log done ∧ rest = queue ∧ ∀ i ∈ notifiers, i ∈ done.map Prod.snd
  | .notifying (.error _) _ => True
  | .exited _ => True

/-- What the channel has taken is what was committed, `done`, and what was not, `rest`. -/
structure Kept (first number : Nat) (s : State) (done rest : List (PendingCommit × Nat)) :
    Prop where
  mode : s.config.fsyncMode = .sync
  order : s.submitted.zipIdx = done ++ rest
  opened : s.log.Open first
  acked : ∀ i, (i, .ok ()) ∈ s.notified → i ∈ done.map Prod.snd
  durable : ∀ e ∈ WalWriter.assign number (entriesOf done), s.log.Durable e
  written : ∃ tail, s.log.written first = WalWriter.assign number (entriesOf done) ++ tail ∧
    tail <+: WalWriter.assign (number + (entriesOf done).length) (entriesOf rest)
  phase : AtPhase first number s.log s.queue done rest s.phase

section
variable {first number : Nat} {s t : State} {done rest : List (PendingCommit × Nat)}

@[simp]
theorem entriesOf_append (a b : List (PendingCommit × Nat)) :
    entriesOf (a ++ b) = entriesOf a ++ entriesOf b :=
  List.flatMap_append

theorem Kept.send (h : Kept first number s done rest) {p : PendingCommit}
    (taken : send p s = some t) :
    ∃ rest', Kept first number t done rest' := by
  unfold GroupCommit.send at taken
  split at taken
  · cases taken
  split at taken
  · obtain rfl := Option.some.inj taken
    exact ⟨rest, h⟩
  · rename_i live
    split at taken
    · obtain rfl := Option.some.inj taken
      refine ⟨rest ++ [(p, s.submitted.length)], h.mode, ?_, h.opened, h.acked, h.durable, ?_, ?_⟩
      · rw [List.zipIdx_append, h.order]
        simp
      · obtain ⟨tail, written, shown⟩ := h.written
        refine ⟨tail, written, shown.trans ?_⟩
        rw [entriesOf_append, WalWriter.assign_append]
        exact List.prefix_append _ _
      · have phase := h.phase
        revert phase
        cases s.phase with
        | receiving => exact fun ⟨whole, queued⟩ => ⟨whole, by rw [queued]⟩
        | collecting notifiers entries bytes =>
          rintro ⟨whole, group, queued, named, collected⟩
          exact ⟨whole, group, by rw [queued, List.append_assoc], named, collected⟩
        | notifying result notifiers =>
          cases result with
          | ok => exact fun ⟨whole, queued, named⟩ => ⟨whole, by rw [queued], named⟩
          | error e => exact fun _ => trivial
        | exited result => exact fun _ => trivial
    · cases taken

/-- The loop has gone, and left the log as it was or with entries of what was not committed. -/
theorem Kept.exit (h : Kept first number s done rest) (result : FlushResult Unit) :
    Kept first number (exit result s) done rest :=
  ⟨h.mode, h.order, h.opened, h.acked, h.durable, h.written, trivial⟩

theorem Kept.recv (h : Kept first number s done rest) (taken : step s .recv = some t) :
    Kept first number t done rest := by
  simp only [step] at taken
  split at taken
  · rename_i p id queue receiving queued
    obtain rfl := Option.some.inj taken
    have phase := h.phase
    rw [receiving] at phase
    obtain ⟨whole, rfl⟩ := phase
    refine ⟨h.mode, h.order, h.opened, h.acked, h.durable, h.written, whole, [(p, id)], ?_⟩
    exact ⟨queued, rfl, by simp [entriesOf]⟩
  · cases taken

theorem Kept.tryRecv (h : Kept first number s done rest) (taken : step s .tryRecv = some t) :
    Kept first number t done rest := by
  simp only [step] at taken
  split at taken
  · rename_i notifiers entries bytes p id queue collecting queued
    split at taken
    · cases taken
    · obtain rfl := Option.some.inj taken
      have phase := h.phase
      rw [collecting] at phase
      obtain ⟨whole, group, all, named, collected⟩ := phase
      refine ⟨h.mode, h.order, h.opened, h.acked, h.durable, h.written, whole,
        group ++ [(p, id)], ?_, ?_, ?_⟩
      · rw [all, queued]
        simp
      · simp [named]
      · simp [collected, entriesOf]
  · cases taken

/-- A log that gained a part of what was collected, and no acknowledgement. -/
theorem Kept.grown (h : Kept first number s done rest) {notifiers : List Nat}
    {entries : List WalEntry} {bytes : Nat}
    (collecting : s.phase = .collecting notifiers entries bytes) {disk : Disk}
    {result : FlushResult Unit} {log : Log}
    (committed : s.log.commit disk .sync entries = (result, log)) {phase : Phase} {segment : Nat}
    (idle : AtPhase first number log s.queue done rest phase) :
    Kept first number { s with log, currentSegment := segment, phase } done rest := by
  obtain ⟨wrote, -⟩ := Log.commit_spec h.opened committed
  have at_phase := h.phase
  rw [collecting] at at_phase
  obtain ⟨whole, group, all, -, collected⟩ := at_phase
  refine ⟨h.mode, h.order, wrote.opened, h.acked, fun e member => wrote.kept e (h.durable e member),
    ?_, idle⟩
  obtain ⟨tail, written, shown⟩ := wrote.part
  refine ⟨tail, by rw [written, whole.written], shown.trans ?_⟩
  rw [whole.next, all, entriesOf_append, WalWriter.assign_append, collected]
  exact List.prefix_append _ _

theorem Kept.commit (h : Kept first number s done rest) {disk : Disk}
    (taken : step s (.commit disk) = some t) :
    ∃ done' rest', Kept first number t done' rest' := by
  simp only [step] at taken
  split at taken
  · rename_i notifiers entries bytes collecting
    rw [h.mode] at taken
    cases committed : s.log.commit disk .sync entries with
    | mk result log =>
    simp only [committed] at taken
    split at taken
    · obtain rfl := Option.some.inj taken
      cases result with
      | error e => exact ⟨done, rest, h.grown collecting committed trivial⟩
      | ok =>
        obtain ⟨wrote, durable⟩ := Log.commit_spec h.opened committed
        have at_phase := h.phase
        rw [collecting] at at_phase
        obtain ⟨whole, group, all, named, collected⟩ := at_phase
        have extended : log.written first = WalWriter.assign number (entriesOf (done ++ group)) := by
          rw [wrote.whole rfl, whole.written, whole.next, collected, entriesOf_append,
            WalWriter.assign_append]
        refine ⟨done ++ group, s.queue, h.mode, ?_, wrote.opened, ?_, ?_, ⟨[], ?_, List.nil_prefix⟩,
          ⟨extended, ?_⟩, rfl, ?_⟩
        · rw [List.append_assoc, ← all]
          exact h.order
        · intro i told
          rw [List.map_append]
          exact List.mem_append_left _ (h.acked i told)
        · intro e member
          rw [entriesOf_append, WalWriter.assign_append] at member
          rcases List.mem_append.mp member with old | new
          · exact wrote.kept e (h.durable e old)
          · rw [← whole.next, ← collected] at new
            exact durable rfl e new
        · rw [List.append_nil]
          exact extended
        · rw [wrote.number rfl, whole.next, collected, entriesOf_append, List.length_append,
            Nat.add_assoc]
        · intro i member
          rw [List.map_append, ← named]
          exact List.mem_append_right _ member
    · obtain rfl := Option.some.inj taken
      have grown : Kept first number { s with log, phase := .exited (.error (.io "join")) } done rest :=
        h.grown collecting committed trivial
      exact ⟨done, rest, grown.exit _⟩
  · cases taken

theorem Kept.notify (h : Kept first number s done rest) (taken : step s .notify = some t) :
    Kept first number t done rest := by
  have phase := h.phase
  simp only [step] at taken
  split at taken
  · rename_i result id notifiers notifying
    obtain rfl := Option.some.inj taken
    rw [notifying] at phase
    cases result with
    | error e =>
      refine ⟨h.mode, h.order, h.opened, ?_, h.durable, h.written, trivial⟩
      intro i told
      rcases List.mem_append.mp told with old | new
      · exact h.acked i old
      · simp at new
    | ok =>
      obtain ⟨whole, queued, named⟩ := phase
      refine ⟨h.mode, h.order, h.opened, ?_, h.durable, h.written, whole, queued, ?_⟩
      · intro i told
        rcases List.mem_append.mp told with old | new
        · exact h.acked i old
        · obtain ⟨rfl, -⟩ := Prod.mk.inj (List.mem_singleton.mp new)
          exact named i List.mem_cons_self
      · exact fun i member => named i (List.mem_cons_of_mem _ member)
  · rename_i notifying
    obtain rfl := Option.some.inj taken
    rw [notifying] at phase
    obtain ⟨whole, queued, -⟩ := phase
    exact ⟨h.mode, h.order, h.opened, h.acked, h.durable, h.written, whole, queued⟩
  · obtain rfl := Option.some.inj taken
    exact h.exit _
  · cases taken

theorem Kept.disconnect (h : Kept first number s done rest) {syncs : Bool}
    (taken : step s (.disconnect syncs) = some t) : Kept first number t done rest := by
  simp only [step] at taken
  split at taken
  · split at taken
    · split at taken
      · obtain rfl := Option.some.inj taken
        cases synced : s.log.sync syncs with
        | mk result log =>
        obtain ⟨opened, -, same, kept, -⟩ := Log.sync_spec h.opened synced
        obtain ⟨tail, written, shown⟩ := h.written
        exact ⟨h.mode, h.order, opened, h.acked, fun e member => kept e (h.durable e member),
          ⟨tail, same.trans written, shown⟩, trivial⟩
      · obtain rfl := Option.some.inj taken
        exact h.exit _
    · cases taken
  · cases taken

def Inv (first number : Nat) (s : State) : Prop := ∃ done rest, Kept first number s done rest

theorem inv_step {a : Label} (h : Inv first number s) (taken : step s a = some t) :
    Inv first number t := by
  obtain ⟨done, rest, kept⟩ := h
  cases a with
  | submit entry =>
    obtain ⟨rest', kept⟩ := kept.send taken
    exact ⟨done, rest', kept⟩
  | submitBatch entries =>
    simp only [step] at taken
    split at taken
    · obtain rfl := Option.some.inj taken
      exact ⟨done, rest, kept⟩
    · obtain ⟨rest', kept⟩ := kept.send taken
      exact ⟨done, rest', kept⟩
  | close =>
    obtain rfl := Option.some.inj taken
    exact ⟨done, rest, kept.mode, kept.order, kept.opened, kept.acked, kept.durable, kept.written,
      kept.phase⟩
  | recv => exact ⟨done, rest, kept.recv taken⟩
  | tryRecv => exact ⟨done, rest, kept.tryRecv taken⟩
  | commit disk =>
    obtain ⟨done', rest', kept⟩ := kept.commit taken
    exact ⟨done', rest', kept⟩
  | notify => exact ⟨done, rest, kept.notify taken⟩
  | timeout syncs =>
    -- the loop does not wait with unsynced entries
    simp only [step, kept.mode] at taken
    split at taken
    · simp at taken
    · cases taken
  | disconnect syncs => exact ⟨done, rest, kept.disconnect taken⟩

end

theorem start_kept {dir : ObjectStore Nat SegmentFile} {config : Config} {s : State}
    (started : start dir config = some s) (mode : config.fsyncMode = .sync) :
    Inv s.currentSegment s.log.writer.nextSequenceNumber s := by
  unfold start at started
  split at started
  · cases started
  · rename_i writer opened opens
    obtain ⟨segment, found, rfl⟩ := Option.map_eq_some_iff.mp started
    have empty : segment.entries = [] := WalWriter.openDir_fresh opens found
    have nothing : Log.written writer.currentSegment
        { writer, dir := dir.put writer.currentSegment { segment } } = [] := by
      simp [Log.written, empty]
    exact ⟨[], [], mode, rfl, ⟨le_rfl, _, ObjectStore.get_put_self _ _ _⟩, (fun i told => nomatch told),
      (fun e member => nomatch member), ⟨[], nothing, List.prefix_refl _⟩, ⟨nothing, rfl⟩, rfl⟩

/-- The entries of the `i`-th submission under the numbers that its place gives them. -/
def numbered (number : Nat) (submitted : List PendingCommit) (i : Nat) : List WalEntry :=
  WalWriter.assign (number + ((submitted.take i).flatMap PendingCommit.entries).length)
    ((submitted[i]?.map PendingCommit.entries).getD [])

/-- The loop has met a failure and takes up nothing more. -/
def State.failed (s : State) : Bool :=
  match s.phase with
  | .notifying (.error _) _ | .exited (.error _) => true
  | _ => false

section
variable {first number : Nat} {s t : State}

theorem entriesOf_zipIdx (l : List PendingCommit) (k : Nat) :
    entriesOf (l.zipIdx k) = l.flatMap PendingCommit.entries := by
  induction l generalizing k with
  | nil => rfl
  | cons p rest ih =>
    have later := ih (k + 1)
    simp only [entriesOf] at later
    simp [entriesOf, List.zipIdx_cons, later]

theorem Kept.numbered_mem {done rest : List (PendingCommit × Nat)}
    (h : Kept first number s done rest) {i : Nat} (told : (i, .ok ()) ∈ s.notified) :
    i < s.submitted.length ∧ ∀ e ∈ numbered number s.submitted i, s.log.Durable e := by
  obtain ⟨⟨p, j⟩, member, rfl⟩ := List.mem_map.mp (h.acked i told)
  have listed : (p, j) ∈ s.submitted.zipIdx := by
    rw [h.order]
    exact List.mem_append_left _ member
  have place : s.submitted[j]? = some p := List.mem_zipIdx_iff_getElem?.mp listed
  have inside : j < s.submitted.length := (List.getElem?_eq_some_iff.mp place).1
  refine ⟨inside, ?_⟩
  intro e assigned
  apply h.durable e
  -- `done` is a part of the channel that reaches beyond the place
  obtain ⟨front, back, split⟩ := List.append_of_mem member
  have order : s.submitted.zipIdx = front ++ (p, j) :: (back ++ rest) := by
    rw [h.order, split, List.append_assoc, List.cons_append]
  have length : front.length = j := by
    have found : s.submitted.zipIdx[front.length]? = some (p, j) := by
      rw [order]
      simp
    rw [List.getElem?_zipIdx] at found
    obtain ⟨q, -, same⟩ := Option.map_eq_some_iff.mp found
    simpa using (Prod.mk.inj same).2
  have before : front = (s.submitted.take j).zipIdx := by
    have halves : (s.submitted.take j).zipIdx ++ (s.submitted.drop j).zipIdx
        (0 + (s.submitted.take j).length) =
        front ++ (p, j) :: (back ++ rest) := by
      rw [← List.zipIdx_append, List.take_append_drop, order]
    refine (List.append_inj_left halves ?_).symm
    rw [List.length_zipIdx, List.length_take, length]
    omega
  rw [split, entriesOf_append, before, entriesOf_zipIdx, WalWriter.assign_append]
  simp only [numbered, place, Option.map_some, Option.getD_some] at assigned
  apply List.mem_append_right
  rw [show (p, j) :: back = [(p, j)] ++ back from rfl, entriesOf_append, WalWriter.assign_append]
  apply List.mem_append_left
  simpa [entriesOf] using assigned

/-- After a failure nobody is told that his entries are committed. -/
theorem failed_step {a : Label} (failed : s.failed) (taken : step s a = some t) :
    t.failed ∧ ∀ i, (i, .ok ()) ∈ t.notified → (i, .ok ()) ∈ s.notified := by
  have sent : ∀ {p : PendingCommit}, send p s = some t →
      t.failed ∧ ∀ i, (i, .ok ()) ∈ t.notified → (i, .ok ()) ∈ s.notified := by
    intro p taken
    unfold send at taken
    split at taken
    · cases taken
    split at taken
    · obtain rfl := Option.some.inj taken
      exact ⟨failed, fun i told => told⟩
    · split at taken
      · obtain rfl := Option.some.inj taken
        exact ⟨failed, fun i told => told⟩
      · cases taken
  unfold State.failed at failed
  cases a with
  | submit entry => exact sent taken
  | submitBatch entries =>
    simp only [step] at taken
    split at taken
    · obtain rfl := Option.some.inj taken
      exact ⟨failed, fun i told => told⟩
    · exact sent taken
  | close =>
    obtain rfl := Option.some.inj taken
    exact ⟨failed, fun i told => told⟩
  | notify =>
    simp only [step] at taken
    split at failed
    · rename_i e notifiers notifying
      rw [notifying] at taken
      cases notifiers with
      | nil =>
        obtain rfl := Option.some.inj taken
        exact ⟨rfl, fun i told => told⟩
      | cons id rest =>
        obtain rfl := Option.some.inj taken
        refine ⟨rfl, ?_⟩
        intro i told
        simpa using told
    · rename_i e exited
      simp [exited] at taken
    · cases failed
  | recv | tryRecv | commit | timeout | disconnect =>
    simp only [step] at taken
    split at failed
    · rename_i phase
      simp [phase] at taken
    · rename_i phase
      simp [phase] at taken
    · cases failed

end

/-- In every run: who is told Ok has all entries in synced files; the files hold what the channel
took, in its order and under consecutive numbers; and a group that fails, or comes later, is not
acknowledged. -/
theorem acknowledges_durable_in_order {dir : ObjectStore Nat SegmentFile} {config : Config}
    {s₀ s : State} {labels : List Label} (started : start dir config = some s₀)
    (mode : config.fsyncMode = .sync) (run : exec step s₀ labels = some s) :
    (∀ i, (i, .ok ()) ∈ s.notified → i < s.submitted.length ∧
      ∀ e ∈ numbered s₀.log.writer.nextSequenceNumber s.submitted i, s.log.Durable e) ∧
    s.log.written s₀.currentSegment <+:
      WalWriter.assign s₀.log.writer.nextSequenceNumber (s.submitted.flatMap PendingCommit.entries) ∧
    ∀ notifiers entries bytes disk t, s.phase = .collecting notifiers entries bytes →
      step s (.commit disk) = some t → t.failed → ∀ later u, exec step t later = some u →
        ∀ i, (i, .ok ()) ∈ u.notified → ∀ j ∈ notifiers, i < j := by
  have inv := exec_keeps (fun _ _ _ kept taken => inv_step kept taken) (start_kept started mode) run
  obtain ⟨done, rest, kept⟩ := inv
  refine ⟨fun i told => kept.numbered_mem told, ?_, ?_⟩
  · obtain ⟨tail, written, shown⟩ := kept.written
    have all : s.submitted.flatMap PendingCommit.entries = entriesOf done ++ entriesOf rest := by
      rw [← entriesOf_append, ← kept.order, entriesOf_zipIdx]
    rw [written, all, WalWriter.assign_append]
    exact (List.prefix_append_right_inj _).mpr shown
  · intro notifiers entries bytes disk t collecting committed failed later u resumed
    have quiet : t.notified = s.notified := by
      simp only [step, collecting] at committed
      split at committed
      · obtain rfl := Option.some.inj committed
        rfl
      · obtain rfl := Option.some.inj committed
        rfl
    have phase := kept.phase
    rw [collecting] at phase
    obtain ⟨-, group, queued, named, -⟩ := phase
    have ahead : ∀ i, (i, .ok ()) ∈ t.notified → ∀ j ∈ notifiers, i < j := by
      intro i told j member
      rw [quiet] at told
      rw [named] at member
      have ascending : (s.submitted.zipIdx.map Prod.snd).Pairwise (· < ·) := by
        rw [List.zipIdx_map_snd]
        exact List.pairwise_lt_range'
      rw [kept.order, queued, List.map_append, List.map_append, List.pairwise_append] at ascending
      exact ascending.2.2 i (kept.acked i told) j (List.mem_append_left _ member)
    have keep : ∀ v a w, (v.failed ∧ ∀ i, (i, .ok ()) ∈ v.notified → ∀ j ∈ notifiers, i < j) →
        step v a = some w →
        w.failed ∧ ∀ i, (i, .ok ()) ∈ w.notified → ∀ j ∈ notifiers, i < j := by
      rintro v a w ⟨stuck, before⟩ taken
      obtain ⟨stuck', fewer⟩ := failed_step stuck taken
      exact ⟨stuck', fun i told => before i (fewer i told)⟩
    exact (exec_keeps keep ⟨failed, ahead⟩ resumed).2

section Example

def sampleWrite : WalEntry where
  sequenceNumber := 0
  entryType := .put
  ns := ⟨[110, 115]⟩
  recordId := ⟨[114]⟩
  itemKey := ⟨[107]⟩
  itemValue := ⟨[118]⟩
  itemMetadata := ⟨[]⟩
  idempotencyToken := .none
  origin := 0

/-- Two clients share a group that fills the segment; the group of a third cannot be synced while
a fourth waits. -/
def sharedGroup : List Label :=
  [.submit sampleWrite, .recv, .submitBatch [sampleWrite, sampleWrite], .tryRecv, .commit {},
    .notify, .notify,
    .notify, .submit sampleWrite, .recv, .submit sampleWrite]

theorem acknowledges_durable_in_order_shared :
    ∃ s₀ s t, start ObjectStore.empty { wal := { segmentSizeTarget := 100 } } = some s₀ ∧
      exec step s₀ sharedGroup = some s ∧ (0, .ok ()) ∈ s.notified ∧ (1, .ok ()) ∈ s.notified ∧
      (∀ e ∈ numbered 1 s.submitted 1, s.log.Durable e) ∧
      exec step s [.commit { syncs := false }, .notify, .notify] = some t ∧
      ∀ i, (i, .ok ()) ∈ t.notified → i < 2 := by
  have holds := @acknowledges_durable_in_order ObjectStore.empty
    { wal := { segmentSizeTarget := 100 } } _ _ sharedGroup
    rfl rfl rfl
  have quiet := holds.2.2 [2] _ _ { syncs := false } _ rfl rfl rfl [.notify, .notify] _ rfl
  refine ⟨_, _, _, rfl, rfl, List.mem_cons_self, List.mem_cons_of_mem _ List.mem_cons_self,
    (holds.1 1 ?_).2, rfl,
    fun i told => quiet i told 2 List.mem_cons_self⟩
  exact List.mem_cons_of_mem _ List.mem_cons_self

end Example

end FlushDB.GroupCommit
