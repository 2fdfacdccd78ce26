import FlushDB.Wal.Attribution
import FlushDB.Wal.GroupCommit

/-!
The segment that an append is recorded for. The manager sends the entries to the commit loop and
then reads the segment number from a cell that the loop publishes after every group. The group is
written, the segment rotated and synced in a blocking task; the cell still has the old number
meanwhile, and the read may come long before the write or after it.
-/

namespace FlushDB.GroupCommit
open Lib

/-- The first part of `append_batch`: the write into the current segment. -/
def Log.writeGroup (cut : Option Nat) (entries : List WalEntry) (log : Log) :
    FlushResult Unit × Log :=
  let assigned := WalWriter.assign log.writer.nextSequenceNumber entries
  let spent := { log.writer with nextSequenceNumber := log.writer.nextSequenceNumber + entries.length }
  match cut with
  | some whole =>
    (.error (.io "write_all"), { writer := spent, dir := log.write (assigned.take whole) })
  | none =>
    (.ok (),
      { writer := { spent with currentSize := spent.currentSize + (assigned.map WalEntry.totalSize).sum }
        dir := log.write assigned })

/-- The second part: a segment that has reached its size is rotated. -/
def Log.rotateFull (disk : Disk) (log : Log) : FlushResult Unit × Log :=
  if log.writer.currentSize ≥ log.writer.config.segmentSizeTarget then log.rotate disk
    else (.ok (), log)

/-- The segment is full, and the disk lets the next one be made. -/
def Log.Rotates (syncs creates : Bool) (log : Log) : Prop :=
  log.writer.currentSize ≥ log.writer.config.segmentSizeTarget ∧ syncs ∧ creates ∧
    log.dir.get (log.writer.currentSegment + 1) = none
  deriving Decidable

theorem Log.appendBatch_parts (disk : Disk) (entries : List WalEntry) (log : Log) :
    log.appendBatch disk entries =
      match log.writeGroup disk.cut entries with
      | (.error e, log) => (.error e, log)
      | (.ok (), log) => log.rotateFull disk := by
  unfold appendBatch writeGroup rotateFull
  cases disk.cut <;> rfl

theorem Log.sync_segment {ok : Bool} {log next : Log} {result : FlushResult Unit}
    (synced : log.sync ok = (result, next)) :
    next.writer = log.writer := by
  unfold sync at synced
  split at synced
  · obtain ⟨-, rfl⟩ := Prod.mk.inj synced
    unfold syncCurrent
    split <;> rfl
  · obtain ⟨-, rfl⟩ := Prod.mk.inj synced
    rfl

/-- The group goes to the file of the current segment, whole or in part, and to no other. -/
theorem Log.writeGroup_file {cut : Option Nat} {entries : List WalEntry} {log next : Log}
    {result : FlushResult Unit} (written : log.writeGroup cut entries = (result, next)) :
    next.writer.currentSegment = log.writer.currentSegment ∧
      (∀ k, k ≠ log.writer.currentSegment → next.dir.get k = log.dir.get k) ∧
      ∀ file, log.dir.get log.writer.currentSegment = some file →
        ∃ part, part <+: WalWriter.assign log.writer.nextSequenceNumber entries ∧
          (cut = none → part = WalWriter.assign log.writer.nextSequenceNumber entries) ∧
          next.dir.get log.writer.currentSegment =
            some { file with segment := { file.segment with entries := file.segment.entries ++ part } } := by
  have other : ∀ (part : List WalEntry) k, k ≠ log.writer.currentSegment →
      (log.write part).get k = log.dir.get k := by
    intro part k different
    unfold write
    split
    · exact ObjectStore.get_put_ne _ _ different
    · rfl
  have grown : ∀ (part : List WalEntry) file, log.dir.get log.writer.currentSegment = some file →
      (log.write part).get log.writer.currentSegment =
        some { file with segment := { file.segment with entries := file.segment.entries ++ part } } := by
    intro part file found
    simp only [write, found]
    exact ObjectStore.get_put_self _ _ _
  unfold writeGroup at written
  dsimp only at written
  split at written
  · obtain ⟨-, rfl⟩ := Prod.mk.inj written
    refine ⟨rfl, other _, fun file found => ⟨_, List.take_prefix _ _, ?_, grown _ file found⟩⟩
    intro whole
    cases whole
  · obtain ⟨-, rfl⟩ := Prod.mk.inj written
    exact ⟨rfl, other _, fun file found => ⟨_, List.prefix_refl _, fun _ => rfl, grown _ file found⟩⟩

/-- The number moves on by one when the segment is rotated, and stays when it is not. -/
theorem Log.rotateFull_segment {syncs creates : Bool} {log next : Log} {result : FlushResult Unit}
    (rotated : log.rotateFull { rotateSyncs := syncs, creates } = (result, next)) :
    (log.Rotates syncs creates ∧ next.writer.currentSegment = log.writer.currentSegment + 1) ∨
      (¬ log.Rotates syncs creates ∧ next.writer.currentSegment = log.writer.currentSegment) := by
  unfold rotateFull at rotated
  split at rotated
  · rename_i full
    unfold rotate at rotated
    split at rotated
    · rename_i e mid synced
      obtain ⟨-, rfl⟩ := Prod.mk.inj rotated
      refine Or.inr ⟨?_, by rw [sync_segment synced]⟩
      rintro ⟨-, syncs, -, -⟩
      simp [sync, syncs] at synced
    · rename_i mid synced
      have writer := sync_segment synced
      have syncs : syncs = true := by
        cases syncs
        · simp [sync] at synced
        · rfl
      have next_file : mid.dir.get (mid.writer.currentSegment + 1) =
          log.dir.get (log.writer.currentSegment + 1) := by
        rw [writer]
        simp only [sync, syncs] at synced
        obtain ⟨-, rfl⟩ := Prod.mk.inj synced
        unfold syncCurrent
        split
        · exact ObjectStore.get_put_ne _ _ (by omega)
        · rfl
      split at rotated
      · rename_i blocked
        obtain ⟨-, rfl⟩ := Prod.mk.inj rotated
        refine Or.inr ⟨?_, by rw [writer]⟩
        rintro ⟨-, -, creates, free⟩
        rw [next_file, free, creates] at blocked
        simp at blocked
      · rename_i free
        obtain ⟨-, rfl⟩ := Prod.mk.inj rotated
        refine Or.inl ⟨⟨full, syncs, ?_, ?_⟩, ?_⟩
        · simpa using (not_or.mp free).2
        · rw [← next_file]
          simpa using (not_or.mp free).1
        · simp only [create, writer]
  · rename_i room
    obtain ⟨-, rfl⟩ := Prod.mk.inj rotated
    exact Or.inr ⟨fun rotates => room rotates.1, rfl⟩

namespace Recording

/-- What the blocking task does next; at `publish` it has returned. -/
inductive Stage where
  | rotate
  | sync
  | publish

structure Work where
  stage : Stage
  log : Log
  result : FlushResult Unit

/-- An append between its submission and the read of the cell. A batch without entries is not
submitted. -/
structure InFlight where
  submission : Option Nat
  generation : Nat

/-- A submission whose group was written, and the segment of the file it went to. -/
structure Write where
  submission : Nat
  segment : Nat

/-- An append that was recorded, and the segment it was recorded for. -/
structure Record where
  submission : Option Nat
  generation : Nat
  segment : Nat

/-- The cell is `loop.currentSegment`. The two lists are ghost. -/
structure State where
  loop : GroupCommit.State
  work : Option Work := none
  inFlight : Option InFlight := none
  tracker : DirtySegmentTracker := {}
  writes : List Write := []
  records : List Record := []

inductive Label where
  | append (p : PendingCommit) (generation : Nat)
  | load
  | close
  | recv
  | tryRecv
  | write (cut : Option Nat)
  | rotate (syncs creates : Bool)
  | sync (syncs : Bool)
  | publish
  | panic
  | notify
  | timeout (syncs : Bool)
  | disconnect (syncs : Bool)

namespace State

/-- A step of the loop outside the blocking task. -/
def loopStep (s : State) (a : GroupCommit.Label) : Option State :=
  (GroupCommit.step s.loop a).map fun loop => { s with loop }

def Exited (s : State) : Prop := ∃ result, s.loop.phase = .exited result

instance (s : State) : Decidable s.Exited :=
  match h : s.loop.phase with
  | .exited result => isTrue ⟨result, h⟩
  | .receiving | .collecting .. | .notifying .. =>
    isFalse (by
      rintro ⟨result, exited⟩
      rw [h] at exited
      cases exited)

/-- The log as the blocking task has it while it runs. -/
def log (s : State) : Log :=
  match s.work with
  | some w => w.log
  | none => s.loop.log

/-- The cell does not yet show a rotation. -/
def Behind (s : State) : Prop := s.loop.currentSegment ≠ s.log.writer.currentSegment
  deriving Decidable

def Written (s : State) (i : Nat) : Prop := ∃ w ∈ s.writes, w.submission = i
  deriving Decidable

/-- The submissions that are still to be written, in their order. -/
def waiting (s : State) : List Nat :=
  (match s.work, s.loop.phase with
    | none, .collecting notifiers _ _ => notifiers
    | _, _ => []) ++ s.loop.queue.map Prod.snd

/-- Every append is recorded for the segment that its entries were written to. -/
def Attributed (s : State) : Prop :=
  ∀ r ∈ s.records, ∀ w ∈ s.writes, r.submission = some w.submission → r.segment = w.segment
  deriving Decidable

/-- No append is under way, and the entries of all are written. -/
def Settled (s : State) : Prop :=
  s.inFlight = none ∧ ∀ r ∈ s.records, ∀ i ∈ r.submission, s.Written i
  deriving Decidable

end State

/-- The manager sends and is then in flight; `&mut self` lets no second append in. A send to a loop
that has gone is an error. -/
def append (s : State) (p : PendingCommit) (generation : Nat) : Option State :=
  match s.inFlight with
  | some _ => none
  | none =>
    if p.entries.isEmpty then some { s with inFlight := some { submission := none, generation } }
    else
      (send p s.loop).map fun loop =>
        match s.loop.phase with
        | .exited _ => s
        | _ =>
          { s with loop, inFlight := some { submission := some s.loop.submitted.length,
                                            generation } }

def load (s : State) : Option State :=
  s.inFlight.map fun a =>
    { s with
      inFlight := none
      tracker := s.tracker.recordWrite s.loop.currentSegment a.generation
      records := s.records ++
        [{ submission := a.submission, generation := a.generation,
           segment := s.loop.currentSegment }] }

def step (s : State) : Label → Option State
  | .append p generation => append s p generation
  | .load => load s
  | .close => s.loopStep .close
  | .recv => s.loopStep .recv
  | .tryRecv => if s.work.isSome then none else s.loopStep .tryRecv
  | .write cut =>
    match s.work, s.loop.phase with
    | none, .collecting notifiers entries _ =>
      let (result, log) := s.loop.log.writeGroup cut entries
      some { s with
        work := some { stage := if cut.isNone then .rotate else .publish, log, result }
        writes := s.writes ++ notifiers.map fun i =>
          { submission := i, segment := s.loop.log.writer.currentSegment } }
    | _, _ => none
  | .rotate syncs creates =>
    match s.work with
    | some { stage := .rotate, log, .. } =>
      match log.rotateFull { rotateSyncs := syncs, creates } with
      | (.error e, next) =>
        some { s with work := some { stage := .publish, log := next, result := .error e } }
      | (.ok (), next) =>
        some { s with work := some { stage := .sync, log := next, result := .ok () } }
    | _ => none
  | .sync syncs =>
    match s.work with
    | some { stage := .sync, log, .. } =>
      let (result, log) := if s.loop.config.fsyncMode = .sync then log.sync syncs else (.ok (), log)
      some { s with work := some { stage := .publish, log, result } }
    | _ => none
  | .publish =>
    match s.work, s.loop.phase with
    | some { stage := .publish, log, result }, .collecting notifiers _ _ =>
      some { s with
        loop := { s.loop with log, currentSegment := log.writer.currentSegment,
                              phase := .notifying result notifiers }
        work := none }
    | _, _ => none
  | .panic =>
    s.work.map fun w => { s with loop := exit (.error (.io "join")) { s.loop with log := w.log },
                                 work := none }
  | .notify => s.loopStep .notify
  | .timeout syncs => s.loopStep (.timeout syncs)
  | .disconnect syncs => s.loopStep (.disconnect syncs)

/-- What keeps every append at the segment its entries go to. A segment is left only when no
recorded entries wait for it; an append reads the cell of the segment that its entries are still to
be written to, or the one they were written to. -/
def Aligned (s : State) : Label → Prop
  | .load => ∀ a ∈ s.inFlight, ∀ i ∈ a.submission, ¬ s.Written i → ¬ s.Exited → ¬ s.Behind
  | .rotate syncs creates =>
    s.log.Rotates syncs creates → ∀ r ∈ s.records, ∀ i ∈ r.submission, s.Written i
  | .publish => ∀ a ∈ s.inFlight, ∀ i ∈ a.submission, s.Written i → ¬ s.Behind
  | _ => True

instance (s : State) : ∀ a, Decidable (Aligned s a)
  | .load =>
    inferInstanceAs (Decidable (∀ a ∈ s.inFlight, ∀ i ∈ a.submission,
      ¬ s.Written i → ¬ s.Exited → ¬ s.Behind))
  | .rotate syncs creates =>
    inferInstanceAs (Decidable (s.log.Rotates syncs creates →
      ∀ r ∈ s.records, ∀ i ∈ r.submission, s.Written i))
  | .publish =>
    inferInstanceAs (Decidable (∀ a ∈ s.inFlight, ∀ i ∈ a.submission, s.Written i → ¬ s.Behind))
  | .append .. | .close | .recv | .tryRecv | .write _ | .sync _ | .panic | .notify | .timeout _
  | .disconnect _ => isTrue trivial

/-- The manager opens the directory and starts the loop. -/
def start (dir : ObjectStore Nat SegmentFile) (config : Config) : Option State :=
  (GroupCommit.start dir config).map fun loop => { loop }

/-- What a step does to the numbers and to the submissions. -/
inductive Moves (s : State) : Label → State → Prop
  | loop {a : Label} {loop : GroupCommit.State} (cell : loop.currentSegment = s.loop.currentSegment)
      (writer : loop.log.writer = s.loop.log.writer) (submitted : loop.submitted = s.loop.submitted)
      (waiting : (State.waiting { s with loop }).Sublist s.waiting)
        (exited : s.Exited → State.Exited { s with loop })
      (busy : s.work ≠ none → loop.phase = s.loop.phase) (aligned : Aligned s a) :
        Moves s a { s with loop }
  | empty {p : PendingCommit} {generation : Nat} (idle : s.inFlight = none) :
      Moves s (.append p generation) { s with inFlight := some { submission := none, generation } }
  | sent {p : PendingCommit} {generation : Nat} (idle : s.inFlight = none) :
      Moves s (.append p generation)
        { s with
          loop := { s.loop with
            queue := s.loop.queue ++ [(p, s.loop.submitted.length)], submitted :=
              s.loop.submitted ++ [p] }
          inFlight := some { submission := some s.loop.submitted.length, generation } }
  | load {a : InFlight} (inFlight : s.inFlight = some a) :
      Moves s .load
        { s with
          inFlight := none
          tracker := s.tracker.recordWrite s.loop.currentSegment a.generation
          records := s.records ++
            [{ submission := a.submission, generation := a.generation,
               segment := s.loop.currentSegment }] }
  | write {cut : Option Nat} {notifiers : List Nat} {entries : List WalEntry} {bytes : Nat} {w : Work}
      (idle : s.work = none) (collecting : s.loop.phase = .collecting notifiers entries bytes)
      (writer : w.log.writer.currentSegment = s.loop.log.writer.currentSegment) :
      Moves s (.write cut)
        { s with
          work := some w
          writes := s.writes ++ notifiers.map fun i =>
            { submission := i, segment := s.loop.log.writer.currentSegment } }
  | task {a : Label} {w next : Work} (working : s.work = some w)
      (writer : next.log.writer.currentSegment = w.log.writer.currentSegment) (aligned : Aligned s a) :
      Moves s a { s with work := some next }
  | rotate {syncs creates : Bool} {w next : Work} (working : s.work = some w)
      (rotates : w.log.Rotates syncs creates)
      (writer : next.log.writer.currentSegment = w.log.writer.currentSegment + 1) :
      Moves s (.rotate syncs creates) { s with work := some next }
  | publish {w : Work} {notifiers : List Nat} (working : s.work = some w) :
      Moves s .publish
        { s with
          loop := { s.loop with
            log := w.log, currentSegment := w.log.writer.currentSegment, phase :=
              .notifying w.result notifiers }
          work := none }
  | panic {w : Work} (working : s.work = some w) :
      Moves s .panic { s with loop := exit (.error (.io "join")) { s.loop with log := w.log },
                              work := none }

/-- Every submission is written once. -/
structure Queued (s : State) : Prop where
  taken : ∀ i ∈ s.waiting, i < s.loop.submitted.length
  nodup : s.waiting.Nodup
  fresh : ∀ i ∈ s.waiting, ¬ s.Written i

/-- In every state: the cell is not ahead of the segment, and the tracker has what was recorded. -/
structure Base (s : State) : Prop where
  cell : s.loop.currentSegment ≤ s.log.writer.currentSegment
  shown : s.work = none → ¬ s.Exited → s.loop.currentSegment = s.loop.log.writer.currentSegment
  busy : s.work ≠ none → ∃ notifiers entries bytes,
    s.loop.phase = .collecting notifiers entries bytes
  queued : Queued s
  writes : ∀ w ∈ s.writes, w.submission < s.loop.submitted.length ∧
    w.segment ≤ s.loop.currentSegment
  records : ∀ r ∈ s.records, r.segment ≤ s.loop.currentSegment
  tracker : ∀ k g, g ∈ s.tracker.dirtyGenerationIds k ↔ ∃ r ∈ s.records, r.segment = k ∧
    r.generation = g

section
variable {s t : State} {a : Label}

theorem State.log_task {w : Work} (working : s.work = some w) : s.log = w.log := by
  simp only [State.log, working]

theorem State.log_idle (free : s.work = none) : s.log = s.loop.log := by
  simp only [State.log, free]

theorem send_sent {p : PendingCommit} {l l' : GroupCommit.State} (taken : send p l = some l') :
    (∃ result, l.phase = .exited result) ∨
      ((∀ result, l.phase ≠ .exited result) ∧
        l' = { l with queue := l.queue ++ [(p, l.submitted.length)],
                      submitted := l.submitted ++ [p] }) := by
  unfold send at taken
  split at taken
  · cases taken
  split at taken
  · rename_i result exited
    exact Or.inl ⟨result, exited⟩
  · rename_i running
    split at taken
    · exact Or.inr ⟨running, (Option.some.inj taken).symm⟩
    · cases taken

/-- Steps of the loop itself while no task runs. -/
theorem Moves.idle {loop : GroupCommit.State} (free : s.work = none)
    (running : ∀ result, s.loop.phase ≠ .exited result)
    (cell : loop.currentSegment = s.loop.currentSegment)
    (writer : loop.log.writer = s.loop.log.writer) (submitted : loop.submitted = s.loop.submitted)
    (waiting : (State.waiting { s with loop }).Sublist s.waiting) (aligned : Aligned s a) :
    Moves s a { s with loop } := by
  refine .loop cell writer submitted waiting ?_ ?_ aligned
  · rintro ⟨result, exited⟩
    exact absurd exited (running result)
  · exact fun working => absurd free working

/-- The task runs only while the loop has a group. -/
theorem Base.idle (base : Base s)
    (other : ∀ notifiers entries bytes, s.loop.phase ≠ .collecting notifiers entries bytes) :
    s.work = none := by
  by_contra working
  obtain ⟨notifiers, entries, bytes, collecting⟩ := base.busy working
  exact other notifiers entries bytes collecting

theorem Base.free {b : GroupCommit.Label} (base : Base s)
    (waits : ∀ notifiers entries bytes, s.loop.phase = .collecting notifiers entries bytes →
      GroupCommit.step s.loop b = none)
    (taken : s.loopStep b = some t) : s.work = none := by
  by_contra working
  obtain ⟨notifiers, entries, bytes, collecting⟩ := base.busy working
  simp only [State.loopStep, waits notifiers entries bytes collecting] at taken
  cases taken

theorem recv_moves (base : Base s) (taken : s.loopStep .recv = some t) : Moves s .recv t := by
  obtain ⟨loop, stepped, rfl⟩ := Option.map_eq_some_iff.mp taken
  simp only [GroupCommit.step] at stepped
  split at stepped
  · rename_i p id queue receiving queued
    obtain rfl := Option.some.inj stepped
    have free := base.idle (by simp [receiving])
    refine .idle free (by simp [receiving]) rfl rfl rfl ?_ trivial
    simp [State.waiting, free, receiving, queued]
  · cases stepped

theorem tryRecv_moves (free : s.work = none) (taken : s.loopStep .tryRecv = some t) :
    Moves s .tryRecv t := by
  obtain ⟨loop, stepped, rfl⟩ := Option.map_eq_some_iff.mp taken
  simp only [GroupCommit.step] at stepped
  split at stepped
  · rename_i notifiers entries bytes p id queue collecting queued
    split at stepped
    · cases stepped
    obtain rfl := Option.some.inj stepped
    refine .idle free (by simp [collecting]) rfl rfl rfl ?_ trivial
    simp [State.waiting, free, collecting, queued]
  · cases stepped

theorem notify_moves (base : Base s) (taken : s.loopStep .notify = some t) : Moves s .notify t := by
  obtain ⟨loop, stepped, rfl⟩ := Option.map_eq_some_iff.mp taken
  simp only [GroupCommit.step] at stepped
  split at stepped
  · rename_i result id rest notifying
    obtain rfl := Option.some.inj stepped
    have free := base.idle (by simp [notifying])
    refine .idle free (by simp [notifying]) rfl rfl rfl ?_ trivial
    simp [State.waiting, free, notifying]
  · rename_i notifying
    obtain rfl := Option.some.inj stepped
    have free := base.idle (by simp [notifying])
    refine .idle free (by simp [notifying]) rfl rfl rfl ?_ trivial
    simp [State.waiting, free, notifying]
  · rename_i e notifying
    obtain rfl := Option.some.inj stepped
    have free := base.idle (by simp [notifying])
    refine .idle free (by simp [notifying]) rfl rfl rfl ?_ trivial
    simp [State.waiting, free, notifying, exit]
  · cases stepped

theorem timeout_moves {syncs : Bool} (base : Base s)
    (taken : s.loopStep (.timeout syncs) = some t) : Moves s (.timeout syncs) t := by
  obtain ⟨loop, stepped, rfl⟩ := Option.map_eq_some_iff.mp taken
  simp only [GroupCommit.step] at stepped
  split at stepped
  · rename_i receiving
    have free := base.idle (by simp [receiving])
    split at stepped
    · split at stepped
      · rename_i log synced
        obtain rfl := Option.some.inj stepped
        refine .idle free (by simp [receiving]) rfl (Log.sync_segment synced) rfl ?_ trivial
        simp [State.waiting, receiving]
      · rename_i e log synced
        obtain rfl := Option.some.inj stepped
        refine .idle free (by simp [receiving]) rfl (Log.sync_segment synced) rfl ?_ trivial
        simp [State.waiting, free, receiving, exit]
    · cases stepped
  · cases stepped

theorem disconnect_moves {syncs : Bool} (base : Base s)
    (taken : s.loopStep (.disconnect syncs) = some t) : Moves s (.disconnect syncs) t := by
  obtain ⟨loop, stepped, rfl⟩ := Option.map_eq_some_iff.mp taken
  simp only [GroupCommit.step] at stepped
  split at stepped
  · rename_i receiving
    have free := base.idle (by simp [receiving])
    split at stepped
    · split at stepped
      · obtain rfl := Option.some.inj stepped
        refine .idle free (by simp [receiving]) rfl (Log.sync_segment rfl) rfl ?_ trivial
        simp [State.waiting, free, receiving, exit]
      · obtain rfl := Option.some.inj stepped
        refine .idle free (by simp [receiving]) rfl rfl rfl ?_ trivial
        simp [State.waiting, free, receiving, exit]
    · cases stepped
  · cases stepped

theorem append_moves {p : PendingCommit} {generation : Nat}
    (taken : append s p generation = some t) :
    Moves s (.append p generation) t := by
  unfold append at taken
  split at taken
  · cases taken
  rename_i idle
  split at taken
  · obtain rfl := Option.some.inj taken
    exact .empty idle
  · obtain ⟨loop, sent, rfl⟩ := Option.map_eq_some_iff.mp taken
    rcases send_sent sent with ⟨result, exited⟩ | ⟨running, rfl⟩
    · simp only [exited]
      exact .loop rfl rfl rfl (List.Sublist.refl _) id (fun _ => rfl) trivial
    · split
      · rename_i result exited
        exact absurd exited (running result)
      · exact .sent idle

theorem step_moves (base : Base s) (taken : step s a = some t) : Moves s a t := by
  cases a with
  | append p generation => exact append_moves taken
  | load =>
    obtain ⟨a, inFlight, rfl⟩ := Option.map_eq_some_iff.mp taken
    exact .load inFlight
  | close =>
    obtain rfl := Option.some.inj taken
    exact .loop rfl rfl rfl (List.Sublist.refl _) id (fun _ => rfl) trivial
  | recv => exact recv_moves base taken
  | tryRecv =>
    simp only [step] at taken
    split at taken
    · cases taken
    · rename_i free
      exact tryRecv_moves (by simpa using free) taken
  | write cut =>
    simp only [step] at taken
    split at taken
    · rename_i notifiers entries bytes free collecting
      obtain rfl := Option.some.inj taken
      exact .write free collecting (Log.writeGroup_file rfl).1
    · cases taken
  | rotate syncs creates =>
    simp only [step] at taken
    split at taken
    · rename_i log result working
      split at taken
      all_goals
        rename_i rotated
        obtain rfl := Option.some.inj taken
        rcases Log.rotateFull_segment rotated with ⟨rotates, writer⟩ | ⟨fits, writer⟩
        · exact .rotate working rotates writer
        · refine .task working writer fun rotates => absurd ?_ fits
          rwa [State.log_task working] at rotates
    · cases taken
  | sync syncs =>
    simp only [step] at taken
    split at taken
    · rename_i log result working
      obtain rfl := Option.some.inj taken
      refine .task working ?_ trivial
      dsimp only
      split
      · exact congrArg WalWriter.currentSegment (Log.sync_segment rfl)
      · rfl
    · cases taken
  | publish =>
    simp only [step] at taken
    split at taken
    · rename_i log result notifiers entries bytes working collecting
      obtain rfl := Option.some.inj taken
      exact @Moves.publish s _ notifiers working
    · cases taken
  | panic =>
    obtain ⟨w, working, rfl⟩ := Option.map_eq_some_iff.mp taken
    exact .panic working
  | notify => exact notify_moves base taken
  | timeout syncs => exact timeout_moves base taken
  | disconnect syncs => exact disconnect_moves base taken

theorem State.log_loop {loop : GroupCommit.State} (writer : loop.log.writer = s.loop.log.writer) :
    (State.log { s with loop }).writer = s.log.writer := by
  cases working : s.work with
  | none => simpa only [State.log, working] using writer
  | some w => simp only [State.log, working]

theorem collecting_running {notifiers : List Nat} {entries : List WalEntry} {bytes : Nat}
    (collecting : s.loop.phase = .collecting notifiers entries bytes) : ¬ s.Exited := by
  rintro ⟨result, exited⟩
  rw [collecting] at exited
  cases exited

/-- While the task runs, what waits is in the channel. -/
theorem State.waiting_task {w : Work} (working : s.work = some w) :
    s.waiting = s.loop.queue.map Prod.snd := by
  simp only [State.waiting, working, List.nil_append]

theorem State.waiting_sent {p : PendingCommit} {inFlight : Option InFlight} :
    State.waiting { s with
      loop := { s.loop with
        queue := s.loop.queue ++ [(p, s.loop.submitted.length)], submitted :=
          s.loop.submitted ++ [p] }
      inFlight } = s.waiting ++ [s.loop.submitted.length] := by
  simp only [State.waiting, List.map_append, List.map_cons, List.map_nil, List.append_assoc]

theorem Queued.fewer {u : State} (h : Queued s) (waiting : u.waiting.Sublist s.waiting)
    (submitted : u.loop.submitted = s.loop.submitted) (writes : u.writes = s.writes) :
    Queued u := by
  refine ⟨?_, waiting.nodup h.nodup, ?_⟩
  · intro i member
    rw [submitted]
    exact h.taken i (waiting.subset member)
  · rintro i member ⟨w, written, same⟩
    rw [writes] at written
    exact h.fresh i (waiting.subset member) ⟨w, written, same⟩

theorem Base.sent {p : PendingCommit} {inFlight : Option InFlight} (h : Base s) :
    Base { s with
      loop := { s.loop with
        queue := s.loop.queue ++ [(p, s.loop.submitted.length)], submitted :=
          s.loop.submitted ++ [p] }
      inFlight } := by
  have waits := @State.waiting_sent s p inFlight
  have longer : (s.loop.submitted ++ [p]).length = s.loop.submitted.length + 1 := List.length_append
  refine ⟨h.cell, h.shown, h.busy, ⟨?_, ?_, ?_⟩, ?_, h.records, h.tracker⟩
  · intro i member
    rw [waits] at member
    apply lt_of_lt_of_eq _ longer.symm
    rcases List.mem_append.mp member with old | new
    · exact Nat.lt_succ_of_lt (h.queued.taken i old)
    · rw [List.mem_singleton.mp new]
      exact Nat.lt_succ_self _
  · rw [waits]
    apply List.Nodup.append h.queued.nodup (List.nodup_singleton _)
    rw [List.disjoint_singleton]
    exact fun member => lt_irrefl _ (h.queued.taken _ member)
  · intro i member
    rw [waits] at member
    rcases List.mem_append.mp member with old | new
    · exact h.queued.fresh i old
    · rintro ⟨w, written, rfl⟩
      have before := (h.writes w written).1
      rw [List.mem_singleton.mp new] at before
      exact lt_irrefl _ before
  · intro w member
    obtain ⟨before, segment⟩ := h.writes w member
    exact ⟨lt_of_lt_of_eq (Nat.lt_succ_of_lt before) longer.symm, segment⟩

theorem Base.load {a : InFlight} (h : Base s) :
    Base { s with
      inFlight := none
      tracker := s.tracker.recordWrite s.loop.currentSegment a.generation
      records := s.records ++
        [{ submission := a.submission, generation := a.generation,
           segment := s.loop.currentSegment }] } := by
  refine ⟨h.cell, h.shown, h.busy, h.queued.fewer (List.Sublist.refl _) rfl rfl, h.writes, ?_, ?_⟩
  · intro r member
    rcases List.mem_append.mp member with old | new
    · exact h.records r old
    · rw [List.mem_singleton.mp new]
  · intro k g
    show g ∈ (s.tracker.recordWrite s.loop.currentSegment a.generation).dirtyGenerationIds k ↔ _
    rw [DirtySegmentTracker.dirtyGenerationIds_recordWrite]
    simp only [List.mem_append, List.mem_singleton, or_and_right, exists_or, exists_eq_left,
      ← h.tracker k g]
    split
    · rename_i same
      rw [List.mem_insert_iff]
      constructor
      · exact fun found => found.symm.imp id fun same' => ⟨same.symm, same'.symm⟩
      · exact fun found => found.symm.imp (fun same' => same'.2.symm) id
    · rename_i other
      constructor
      · exact Or.inl
      · rintro (old | ⟨same, -⟩)
        · exact old
        · exact absurd same.symm other

theorem Base.write {notifiers : List Nat} {entries : List WalEntry} {bytes : Nat} {w : Work}
    (h : Base s) (idle : s.work = none)
    (collecting : s.loop.phase = .collecting notifiers entries bytes)
    (writer : w.log.writer.currentSegment = s.loop.log.writer.currentSegment) :
    Base { s with
      work := some w
      writes := s.writes ++ notifiers.map fun i =>
        { submission := i, segment := s.loop.log.writer.currentSegment } } := by
  have shown := h.shown idle (collecting_running collecting)
  have waits : s.waiting = notifiers ++ s.loop.queue.map Prod.snd := by
    simp only [State.waiting, idle, collecting]
  have distinct := h.queued.nodup
  rw [waits, List.nodup_append] at distinct
  refine ⟨?_, (fun free => nomatch free), fun _ => ⟨notifiers, entries, bytes, collecting⟩,
    ⟨?_, ?_, ?_⟩, ?_, h.records, h.tracker⟩
  · exact (shown.trans writer.symm).le
  · intro i member
    apply h.queued.taken i
    rw [waits]
    exact List.mem_append_right _ member
  · exact distinct.2.1
  · rintro i member ⟨w', written, rfl⟩
    rcases List.mem_append.mp written with old | new
    · apply h.queued.fresh w'.submission _ ⟨w', old, rfl⟩
      rw [waits]
      exact List.mem_append_right _ member
    · obtain ⟨j, listed, rfl⟩ := List.mem_map.mp new
      exact distinct.2.2 j listed j member rfl
  · intro w' member
    rcases List.mem_append.mp member with old | new
    · exact h.writes w' old
    · obtain ⟨j, listed, rfl⟩ := List.mem_map.mp new
      refine ⟨h.queued.taken j ?_, shown.symm.le⟩
      rw [waits]
      exact List.mem_append_left _ listed

/-- A part of the task that may have rotated the segment. -/
theorem Base.task {w next : Work} (h : Base s) (working : s.work = some w)
    (writer : w.log.writer.currentSegment ≤ next.log.writer.currentSegment) :
    Base { s with work := some next } := by
  have cell := h.cell
  rw [State.log_task working] at cell
  refine ⟨cell.trans writer, (fun free => nomatch free),
    fun _ => h.busy (by simp [working]), ?_, h.writes, h.records, h.tracker⟩
  refine h.queued.fewer ?_ rfl rfl
  rw [State.waiting_task working]
  exact List.Sublist.refl _

theorem base_step (h : Base s) (moved : Moves s a t) : Base t := by
  cases moved with
  | loop cell writer submitted waiting exited busy _ =>
    refine ⟨?_, ?_, ?_, h.queued.fewer waiting submitted rfl, ?_, ?_, h.tracker⟩
    · rw [State.log_loop writer]
      exact cell.le.trans h.cell
    · intro free running
      show _ = _
      rw [cell, h.shown free fun gone => running (exited gone), writer]
    · intro working
      obtain ⟨notifiers, entries, bytes, collecting⟩ := h.busy working
      exact ⟨notifiers, entries, bytes, (busy working).trans collecting⟩
    · intro w member
      show w.submission < _ ∧ w.segment ≤ _
      rw [submitted, cell]
      exact h.writes w member
    · intro r member
      show r.segment ≤ _
      rw [cell]
      exact h.records r member
  | empty idle =>
    exact ⟨h.cell, h.shown, h.busy, h.queued.fewer (List.Sublist.refl _) rfl rfl, h.writes,
      h.records, h.tracker⟩
  | sent idle => exact h.sent
  | load inFlight => exact h.load
  | write idle collecting writer => exact h.write idle collecting writer
  | task working writer _ => exact h.task working writer.ge
  | rotate working rotates writer => exact h.task working (by omega)
  | @publish w notifiers working =>
    have cell := h.cell
    rw [State.log_task working] at cell
    refine ⟨le_refl _, fun _ _ => rfl, fun busy => absurd rfl busy, ?_, ?_, ?_, h.tracker⟩
    · refine h.queued.fewer ?_ rfl rfl
      rw [State.waiting_task working]
      exact List.Sublist.refl _
    · exact fun w' member => ⟨(h.writes w' member).1, (h.writes w' member).2.trans cell⟩
    · exact fun r member => (h.records r member).trans cell
  | @panic w working =>
    have cell := h.cell
    rw [State.log_task working] at cell
    refine ⟨cell, ?_, fun busy => absurd rfl busy, ?_, h.writes, h.records, h.tracker⟩
    · exact fun _ running => absurd ⟨_, rfl⟩ running
    · exact h.queued.fewer (List.nil_sublist _) rfl rfl

/-- In a run of aligned steps: what was recorded and is not written waits for the segment, and what
is written before its append has read the cell lies in the segment that the cell shows. -/
structure Fits (s : State) : Prop where
  attributed : s.Attributed
  ahead : ¬ s.Exited → ∀ r ∈ s.records, ∀ i, r.submission = some i → ¬ s.Written i →
    r.segment = s.log.writer.currentSegment
  under : ∀ a, s.inFlight = some a → ∀ w ∈ s.writes, a.submission = some w.submission →
    w.segment = s.loop.currentSegment

theorem Fits.load {a : InFlight} (h : Fits s) (inFlight : s.inFlight = some a)
    (aligned : Aligned s .load) :
    Fits { s with
      inFlight := none
      tracker := s.tracker.recordWrite s.loop.currentSegment a.generation
      records := s.records ++
        [{ submission := a.submission, generation := a.generation,
           segment := s.loop.currentSegment }] } := by
  refine ⟨?_, ?_, fun _ none_left => nomatch none_left⟩
  · intro r member w written same
    rcases List.mem_append.mp member with old | new
    · exact h.attributed r old w written same
    · obtain rfl := List.mem_singleton.mp new
      exact (h.under a inFlight w written same).symm
  · intro running r member i same unwritten
    rcases List.mem_append.mp member with old | new
    · exact h.ahead running r old i same unwritten
    · obtain rfl := List.mem_singleton.mp new
      exact not_not.mp (aligned a inFlight i same unwritten running)

theorem Fits.write {notifiers : List Nat} {entries : List WalEntry} {bytes : Nat} {w : Work}
    (base : Base s) (h : Fits s) (idle : s.work = none)
    (collecting : s.loop.phase = .collecting notifiers entries bytes)
    (writer : w.log.writer.currentSegment = s.loop.log.writer.currentSegment) :
    Fits { s with
      work := some w
      writes := s.writes ++ notifiers.map fun i =>
        { submission := i, segment := s.loop.log.writer.currentSegment } } := by
  have running := collecting_running collecting
  have shown := base.shown idle running
  have log := State.log_idle idle
  refine ⟨?_, ?_, ?_⟩
  · intro r member w' written same
    rcases List.mem_append.mp written with old | new
    · exact h.attributed r member w' old same
    · obtain ⟨i, listed, rfl⟩ := List.mem_map.mp new
      -- the group writes it for the first time
      have unwritten : ¬ s.Written i := by
        apply base.queued.fresh i
        simp only [State.waiting, idle, collecting]
        exact List.mem_append_left _ listed
      rw [h.ahead running r member i same unwritten, log]
  · intro _ r member i same unwritten
    show r.segment = w.log.writer.currentSegment
    rw [writer, ← log]
    apply h.ahead running r member i same
    rintro ⟨w', written, rfl⟩
    exact unwritten ⟨w', List.mem_append_left _ written, rfl⟩
  · intro a inFlight w' written same
    rcases List.mem_append.mp written with old | new
    · exact h.under a inFlight w' old same
    · obtain ⟨i, listed, rfl⟩ := List.mem_map.mp new
      exact shown.symm

theorem fits_step (base : Base s) (h : Fits s) (aligned : Aligned s a) (moved : Moves s a t) :
    Fits t := by
  cases moved with
  | loop cell writer submitted waiting exited busy _ =>
    refine ⟨h.attributed, ?_, ?_⟩
    · intro running r member i same unwritten
      rw [State.log_loop writer]
      exact h.ahead (fun gone => running (exited gone)) r member i same unwritten
    · intro a inFlight w written same
      exact (h.under a inFlight w written same).trans cell.symm
  | empty idle =>
    refine ⟨h.attributed, h.ahead, ?_⟩
    intro a inFlight w written same
    obtain rfl := Option.some.inj inFlight
    cases same
  | sent idle =>
    refine ⟨h.attributed, h.ahead, ?_⟩
    intro a inFlight w written same
    obtain rfl := Option.some.inj inFlight
    have before := (base.writes w written).1
    rw [← Option.some.inj same] at before
    exact absurd before (lt_irrefl _)
  | load inFlight => exact h.load inFlight aligned
  | write idle collecting writer => exact h.write base idle collecting writer
  | @task a w next working writer _ =>
    refine ⟨h.attributed, ?_, h.under⟩
    intro running r member i same unwritten
    show r.segment = next.log.writer.currentSegment
    rw [writer, ← State.log_task working]
    exact h.ahead running r member i same unwritten
  | @rotate syncs creates w next working rotates writer =>
    refine ⟨h.attributed, ?_, h.under⟩
    intro running r member i same unwritten
    rw [← State.log_task working] at rotates
    exact absurd (aligned rotates r member i same) unwritten
  | @publish w notifiers working =>
    obtain ⟨_, _, _, collecting⟩ := base.busy (by simp [working])
    refine ⟨h.attributed, ?_, ?_⟩
    · intro _ r member i same unwritten
      show r.segment = w.log.writer.currentSegment
      rw [← State.log_task working]
      exact h.ahead (collecting_running collecting) r member i same unwritten
    · intro a inFlight w' written same
      rw [h.under a inFlight w' written same, not_not.mp
        (aligned a inFlight _ same ⟨w', written, rfl⟩), State.log_task working]
  | panic working =>
    refine ⟨h.attributed, fun running => absurd ⟨_, rfl⟩ running, ?_⟩
    intro a inFlight w' written same
    exact h.under a inFlight w' written same

/-- An append that is or will be recorded for a wrong segment, if its entries are written. -/
def Lost (s : State) : Prop :=
  (∃ r ∈ s.records, ∃ i, r.submission = some i ∧ ¬ s.Written i ∧
    r.segment < s.log.writer.currentSegment) ∨
  (∃ a, s.inFlight = some a ∧ ∃ w ∈ s.writes, a.submission = some w.submission ∧
    w.segment < s.loop.currentSegment) ∨
  ∃ r ∈ s.records, ∃ w ∈ s.writes, r.submission = some w.submission ∧ r.segment ≠ w.segment

theorem falls (base : Base s) (refused : ¬ Aligned s a) (moved : Moves s a t) : Lost t := by
  cases moved with
  | loop cell writer submitted waiting exited busy aligned => exact absurd aligned refused
  | empty idle => exact absurd trivial refused
  | sent idle => exact absurd trivial refused
  | @load a inFlight =>
    simp only [Aligned, not_forall] at refused
    obtain ⟨a', found, i, same, unwritten, running, behind⟩ := refused
    obtain rfl := Option.some.inj (inFlight.symm.trans found)
    refine Or.inl ⟨_, List.mem_append_right _ (List.mem_singleton_self _), i, same, unwritten, ?_⟩
    exact lt_of_le_of_ne base.cell (not_not.mp behind)
  | write idle collecting writer => exact absurd trivial refused
  | task working writer aligned => exact absurd aligned refused
  | @rotate syncs creates w next working rotates writer =>
    simp only [Aligned, not_forall] at refused
    obtain ⟨-, r, member, i, same, unwritten⟩ := refused
    refine Or.inl ⟨r, member, i, same, unwritten, ?_⟩
    have cell := base.cell
    rw [State.log_task working] at cell
    exact lt_of_le_of_lt ((base.records r member).trans cell)
      (lt_of_lt_of_eq (Nat.lt_succ_self _) writer.symm)
  | @publish w notifiers working =>
    simp only [Aligned, not_forall] at refused
    obtain ⟨a, inFlight, i, same, ⟨w', written, rfl⟩, behind⟩ := refused
    refine Or.inr (Or.inl ⟨a, inFlight, w', written, same, ?_⟩)
    have ahead := lt_of_le_of_ne base.cell (not_not.mp behind)
    rw [State.log_task working] at ahead
    exact lt_of_le_of_lt (base.writes w' written).2 ahead
  | panic working => exact absurd trivial refused

theorem log_moves (moved : Moves s a t) :
    s.log.writer.currentSegment ≤ t.log.writer.currentSegment := by
  cases moved with
  | loop _ writer _ _ _ _ _ => rw [State.log_loop writer]
  | empty _ | sent _ | load _ => exact le_refl _
  | write idle _ writer =>
    rw [State.log_idle idle]
    exact writer.ge
  | task working writer _ =>
    rw [State.log_task working]
    exact writer.ge
  | rotate working _ writer =>
    rw [State.log_task working]
    exact (Nat.le_succ _).trans writer.ge
  | publish working | panic working =>
    rw [State.log_task working]
    exact le_refl _

theorem lost_step (base : Base s) (h : Lost s) (moved : Moves s a t) : Lost t := by
  have later := log_moves moved
  rcases h with ⟨r, member, i, same, unwritten, behind⟩ | ⟨b, inFlight, w, written, same,
    behind⟩ | ⟨r, member, w, written, same, apart⟩
  · -- the entries may be written now, to a later segment
    cases moved with
    | @write cut notifiers entries bytes w idle collecting writer =>
      by_cases listed : i ∈ notifiers
      · refine Or.inr (Or.inr ⟨r, member, _, List.mem_append_right _
          (List.mem_map.mpr ⟨i, listed, rfl⟩), same, ?_⟩)
        rw [State.log_idle idle] at behind
        exact behind.ne
      · refine Or.inl ⟨r, member, i, same, ?_, lt_of_lt_of_le behind later⟩
        rintro ⟨w', found, rfl⟩
        rcases List.mem_append.mp found with old | new
        · exact unwritten ⟨w', old, rfl⟩
        · obtain ⟨j, named, rfl⟩ := List.mem_map.mp new
          exact listed named
    | load _ =>
      exact Or.inl ⟨r, List.mem_append_left _ member, i, same, unwritten, lt_of_lt_of_le behind later⟩
    | _ => exact Or.inl ⟨r, member, i, same, unwritten, lt_of_lt_of_le behind later⟩
  · cases moved with
    | loop cell _ _ _ _ _ _ =>
      exact Or.inr (Or.inl ⟨b, inFlight, w, written, same, lt_of_lt_of_eq behind cell.symm⟩)
    | empty idle | sent idle =>
      rw [idle] at inFlight
      cases inFlight
    | load found =>
      obtain rfl := Option.some.inj (inFlight.symm.trans found)
      exact Or.inr (Or.inr ⟨_, List.mem_append_right _ (List.mem_singleton_self _), w, written,
        same, behind.ne'⟩)
    | write _ _ _ =>
      exact Or.inr (Or.inl ⟨b, inFlight, w, List.mem_append_left _ written, same, behind⟩)
    | task _ _ _ | rotate _ _ _ | panic _ =>
      exact Or.inr (Or.inl ⟨b, inFlight, w, written, same, behind⟩)
    | publish working =>
      have cell := base.cell
      rw [State.log_task working] at cell
      exact Or.inr (Or.inl ⟨b, inFlight, w, written, same, lt_of_lt_of_le behind cell⟩)
  · cases moved with
    | load _ => exact Or.inr (Or.inr ⟨r, List.mem_append_left _ member, w, written, same, apart⟩)
    | write _ _ _ =>
      exact Or.inr (Or.inr ⟨r, member, w, List.mem_append_left _ written, same, apart⟩)
    | _ => exact Or.inr (Or.inr ⟨r, member, w, written, same, apart⟩)

theorem State.Settled.sound (settled : s.Settled) (attributed : s.Attributed) : ¬ Lost s := by
  rintro (⟨r, member, i, same, unwritten, -⟩ | ⟨a, inFlight, -⟩ | ⟨r, member, w, written, same, apart⟩)
  · exact unwritten (settled.2 r member i same)
  · rw [settled.1] at inFlight
    cases inFlight
  · exact apart (attributed r member w written same)

end

theorem start_base {dir : ObjectStore Nat SegmentFile} {config : Config} {s : State}
    (started : start dir config = some s) :
    Base s ∧ Fits s := by
  obtain ⟨loop, begun, rfl⟩ := Option.map_eq_some_iff.mp started
  unfold GroupCommit.start at begun
  split at begun
  · cases begun
  · rename_i writer opened opens
    obtain ⟨segment, found, rfl⟩ := Option.map_eq_some_iff.mp begun
    refine ⟨⟨le_refl _, fun _ _ => rfl, fun busy => absurd rfl busy, ⟨?_, List.nodup_nil, ?_⟩, ?_,
      ?_, ?_⟩, ?_, ?_, ?_⟩
    · exact fun i member => nomatch member
    · exact fun i member => nomatch member
    · exact fun w member => nomatch member
    · exact fun r member => nomatch member
    · intro k g
      constructor
      · exact fun member => nomatch member
      · rintro ⟨r, member, -⟩
        cases member
    · exact fun r member => nomatch member
    · exact fun _ r member => nomatch member
    · exact fun a inFlight => nomatch inFlight

/-- What the task has done so far is the beginning of one commit of the group. -/
def Work.Part (loop : GroupCommit.State) (entries : List WalEntry) (w : Work) : Prop :=
  match w.stage with
  | .rotate => loop.log.writeGroup none entries = (.ok (), w.log)
  | .sync => ∃ disk : Disk, loop.log.appendBatch disk entries = (.ok (), w.log)
  | .publish =>
    ∃ disk : Disk, loop.log.commit disk loop.config.fsyncMode entries = (w.result, w.log)

def Parts (s : State) : Prop :=
  ∀ w ∈ s.work, ∃ notifiers entries bytes, s.loop.phase = .collecting notifiers entries bytes ∧
    w.Part s.loop entries

section
variable {s t : State} {loop : GroupCommit.State} {entries : List WalEntry}

theorem Work.Part.rotated {w : Work} {disk : Disk} {result : FlushResult Unit} {next : Log}
    (part : w.Part loop entries) (stage : w.stage = .rotate) (whole : disk.cut = none)
    (rotated : w.log.rotateFull disk = (result, next)) :
    loop.log.appendBatch disk entries = (result, next) := by
  simp only [Work.Part, stage] at part
  rw [Log.appendBatch_parts, whole, part]
  exact rotated

theorem commit_unsynced {log next : Log} {disk : Disk} {mode : FsyncMode}
    (unsynced : disk.syncs = false) (appended : (log.appendBatch disk entries).2 = next) :
    (log.commit disk mode entries).2 = next := by
  unfold Log.commit
  cases parts : log.appendBatch disk entries with
  | mk result mid =>
  rw [parts] at appended
  subst appended
  cases result with
  | error e => rfl
  | ok =>
    dsimp only
    split
    · rw [unsynced]
      rfl
    · rfl

/-- A task that dies leaves the log as a commit does that fails at the next step. -/
theorem Work.Part.died {w : Work} (part : w.Part loop entries) :
    ∃ disk : Disk, disk.joins = false ∧ (loop.log.commit disk loop.config.fsyncMode entries).2 =
      w.log := by
  cases stage : w.stage with
  | rotate =>
    refine ⟨{ rotateSyncs := false, syncs := false, joins := false }, rfl, commit_unsynced rfl ?_⟩
    have kept : (w.log.rotateFull { rotateSyncs := false, syncs := false, joins := false }).2 =
        w.log := by
      unfold Log.rotateFull
      split <;> rfl
    exact (congrArg Prod.snd (part.rotated stage rfl rfl)).trans kept
  | sync =>
    simp only [Work.Part, stage] at part
    obtain ⟨disk, appended⟩ := part
    refine ⟨{ disk with syncs := false, joins := false }, rfl, commit_unsynced rfl ?_⟩
    exact congrArg Prod.snd appended
  | publish =>
    simp only [Work.Part, stage] at part
    obtain ⟨disk, committed⟩ := part
    exact ⟨{ disk with joins := false }, rfl, congrArg Prod.snd committed⟩

theorem Work.Part.published {w : Work} (part : w.Part loop entries) (stage : w.stage = .publish) :
    ∃ disk : Disk, disk.joins = true ∧ loop.log.commit disk loop.config.fsyncMode entries =
      (w.result, w.log) := by
  simp only [Work.Part, stage] at part
  obtain ⟨disk, committed⟩ := part
  exact ⟨{ disk with joins := true }, rfl, committed⟩

theorem exec_one {b : GroupCommit.Label} {l l' : GroupCommit.State}
    (taken : GroupCommit.step l b = some l') :
    exec GroupCommit.step l [b] = some l' := by
  simp only [exec, taken, Option.bind_some]

/-- While the task runs the loop only waits for it. -/
theorem loopStep_refines {b : GroupCommit.Label} (parts : Parts s)
    (idle : b = .close ∨ s.work = none) (taken : s.loopStep b = some t) :
    Parts t ∧ ∃ labels, exec GroupCommit.step s.loop labels = some t.loop := by
  obtain ⟨loop, stepped, rfl⟩ := Option.map_eq_some_iff.mp taken
  refine ⟨?_, [b], exec_one stepped⟩
  intro w working
  rcases idle with rfl | free
  · obtain rfl := Option.some.inj stepped
    exact parts w working
  · have none_working : some w = none := working.symm.trans free
    cases none_working

/-- The task goes on, and the loop waits for it. -/
theorem part_refines {w : Work} {notifiers : List Nat} {bytes : Nat} (loop : t.loop = s.loop)
    (work : t.work = some w) (collecting : s.loop.phase = .collecting notifiers entries bytes)
    (part : w.Part s.loop entries) :
    Parts t ∧ ∃ labels, exec GroupCommit.step s.loop labels = some t.loop := by
  refine ⟨?_, [], congrArg some loop.symm⟩
  intro v working
  obtain rfl := Option.some.inj (work.symm.trans working)
  rw [loop]
  exact ⟨notifiers, entries, bytes, collecting, part⟩

theorem append_refines {p : PendingCommit} {generation : Nat} (parts : Parts s)
    (taken : append s p generation = some t) :
    Parts t ∧ ∃ labels, exec GroupCommit.step s.loop labels = some t.loop := by
  unfold append at taken
  split at taken
  · cases taken
  split at taken
  · obtain rfl := Option.some.inj taken
    exact ⟨parts, [], rfl⟩
  · rename_i filled
    obtain ⟨loop, sent, rfl⟩ := Option.map_eq_some_iff.mp taken
    split
    · exact ⟨parts, [], rfl⟩
    · rename_i running
      rcases send_sent sent with ⟨result, exited⟩ | ⟨-, grown⟩
      · exact absurd exited (running result)
      refine ⟨?_, ?_⟩
      · intro w working
        rw [grown]
        exact parts w working
      · cases p with
        | single entry => exact ⟨[.submit entry], exec_one sent⟩
        | batch entries =>
          refine ⟨[.submitBatch entries], exec_one ?_⟩
          simp only [GroupCommit.step]
          rw [if_neg (by simpa [PendingCommit.entries] using filled)]
          exact sent

theorem step_refines {a : Label} (base : Base s) (parts : Parts s) (taken : step s a = some t) :
    Parts t ∧ ∃ labels, exec GroupCommit.step s.loop labels = some t.loop := by
  cases a with
  | append p generation => exact append_refines parts taken
  | load =>
    obtain ⟨a, inFlight, rfl⟩ := Option.map_eq_some_iff.mp taken
    exact ⟨parts, [], rfl⟩
  | close => exact loopStep_refines parts (Or.inl rfl) taken
  | recv =>
    exact loopStep_refines parts (Or.inr (base.free (by simp +contextual [GroupCommit.step]) taken)) taken
  | tryRecv =>
    simp only [step] at taken
    split at taken
    · cases taken
    · rename_i free
      exact loopStep_refines parts (Or.inr (by simpa using free)) taken
  | write cut =>
    simp only [step] at taken
    split at taken
    · rename_i notifiers entries bytes free collecting
      obtain rfl := Option.some.inj taken
      refine part_refines rfl rfl collecting ?_
      cases cut with
      | none => exact rfl
      | some whole => exact ⟨{ cut := some whole }, rfl⟩
    · cases taken
  | rotate syncs creates =>
    simp only [step] at taken
    split at taken
    · rename_i log result working
      obtain ⟨notifiers, entries, bytes, collecting, part⟩ := parts _ working
      split at taken
      · rename_i e next rotated
        obtain rfl := Option.some.inj taken
        refine part_refines rfl rfl collecting ⟨{ rotateSyncs := syncs, creates }, ?_⟩
        show Log.commit _ _ entries s.loop.log = _
        unfold Log.commit
        rw [part.rotated rfl rfl rotated]
      · rename_i next rotated
        obtain rfl := Option.some.inj taken
        exact part_refines rfl rfl collecting ⟨{ rotateSyncs := syncs, creates },
          part.rotated rfl rfl rotated⟩
    · cases taken
  | sync syncs =>
    simp only [step] at taken
    split at taken
    · rename_i log result working
      obtain ⟨notifiers, entries, bytes, collecting, disk, appended⟩ := parts _ working
      obtain rfl := Option.some.inj taken
      refine part_refines rfl rfl collecting ⟨{ disk with syncs }, ?_⟩
      have again : s.loop.log.appendBatch { disk with syncs } entries = (.ok (), log) := appended
      show Log.commit _ _ entries s.loop.log = _
      unfold Log.commit
      rw [again]
    · cases taken
  | publish =>
    simp only [step] at taken
    split at taken
    · rename_i log result notifiers entries bytes working collecting
      obtain rfl := Option.some.inj taken
      obtain ⟨_, entries', _, collecting', part⟩ := parts _ working
      obtain ⟨disk, joins, committed⟩ := part.published rfl
      have group := collecting.symm.trans collecting'
      injection group with _ same _
      subst same
      refine ⟨?_, [.commit disk], exec_one ?_⟩
      · intro w none_working
        cases none_working
      simp only [GroupCommit.step, collecting, committed, joins, if_true]
    · cases taken
  | panic =>
    obtain ⟨w, working, rfl⟩ := Option.map_eq_some_iff.mp taken
    obtain ⟨notifiers, entries, bytes, collecting, part⟩ := parts w working
    obtain ⟨disk, joins, committed⟩ := part.died
    refine ⟨?_, [.commit disk], exec_one ?_⟩
    · intro w none_working
      cases none_working
    simp [GroupCommit.step, collecting, committed, joins]
  | notify =>
    exact loopStep_refines parts (Or.inr (base.free (by simp +contextual [GroupCommit.step]) taken)) taken
  | timeout syncs =>
    exact loopStep_refines parts (Or.inr (base.free (by simp +contextual [GroupCommit.step]) taken)) taken
  | disconnect syncs =>
    exact loopStep_refines parts (Or.inr (base.free (by simp +contextual [GroupCommit.step]) taken)) taken

end

/-- The finer steps add nothing: the loop goes through a run of the group commit. -/
theorem loop_refines {dir : ObjectStore Nat SegmentFile} {config : Config} {s₀ s : State}
    {labels : List Label} (started : start dir config = some s₀)
    (run : exec step s₀ labels = some s) :
    ∃ seen, exec GroupCommit.step s₀.loop seen = some s.loop := by
  have sim : ∀ s a t, Base s ∧ Parts s → step s a = some t →
      (Base t ∧ Parts t) ∧ ∃ seen, exec GroupCommit.step s.loop seen = some t.loop := by
    rintro s a t ⟨base, parts⟩ taken
    obtain ⟨parts', seen⟩ := step_refines base parts taken
    exact ⟨⟨base_step base (step_moves base taken), parts'⟩, seen⟩
  refine exec_refines sim ⟨(start_base started).1, ?_⟩ run
  obtain ⟨loop, -, rfl⟩ := Option.map_eq_some_iff.mp started
  exact fun w none_working => nomatch none_working

/-- In every run the tracker has the segment that each append read. It is the segment of the entries
when every step was aligned; and when all entries are written, only then. -/
theorem recorded_where_written {dir : ObjectStore Nat SegmentFile} {config : Config} {s₀ s : State}
    {labels : List Label} (started : start dir config = some s₀)
    (run : exec step s₀ labels = some s) :
    (∀ k g, g ∈ s.tracker.dirtyGenerationIds k ↔ ∃ r ∈ s.records, r.segment = k ∧ r.generation = g) ∧
      (Admits step Aligned s₀ labels → s.Attributed) ∧
        (s.Settled → s.Attributed → Admits step Aligned s₀ labels) := by
  obtain ⟨base, fits⟩ := start_base started
  have keep : ∀ s a t, Base s → step s a = some t → Base t :=
    fun s a t base taken => base_step base (step_moves base taken)
  refine ⟨(exec_keeps keep base run).tracker, ?_, ?_⟩
  · intro admitted
    have both : ∀ s a t, Base s ∧ Fits s → Aligned s a → step s a = some t → Base t ∧ Fits t := by
      rintro s a t ⟨base, fits⟩ aligned taken
      have moved := step_moves base taken
      exact ⟨base_step base moved, fits_step base fits aligned moved⟩
    exact (exec_invariant both ⟨base, fits⟩ admitted run).2.attributed
  · intro settled attributed
    have lose : ∀ s a t, Base s → ¬ Aligned s a → step s a = some t → Base t ∧ Lost t := by
      intro s a t base refused taken
      have moved := step_moves base taken
      exact ⟨base_step base moved, falls base refused moved⟩
    have stay : ∀ s a t, Base s ∧ Lost s → step s a = some t → Base t ∧ Lost t := by
      rintro s a t ⟨base, lost⟩ taken
      have moved := step_moves base taken
      exact ⟨base_step base moved, lost_step base lost moved⟩
    exact admits_of_end keep lose stay base run fun lost => settled.sound attributed lost.2

section Example

/-- The first append rotates the segment after it has been recorded; the second comes when the
rotation is published. -/
def aroundRotation : List Label :=
  [.append (.single sampleWrite) 1, .recv, .load, .write none, .rotate true true, .sync true,
    .publish, .notify, .notify,
    .append (.batch [sampleWrite, sampleWrite]) 2, .load, .recv, .write none]

theorem recorded_where_written_around :
    ∃ s₀ s, start ObjectStore.empty { wal := { segmentSizeTarget := 50 } } = some s₀ ∧
      exec step s₀ aroundRotation = some s ∧
      s.Attributed ∧ s.writes.map Write.segment = [1, 2] ∧ 2 ∈ s.tracker.dirtyGenerationIds 2 := by
  have holds := @recorded_where_written ObjectStore.empty
    { wal := { segmentSizeTarget := 50 } } _ _ aroundRotation rfl rfl
  refine ⟨_, _, rfl, rfl, holds.2.1
    (by decide), rfl, (holds.1 2 2).mpr ⟨_, List.mem_cons_of_mem _ List.mem_cons_self, rfl, rfl⟩⟩

/-- The second append reads the cell while its entries are behind a group that rotates the
segment. -/
def behindRotation : List Label :=
  [.append (.single sampleWrite) 1, .recv, .load, .append (.single sampleWrite) 2, .load,
    .write none, .rotate true true,
    .sync true, .publish, .notify, .notify, .recv, .write none]

theorem behindRotation_misattributed :
    ∃ s₀ s, start ObjectStore.empty { wal := { segmentSizeTarget := 50 } } = some s₀ ∧
      exec step s₀ behindRotation = some s ∧
      ¬ s.Attributed ∧ ((s.log.dir.get 2).map fun file => file.segment.entries.length) = some 1 ∧
      s.tracker.dirtyGenerationIds 1 = [2, 1] ∧ s.tracker.dirtyGenerationIds 2 = [] := by
  refine ⟨_, _, rfl, rfl, ?_, rfl, rfl, rfl⟩
  decide

end Example
end Recording

end FlushDB.GroupCommit
