import Mathlib.Data.List.MinMax
import Mathlib.Data.List.Sort
import FlushDB.Lib.ObjectStore
import FlushDB.Lib.Run
import FlushDB.Lib.Sweep
import FlushDB.Types.Key

/-!
The continuity tracker: per record the key ranges that have been read completely, each with the
manifest it was read under. Ranges that overlap or touch are joined into one under the greatest of
their manifests, which claims more than the parts did when these were read under different ones.
-/

namespace FlushDB
open Lib

/-- The keys from `startKey` to below `endKey`; an empty bound is an open end. -/
structure ContinuityInterval where
  startKey : Bytes
  endKey : Bytes
  manifestId : Nat
  deriving DecidableEq, Repr

namespace ContinuityInterval

def keyInRange (key : Bytes) (i : ContinuityInterval) : Bool :=
  (i.startKey.isEmpty || i.startKey ≤ key) && (i.endKey.isEmpty || key < i.endKey)

def overlapsOrAdjacent (a b : ContinuityInterval) : Bool :=
  (a.endKey.isEmpty || b.startKey.isEmpty || b.startKey ≤ a.endKey) &&
    (b.endKey.isEmpty || a.startKey.isEmpty || a.startKey ≤ b.endKey)

def mergedBounds (a b : ContinuityInterval) : Bytes × Bytes :=
  (if a.startKey.isEmpty || b.startKey.isEmpty then .new else if a.startKey ≤ b.startKey then
    a.startKey else b.startKey,
    if a.endKey.isEmpty || b.endKey.isEmpty then .new else if b.endKey ≤ a.endKey then a.endKey
      else b.endKey)

def join (last interval : ContinuityInterval) : ContinuityInterval where
  startKey := (mergedBounds last interval).1
  endKey := (mergedBounds last interval).2
  manifestId := max last.manifestId interval.manifestId

/-- The order of the sort: open starts come first. -/
def startsBefore (a b : ContinuityInterval) : Bool :=
  if a.startKey.isEmpty && !b.startKey.isEmpty then true
  else if !a.startKey.isEmpty && b.startKey.isEmpty then false
  else a.startKey ≤ b.startKey

def mergeIntervals (intervals : List ContinuityInterval) : List ContinuityInterval :=
  if intervals.length ≤ 1 then intervals
  else
    match intervals.insertionSort fun a b => startsBefore a b with
    | [] => []
    | first :: rest => sweep overlapsOrAdjacent join first rest

/-- The intervals that are joined with each other. -/
def joined (intervals : List ContinuityInterval) : List (List ContinuityInterval) :=
  match intervals.insertionSort fun a b => startsBefore a b with
  | [] => []
  | first :: rest => (gather overlapsOrAdjacent join first [first] rest).map Prod.snd

theorem isEmpty_iff {b : Bytes} : b.isEmpty = true ↔ b = .new := by
  obtain ⟨data⟩ := b
  cases data with
  | nil => exact ⟨fun _ => rfl, fun _ => rfl⟩
  | cons x rest => exact ⟨nofun, nofun⟩

theorem new_le (b : Bytes) : Bytes.new ≤ b := by
  refine not_lt.mp ?_
  show ¬ b.data < []
  exact List.not_lt_nil b.data

theorem le_new {b : Bytes} : b ≤ .new ↔ b = .new :=
  ⟨fun le => le_antisymm le (new_le b), fun same => same.le⟩

/-- A key is below an end that is open or greater. -/
def Below (key endKey : Bytes) : Prop := endKey = .new ∨ key < endKey

theorem keyInRange_iff {key : Bytes} {i : ContinuityInterval} :
    keyInRange key i = true ↔ i.startKey ≤ key ∧ Below key i.endKey := by
  unfold keyInRange Below
  rw [Bool.and_eq_true, Bool.or_eq_true, Bool.or_eq_true, isEmpty_iff, isEmpty_iff,
    decide_eq_true_eq, decide_eq_true_eq]
  refine and_congr ⟨?_, Or.inr⟩ Iff.rfl
  rintro (opened | le)
  · rw [opened]
    exact new_le key
  · exact le

theorem startsBefore_iff {a b : ContinuityInterval} :
    startsBefore a b = true ↔ a.startKey ≤ b.startKey := by
  unfold startsBefore
  split
  · rename_i first
    rw [Bool.and_eq_true, isEmpty_iff] at first
    rw [first.1]
    exact ⟨fun _ => new_le _, fun _ => rfl⟩
  · split
    · rename_i second
      rw [Bool.and_eq_true, Bool.not_eq_true', isEmpty_iff] at second
      rw [second.2, le_new, ← isEmpty_iff, second.1]
    · exact decide_eq_true_iff

theorem sorted_starts (intervals : List ContinuityInterval) :
    (intervals.insertionSort fun a b => startsBefore a b).Pairwise fun a b =>
      a.startKey ≤ b.startKey := by
  have total : Std.Total fun a b => startsBefore a b = true := by
    refine ⟨fun a b => ?_⟩
    rw [startsBefore_iff, startsBefore_iff]
    exact le_total _ _
  have trans : IsTrans ContinuityInterval fun a b => startsBefore a b = true :=
    ⟨fun a b c first second =>
      startsBefore_iff.mpr ((startsBefore_iff.mp first).trans (startsBefore_iff.mp second))⟩
  exact (List.pairwise_insertionSort _ intervals).imp startsBefore_iff.mp

theorem join_start {a b : ContinuityInterval} (before : a.startKey ≤ b.startKey) :
    (join a b).startKey = a.startKey := by
  show (if a.startKey.isEmpty || b.startKey.isEmpty then Bytes.new else
    if a.startKey ≤ b.startKey then a.startKey else b.startKey) = _
  split
  · rename_i opened
    rw [Bool.or_eq_true, isEmpty_iff, isEmpty_iff] at opened
    rcases opened with first | second
    · exact first.symm
    · rw [second] at before
      exact (le_new.mp before).symm
  · rfl

theorem below_join {key : Bytes} {a b : ContinuityInterval} :
    Below key (join a b).endKey ↔ Below key a.endKey ∨ Below key b.endKey := by
  show Below key (if a.endKey.isEmpty || b.endKey.isEmpty then Bytes.new
    else if b.endKey ≤ a.endKey then a.endKey else b.endKey) ↔ _
  unfold Below
  split
  · rename_i opened
    rw [Bool.or_eq_true, isEmpty_iff, isEmpty_iff] at opened
    refine ⟨fun _ => opened.imp Or.inl Or.inl, fun _ => Or.inl rfl⟩
  · rename_i closed
    rw [Bool.or_eq_true, isEmpty_iff, isEmpty_iff, not_or] at closed
    simp only [closed.1, closed.2, false_or]
    split
    · rename_i le
      simp only [closed.1, false_or]
      exact ⟨Or.inl, fun either => either.elim id fun less => less.trans_le le⟩
    · rename_i greater
      simp only [closed.2, false_or]
      exact ⟨Or.inr, fun either => either.elim (fun less => less.trans (not_le.mp greater)) id⟩

/-- Joining what overlaps or touches adds no key. -/
theorem keyInRange_join {key : Bytes} {a b : ContinuityInterval} (before : a.startKey ≤ b.startKey)
    (touch : overlapsOrAdjacent a b = true) :
    keyInRange key (join a b) = true ↔ keyInRange key a = true ∨ keyInRange key b = true := by
  rw [keyInRange_iff, keyInRange_iff, keyInRange_iff, join_start before, below_join]
  constructor
  · rintro ⟨from_start, in_first | in_second⟩
    · exact Or.inl ⟨from_start, in_first⟩
    · by_cases first : Below key a.endKey
      · exact Or.inl ⟨from_start, first⟩
      · right
        refine ⟨?_, in_second⟩
        unfold Below at first
        rw [not_or, not_lt] at first
        unfold overlapsOrAdjacent at touch
        rw [Bool.and_eq_true, Bool.or_eq_true, Bool.or_eq_true, isEmpty_iff, isEmpty_iff,
          decide_eq_true_eq] at touch
        rcases touch.1 with (opened | opened) | le
        · exact absurd opened first.1
        · rw [opened]
          exact new_le key
        · exact le.trans first.2
  · rintro (⟨from_start, below⟩ | ⟨from_start, below⟩)
    · exact ⟨from_start, Or.inl below⟩
    · exact ⟨before.trans from_start, Or.inr below⟩

/-- A whole has the keys of its parts and the greatest of their manifests. -/
structure Whole (whole : ContinuityInterval) (parts : List ContinuityInterval) : Prop where
  keys : ∀ key, keyInRange key whole = true ↔ ∃ part ∈ parts, keyInRange key part = true
  greatest : ∀ part ∈ parts, part.manifestId ≤ whole.manifestId
  attained : ∃ part ∈ parts, part.manifestId = whole.manifestId

theorem whole_single (i : ContinuityInterval) : Whole i [i] := by
  refine ⟨?_, ?_, i, List.mem_singleton_self i, rfl⟩
  · intro key
    simp
  · intro part member
    rw [List.mem_singleton.mp member]

theorem whole_join {whole x : ContinuityInterval} {parts : List ContinuityInterval}
    (made : Whole whole parts) (before : whole.startKey ≤ x.startKey)
    (touch : overlapsOrAdjacent whole x = true) : Whole (join whole x) (parts ++ [x]) := by
  refine ⟨?_, ?_, ?_⟩
  · intro key
    rw [keyInRange_join before touch, made.keys key]
    simp only [List.mem_append, List.mem_singleton, or_and_right, exists_or, exists_eq_left]
  · intro part member
    show part.manifestId ≤ max whole.manifestId x.manifestId
    rcases List.mem_append.mp member with old | new
    · exact (made.greatest part old).trans (le_max_left _ _)
    · rw [List.mem_singleton.mp new]
      exact le_max_right _ _
  · rcases le_total x.manifestId whole.manifestId with older | newer
    · obtain ⟨part, member, same⟩ := made.attained
      exact ⟨part, List.mem_append_left _ member, same.trans (max_eq_left older).symm⟩
    · exact ⟨x, List.mem_append_right _ (List.mem_singleton_self x), (max_eq_right newer).symm⟩

/-- What `merge_intervals` leaves: one whole for each group that it joins. -/
theorem mergeIntervals_spec (intervals : List ContinuityInterval) :
    (∀ whole ∈ mergeIntervals intervals, ∃ parts ∈ joined intervals, Whole whole parts) ∧
      (∀ parts ∈ joined intervals, ∃ whole ∈ mergeIntervals intervals, Whole whole parts) ∧
      ∀ parts ∈ joined intervals, parts ⊆ intervals := by
  unfold joined
  cases sort : intervals.insertionSort fun a b => startsBefore a b with
  | nil =>
    have none : intervals = [] := by simpa using congrArg List.length sort
    rw [none]
    exact ⟨nofun, nofun, nofun⟩
  | cons first rest =>
    have sorted := sorted_starts intervals
    have members : ∀ i, i ∈ first :: rest ↔ i ∈ intervals := by
      intro i
      rw [← sort]
      exact List.mem_insertionSort _
    rw [sort] at sorted
    have wholes := @gather_rule _ overlapsOrAdjacent join
      (fun a b => a.startKey ≤ b.startKey) Whole whole_single
      (fun _ _ _ => whole_join) (fun _ _ _ before le => (join_start before).trans_le le) _ _ _
        (whole_single first) sorted
    have merged : mergeIntervals intervals = (gather overlapsOrAdjacent join first [first] rest).map
        Prod.fst := by
      unfold mergeIntervals
      split
      · rename_i short
        obtain ⟨i, rfl⟩ : ∃ i, intervals = [i] := by
          cases intervals with
          | nil => cases sort
          | cons i more =>
            cases more with
            | nil => exact ⟨i, rfl⟩
            | cons j others => exact absurd short (by simp)
        cases sort
        rfl
      · rw [sort, map_gather]
    rw [merged]
    refine ⟨?_, ?_, ?_⟩
    · intro whole member
      obtain ⟨group, made, rfl⟩ := List.mem_map.mp member
      exact ⟨group.2, List.mem_map_of_mem made, wholes group made⟩
    · intro parts member
      obtain ⟨group, made, rfl⟩ := List.mem_map.mp member
      exact ⟨group.1, List.mem_map_of_mem made, wholes group made⟩
    · intro parts member i inside
      obtain ⟨group, made, rfl⟩ := List.mem_map.mp member
      have all := flatMap_gather overlapsOrAdjacent join first [first] rest
      rw [← members i, ← List.singleton_append, ← all]
      exact List.mem_flatMap.mpr ⟨group, made, inside⟩

theorem length_mergeIntervals_le (intervals : List ContinuityInterval) :
    (mergeIntervals intervals).length ≤ intervals.length := by
  unfold mergeIntervals
  split
  · exact le_refl _
  · have length := List.length_insertionSort (fun a b => startsBefore a b) intervals
    cases sort : intervals.insertionSort fun a b => startsBefore a b with
    | nil => exact Nat.zero_le _
    | cons first rest =>
      rw [← length, sort]
      exact length_sweep_le _ _ first rest

end ContinuityInterval

/-- An order in which a hash map is iterated. -/
structure Iteration where
  order : List (Bytes × List ContinuityInterval) → List (Bytes × List ContinuityInterval)
  perm : ∀ entries, (order entries).Perm entries

def Iteration.stored : Iteration := ⟨id, fun _ => .refl _⟩

structure ContinuityTracker where
  intervals : ObjectStore Bytes (List ContinuityInterval) := ObjectStore.empty
  enabled : Bool := true
  maxRecords : Nat := 10000
  maxIntervalsPerRecord : Nat := 100

namespace ContinuityTracker
open ContinuityInterval

/-- The intervals of a record. -/
def of (t : ContinuityTracker) (recordId : Bytes) : List ContinuityInterval :=
  (t.intervals.get recordId).getD []

def isKnownAbsent (recordId itemKey : Bytes) (currentManifestId : Nat) (t : ContinuityTracker) :
    Bool :=
  t.enabled && (t.of recordId).any fun i => decide (i.manifestId = currentManifestId) && keyInRange itemKey i

/-- The intervals of the oldest manifests go first. -/
def limitIntervals (limit : Nat) (intervals : List ContinuityInterval) : List ContinuityInterval :=
  if intervals.length ≤ limit then intervals
  else (intervals.insertionSort fun a b => a.manifestId ≤ b.manifestId).drop (intervals.length - limit)

def oldestManifest (entry : Bytes × List ContinuityInterval) : Nat :=
  ((entry.2.map manifestId).min?).getD 0

/-- Removes the record with the oldest interval until few enough are left. -/
def enforceMaxRecords (iteration : Iteration) (limit : Nat) :
    Nat → ObjectStore Bytes (List ContinuityInterval) → ObjectStore Bytes (List ContinuityInterval)
  | 0, intervals => intervals
  | fuel + 1, intervals =>
    if intervals.objects.length ≤ limit then intervals
    else
      match (iteration.order intervals.objects).argmin oldestManifest with
      | some entry => enforceMaxRecords iteration limit fuel (intervals.delete entry.1)
      | none => intervals

def markRangeComplete (iteration : Iteration) (recordId startKey endKey : Bytes) (manifestId : Nat)
    (t : ContinuityTracker) :
    ContinuityTracker :=
  if t.enabled then
    let merged := mergeIntervals (t.of recordId ++ [⟨startKey, endKey, manifestId⟩])
    let intervals := t.intervals.put recordId (limitIntervals t.maxIntervalsPerRecord merged)
    { t with intervals := enforceMaxRecords iteration t.maxRecords intervals.objects.length intervals }
  else t

def invalidateForRecord (recordId : Bytes) (t : ContinuityTracker) : ContinuityTracker :=
  { t with intervals := t.intervals.delete recordId }

def invalidateBeforeManifest (manifestId : Nat) (t : ContinuityTracker) : ContinuityTracker :=
  { t with
    intervals := (t.intervals.mapValues fun intervals =>
      intervals.filter fun i => manifestId ≤ i.manifestId).retain
      fun _ intervals => !intervals.isEmpty }

def invalidateAll (t : ContinuityTracker) : ContinuityTracker :=
  { t with intervals := ObjectStore.empty }

section Calls
variable {t : ContinuityTracker}

theorem limitIntervals_subset (limit : Nat) (intervals : List ContinuityInterval) :
    limitIntervals limit intervals ⊆ intervals := by
  unfold limitIntervals
  split
  · exact List.Subset.refl _
  · intro i member
    exact (List.mem_insertionSort _).mp (List.mem_of_mem_drop member)

theorem length_delete_lt {intervals : ObjectStore Bytes (List ContinuityInterval)}
    {entry : Bytes × List ContinuityInterval} (member : entry ∈ intervals.objects) :
    (intervals.delete entry.1).objects.length < intervals.objects.length :=
  List.length_filter_lt_length_iff_exists.mpr ⟨entry, member, by simp⟩

/-- The limit only removes records, and it is met. -/
theorem enforceMaxRecords_spec (iteration : Iteration) (limit fuel : Nat)
    {intervals : ObjectStore Bytes (List ContinuityInterval)}
    (enough : intervals.objects.length ≤ fuel) :
    (enforceMaxRecords iteration limit fuel intervals).objects.length ≤ limit ∧
      ∀ r is, (enforceMaxRecords iteration limit fuel intervals).get r = some is →
        intervals.get r = some is := by
  induction fuel generalizing intervals with
  | zero => exact ⟨enough.trans (Nat.zero_le _), fun r is found => found⟩
  | succ fuel ih =>
    unfold enforceMaxRecords
    split
    · rename_i few
      exact ⟨few, fun r is found => found⟩
    · rename_i many
      split
      · rename_i entry oldest
        have member := (iteration.perm _).mem_iff.mp (List.argmin_mem oldest)
        have fewer := length_delete_lt member
        obtain ⟨met, kept⟩ := @ih (intervals.delete entry.1) (by omega)
        exact ⟨met, fun r is found => ObjectStore.get_of_delete (kept r is found)⟩
      · rename_i none
        have empty := (iteration.perm _).length_eq.symm.trans
          (congrArg List.length (List.argmin_eq_none.mp none))
        rw [List.length_nil] at empty
        omega

/-- What a mark leaves of the map: of the record at most the joined intervals, of others at most
what they had. -/
theorem markRangeComplete_get {iteration : Iteration} {recordId startKey endKey : Bytes}
    {manifestId : Nat} {r : Bytes} {is : List ContinuityInterval} (enabled : t.enabled = true)
    (found : (markRangeComplete iteration recordId startKey endKey manifestId t).intervals.get r = some is) :
    (r = recordId ∧ is ⊆ mergeIntervals (t.of recordId ++ [⟨startKey, endKey, manifestId⟩])) ∨
      t.intervals.get r = some is := by
  unfold markRangeComplete at found
  rw [if_pos enabled] at found
  have before := (enforceMaxRecords_spec iteration t.maxRecords _ (le_refl _)).2 r is found
  rw [ObjectStore.get_put] at before
  split at before
  · rename_i same
    obtain rfl := Option.some.inj before
    exact Or.inl ⟨same, limitIntervals_subset _ _⟩
  · exact Or.inr before

/-- Below both limits all joined intervals are kept. -/
theorem markRangeComplete_of {iteration : Iteration} {recordId startKey endKey : Bytes}
    {manifestId : Nat} (enabled : t.enabled = true)
    (few : (t.of recordId).length < t.maxIntervalsPerRecord)
    (room : t.intervals.objects.length < t.maxRecords) :
    (markRangeComplete iteration recordId startKey endKey manifestId t).of recordId =
      mergeIntervals (t.of recordId ++ [⟨startKey, endKey, manifestId⟩]) := by
  have short : (mergeIntervals (t.of recordId ++ [⟨startKey, endKey, manifestId⟩])).length ≤
      t.maxIntervalsPerRecord := by
    refine (length_mergeIntervals_le _).trans ?_
    rw [List.length_append, List.length_singleton]
    exact few
  have stored : ∀ is, (t.intervals.put recordId is).objects.length ≤ t.maxRecords := by
    intro is
    have := List.length_filter_le (fun pair : Bytes × List ContinuityInterval => pair.1 ≠ recordId)
      t.intervals.objects
    simp only [ObjectStore.put, ObjectStore.delete, List.length_cons]
    omega
  have kept : ∀ {fuel : Nat} {intervals : ObjectStore Bytes (List ContinuityInterval)},
      intervals.objects.length ≤ t.maxRecords →
      enforceMaxRecords iteration t.maxRecords fuel intervals = intervals := by
    intro fuel intervals fits
    cases fuel with
    | zero => rfl
    | succ fuel => rw [enforceMaxRecords, if_pos fits]
  unfold markRangeComplete
  rw [if_pos enabled]
  show ((enforceMaxRecords iteration t.maxRecords _ _).get recordId).getD [] = _
  rw [kept (stored _), ObjectStore.get_put_self, Option.getD_some, limitIntervals, if_pos short]

theorem invalidateBeforeManifest_get {manifestId : Nat} {r : Bytes} {is : List ContinuityInterval}
    (found : (invalidateBeforeManifest manifestId t).intervals.get r = some is) :
    ∃ before, t.intervals.get r = some before ∧ ∀ i ∈ is, i ∈ before ∧
      manifestId ≤ i.manifestId := by
  have held := (ObjectStore.get_retain.mp found).1
  rw [ObjectStore.get_mapValues] at held
  obtain ⟨before, stored, rfl⟩ := Option.map_eq_some_iff.mp held
  refine ⟨before, stored, ?_⟩
  intro i member
  obtain ⟨inside, recent⟩ := List.mem_filter.mp member
  exact ⟨inside, of_decide_eq_true recent⟩

end Calls

end ContinuityTracker

/-- A tracker and the marks that have not been invalidated since. -/
structure ContinuityMarks where
  tracker : ContinuityTracker
  marks : List (Bytes × ContinuityInterval) := []

namespace ContinuityMarks
open ContinuityInterval

inductive Label where
  | markRangeComplete (iteration : Iteration) (recordId startKey endKey : Bytes) (manifestId : Nat)
  | invalidateForRecord (recordId : Bytes)
  | invalidateBeforeManifest (manifestId : Nat)
  | invalidateAll

def step (s : ContinuityMarks) : Label → Option ContinuityMarks
  | .markRangeComplete iteration recordId startKey endKey manifestId => some
    { tracker := s.tracker.markRangeComplete iteration recordId startKey endKey manifestId
      marks := (recordId, ⟨startKey, endKey, manifestId⟩) :: s.marks }
  | .invalidateForRecord recordId => some
    { tracker := s.tracker.invalidateForRecord recordId,
      marks := s.marks.filter fun mark => mark.1 ≠ recordId }
  | .invalidateBeforeManifest manifestId => some
    { tracker := s.tracker.invalidateBeforeManifest manifestId
      marks := s.marks.filter fun mark => manifestId ≤ mark.2.manifestId }
  | .invalidateAll => some { tracker := s.tracker.invalidateAll, marks := [] }

/-- A mark of the record, made with exactly this manifest and not invalidated since, contains the
key. -/
def Marked (marks : List (Bytes × ContinuityInterval)) (recordId key : Bytes) (manifestId : Nat) :
    Prop :=
  ∃ mark ∈ marks, mark.1 = recordId ∧ mark.2.manifestId = manifestId ∧ keyInRange key mark.2 = true

/-- What is known to be absent has been marked. -/
def Justified (s : ContinuityMarks) : Prop :=
  ∀ recordId key manifestId, s.tracker.isKnownAbsent recordId key manifestId = true →
    Marked s.marks recordId key manifestId

/-- Every key that a mark joins to ranges of a later manifest has been marked with the greatest of
the manifests that are joined. -/
def Covered (s : ContinuityMarks) : Label → Prop
  | .markRangeComplete _ recordId startKey endKey manifestId =>
    ∀ parts ∈ joined (s.tracker.of recordId ++ [⟨startKey, endKey, manifestId⟩]), ∀ top ∈ parts,
      (∀ part ∈ parts, part.manifestId ≤ top.manifestId) →
        ∀ part ∈ parts, part.manifestId < top.manifestId →
        ∀ key, keyInRange key part = true →
          Marked ((recordId, ⟨startKey, endKey, manifestId⟩) :: s.marks) recordId key top.manifestId
  | .invalidateForRecord _ | .invalidateBeforeManifest _ | .invalidateAll => True

/-- The keys of every interval have been marked with its manifest. -/
def Backed (s : ContinuityMarks) : Prop :=
  ∀ recordId intervals, s.tracker.intervals.get recordId = some intervals →
    ∀ i ∈ intervals, ∀ key, keyInRange key i = true →
    Marked s.marks recordId key i.manifestId

theorem isKnownAbsent_iff {t : ContinuityTracker} {recordId key : Bytes} {manifestId : Nat} :
    t.isKnownAbsent recordId key manifestId = true ↔
      t.enabled = true ∧ ∃ i ∈ t.of recordId, i.manifestId = manifestId ∧
        keyInRange key i = true := by
  unfold ContinuityTracker.isKnownAbsent
  rw [Bool.and_eq_true, List.any_eq_true]
  simp only [Bool.and_eq_true, decide_eq_true_eq]

theorem Backed.of {s : ContinuityMarks} (backed : Backed s) {recordId : Bytes}
    {i : ContinuityInterval} (member : i ∈ s.tracker.of recordId) {key : Bytes}
    (inside : keyInRange key i = true) : Marked s.marks recordId key i.manifestId := by
  unfold ContinuityTracker.of at member
  cases found : s.tracker.intervals.get recordId with
  | none =>
    rw [found] at member
    cases member
  | some intervals =>
    rw [found] at member
    exact backed recordId intervals found i member key inside

theorem Backed.justified {s : ContinuityMarks} (backed : Backed s) : Justified s := by
  intro recordId key manifestId absent
  obtain ⟨-, i, member, rfl, inside⟩ := isKnownAbsent_iff.mp absent
  exact backed.of member inside

theorem Marked.mono {marks more : List (Bytes × ContinuityInterval)} {recordId key : Bytes}
    {manifestId : Nat} (h : Marked marks recordId key manifestId)
    (kept : ∀ mark ∈ marks, mark.1 = recordId → mark.2.manifestId = manifestId → mark ∈ more) :
    Marked more recordId key manifestId := by
  obtain ⟨mark, member, record, same, inside⟩ := h
  exact ⟨mark, kept mark member record same, record, same, inside⟩

/-- The keys of a group are marked with its greatest manifest: those of its greatest parts by what
is known of the parts, the others by the condition. -/
theorem marked_of_joined {s : ContinuityMarks} (backed : Backed s) {iteration : Iteration}
    {recordId startKey endKey : Bytes} {manifestId : Nat}
    (covered : Covered s (.markRangeComplete iteration recordId startKey endKey manifestId))
    {whole : ContinuityInterval} {parts : List ContinuityInterval}
    (group : parts ∈ joined (s.tracker.of recordId ++ [⟨startKey, endKey, manifestId⟩]))
    (made : Whole whole parts) {key : Bytes} (inside : keyInRange key whole = true) :
    Marked ((recordId, ⟨startKey, endKey, manifestId⟩) :: s.marks) recordId key whole.manifestId := by
  obtain ⟨part, member, held⟩ := (made.keys key).mp inside
  obtain ⟨top, at_top, same⟩ := made.attained
  rcases Nat.lt_or_eq_of_le (made.greatest part member) with older | equal
  · rw [← same] at older ⊢
    exact covered parts group top at_top (fun other inside' =>
      (made.greatest other inside').trans same.ge) part member older key held
  · rw [← equal]
    rcases List.mem_append.mp ((mergeIntervals_spec _).2.2 parts group member) with old | new
    · exact (backed.of old held).mono fun mark marked _ _ => List.mem_cons_of_mem _ marked
    · rw [List.mem_singleton.mp new] at held ⊢
      exact ⟨_, List.mem_cons_self, rfl, rfl, held⟩

theorem backed_step {s s' : ContinuityMarks} {a : Label} (backed : Backed s) (covered : Covered s a)
    (taken : step s a = some s') :
    Backed s' := by
  cases a with
  | markRangeComplete iteration recordId startKey endKey manifestId =>
    obtain rfl := Option.some.inj taken
    intro r is found i member key inside
    have older : ∀ before, s.tracker.intervals.get r = some before → i ∈ before →
        Marked ((recordId, ⟨startKey, endKey, manifestId⟩) :: s.marks) r key i.manifestId :=
          fun before stored there =>
      (backed r before stored i there key inside).mono fun mark marked _ _ =>
        List.mem_cons_of_mem _ marked
    by_cases enabled : s.tracker.enabled = true
    · rcases ContinuityTracker.markRangeComplete_get enabled found with ⟨rfl, subset⟩ | before
      · obtain ⟨parts, group, made⟩ := (mergeIntervals_spec _).1 i (subset member)
        exact marked_of_joined backed covered group made inside
      · exact older is before member
    · have same : s.tracker.markRangeComplete iteration recordId startKey endKey manifestId =
          s.tracker := by
        rw [ContinuityTracker.markRangeComplete, if_neg enabled]
      rw [same] at found
      exact older is found member
  | invalidateForRecord recordId =>
    obtain rfl := Option.some.inj taken
    intro r is found i member key inside
    replace found : (s.tracker.intervals.delete recordId).get r = some is := found
    rw [ObjectStore.get_delete] at found
    split at found
    · cases found
    · rename_i other
      refine (backed r is found i member key inside).mono fun mark marked record _ =>
        List.mem_filter.mpr ⟨marked, ?_⟩
      exact decide_eq_true (record.trans_ne other)
  | invalidateBeforeManifest manifestId =>
    obtain rfl := Option.some.inj taken
    intro r is found i member key inside
    obtain ⟨before, stored, held⟩ := ContinuityTracker.invalidateBeforeManifest_get found
    obtain ⟨there, recent⟩ := held i member
    refine (backed r before stored i there key inside).mono fun mark marked _ same =>
      List.mem_filter.mpr ⟨marked, ?_⟩
    exact decide_eq_true (recent.trans same.ge)
  | invalidateAll =>
    obtain rfl := Option.some.inj taken
    intro r is found
    cases found

/-- In every run whose marks join ranges of different manifests only where the greatest of them has
been marked for all their keys, what is known to be absent has been marked; and at a mark below the
limits the condition is necessary. -/
theorem known_absent_justified (tracker : ContinuityTracker)
    (empty : tracker.intervals = ObjectStore.empty) {labels : List Label} {s : ContinuityMarks}
    (admitted : Admits step Covered { tracker } labels)
    (run : exec step { tracker } labels = some s) :
    Justified s ∧
      ∀ (iteration : Iteration) (recordId startKey endKey : Bytes) (manifestId : Nat),
        s.tracker.enabled = true →
        (s.tracker.of recordId).length < s.tracker.maxIntervalsPerRecord →
          s.tracker.intervals.objects.length < s.tracker.maxRecords →
          ∃ s', step s (.markRangeComplete iteration recordId startKey endKey manifestId) = some s' ∧
            (Justified s' ↔ Covered s (.markRangeComplete iteration recordId startKey endKey manifestId)) := by
  have start : Backed { tracker } := by
    intro r is found
    rw [show ({ tracker } : ContinuityMarks).tracker.intervals = ObjectStore.empty from empty] at found
    cases found
  have backed : Backed s := exec_invariant (fun _ _ _ => backed_step) start admitted run
  refine ⟨backed.justified, ?_⟩
  intro iteration recordId startKey endKey manifestId enabled few room
  refine ⟨_, rfl, ?_, fun covered => (backed_step backed covered rfl).justified⟩
  intro justified parts group top member greatest part inside older key held
  obtain ⟨whole, kept, made⟩ := (mergeIntervals_spec _).2.1 parts group
  have same : whole.manifestId = top.manifestId := by
    obtain ⟨other, there, attained⟩ := made.attained
    exact le_antisymm (attained ▸ greatest other there) (made.greatest top member)
  rw [← same]
  refine justified recordId key whole.manifestId
    (isKnownAbsent_iff.mpr ⟨?_, whole, ?_, rfl, (made.keys key).mpr ⟨part, inside, held⟩⟩)
  · show (s.tracker.markRangeComplete iteration recordId startKey endKey manifestId).enabled = true
    rw [ContinuityTracker.markRangeComplete, if_pos enabled]
    exact enabled
  · show whole ∈ (s.tracker.markRangeComplete iteration recordId startKey endKey manifestId).of recordId
    rw [ContinuityTracker.markRangeComplete_of enabled few room]
    exact kept

/-- Under one manifest ranges are joined freely. -/
theorem covered_same {s : ContinuityMarks} {iteration : Iteration}
    {recordId startKey endKey : Bytes} {manifestId : Nat}
    (same : ∀ i ∈ s.tracker.of recordId, i.manifestId = manifestId) :
    Covered s (.markRangeComplete iteration recordId startKey endKey manifestId) := by
  have all : ∀ parts ∈ joined (s.tracker.of recordId ++ [⟨startKey, endKey, manifestId⟩]),
      ∀ part ∈ parts,
      part.manifestId = manifestId := by
    intro parts group part inside
    rcases List.mem_append.mp ((mergeIntervals_spec _).2.2 parts group inside) with old | new
    · exact same part old
    · rw [List.mem_singleton.mp new]
  intro parts group top member greatest part inside older
  have one := all parts group top member
  have other := all parts group part inside
  omega

section Example

/-- A range under the manifest 1, then one that overlaps it under the manifest 2. -/
def twoManifests : List Label :=
  [.markRangeComplete .stored ⟨[114]⟩ ⟨[97]⟩ ⟨[99]⟩ 1,
    .markRangeComplete .stored ⟨[114]⟩ ⟨[98]⟩ ⟨[100]⟩ 2]

/-- The first key of the first range is known to be absent under the manifest 2, under which nothing
has been marked that contains it. -/
theorem joined_manifests_claim_more :
    ∃ s, exec step { tracker := {} } twoManifests = some s ∧
      s.tracker.isKnownAbsent ⟨[114]⟩ ⟨[97]⟩ 2 = true ∧
      ¬ Marked s.marks ⟨[114]⟩ ⟨[97]⟩ 2 := by
  refine ⟨_, rfl, by decide +kernel, ?_⟩
  unfold Marked
  decide

/-- Two ranges that overlap, both under the manifest 1. -/
def oneManifest : List Label :=
  [.markRangeComplete .stored ⟨[114]⟩ ⟨[97]⟩ ⟨[99]⟩ 1,
    .markRangeComplete .stored ⟨[114]⟩ ⟨[98]⟩ ⟨[100]⟩ 1]

/-- The last key of the second range is known to be absent, as it has been marked. -/
theorem known_absent_sample :
    ∃ s, exec step { tracker := {} } oneManifest = some s ∧ (s.tracker.of ⟨[114]⟩).length = 1 ∧
      s.tracker.isKnownAbsent ⟨[114]⟩ ⟨[99]⟩ 1 = true ∧ Marked s.marks ⟨[114]⟩ ⟨[99]⟩ 1 := by
  have admitted : Admits step Covered { tracker := {} } oneManifest := by
    refine ⟨covered_same nofun, ?_⟩
    intro s taken
    obtain rfl := Option.some.inj taken
    refine ⟨covered_same ?_, fun _ _ => trivial⟩
    decide +kernel
  have absent : ∀ s, exec step { tracker := {} } oneManifest = some s →
      s.tracker.isKnownAbsent ⟨[114]⟩ ⟨[99]⟩ 1 = true := by
    intro s run
    obtain rfl := Option.some.inj run
    decide +kernel
  refine ⟨_, rfl, by decide +kernel, absent _ rfl, ?_⟩
  exact (known_absent_justified {} rfl admitted rfl).1 _ _ _ (absent _ rfl)

end Example

end ContinuityMarks

end FlushDB
