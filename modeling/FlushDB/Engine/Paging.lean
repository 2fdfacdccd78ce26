import FlushDB.Engine.RangeDeletes
import FlushDB.Engine.RangeScan

/-!
Reads of a range page by page. A page ends behind an entry that it shows, and the next one starts
from that key again and skips it. Whatever the limits of the pages are, together they show what
one read without limits shows.
-/

namespace FlushDB
open Lib

namespace ReadPath

/-- The resume token does not skip the entry. -/
def pastToken (resumeFrom : Option PageToken) (e : MergeEntry) : Bool :=
  !(resumeFrom.any fun token => e.compositeKey ≤ token.lastCompositeKey)

/-- A read of the record shows the version, where `deleted` are the range tombstones that it
knows. -/
def shows (recordId : Bytes) (deleted : RangeTombstoneIndex) (e : MergeEntry) : Bool :=
  e.compositeKey.recordId = recordId && !e.isTombstone &&
    !deleted.covers e.compositeKey.recordId e.compositeKey.itemKey e.sequenceNumber

/-- Range tombstones, and nothing else, have item keys with their mark. -/
def Marked (versions : List MergeEntry) : Prop :=
  ∀ e ∈ versions, e.entryType = .rangeDelete ↔ e.compositeKey.itemKey.data.head? =
    some rangeTombstonePrefix

instance (versions : List MergeEntry) : Decidable (Marked versions) :=
  inferInstanceAs (Decidable (∀ e ∈ versions, e.entryType = .rangeDelete ↔
    e.compositeKey.itemKey.data.head? = some rangeTombstonePrefix))

theorem pastToken_some (token : PageToken) :
    pastToken (some token) = fun e => decide (token.lastCompositeKey < e.compositeKey) := by
  funext e
  rw [pastToken, Option.any_some, ← decide_not, decide_eq_decide]
  exact not_le

theorem pastToken_of_lt {resumeFrom : Option PageToken} {a b : MergeEntry}
    (past : pastToken resumeFrom a = true) (less : a.compositeKey < b.compositeKey) :
    pastToken resumeFrom b = true := by
  cases resumeFrom with
  | none => rfl
  | some token =>
    rw [pastToken_some] at past ⊢
    exact decide_eq_true ((of_decide_eq_true past).trans less)

section Page
variable {recordId : Bytes} {options : RangeReadOptions} {deleted : RangeTombstoneIndex}

/-- A visit shows the entry or not; the known tombstones change at a range tombstone of the record
only. -/
theorem visit_spec {e : MergeEntry} {p : Page}
    (known : p.collector = deleted ∨ (e.compositeKey.recordId = recordId → e.isTombstone = true))
    (data : pastToken options.resumeFrom e = false → e.entryType ≠ .rangeDelete) :
    (visit recordId options e p).entries =
        p.entries ++ (if pastToken options.resumeFrom e && shows recordId deleted e then [e] else []) ∧
      ((visit recordId options e p).collector = p.collector ∨
        (e.compositeKey.recordId = recordId ∧ e.entryType = .rangeDelete)) := by
  unfold visit
  split
  · rename_i skipped
    have early : pastToken options.resumeFrom e = false := by simpa [pastToken] using skipped
    have plain : track recordId e p.collector = p.collector := if_neg (data early)
    rw [plain, early, Bool.false_and, if_neg (by simp), List.append_nil]
    exact ⟨rfl, Or.inl rfl⟩
  rename_i reached
  have past : pastToken options.resumeFrom e = true := by simpa [pastToken] using reached
  rw [past, Bool.true_and]
  split
  · rename_i other
    rw [if_neg (by simp [shows, other]), List.append_nil]
    exact ⟨rfl, Or.inl rfl⟩
  rename_i same
  have same : e.compositeKey.recordId = recordId := not_not.mp same
  split
  · rename_i deletes
    have hidden : e.isTombstone = true := by simp [MergeEntry.isTombstone, deletes]
    rw [if_neg (by simp [shows, hidden]), List.append_nil]
    exact ⟨rfl, Or.inr ⟨same, deletes⟩⟩
  split
  · rename_i hidden
    rw [if_neg (by simp [shows, hidden]), List.append_nil]
    exact ⟨rfl, Or.inl rfl⟩
  rename_i visible
  have collector : p.collector = deleted := by
    rcases known with known | hides
    · exact known
    · exact absurd (hides same) visible
  rw [collector]
  split
  · rename_i covered
    rw [if_neg (by simp [shows, covered]), List.append_nil]
    exact ⟨rfl, Or.inl collector⟩
  · rename_i uncovered
    rw [if_pos (by simp [shows, same, visible]; rw [← same]; simpa using uncovered)]
    exact ⟨rfl, Or.inl rfl⟩

/-- A page shows what is to be shown of a first part of the merge, and leaves something only when
it is full, behind an entry that it shows. -/
theorem collect_spec {fuel : Nat} {p : Page} (sorted : MergeIterator.Sorted p.sources)
    (enough : MergeIterator.remaining p.sources ≤ fuel)
    (marked : Marked (MergeIterator.pending p.sources))
    (data : ∀ e ∈ MergeIterator.pending p.sources, pastToken options.resumeFrom e = false →
      e.entryType ≠ .rangeDelete)
    (known : p.collector = deleted ∨ ∀ e ∈ MergeIterator.pending p.sources,
      e.compositeKey.recordId = recordId → e.isTombstone = true) :
    ∃ seen, MergeIterator.collectDeduped p.sources =
        seen ++ MergeIterator.collectDeduped (collect recordId options fuel p).sources ∧
      (collect recordId options fuel p).entries =
        p.entries ++ seen.filter (fun e => pastToken options.resumeFrom e && shows recordId deleted e) ∧
      MergeIterator.Sorted (collect recordId options fuel p).sources ∧
      (MergeIterator.collectDeduped (collect recordId options fuel p).sources ≠ [] →
        pageFull options (collect recordId options fuel p) = true ∧
        ∃ init last, seen = init ++ [last] ∧ pastToken options.resumeFrom last = true ∧
          shows recordId deleted last = true) := by
  induction fuel generalizing p with
  | zero =>
    have none : MergeIterator.pending p.sources = [] := by
      rw [MergeIterator.remaining_eq] at enough
      exact List.length_eq_zero_iff.mp (Nat.le_zero.mp enough)
    have ended := (MergeIterator.collectDeduped_eq_nil sorted).mpr none
    exact ⟨[], rfl, (List.append_nil _).symm, sorted, fun left => absurd ended left⟩
  | succ fuel ih =>
    unfold collect
    cases next : MergeIterator.nextDeduped p.sources with
    | none =>
      have ended := MergeIterator.collectDeduped_nil next
      exact ⟨[], rfl, (List.append_nil _).symm, sorted, fun left => absurd ended left⟩
    | some pair =>
      obtain ⟨e, rest⟩ := pair
      dsimp only
      obtain ⟨member, -, perm, sorted', above⟩ := MergeIterator.nextDeduped_spec sorted next
      have fewer := MergeIterator.nextDeduped_fewer sorted next
      have inside : ∀ {x}, x ∈ MergeIterator.pending rest → x ∈ MergeIterator.pending p.sources :=
        fun found => List.mem_of_mem_filter (perm.mem_iff.mp found)
      have whole := MergeIterator.collectDeduped_cons sorted next
      obtain ⟨entries, collector⟩ := @visit_spec recordId options deleted e { p with sources := rest }
        (known.imp id fun hides => hides e member) (data e member)
      have sources := visit_sources recordId options e { p with sources := rest }
      dsimp only at entries collector sources
      generalize visit recordId options e { p with sources := rest } =
        after at entries collector sources
      split
      · rename_i full
        obtain ⟨grown, full⟩ := Bool.and_eq_true_iff.mp full
        have shown : (pastToken options.resumeFrom e && shows recordId deleted e) = true := by
          by_contra hidden
          rw [entries, if_neg hidden, List.append_nil] at grown
          simp at grown
        rw [if_pos shown] at entries
        refine ⟨[e], ?_, ?_, ?_, ?_⟩
        · rw [whole, sources]
          rfl
        · rw [entries, List.filter_singleton, shown]
          rfl
        · rw [sources]
          exact sorted'
        · intro _
          exact ⟨full, [], e, rfl, Bool.and_eq_true_iff.mp shown⟩
      · have known' : after.collector = deleted ∨
            ∀ x ∈ MergeIterator.pending after.sources, x.compositeKey.recordId = recordId →
              x.isTombstone = true := by
          rw [sources]
          rcases known with known | hides
          · rcases collector with same | ⟨record, deletes⟩
            · exact Or.inl (same.trans known)
            · -- everything of the record behind a range tombstone is one
              refine Or.inr ?_
              intro x found record'
              have mark := CompositeKey.marked_of_lt (record.trans record'.symm) (above x found)
                ((marked e member).mp deletes)
              have deletes' := (marked x (inside found)).mpr mark
              simp [MergeEntry.isTombstone, deletes']
          · exact Or.inr fun x found => hides x (inside found)
        obtain ⟨seen, split, shown, sorted'', left⟩ :=
          @ih after (by rw [sources]; exact sorted') (by rw [sources]; omega)
          (by rw [sources]; exact fun x found => marked x (inside found))
          (by rw [sources]; exact fun x found => data x (inside found)) known'
        refine ⟨e :: seen, ?_, ?_, sorted'', ?_⟩
        · rw [whole, ← sources, split]
          rfl
        · rw [shown, entries]
          by_cases here : (pastToken options.resumeFrom e && shows recordId deleted e) = true
          · rw [if_pos here, List.filter_cons, if_pos here, List.append_assoc]
            rfl
          · rw [if_neg here, List.filter_cons, if_neg here, List.append_nil]
        · intro more
          obtain ⟨full, init, last, rfl, past, visible⟩ := left more
          exact ⟨full, e :: init, last, rfl, past, visible⟩

end Page

section Reads
variable {renv : ReadEnv} {draw : ReadDraw} {recordId : Bytes} {startKey endKey : Option Bytes}
  {options : RangeReadOptions}
  {l : MemtableList} {tables : Tables} {levels : List LevelState} {r : RangeReadResult}

/-- The range tombstones that a read knows before it merges. -/
def knownTombstones (l : MemtableList) : RangeTombstoneIndex :=
  l.allRangeTombstones.foldl RangeTombstoneIndex.add {}

theorem rangeRead_eq
    (read : rangeRead renv draw recordId startKey endKey options l tables levels = .ok r) :
    ∃ start stop sources, startBound recordId startKey options = .ok start ∧
      endBound recordId endKey = .ok stop ∧
      readSources renv draw l tables levels start stop = .ok sources ∧
      r.entries = (collect recordId options (MergeIterator.remaining sources)
        { sources, collector := knownTombstones l }).entries ∧
      r.totalBytes = (collect recordId options (MergeIterator.remaining sources)
        { sources, collector := knownTombstones l }).totalBytes ∧
      r.nextPageToken =
        pageToken (collect recordId options (MergeIterator.remaining sources)
          { sources, collector := knownTombstones l }) := by
  unfold rangeRead at read
  cases first : startBound recordId startKey options with
  | error e => simp [first, bind, Except.bind] at read
  | ok start =>
    cases last : endBound recordId endKey with
    | error e => simp [first, last, bind, Except.bind] at read
    | ok stop =>
      cases sourced : readSources renv draw l tables levels start stop with
      | error e => simp [first, last, sourced, bind, Except.bind] at read
      | ok sources =>
        simp only [first, last, sourced, bind, Except.bind, pure, Except.pure, Except.ok.injEq] at read
        subst read
        exact ⟨start, stop, sources, rfl, rfl, sourced, rfl, rfl, rfl⟩

theorem readSources_subset (ordered : ∀ level ∈ levels, ∀ h ∈ level.handles, h.Ordered tables)
    {start stop : CompositeKey} {sources : List VecSource}
    (sourced : readSources renv draw l tables levels start stop = .ok sources) {e : MergeEntry}
    (member : e ∈ MergeIterator.pending sources) : e ∈ allVersions l tables levels := by
  obtain ⟨stored, scanned, rfl⟩ := readSources_eq sourced
  rw [pending_readSources] at member
  rcases List.mem_append.mp member with held | listed
  · obtain ⟨x, inside, rfl⟩ := List.mem_map.mp held
    obtain ⟨m, known, y, found, same⟩ := MemtableList.scanAllWithTombstones_found inside
    refine List.mem_append_left _ (List.mem_flatMap.mpr ⟨m, known, ?_⟩)
    rw [same]
    exact List.mem_map_of_mem found
  · obtain ⟨shown, among, inside⟩ := List.mem_flatten.mp listed
    obtain ⟨h, candidate, scan⟩ := forall₂_mem_right scanned among
    obtain ⟨level, known, here⟩ := List.mem_flatMap.mp candidate
    have handle := List.mem_of_mem_filter here
    refine List.mem_append_right _ (List.mem_flatMap.mpr ⟨level, known, List.mem_flatMap.mpr ⟨h, handle, ?_⟩⟩)
    have sorted := (ordered level known h handle).sorted
    cases found : tables.get h.path with
    | none => simp [SSTableHandle.scan, SSTableHandle.index, found] at scan
    | some entries =>
      rw [Tables.entries, found] at sorted ⊢
      exact (SSTableHandle.scan_spec scan found sorted).1.mem inside

/-- A page is a part of the merge from its first key on. -/
theorem page_spec (ordered : ∀ level ∈ levels, ∀ h ∈ level.handles, h.Ordered tables)
    (marked : Marked (allVersions l tables levels))
    (resumes : ∀ token ∈ options.resumeFrom, token.lastCompositeKey.itemKey.data.head? ≠
      some rangeTombstonePrefix)
    (read : rangeRead renv draw recordId startKey endKey options l tables levels = .ok r) :
    ∃ start stop sources seen left, startBound recordId startKey options = .ok start ∧
      endBound recordId endKey = .ok stop ∧
      readSources renv draw l tables levels start stop = .ok sources ∧
      MergeIterator.collectDeduped sources = seen ++ left ∧
      r.entries = seen.filter (fun e => pastToken options.resumeFrom e &&
        shows recordId (knownTombstones l) e) ∧
      (r.nextPageToken = none → left = []) ∧
      (∀ token, r.nextPageToken = some token → ∃ init last, seen = init ++ [last] ∧
        token.lastCompositeKey = last.compositeKey ∧ pastToken options.resumeFrom last = true ∧
        shows recordId (knownTombstones l) last = true) ∧
      (left ≠ [] → options.pageSizeBytes ≤ r.totalBytes ∨ options.itemLimit.isSome) := by
  obtain ⟨start, stop, sources, first, bound, sourced, entries, bytes, token⟩ := rangeRead_eq read
  obtain ⟨sorted, -⟩ := readSources_sorted ordered sourced
  have data : ∀ e ∈ MergeIterator.pending sources, pastToken options.resumeFrom e = false →
      e.entryType ≠ .rangeDelete := by
    intro e member skipped deletes
    have known := (marked e (readSources_subset ordered sourced member)).mp deletes
    cases resume : options.resumeFrom with
    | none => simp [pastToken, resume] at skipped
    | some token =>
      have le : e.compositeKey ≤ token.lastCompositeKey := by
        simpa [pastToken, resume] using skipped
      have start_eq : start = token.lastCompositeKey := by
        simp only [startBound, resume] at first
        exact (Except.ok.inj first).symm
      have ge := (readSources_bounds sourced member).1
      rw [start_eq] at ge
      rw [le_antisymm le ge] at known
      exact resumes token resume known
  obtain ⟨seen, split, shown, sorted', more⟩ := @collect_spec recordId options (knownTombstones l) _
    { sources, collector := knownTombstones l } sorted (le_refl _)
    (fun e member => marked e (readSources_subset ordered sourced member)) data (Or.inl rfl)
  dsimp only at split shown more
  generalize collect recordId options (MergeIterator.remaining sources)
    { sources, collector := knownTombstones l } = page
    at entries bytes token split shown sorted' more
  have empty : (MergeIterator.heap page.sources).isEmpty = true ↔
      MergeIterator.collectDeduped page.sources = [] := by
    rw [MergeIterator.heap_isEmpty, MergeIterator.collectDeduped_eq_nil sorted']
  rw [List.nil_append] at shown
  have last_shown : MergeIterator.collectDeduped page.sources ≠ [] →
      ∃ init last, seen = init ++ [last] ∧
      pastToken options.resumeFrom last = true ∧ shows recordId (knownTombstones l) last = true ∧
        page.entries.getLast? = some last := by
    intro left
    obtain ⟨-, init, last, rfl, past, visible⟩ := more left
    refine ⟨init, last, rfl, past, visible, ?_⟩
    rw [shown, List.filter_append, List.filter_singleton, past, visible]
    simp
  refine ⟨start, stop, sources, seen, _, first, bound, sourced, split, entries.trans shown, ?_, ?_, ?_⟩
  · intro none
    by_contra left
    obtain ⟨init, last, -, -, -, ends⟩ := last_shown left
    rw [token, pageToken, if_neg (fun e => left (empty.mp e)), ends] at none
    cases none
  · intro t given
    rw [token, pageToken] at given
    split at given
    · cases given
    · rename_i left
      obtain ⟨init, last, rfl, past, visible, ends⟩ := last_shown fun e => left (empty.mpr e)
      rw [ends] at given
      obtain rfl := Option.some.inj given
      exact ⟨init, last, rfl, rfl, past, visible⟩
  · intro left
    have full := (more left).1
    rw [pageFull, Bool.or_eq_true] at full
    rcases full with large | limited
    · rw [bytes]
      exact Or.inl (of_decide_eq_true large)
    · cases limit : options.itemLimit with
      | none => simp [limit] at limited
      | some n => exact Or.inr rfl

theorem readSources_present {start stop : CompositeKey} {sources : List VecSource}
    (sourced : readSources renv draw l tables levels start stop = .ok sources) {level : LevelState}
    (listed : level ∈ levels) {h : SSTableHandle}
    (candidate : h ∈ level.findCandidatesForRange start stop) : (tables.get h.path).isSome := by
  obtain ⟨stored, scanned, -⟩ := readSources_eq sourced
  obtain ⟨shown, -, scan⟩ := forall₂_mem_right scanned.flip
    (List.mem_flatMap.mpr ⟨level, listed, candidate⟩)
  cases found : tables.get h.path with
  | none => simp [SSTableHandle.scan, SSTableHandle.index, found] at scan
  | some entries => rfl

theorem readSources_ok {start stop : CompositeKey} (fine : ∀ path i, draw.fails path i = false)
    (present : ∀ level ∈ levels, ∀ h ∈ level.findCandidatesForRange start stop,
      (tables.get h.path).isSome) :
    ∃ sources, readSources renv draw l tables levels start stop = .ok sources := by
  obtain ⟨stored, scanned⟩ := @scanHandles_ok renv draw tables start stop
    (levels.flatMap fun level => level.findCandidatesForRange start stop) fine (by
      intro h candidate
      obtain ⟨level, listed, inside⟩ := List.mem_flatMap.mp candidate
      exact present level listed h inside)
  simp only [readSources, scanned]
  exact ⟨_, rfl⟩

/-- Reads that succeed have the same sources. -/
theorem readSources_draw {draw' : ReadDraw} {start stop : CompositeKey}
    {sources sources' : List VecSource}
    (sourced : readSources renv draw l tables levels start stop = .ok sources)
    (sourced' : readSources renv draw' l tables levels start stop = .ok sources') :
    sources = sources' := by
  obtain ⟨stored, scanned, rfl⟩ := readSources_eq sourced
  obtain ⟨stored', scanned', rfl⟩ := readSources_eq sourced'
  have unique : Relator.RightUnique fun (h : SSTableHandle) shown => ∃ d,
      h.scan renv d tables start (some stop) = .ok shown := by
    rintro h a b ⟨d, first⟩ ⟨d', second⟩
    cases found : tables.get h.path with
    | none => simp [SSTableHandle.scan, SSTableHandle.index, found] at first
    | some entries =>
      rw [(SSTableHandle.scan_eq h start (some stop) found).1 a first,
        (SSTableHandle.scan_eq h start (some stop) found).1 b second]
  have same : stored = stored' := List.right_unique_forall₂' unique
    (scanned.imp fun _ _ scan => ⟨draw, scan⟩)
    (scanned'.imp fun _ _ scan => ⟨draw', scan⟩)
  rw [same]

/-- A read that starts later gives the same from its first key on. -/
theorem collectDeduped_later (ordered : ∀ level ∈ levels, ∀ h ∈ level.handles, h.Ordered tables)
    {draw' : ReadDraw} {start later stop : CompositeKey} (le : start ≤ later)
    {sources sources' : List VecSource}
    (sourced : readSources renv draw l tables levels start stop = .ok sources)
    (sourced' : readSources renv draw' l tables levels later stop = .ok sources') :
    (MergeIterator.collectDeduped sources').filter (fun e => later < e.compositeKey) =
      (MergeIterator.collectDeduped sources).filter fun e => later < e.compositeKey := by
  obtain ⟨sorted, inOrder⟩ := readSources_sorted ordered sourced
  obtain ⟨sorted', inOrder'⟩ := readSources_sorted ordered sourced'
  refine MergeIterator.collectDeduped_agree sorted' inOrder' sorted inOrder (fun key => later < key) ?_
  intro key above
  have above := of_decide_eq_true above
  by_cases inside : key < stop
  · rw [readSources_versions ordered sourced' above inside,
      readSources_versions ordered sourced (le.trans_lt above) inside]
  · have none : ∀ {d : ReadDraw} {from' : CompositeKey} {xs : List VecSource},
        readSources renv d l tables levels from' stop = .ok xs →
        versionsOf key (MergeIterator.pending xs) = [] := by
      intro d from' xs read
      refine List.filter_eq_nil_iff.mpr ?_
      intro e member same
      rw [← of_decide_eq_true same] at inside
      exact inside (readSources_bounds read member).2
    rw [none sourced', none sourced]

/-- What a page adds to the pages before it: `whole` is the merge from its first key on. -/
structure Continues (recordId : Bytes) (deleted : RangeTombstoneIndex)
    (resumeFrom : Option PageToken) (r : RangeReadResult) (whole seen left : List MergeEntry) :
    Prop where
  ascends : whole.Pairwise fun a b => a.compositeKey < b.compositeKey
  split : whole = seen ++ left
  entries : r.entries = seen.filter fun e => pastToken resumeFrom e && shows recordId deleted e
  ended : r.nextPageToken = none → left = []
  token : ∀ token, r.nextPageToken = some token → ∃ init last, seen = init ++ [last] ∧
    token.lastCompositeKey = last.compositeKey ∧ pastToken resumeFrom last = true ∧
      shows recordId deleted last = true

/-- A page from a token on succeeds and continues the merge behind the token. -/
theorem page_resumed (ordered : ∀ level ∈ levels, ∀ h ∈ level.handles, h.Ordered tables)
    (marked : Marked (allVersions l tables levels)) {draw' : ReadDraw} {start stop : CompositeKey}
    {sources : List VecSource} (first : startBound recordId startKey {} = .ok start)
    (last : endBound recordId endKey = .ok stop)
    (sourced : readSources renv draw l tables levels start stop = .ok sources)
    (fine : ∀ path i, draw'.fails path i = false)
    (resumes : ∀ token ∈ options.resumeFrom, start ≤ token.lastCompositeKey ∧
      token.lastCompositeKey.itemKey.data.head? ≠ some rangeTombstonePrefix) :
    ∃ r whole seen left, rangeRead renv draw' recordId startKey endKey options l tables levels = .ok r ∧
      whole.filter (pastToken options.resumeFrom) =
        (MergeIterator.collectDeduped sources).filter (pastToken options.resumeFrom) ∧
      Continues recordId (knownTombstones l) options.resumeFrom r whole seen left := by
  -- the first key of the page
  obtain ⟨from', first', le, rest_eq⟩ : ∃ from', startBound recordId startKey options = .ok from' ∧
    start ≤ from' ∧
      ∀ sources', readSources renv draw' l tables levels from' stop = .ok sources' →
        (MergeIterator.collectDeduped sources').filter (pastToken options.resumeFrom) =
          (MergeIterator.collectDeduped sources).filter (pastToken options.resumeFrom) := by
    cases resume : options.resumeFrom with
    | none =>
      refine ⟨start, ?_, le_refl _, ?_⟩
      · simp only [startBound, resume]
        exact first
      · intro sources' sourced'
        rw [readSources_draw sourced' sourced]
    | some token =>
      obtain ⟨le, -⟩ := resumes token resume
      refine ⟨token.lastCompositeKey, ?_, le, ?_⟩
      · simp only [startBound, resume]
      · intro sources' sourced'
        rw [pastToken_some]
        exact collectDeduped_later ordered le sourced sourced'
  obtain ⟨sources', sourced'⟩ := @readSources_ok renv draw' l tables levels from' stop fine (by
    intro level listed h candidate
    refine readSources_present sourced listed (List.mem_filter.mpr ⟨List.mem_of_mem_filter candidate, ?_⟩)
    have meets := (List.mem_filter.mp candidate).2
    simp only [SSTableMeta.overlapsRange, decide_eq_true_eq, not_or, not_lt] at meets ⊢
    exact ⟨(CompositeKey.le_iff_bytes.mp le).trans meets.1, meets.2⟩)
  obtain ⟨r, read⟩ : ∃ r, rangeRead renv draw' recordId startKey endKey options l tables levels =
      .ok r := by
    simp only [rangeRead, first', last, sourced', bind, Except.bind]
    exact ⟨_, rfl⟩
  obtain ⟨start₂, stop₂, sources₂, seen, left, first₂, last₂, sourced₂, split, entries, ended,
    token, -⟩ :=
    page_spec ordered marked (fun token given => (resumes token given).2) read
  obtain rfl := Except.ok.inj (first'.symm.trans first₂)
  obtain rfl := Except.ok.inj (last.symm.trans last₂)
  have ascends := (MergeIterator.collectDeduped_spec (readSources_sorted ordered sourced₂).1).ascends
  exact ⟨r, _, seen, left, read, rest_eq _ sourced₂, ascends, split, entries, ended, token⟩

end Reads

end ReadPath

/-- The limits that a caller sets for a page, and what the read finds outside. -/
structure PageChoice where
  pageSizeBytes : Nat
  itemLimit : Option Nat := none
  draw : ReadDraw := {}

namespace Engine

/-- `scan_range`: it reads pages until there is no token, and sends those that are not empty. The
pages sent and the outcome, or none when the fuel ends before. -/
def scanRange (renv : ReadEnv) (choices : Nat → PageChoice) (recordId : Bytes)
    (startKey endKey : Option Bytes) (s : Engine) :
    Nat → Nat → Option PageToken → List (List MergeEntry) × Option (FlushResult Unit)
  | 0, _, _ => ([], none)
  | fuel + 1, page, resumeFrom =>
    match s.scan renv (choices page).draw recordId startKey endKey
        { pageSizeBytes := (choices page).pageSizeBytes, itemLimit := (choices page).itemLimit,
          resumeFrom } with
    | .error e => ([], some (.error e))
    | .ok result =>
      let sent := if result.entries.isEmpty then [] else [result.entries]
      match result.nextPageToken with
      | none => (sent, some (.ok ()))
      | some token =>
        let (more, outcome) := scanRange renv choices recordId startKey endKey s fuel (page + 1)
          (some token)
        (sent ++ more, outcome)

section Pages
variable {renv : ReadEnv} {choices : Nat → PageChoice} {recordId : Bytes}
  {startKey endKey : Option Bytes} {s : Engine}

theorem filter_behind {init left : List MergeEntry} {last : MergeEntry}
    (ascends : ((init ++ [last]) ++ left).Pairwise fun a b => a.compositeKey < b.compositeKey) :
    ((init ++ [last]) ++ left).filter (fun e => last.compositeKey < e.compositeKey) = left := by
  obtain ⟨front, -, across⟩ := List.pairwise_append.mp ascends
  have gone : (init ++ [last]).filter (fun e => decide (last.compositeKey < e.compositeKey)) = [] := by
    refine List.filter_eq_nil_iff.mpr ?_
    intro e member
    rcases List.mem_append.mp member with early | same
    · have less := (List.pairwise_append.mp front).2.2 e early last (List.mem_singleton_self _)
      simp [less.le]
    · rw [List.mem_singleton.mp same]
      simp
  have kept : left.filter (fun e => decide (last.compositeKey < e.compositeKey)) = left := by
    refine List.filter_eq_self.mpr ?_
    intro e member
    exact decide_eq_true (across last (List.mem_append_right _ (List.mem_singleton_self _)) e member)
  rw [List.filter_append, gone, kept, List.nil_append]

/-- From any token on, the pages show what is left of the whole merge. -/
theorem scanRange_resumed (ordered : ∀ level ∈ s.levels, ∀ h ∈ level.handles, h.Ordered s.tables)
    (marked : ReadPath.Marked (allVersions s.memtableList s.tables s.levels)) {draw : ReadDraw}
    {start stop : CompositeKey} {sources : List VecSource}
    (first : ReadPath.startBound recordId startKey {} = .ok start)
    (last : ReadPath.endBound recordId endKey = .ok stop)
    (sourced : ReadPath.readSources renv draw s.memtableList s.tables s.levels start stop = .ok sources)
    (fine : ∀ page path i, (choices page).draw.fails path i = false) {fuel page : Nat}
    {resumeFrom : Option PageToken}
    (resumes : ∀ token ∈ resumeFrom, start ≤ token.lastCompositeKey ∧
      token.lastCompositeKey.itemKey.data.head? ≠ some rangeTombstonePrefix)
    (enough : ((MergeIterator.collectDeduped sources).filter (ReadPath.pastToken resumeFrom)).length < fuel) :
    ∃ pages, scanRange renv choices recordId startKey endKey s fuel page resumeFrom =
      (pages, some (.ok ())) ∧
      pages.flatten = ((MergeIterator.collectDeduped sources).filter (ReadPath.pastToken resumeFrom)).filter
        (ReadPath.shows recordId (ReadPath.knownTombstones s.memtableList)) := by
  induction fuel generalizing page resumeFrom with
  | zero => omega
  | succ fuel ih =>
    generalize chosen : (⟨(choices page).pageSizeBytes, (choices page).itemLimit, resumeFrom⟩ :
      RangeReadOptions) = options
    obtain rfl : resumeFrom = options.resumeFrom := by rw [← chosen]
    obtain ⟨r, whole, seen, left, read, same, continues⟩ :=
      @ReadPath.page_resumed renv draw recordId startKey endKey options s.memtableList s.tables
        s.levels ordered marked
        (choices page).draw start stop sources first last sourced (fine page) resumes
    have sent : (if r.entries.isEmpty then [] else [r.entries]).flatten = r.entries := by
      cases entries : r.entries with
      | nil => rfl
      | cons e rest => simp
    unfold scanRange
    rw [chosen, show s.scan renv (choices page).draw recordId startKey endKey options = .ok r from read]
    dsimp only
    rw [← same]
    cases next : r.nextPageToken with
    | none =>
      refine ⟨_, rfl, ?_⟩
      rw [sent, continues.split, continues.ended next, List.append_nil, continues.entries,
        List.filter_filter]
      simp only [Bool.and_comm]
    | some token =>
      obtain ⟨init, final, rfl, key, past, visible⟩ := continues.token token next
      have ascends := continues.ascends
      rw [continues.split] at same ascends ⊢
      have above := (List.pairwise_append.mp ascends).2.2 final
        (List.mem_append_right _ (List.mem_singleton_self _))
      have left_past : left.filter (ReadPath.pastToken options.resumeFrom) = left :=
        List.filter_eq_self.mpr fun e member => ReadPath.pastToken_of_lt past (above e member)
      have rest : (MergeIterator.collectDeduped sources).filter (ReadPath.pastToken (some token)) =
          left := by
        rw [← filter_behind ascends, ReadPath.pastToken_some, key]
        have narrow : ∀ xs : List MergeEntry, xs.filter
            (fun e => decide (final.compositeKey < e.compositeKey)) =
            (xs.filter (ReadPath.pastToken options.resumeFrom)).filter fun e =>
              decide (final.compositeKey < e.compositeKey) := by
          intro xs
          rw [List.filter_filter]
          refine List.filter_congr ?_
          intro e _
          by_cases behind : final.compositeKey < e.compositeKey
          · simp [behind, ReadPath.pastToken_of_lt past behind]
          · simp [behind]
        rw [narrow, ← same, ← narrow]
      have member : final ∈ MergeIterator.pending sources := by
        have listed : final ∈ (MergeIterator.collectDeduped sources).filter
            (ReadPath.pastToken options.resumeFrom) := by
          rw [← same]
          exact List.mem_filter.mpr ⟨List.mem_append_left _
            (List.mem_append_right _ (List.mem_singleton_self _)), past⟩
        exact MergeIterator.collectDeduped_subset (List.mem_of_mem_filter listed)
      have resumes' : ∀ t ∈ some token, start ≤ t.lastCompositeKey ∧
          t.lastCompositeKey.itemKey.data.head? ≠ some rangeTombstonePrefix := by
        rintro t ⟨⟩
        rw [key]
        refine ⟨(ReadPath.readSources_bounds sourced member).1, ?_⟩
        intro mark
        have deletes := (marked final (ReadPath.readSources_subset ordered sourced member)).mpr mark
        simp [ReadPath.shows, MergeEntry.isTombstone, deletes] at visible
      have shorter : left.length < fuel := by
        rw [← same, List.filter_append, left_past, List.filter_append, List.filter_singleton,
          past] at enough
        simp only [cond_true, List.length_append, List.length_singleton] at enough
        omega
      obtain ⟨pages, done, flat⟩ := @ih (page + 1) (some token) resumes' (by rw [rest]; exact shorter)
      dsimp only
      rw [done]
      refine ⟨_, rfl, ?_⟩
      rw [List.flatten_append, sent, flat, rest, List.filter_append, List.filter_append, left_past,
        continues.entries,
        List.filter_filter]
      simp only [Bool.and_comm]

/-- A read that has ended does not need more fuel. -/
theorem scanRange_more {fuel fuel' page : Nat} (more : fuel ≤ fuel') {resumeFrom : Option PageToken}
    {pages : List (List MergeEntry)} {outcome : FlushResult Unit}
    (ended : scanRange renv choices recordId startKey endKey s fuel page resumeFrom = (pages, some outcome)) :
    scanRange renv choices recordId startKey endKey s fuel' page resumeFrom =
      (pages, some outcome) := by
  induction fuel generalizing fuel' page resumeFrom pages with
  | zero => simp [scanRange] at ended
  | succ fuel ih =>
    obtain ⟨fuel', rfl⟩ : ∃ n, fuel' = n + 1 := ⟨fuel' - 1, by omega⟩
    unfold scanRange at ended ⊢
    split at ended
    · exact ended
    · dsimp only at ended ⊢
      split at ended
      · exact ended
      · rename_i token _
        obtain ⟨sent, left⟩ := Prod.mk.inj ended
        have later := @ih fuel' (page + 1) (by omega) (some token)
          (scanRange renv choices recordId startKey endKey s fuel (page + 1) (some token)).1
            (Prod.ext rfl left)
        rw [later, ← sent]

/-- Following the tokens ends, and the pages together are the read without limits. -/
theorem scanRange_stored (ordered : ∀ level ∈ s.levels, ∀ h ∈ level.handles, h.Ordered s.tables)
    (marked : ReadPath.Marked (allVersions s.memtableList s.tables s.levels)) {draw : ReadDraw}
    {pageSizeBytes : Nat} {r : RangeReadResult}
    (unlimited : s.scan renv draw recordId startKey endKey { pageSizeBytes } = .ok r)
    (whole : r.totalBytes < pageSizeBytes)
    (fine : ∀ page path i, (choices page).draw.fails path i = false) :
    ∃ pages count, (∀ fuel, count ≤ fuel →
        scanRange renv choices recordId startKey endKey s fuel 0 none = (pages, some (.ok ()))) ∧
      pages.flatten = r.entries ∧ r.entries.Pairwise fun a b => a.compositeKey < b.compositeKey := by
  obtain ⟨start, stop, sources, seen, left, first, last, sourced, split, entries, -, -, full⟩ :=
    ReadPath.page_spec ordered marked (by rintro token ⟨⟩) unlimited
  have nothing : left = [] := by
    by_contra more
    rcases full more with large | limited
    · dsimp only at large
      omega
    · cases limited
  rw [nothing, List.append_nil] at split
  have all : ∀ xs : List MergeEntry, xs.filter (ReadPath.pastToken none) = xs :=
    fun xs => List.filter_eq_self.mpr fun _ _ => rfl
  obtain ⟨pages, done, flat⟩ := @scanRange_resumed renv choices recordId startKey endKey s ordered
    marked draw start stop sources
    first last sourced fine _ 0 none (by rintro token ⟨⟩) (Nat.lt_succ_self _)
  rw [all, split] at flat
  have same : pages.flatten = r.entries := by
    rw [flat, entries]
    rfl
  refine ⟨pages, _, fun fuel enough => scanRange_more enough done, same, ?_⟩
  rw [← same, flat, ← split]
  exact (MergeIterator.collectDeduped_spec (ReadPath.readSources_sorted ordered sourced).1).ascends.filter _

end Pages

end Engine

end FlushDB
