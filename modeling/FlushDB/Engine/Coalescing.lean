import Mathlib.Data.List.SplitBy
import Mathlib.Data.List.Sort
import FlushDB.Engine.TableLookup
import FlushDB.Lib.Collect

/-!
Several blocks of a table at once. The blocks that are not in the cache are read in runs: blocks
that follow one another in the file come from one read, and are cut from it. The results are those
of single fetches.
-/

namespace FlushDB

/-- A compressor never gives an empty output for bytes. -/
def Codec.Framed (codec : Codec) : Prop :=
  ∀ kind data packed, codec.compress kind data = .ok packed → data ≠ [] → packed ≠ []

namespace Sst
open Lib BlockCache

structure BlockRequest where
  blockIndex : Nat
  blockOffset : Nat
  blockSize : Nat

def isAdjacent (a b : BlockRequest) : Bool := a.blockOffset + a.blockSize = b.blockOffset

/-- What the outside does to the read of one group: the object store may not answer, and the cache
may have dropped blocks before it. -/
structure GroupRead where
  fails : Bool := false
  evicts : BlockCacheKey → Bool := fun _ => false

namespace CoalescingFetcher

section
variable (codec : Codec) (backend : Backend) (sstPath : String) (compression : CompressionType)

def single (r : BlockRequest) : Request where
  sstPath := sstPath
  offset := r.blockOffset
  size := r.blockSize
  compression := compression

def sorted (requests : List BlockRequest) : List BlockRequest :=
  requests.insertionSort fun a b => a.blockOffset ≤ b.blockOffset

def cachedResults (requests : List BlockRequest) (cache : Cache) : List (Nat × List BlockEntry) :=
  (sorted requests).filterMap fun r =>
    (cache.get (single sstPath compression r).key).map fun entries => (r.blockIndex, entries)

def uncached (requests : List BlockRequest) (cache : Cache) : List BlockRequest :=
  (sorted requests).filter fun r => (cache.get (single sstPath compression r).key).isNone

/-- The contiguous runs of what is not in the cache. -/
def groups (requests : List BlockRequest) (cache : Cache) : List (List BlockRequest) :=
  (uncached sstPath compression requests cache).splitBy isAdjacent

def totalSize (first last : BlockRequest) : Nat :=
  last.blockOffset + last.blockSize - first.blockOffset

def fetchRawBlock (fails : Bool) (offset size : Nat) : FlushResult (List UInt8) :=
  if fails then .error (.io "get_range") else backend.getRange sstPath offset size

/-- One block of a run, cut from what was read for the run. -/
def sliceBlock (mergedOffset : Nat) (rawData : List UInt8) (r : BlockRequest) (cache : Cache) :
    FlushResult (List (Nat × List BlockEntry)) × Cache :=
  let localOffset := r.blockOffset - mergedOffset
  let localEnd := localOffset + r.blockSize
  if localEnd > rawData.length then
    (.error (.corruptedData
      s!"block at offset {r.blockOffset} extends beyond fetched data (local_end={localEnd}, data_len={rawData.length})"),
      cache)
  else
    match decodeBlock codec ((rawData.take localEnd).drop localOffset) compression with
    | .error e => (.error e, cache)
    | .ok entries =>
      (.ok [(r.blockIndex, entries)], cache.put (single sstPath compression r).key entries)

def fetchGroup (read : GroupRead) (group : List BlockRequest) (cache : Cache) :
    FlushResult (List (Nat × List BlockEntry)) × Cache :=
  let cache := Cache.drop read.evicts cache
  match group with
  | [] => (.ok [], cache)
  | [r] =>
    let (fetched, cache) := fetchBlock codec backend read.fails (single sstPath compression r) cache
    (fetched.map fun entries => [(r.blockIndex, entries)], cache)
  | first :: second :: rest =>
    let total := totalSize first ((second :: rest).getLast (List.cons_ne_nil _ _))
    if total ≥ 2 ^ 32 then
      (.error (.corruptedData s!"coalesced range too large: {total} bytes exceeds u32::MAX"), cache)
    else
      match fetchRawBlock backend sstPath read.fails first.blockOffset total with
      | .error e => (.error e, cache)
      | .ok rawData =>
        collect (sliceBlock codec sstPath compression first.blockOffset rawData) group [] cache

/-- `reads` has what the outside does to the first group, the second and so on. -/
def fetchBlocks (reads : Nat → GroupRead) (requests : List BlockRequest) (cache : Cache) :
    FlushResult (List (Nat × List BlockEntry)) × Cache :=
  if requests.isEmpty then (.ok [], cache)
  else
    let cachedResults := cachedResults sstPath compression requests cache
    if (uncached sstPath compression requests cache).isEmpty then
      (.ok (cachedResults.insertionSort fun a b => a.1 ≤ b.1), cache)
    else
      let (fetched, cache) := collect (fun group =>
        fetchGroup codec backend sstPath compression (reads group.2) group.1)
        (groups sstPath compression requests cache).zipIdx cachedResults cache
      (fetched.map fun all => all.insertionSort fun a b => a.1 ≤ b.1, cache)

end

end CoalescingFetcher

/-- The blocks of an open table are all in the file, each at an offset of its own. -/
structure Intact (codec : Codec) (backend : Backend) (h : SSTableHandle) : Prop where
  file : ∃ file, backend.get h.path = some file ∧
    ∀ ie ∈ h.indexBlock, ie.blockOffset + ie.blockSize ≤ file.length
  blocks : ∀ ie ∈ h.indexBlock, ∃ b, fetchDirect codec backend (h.request ie) = .ok b
  apart : h.indexBlock.Pairwise fun a b => a.blockOffset < b.blockOffset

/-- The request is for a block that the index lists. -/
def DrawnFrom (h : SSTableHandle) (r : BlockRequest) : Prop :=
  ∃ ie, h.indexBlock[r.blockIndex]? = some ie ∧ r.blockOffset = ie.blockOffset ∧
    r.blockSize = ie.blockSize

/-- Against an earlier cache: the blocks of the table are right, and no other block is new. -/
structure Grown (codec : Codec) (backend : Backend) (h : SSTableHandle) (before cache : Cache) :
    Prop where
  coherent : CachedFrom codec backend h cache
  others : ∀ key, (∀ ie ∈ h.indexBlock, key ≠ (h.request ie).key) →
    ∀ entries, cache.get key = some entries →
    before.get key = some entries

section
variable {codec : Codec} {backend : Backend} {h : SSTableHandle} {before cache : Cache}

theorem get_drop {p : BlockCacheKey → Bool} {key : BlockCacheKey} {entries : List BlockEntry}
    (found : (Cache.drop p cache).get key = some entries) : cache.get key = some entries := by
  unfold Cache.drop at found
  generalize cache.objects.filter (fun pair => p pair.1) = dropped at found
  induction dropped generalizing cache with
  | nil => exact found
  | cons pair rest ih => exact ObjectStore.get_of_delete (ih found)

theorem Grown.drop (grown : Grown codec backend h before cache) (p : BlockCacheKey → Bool) :
    Grown codec backend h before (Cache.drop p cache) :=
  ⟨fun ie member entries found => grown.coherent ie member entries (get_drop found),
    fun key other entries found => grown.others key other entries (get_drop found)⟩

theorem Intact.request_eq (whole : Intact codec backend h) {a b : IndexEntry}
    (first : a ∈ h.indexBlock) (second : b ∈ h.indexBlock)
    (same : (h.request a).key = (h.request b).key) : a = b := by
  have offset : a.blockOffset = b.blockOffset := congrArg BlockCacheKey.blockOffset same
  have distinct : (h.indexBlock.map IndexEntry.blockOffset).Nodup :=
    List.pairwise_map.mpr (whole.apart.imp Nat.ne_of_lt)
  exact List.inj_on_of_nodup_map distinct first second offset

theorem Grown.put (grown : Grown codec backend h before cache) (whole : Intact codec backend h)
    {ie : IndexEntry} (member : ie ∈ h.indexBlock) {entries : List BlockEntry}
    (read : fetchDirect codec backend (h.request ie) = .ok entries) :
    Grown codec backend h before (cache.put (h.request ie).key entries) := by
  constructor
  · intro other listed found_entries found
    rw [ObjectStore.get_put] at found
    split at found
    · rename_i same
      obtain rfl := Option.some.inj found
      rw [whole.request_eq listed member same]
      exact read
    · exact grown.coherent other listed found_entries found
  · intro key other found_entries found
    rw [ObjectStore.get_put, if_neg (other ie member)] at found
    exact grown.others key other found_entries found

end

/-- The result of one request. -/
def Answers (codec : Codec) (backend : Backend) (h : SSTableHandle) (r : BlockRequest)
    (b : Nat × List BlockEntry) : Prop :=
  b.1 = r.blockIndex ∧ fetchDirect codec backend
    (CoalescingFetcher.single h.path h.footer.compressionType r) = .ok b.2

namespace CoalescingFetcher
variable {codec : Codec} {backend : Backend} {h : SSTableHandle} {before cache : Cache}

theorem single_drawn {r : BlockRequest} (drawn : DrawnFrom h r) :
    ∃ ie ∈ h.indexBlock, single h.path h.footer.compressionType r = h.request ie ∧
      r.blockOffset = ie.blockOffset ∧
      r.blockSize = ie.blockSize := by
  obtain ⟨ie, listed, offset, size⟩ := drawn
  refine ⟨ie, List.mem_of_getElem? listed, ?_, offset, size⟩
  rw [single, SSTableHandle.request, offset, size]

/-- The blocks of a run lie between the start of the first and the end of the last. -/
theorem run_inside {first : BlockRequest} {rest : List BlockRequest}
    (run : (first :: rest).IsChain fun a b => isAdjacent a b = true) :
    ∀ r ∈ first :: rest, first.blockOffset ≤ r.blockOffset ∧ r.blockOffset + r.blockSize ≤
      ((first :: rest).getLast (List.cons_ne_nil _ _)).blockOffset +
        ((first :: rest).getLast (List.cons_ne_nil _ _)).blockSize := by
  induction rest generalizing first with
  | nil =>
    intro r member
    rw [List.mem_singleton.mp member]
    exact ⟨Nat.le_refl _, Nat.le_refl _⟩
  | cons second rest ih =>
    obtain ⟨touch, later⟩ := List.isChain_cons_cons.mp run
    have next : first.blockOffset + first.blockSize = second.blockOffset := of_decide_eq_true touch
    have inside := ih later
    rw [List.getLast_cons (List.cons_ne_nil _ _)]
    intro r member
    rcases List.mem_cons.mp member with rfl | behind
    · have head := inside second List.mem_cons_self
      omega
    · have tail := inside r behind
      omega

theorem getRange_inside {file : List UInt8} {path : String} (found : backend.get path = some file)
    {start length : Nat} (fits : start + length ≤ file.length) :
    backend.getRange path start length = .ok ((file.drop start).take length) := by
  simp only [Backend.getRange, found]
  split
  · rename_i none
    rw [none, List.take_zero]
  · rw [if_neg (by omega)]

/-- What is cut from the read of a run is what a read of its own gives. -/
theorem sliceBlock_eq {file : List UInt8} (found : backend.get h.path = some file)
    {r : BlockRequest} {start total : Nat} (behind : start ≤ r.blockOffset)
    (inside : r.blockOffset + r.blockSize ≤ start + total) (fits : start + total ≤ file.length)
    {entries : List BlockEntry}
    (read : fetchDirect codec backend (single h.path h.footer.compressionType r) = .ok entries)
    (cache : Cache) :
    sliceBlock codec h.path h.footer.compressionType start ((file.drop start).take total) r cache =
      (.ok [(r.blockIndex, entries)], cache.put (single h.path h.footer.compressionType r).key entries) := by
  have length : ((file.drop start).take total).length = total := by
    rw [List.length_take, List.length_drop]
    omega
  have cut : (((file.drop start).take total).take (r.blockOffset - start + r.blockSize)).drop
      (r.blockOffset - start) =
      (file.drop r.blockOffset).take r.blockSize := by
    rw [List.take_take, Nat.min_eq_left (by omega), List.drop_take, List.drop_drop]
    congr 1
    · omega
    · congr 1
      omega
  have range := getRange_inside found (show r.blockOffset + r.blockSize ≤ file.length by omega)
  have decodes : decodeBlock codec ((file.drop r.blockOffset).take r.blockSize)
      h.footer.compressionType = .ok entries := by
    rw [← read, fetchDirect, single]
    simp only [range, bind, Except.bind]
  rw [sliceBlock, if_neg (by rw [length]; omega), cut, decodes]

theorem run_fits {file : List UInt8}
    (fits : ∀ ie ∈ h.indexBlock, ie.blockOffset + ie.blockSize ≤ file.length) {first : BlockRequest}
    {rest : List BlockRequest} (run : (first :: rest).IsChain fun a b => isAdjacent a b = true)
    (drawn : ∀ r ∈ first :: rest, DrawnFrom h r) :
    first.blockOffset + totalSize first ((first :: rest).getLast (List.cons_ne_nil _ _)) ≤
      file.length := by
  have firstInside := run_inside run first List.mem_cons_self
  obtain ⟨last, listed, -, offset, size⟩ := single_drawn
    (drawn _ (List.getLast_mem (List.cons_ne_nil first rest)))
  have lastFits := fits last listed
  unfold totalSize
  omega

theorem fetchRawBlock_run {file : List UInt8} (found : backend.get h.path = some file)
    (fits : ∀ ie ∈ h.indexBlock, ie.blockOffset + ie.blockSize ≤ file.length) {first : BlockRequest}
    {rest : List BlockRequest} (run : (first :: rest).IsChain fun a b => isAdjacent a b = true)
    (drawn : ∀ r ∈ first :: rest, DrawnFrom h r) (fails : Bool) :
    fetchRawBlock backend h.path fails first.blockOffset
      (totalSize first ((first :: rest).getLast (List.cons_ne_nil _ _))) =
      if fails then .error (.io "get_range")
      else .ok ((file.drop first.blockOffset).take
        (totalSize first ((first :: rest).getLast (List.cons_ne_nil _ _)))) := by
  rw [fetchRawBlock, getRange_inside found (run_fits fits run drawn)]

/-- A read of a run that succeeds gives all its blocks. -/
theorem sliceBlocks_spec (whole : Intact codec backend h) {first : BlockRequest}
    {rest : List BlockRequest} (run : (first :: rest).IsChain fun a b => isAdjacent a b = true)
    (drawn : ∀ r ∈ first :: rest, DrawnFrom h r) {fails : Bool} {rawData : List UInt8}
    (raw : fetchRawBlock backend h.path fails first.blockOffset
      (totalSize first ((first :: rest).getLast (List.cons_ne_nil _ _))) = .ok rawData) :
    ∀ r ∈ first :: rest, ∀ cache, Grown codec backend h before cache → ∃ entries,
      sliceBlock codec h.path h.footer.compressionType first.blockOffset rawData r cache =
        (.ok [(r.blockIndex, entries)], cache.put (single h.path h.footer.compressionType r).key entries) ∧
      Answers codec backend h r (r.blockIndex, entries) ∧
      Grown codec backend h before (cache.put (single h.path h.footer.compressionType r).key entries) := by
  obtain ⟨file, found, fits⟩ := whole.file
  have inside := run_inside run
  have reaches := run_fits fits run drawn
  rw [fetchRawBlock_run found fits run drawn] at raw
  obtain ⟨-, rfl⟩ : fails = false ∧ _ = rawData := by
    split at raw
    · cases raw
    · exact ⟨eq_false_of_ne_true ‹_›, Except.ok.inj raw⟩
  intro r member cache grown
  obtain ⟨ie, listed, same, -, -⟩ := single_drawn (drawn r member)
  obtain ⟨entries, read⟩ := whole.blocks ie listed
  rw [← same] at read
  obtain ⟨behind, before_end⟩ := inside r member
  refine ⟨entries, ?_, ⟨rfl, read⟩, ?_⟩
  · apply sliceBlock_eq found behind _ reaches read
    unfold totalSize
    omega
  · rw [same]
    rw [same] at read
    exact grown.put whole listed read

theorem fetchGroup_spec (whole : Intact codec backend h) {group : List BlockRequest}
    (run : group.IsChain fun a b => isAdjacent a b = true) (drawn : ∀ r ∈ group, DrawnFrom h r)
    (read : GroupRead) {cache : Cache} (grown : Grown codec backend h before cache) :
    Grown codec backend h before (fetchGroup codec backend h.path h.footer.compressionType read group cache).2 ∧
      ∀ bs, (fetchGroup codec backend h.path h.footer.compressionType read group cache).1 = .ok bs →
        List.Forall₂ (Answers codec backend h) group bs := by
  have dropped := grown.drop read.evicts
  unfold fetchGroup
  generalize Cache.drop read.evicts cache = cache at dropped
  dsimp only
  split
  · refine ⟨dropped, ?_⟩
    intro bs done
    cases done
    exact .nil
  · rename_i r
    obtain ⟨ie, listed, same, -, -⟩ := single_drawn (drawn r List.mem_cons_self)
    unfold fetchBlock
    rw [same]
    split
    · rename_i entries found
      refine ⟨dropped, ?_⟩
      intro bs done
      cases done
      refine .cons ⟨rfl, ?_⟩ .nil
      rw [same]
      exact dropped.coherent ie listed entries found
    · split
      · exact ⟨dropped, fun bs failed => nomatch failed⟩
      · rename_i entries fetched
        have direct := fetchInner_ok fetched
        refine ⟨dropped.put whole listed direct, ?_⟩
        intro bs done
        cases done
        refine .cons ⟨rfl, ?_⟩ .nil
        rw [same]
        exact direct
  · rename_i first second rest
    split
    · exact ⟨dropped, fun bs failed => nomatch failed⟩
    · split
      · exact ⟨dropped, fun bs failed => nomatch failed⟩
      · rename_i rawData raw
        have answered : ∀ r ∈ first :: second :: rest, ∀ cache, Grown codec backend h before cache →
            Grown codec backend h before
                (sliceBlock codec h.path h.footer.compressionType first.blockOffset rawData r cache).2 ∧
              ∀ bs, (sliceBlock codec h.path h.footer.compressionType first.blockOffset rawData r
                cache).1 = .ok bs →
                List.Forall₂ (Answers codec backend h) [r] bs := by
          intro r member cache grown
          obtain ⟨entries, sliced, answers, kept⟩ :=
            sliceBlocks_spec whole run drawn raw r member cache grown
          rw [sliced]
          refine ⟨kept, ?_⟩
          intro bs done
          cases done
          exact .cons answers .nil
        obtain ⟨kept, given⟩ := collect_rule (fun r => [r]) answered [] dropped
        refine ⟨kept, ?_⟩
        intro bs done
        obtain ⟨more, made, rfl⟩ := given bs done
        rw [List.flatMap_singleton'] at made
        exact made

/-- Without a failed read a group fails only for its size. -/
theorem fetchGroup_ok (whole : Intact codec backend h) {group : List BlockRequest}
    (run : group.IsChain fun a b => isAdjacent a b = true) (drawn : ∀ r ∈ group, DrawnFrom h r)
    (small : ∀ first last, group.head? = some first → group.getLast? = some last →
      totalSize first last < 2 ^ 32)
    {read : GroupRead} (answers : read.fails = false) {cache : Cache}
    (grown : Grown codec backend h before cache) :
    ∃ bs, (fetchGroup codec backend h.path h.footer.compressionType read group cache).1 = .ok bs := by
  have dropped := grown.drop read.evicts
  unfold fetchGroup
  generalize Cache.drop read.evicts cache = cache at dropped
  dsimp only
  split
  · exact ⟨[], rfl⟩
  · rename_i r
    obtain ⟨ie, listed, same, -, -⟩ := single_drawn (drawn r List.mem_cons_self)
    obtain ⟨entries, direct⟩ := whole.blocks ie listed
    have shown : (fetchBlock codec backend false (h.request ie) cache).1 = .ok entries :=
      (fetchBlock_shows dropped.coherent ie listed).trans direct
    rw [answers, same, shown]
    exact ⟨_, rfl⟩
  · rename_i first second rest
    have size := small first _ rfl (List.getLast?_eq_some_getLast (List.cons_ne_nil first (second :: rest)))
    rw [List.getLast_cons (List.cons_ne_nil second rest)] at size
    obtain ⟨file, found, fits⟩ := whole.file
    have raw := fetchRawBlock_run found fits run drawn false
    rw [if_neg Bool.false_ne_true] at raw
    have sliced := @sliceBlocks_spec codec backend h before whole first
      (second :: rest) run drawn false _ raw
    rw [List.getLast_cons (List.cons_ne_nil second rest)] at raw sliced
    rw [if_neg (Nat.not_le.mpr size), answers, raw]
    dsimp only
    refine collect_ok ?_ ?_ [] dropped
    · intro r member cache grown
      obtain ⟨entries, cut, -, kept⟩ := sliced r member cache grown
      rw [cut]
      exact kept
    · intro r member cache grown
      obtain ⟨entries, cut, -, -⟩ := sliced r member cache grown
      rw [cut]
      exact ⟨_, rfl⟩

/-- What is fetched has one result for each request, and the results are in the order of the
blocks. -/
def Fetched (codec : Codec) (backend : Backend) (h : SSTableHandle) (requests : List BlockRequest)
    (blocks : List (Nat × List BlockEntry)) : Prop :=
  blocks.Pairwise (fun a b => a.1 ≤ b.1) ∧ ∃ order, order.Perm requests ∧
    List.Forall₂ (Answers codec backend h) order blocks

theorem sorted_perm (requests : List BlockRequest) : (sorted requests).Perm requests :=
  List.perm_insertionSort _ _

theorem uncached_drawn {requests : List BlockRequest} (drawn : ∀ r ∈ requests, DrawnFrom h r) :
    ∀ r ∈ uncached h.path h.footer.compressionType requests cache, DrawnFrom h r := by
  intro r member
  exact drawn r ((sorted_perm requests).mem_iff.mp (List.mem_of_mem_filter member))

theorem mem_group {requests : List BlockRequest} {group : List BlockRequest}
    (member : group ∈ groups h.path h.footer.compressionType requests cache) :
    ∀ r ∈ group, r ∈ uncached h.path h.footer.compressionType requests cache := by
  intro r inside
  rw [← List.flatten_splitBy isAdjacent (uncached h.path h.footer.compressionType requests cache)]
  exact List.mem_flatten.mpr ⟨group, member, inside⟩

theorem cachedResults_answer (coherent : CachedFrom codec backend h cache)
    {requests : List BlockRequest} (drawn : ∀ r ∈ requests, DrawnFrom h r) :
    List.Forall₂ (Answers codec backend h)
      (requests.filter fun r => !(cache.get (single h.path h.footer.compressionType r).key).isNone)
      (requests.filterMap fun r =>
        (cache.get (single h.path h.footer.compressionType r).key).map fun entries =>
          (r.blockIndex, entries)) := by
  induction requests with
  | nil => exact .nil
  | cons r rest ih =>
    have later := ih fun q member => drawn q (List.mem_cons_of_mem _ member)
    obtain ⟨ie, listed, same, -, -⟩ := single_drawn (drawn r List.mem_cons_self)
    cases found : cache.get (single h.path h.footer.compressionType r).key with
    | none =>
      rw [List.filter_cons_of_neg
        (by rw [found]; exact Bool.false_ne_true), List.filterMap_cons_none (by rw [found]; rfl)]
      exact later
    | some entries =>
      rw [List.filter_cons_of_pos (by rw [found]; rfl), List.filterMap_cons_some (by rw [found]; rfl)]
      refine .cons ⟨rfl, ?_⟩ later
      rw [same] at found ⊢
      exact coherent ie listed entries found

theorem fetched_of_answers {requests order : List BlockRequest} {all : List (Nat × List BlockEntry)}
    (perm : order.Perm requests) (answers : List.Forall₂ (Answers codec backend h) order all) :
    Fetched codec backend h requests (all.insertionSort fun a b => a.1 ≤ b.1) := by
  refine ⟨List.pairwise_insertionSort _ _, ?_⟩
  have moved : Relation.Comp (List.Forall₂ (Answers codec backend h)) List.Perm order
      (all.insertionSort fun a b => a.1 ≤ b.1) := ⟨all, answers, (List.perm_insertionSort _ _).symm⟩
  rw [List.forall₂_comp_perm_eq_perm_comp_forall₂] at moved
  obtain ⟨other, reordered, given⟩ := moved
  exact ⟨other, reordered.symm.trans perm, given⟩

theorem fetchBlocks_spec (whole : Intact codec backend h)
    (coherent : CachedFrom codec backend h cache) {requests : List BlockRequest}
    (drawn : ∀ r ∈ requests, DrawnFrom h r) (reads : Nat → GroupRead) :
    Grown codec backend h cache
      (fetchBlocks codec backend h.path h.footer.compressionType reads requests cache).2 ∧
      ∀ blocks, (fetchBlocks codec backend h.path h.footer.compressionType reads requests cache).1 =
        .ok blocks →
        Fetched codec backend h requests blocks := by
  have start : Grown codec backend h cache cache := ⟨coherent, fun _ _ _ found => found⟩
  have split := (List.filter_append_perm (fun r =>
    (cache.get (single h.path h.footer.compressionType r).key).isNone)
    (sorted requests)).trans (sorted_perm requests)
  have hits := @cachedResults_answer codec backend h cache coherent (sorted requests) fun r member =>
    drawn r ((sorted_perm requests).mem_iff.mp member)
  unfold fetchBlocks
  split
  · rename_i empty
    refine ⟨start, ?_⟩
    intro blocks done
    cases done
    rw [List.isEmpty_iff.mp empty]
    exact ⟨.nil, [], .nil, .nil⟩
  · dsimp only
    split
    · rename_i none
      refine ⟨start, ?_⟩
      intro blocks done
      cases done
      refine fetched_of_answers ?_ hits
      have nothing : (sorted requests).filter (fun r =>
          (cache.get (single h.path h.footer.compressionType r).key).isNone) = [] :=
        List.isEmpty_iff.mp none
      rw [nothing, List.nil_append] at split
      exact split
    · have step : ∀ group ∈ (groups h.path h.footer.compressionType requests cache).zipIdx, ∀ state,
          Grown codec backend h cache state →
          Grown codec backend h cache
              (fetchGroup codec backend h.path h.footer.compressionType (reads group.2) group.1 state).2 ∧
            ∀ bs, (fetchGroup codec backend h.path h.footer.compressionType
              (reads group.2) group.1 state).1 = .ok bs →
              List.Forall₂ (Answers codec backend h) group.1 bs := by
        intro group member state grown
        have listed := List.fst_mem_of_mem_zipIdx member
        exact fetchGroup_spec whole (List.isChain_of_mem_splitBy listed)
          (fun r inside => uncached_drawn drawn r (mem_group listed r inside)) (reads group.2) grown
      obtain ⟨kept, given⟩ := collect_rule Prod.fst step
        (cachedResults h.path h.footer.compressionType requests cache) start
      refine ⟨kept, ?_⟩
      intro blocks done
      obtain ⟨all, fetched, rfl⟩ := map_ok done
      obtain ⟨more, made, rfl⟩ := given all fetched
      rw [List.flatMap_def, List.zipIdx_map_fst, groups, List.flatten_splitBy] at made
      exact fetched_of_answers (List.perm_append_comm.trans split) (List.rel_append hits made)

/-- Without a failed read, only the size of a group is left to fail. -/
theorem fetchBlocks_ok (whole : Intact codec backend h)
    (coherent : CachedFrom codec backend h cache) {requests : List BlockRequest}
    (drawn : ∀ r ∈ requests, DrawnFrom h r) {reads : Nat → GroupRead}
    (answers : ∀ i, (reads i).fails = false)
    (small : ∀ group ∈ groups h.path h.footer.compressionType requests cache, ∀ first last,
      group.head? = some first → group.getLast? = some last → totalSize first last < 2 ^ 32) :
    ∃ blocks, (fetchBlocks codec backend h.path h.footer.compressionType reads requests cache).1 =
      .ok blocks := by
  have start : Grown codec backend h cache cache := ⟨coherent, fun _ _ _ found => found⟩
  unfold fetchBlocks
  split
  · exact ⟨_, rfl⟩
  · dsimp only
    split
    · exact ⟨_, rfl⟩
    · have fetched : ∃ all, (collect (fun group =>
          fetchGroup codec backend h.path h.footer.compressionType (reads group.2) group.1)
          (groups h.path h.footer.compressionType requests cache).zipIdx
          (cachedResults h.path h.footer.compressionType requests cache) cache).1 = .ok all := by
        refine collect_ok ?_ ?_ _ start
        · intro group member state grown
          have listed := List.fst_mem_of_mem_zipIdx member
          exact (fetchGroup_spec whole (List.isChain_of_mem_splitBy listed)
            (fun r inside => uncached_drawn drawn r (mem_group listed r inside))
              (reads group.2) grown).1
        · intro group member state grown
          have listed := List.fst_mem_of_mem_zipIdx member
          exact fetchGroup_ok whole (List.isChain_of_mem_splitBy listed)
            (fun r inside => uncached_drawn drawn r (mem_group listed r inside))
              (small group.1 listed) (answers group.2) grown
      obtain ⟨all, done⟩ := fetched
      rw [done]
      exact ⟨_, rfl⟩

end CoalescingFetcher

namespace SSTableWriter
variable {codec : Codec} {config : SstConfig}

/-- Every block starts where the one before it ends. -/
structure Ascending (state : WriteState) : Prop where
  apart : state.index.Pairwise fun a b => a.blockOffset < b.blockOffset
  inside : ∀ ie ∈ state.index, ie.blockOffset < state.output.length

theorem finish_ne_nil (framed : codec.Framed) {compression : CompressionType} {b : BlockBuilder}
    {block : FinishedBlock} (finished : b.finish codec compression = .ok block) :
    block.data ≠ [] := by
  obtain ⟨-, packed, -⟩ := BlockBuilder.finish_ok finished
  have some : b.buffer ++ leBytes 4 (codec.crc32 b.buffer).toNat ≠ [] := by
    simp [leBytes]
  cases compression with
  | none =>
    rw [← Except.ok.inj packed]
    exact some
  | _ => exact framed _ _ _ packed some

theorem flushBlock_ascending (framed : codec.Framed) {state next : WriteState} (h : Ascending state)
    (flushed : flushBlock codec config state = .ok next) : Ascending next := by
  obtain ⟨block, finished, made⟩ := bind_ok flushed
  have some := List.length_pos_of_ne_nil (finish_ne_nil framed finished)
  cases made
  constructor
  · apply List.pairwise_append.mpr
    refine ⟨h.apart, List.pairwise_singleton _ _, ?_⟩
    intro a before b last
    rw [List.mem_singleton.mp last]
    exact h.inside a before
  · intro ie member
    rw [List.length_append]
    rcases List.mem_append.mp member with before | last
    · have lies := h.inside ie before
      omega
    · rw [List.mem_singleton.mp last]
      show state.output.length < _
      omega

theorem addEntries_ascending (framed : codec.Framed) {state next : WriteState}
    {entries : List MemtableEntry} (h : Ascending state)
    (added : addEntries codec config state entries = .ok next) : Ascending next := by
  refine @addEntries_rule codec config (fun state _ => Ascending state) ?_ state next [] entries h added
  intro state next _ e held one
  have counted : Ascending (taken state e) := ⟨held.apart, held.inside⟩
  rcases addEntry_ok one with ⟨-, flushed⟩ | ⟨-, rfl⟩
  · exact flushBlock_ascending framed counted flushed
  · exact counted

theorem closeBlock_ascending (framed : codec.Framed) {state closed : WriteState}
    (h : Ascending state) (closes : closeBlock codec config state = .ok closed) :
    Ascending closed := by
  rcases closeBlock_ok closes with ⟨-, rfl⟩ | ⟨-, flushed⟩
  · exact h
  · exact flushBlock_ascending framed h flushed

end SSTableWriter

/-- An open handle of a written file finds all its blocks. -/
theorem TableFile.intact {codec : Codec} {config : SstConfig} {entries : List MemtableEntry}
    {f : TableFile codec config entries} {reader : SSTableReader} {handle : SSTableHandle}
    (opens : f.Opens reader handle)
    (apart : f.index.Pairwise fun a b => a.blockOffset < b.blockOffset) :
    Intact codec f.backend handle := by
  obtain ⟨path, footer, index⟩ := opens.opened
  have place : ∀ ie ∈ handle.indexBlock, ∃ (i : Nat) (es : List MemtableEntry),
      f.index[i]? = some ie ∧
      (SSTableWriter.cutBlocks config.blockSizeTarget [] entries)[i]? = some es ∧
      SSTableWriter.Stored codec config.compression f.sections.output ie es := by
    intro ie member
    rw [index] at member
    obtain ⟨i, listed⟩ := List.getElem?_of_mem member
    obtain ⟨es, group, stored⟩ := forall₂_get f.built.blocks.flip listed
    exact ⟨i, es, listed, group, stored⟩
  refine ⟨⟨_, by rw [path]; exact f.stored, ?_⟩, ?_, by rw [index]; exact apart⟩
  · intro ie member
    obtain ⟨i, es, -, -, stored⟩ := place ie member
    obtain ⟨data, size, inside, -, -⟩ := stored.data
    have header := f.built.header
    have short : ie.blockSize ≤ data.length := by
      rw [size]
      exact Nat.mod_le _ _
    simp only [SSTableWriter.assemble, List.length_append, header_length, List.length_drop]
    omega
  · intro ie member
    obtain ⟨i, es, listed, group, -⟩ := place ie member
    refine ⟨es.map BlockEntry.ofMemtable, ?_⟩
    have block : f.blocks[i]? = some (es.map BlockEntry.ofMemtable) := by
      rw [blocks, List.getElem?_map, group]
      rfl
    rw [← f.fetchDirect_block listed block, fetchDirect, SSTableHandle.request, path, footer]
    rfl

/-- The writer stores tables that are intact. -/
theorem write_intact {codec : Codec} (lossless : codec.Lossless) (framed : codec.Framed)
    (config : SstConfig) {entries : List MemtableEntry} (nonempty : entries ≠ [])
    (encodable : ∀ e ∈ entries, Encodable e) (count : entries.length < 2 ^ 64)
    (counted : SSTableWriter.Counted config.blockSizeTarget entries)
    (fits : ∀ state s, SSTableWriter.addEntries codec config {} entries = .ok state →
      SSTableWriter.sections codec config state = .ok s → s.Fits)
    (backend : Backend) (path : String) :
    ∃ info stored handle state closed, SSTableWriter.write codec config backend path entries =
      .ok (info, stored) ∧
      SSTableHandle.openFile codec stored path info.fileSize = .ok handle ∧
        Intact codec stored handle ∧
      SSTableWriter.addEntries codec config {} entries = .ok state ∧
      SSTableWriter.closeBlock codec config state = .ok closed ∧
        handle.indexBlock = closed.index := by
  obtain ⟨info, opened, reader, handle, f, written, rfl, -, -, opensHandle, opens, state, closed,
    added, closes, index⟩ :=
    write_opens lossless config nonempty encodable count counted fits backend path
  have start : SSTableWriter.Ascending {} := ⟨.nil, List.forall_mem_nil _⟩
  have ascending := SSTableWriter.closeBlock_ascending framed
    (SSTableWriter.addEntries_ascending framed start added) closes
  have whole := TableFile.intact opens (by rw [index]; exact ascending.apart)
  exact ⟨info, f.backend, handle, state, closed, written, opensHandle, whole, added, closes,
    opens.opened.2.2.trans index⟩

/-- One result for each request, in the order of the blocks, each with the entries that a fetch of
the block alone gives. -/
def SingleFetches (codec : Codec) (backend : Backend) (h : SSTableHandle) (cache : Cache)
    (requests : List BlockRequest) (blocks : List (Nat × List BlockEntry)) : Prop :=
  blocks.Pairwise (fun a b => a.1 ≤ b.1) ∧ ∃ order, order.Perm requests ∧
    List.Forall₂ (fun r b => b.1 = r.blockIndex ∧
    (fetchBlock codec backend false (CoalescingFetcher.single h.path h.footer.compressionType r)
      cache).1 = .ok b.2) order blocks

/-- For every table, every list of requests drawn from its index and every cache that is right about
the table: the results of a fetch are those of single fetches, and the cache stays right about the
table and has nothing new of another. Where no read fails there are results, as long as the runs
that are read are below 2^32 bytes. -/
theorem fetchBlocks_eq_single {codec : Codec} {backend : Backend} {h : SSTableHandle}
    (whole : Intact codec backend h) {requests : List BlockRequest}
    (drawn : ∀ r ∈ requests, DrawnFrom h r) {cache : Cache}
    (coherent : CachedFrom codec backend h cache) (reads : Nat → GroupRead) :
    let fetched := CoalescingFetcher.fetchBlocks codec backend h.path h.footer.compressionType reads
      requests cache
    CachedFrom codec backend h fetched.2 ∧
      (∀ key, (∀ ie ∈ h.indexBlock, key ≠ (h.request ie).key) →
        ∀ entries, fetched.2.get key = some entries →
        cache.get key = some entries) ∧
      (∀ blocks, fetched.1 = .ok blocks → SingleFetches codec backend h cache requests blocks) ∧
      ((∀ i, (reads i).fails = false) →
        (∀ group ∈ CoalescingFetcher.groups h.path h.footer.compressionType requests cache,
          ∀ first last,
          group.head? = some first → group.getLast? = some last →
            CoalescingFetcher.totalSize first last < 2 ^ 32) →
        ∃ blocks, fetched.1 = .ok blocks) := by
  obtain ⟨grown, given⟩ := CoalescingFetcher.fetchBlocks_spec whole coherent drawn reads
  refine ⟨grown.coherent, grown.others, ?_, CoalescingFetcher.fetchBlocks_ok whole coherent drawn⟩
  intro blocks done
  obtain ⟨ordered, order, perm, answers⟩ := given blocks done
  have asked : List.Forall₂ (fun r b => DrawnFrom h r ∧ Answers codec backend h r b) order blocks :=
    (List.forall₂_and_left _ _).mpr ⟨fun r member => drawn r (perm.mem_iff.mp member), answers⟩
  refine ⟨ordered, order, perm, asked.imp ?_⟩
  intro r b answer
  obtain ⟨fromIndex, sameIndex, direct⟩ := answer
  obtain ⟨ie, listed, same, -, -⟩ := CoalescingFetcher.single_drawn fromIndex
  rw [same] at direct ⊢
  exact ⟨sameIndex, (fetchBlock_shows coherent ie listed).trans direct⟩

section Example

theorem plainCodec_framed : plainCodec.Framed := by
  intro kind data packed made some
  cases made
  exact some

/-- Three blocks that follow one another: the first is in the cache, the second is asked for
twice. -/
theorem fetchBlocks_eq_single_sample :
    ∃ info stored handle, SSTableWriter.write plainCodec tightConfig ObjectStore.empty "t.sst"
      sampleEntries = .ok (info, stored) ∧
      SSTableHandle.openFile plainCodec stored "t.sst" info.fileSize = .ok handle ∧
      ∃ cache blocks, cache.get (CoalescingFetcher.single handle.path handle.footer.compressionType
        ⟨0, 16, 15⟩).key ≠ none ∧
        (CoalescingFetcher.fetchBlocks plainCodec stored handle.path handle.footer.compressionType (fun _ => {})
          [⟨2, 45, 15⟩, ⟨1, 31, 14⟩, ⟨0, 16, 15⟩, ⟨1, 31, 14⟩] cache).1 = .ok blocks ∧
        SingleFetches plainCodec stored handle cache
          [⟨2, 45, 15⟩, ⟨1, 31, 14⟩, ⟨0, 16, 15⟩, ⟨1, 31, 14⟩] blocks := by
  obtain ⟨info, stored, handle, state, closed, written, opens, whole, added, closes, index⟩ :=
    write_intact plainCodec_lossless plainCodec_framed tightConfig
      (show sampleEntries ≠ [] by decide) sampleEntries_encodable
      (by decide) (SSTableWriter.counted_of_target (by decide) _)
      (@fits_of_lengths plainCodec tightConfig sampleEntries 60 4 29 64
        (by decide +kernel) (by decide))
      ObjectStore.empty "t.sst"
  have places : (SSTableWriter.addEntries plainCodec tightConfig {} sampleEntries >>=
      SSTableWriter.closeBlock plainCodec tightConfig).map
        (fun s => s.index.map fun ie => (ie.blockOffset, ie.blockSize)) =
        .ok [(16, 15), (31, 14), (45, 15)] := by decide +kernel
  simp only [added, closes, bind, Except.bind, Except.map, Except.ok.injEq] at places
  rw [← index] at places
  have placed : ∀ i o n : Nat, [(16, 15), (31, 14), (45, 15)][i]? = some (o, n) →
      DrawnFrom handle ⟨i, o, n⟩ := by
    intro i o n found
    rw [← places, List.getElem?_map] at found
    obtain ⟨ie, listed, same⟩ := Option.map_eq_some_iff.mp found
    cases same
    exact ⟨ie, listed, rfl, rfl⟩
  have drawn : ∀ r ∈ [BlockRequest.mk 2 45 15, ⟨1, 31, 14⟩, ⟨0, 16, 15⟩, ⟨1, 31, 14⟩],
      DrawnFrom handle r := by
    simp only [List.forall_mem_cons]
    exact ⟨placed 2 45 15 rfl, placed 1 31 14 rfl, placed 0 16 15 rfl, placed 1 31 14 rfl,
      List.forall_mem_nil _⟩
  obtain ⟨ie, listed, same, -, -⟩ := CoalescingFetcher.single_drawn (placed 0 16 15 rfl)
  obtain ⟨entries, read⟩ := whole.blocks ie listed
  have none : Grown plainCodec stored handle ObjectStore.empty ObjectStore.empty :=
    ⟨(fun _ _ _ found => nomatch found), fun _ _ _ found => found⟩
  have cached := none.put whole listed read
  rw [← same] at cached
  obtain ⟨-, -, single, finishes⟩ := fetchBlocks_eq_single whole drawn cached.coherent fun _ => {}
  obtain ⟨blocks, done⟩ := finishes (fun _ => rfl) (by
    intro group member first last starts ends
    have inside := CoalescingFetcher.mem_group member last (List.mem_of_getLast? ends)
    have asked := (CoalescingFetcher.sorted_perm _).mem_iff.mp (List.mem_of_mem_filter inside)
    have bound : ∀ r ∈ [BlockRequest.mk 2 45 15, ⟨1, 31, 14⟩, ⟨0, 16, 15⟩, ⟨1, 31, 14⟩],
        r.blockOffset + r.blockSize ≤ 60 := by
      decide
    have short := bound last asked
    unfold CoalescingFetcher.totalSize
    omega)
  refine ⟨info, stored, handle, written, opens, _, blocks, ?_, done, single blocks done⟩
  rw [ObjectStore.get_put_self]
  exact Option.some_ne_none _

end Example

end Sst

end FlushDB
