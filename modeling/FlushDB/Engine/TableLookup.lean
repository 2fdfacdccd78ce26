import FlushDB.Engine.BlockCache

/-!
Lookups in a stored table file, through the reader and through an open handle. Both take the last
block that starts at or before a key. The writer can end a block between two versions of a key,
and what stands before the cut is then not read.
-/

namespace FlushDB.Sst
open Lib BlockCache

/-- An open table; of its manifest entry only the size is read. -/
structure SSTableHandle where
  path : String
  footer : SstFooter
  bloomFilter : FilterBlock
  indexBlock : List IndexEntry

/-- A `BlockFetcher`: the entries of a block, from the object store or from a cache. -/
abbrev BlockFetcher := Request → FlushResult (List BlockEntry)

namespace SSTableHandle

def openFile (codec : Codec) (backend : Backend) (path : String) (sizeBytes : Nat) :
    FlushResult SSTableHandle := do
  let footerBytes ← backend.getRange path (sizeBytes - footerSize) footerSize
  let footer ← SstFooter.decode codec footerBytes
  let bloomBytes ← backend.getRange path footer.bloomFilterOffset footer.bloomFilterSize
  let bloomFilter ← FilterBlock.deserialize bloomBytes
  let indexBytes ← backend.getRange path footer.indexBlockOffset footer.indexBlockSize
  let indexBlock ← IndexBlock.deserialize indexBytes
  return { path, footer, bloomFilter, indexBlock }

def mayContainRecord (h : SSTableHandle) (recordId : Bytes) : Bool :=
  h.bloomFilter.maybeContains recordId

def findBlockForKey (h : SSTableHandle) (key : CompositeKey) : Option IndexEntry :=
  IndexBlock.findBlock h.indexBlock key

def request (h : SSTableHandle) (entry : IndexEntry) : Request where
  sstPath := h.path
  offset := entry.blockOffset
  size := entry.blockSize
  compression := h.footer.compressionType

def getBlock (h : SSTableHandle) (fetch : BlockFetcher) (blockIndex : Nat) :
    FlushResult (List BlockEntry) :=
  match h.indexBlock[blockIndex]? with
  | none =>
    .error (.invalidArgument s!"block index {blockIndex} out of range (0..{h.indexBlock.length})")
  | some entry => fetch (h.request entry)

/-- The version of the key with the highest number among the entries of a block. -/
def newestInBlock (key : CompositeKey) (entries : List BlockEntry) : Option BlockEntry :=
  entries.foldl (fun best e => if e.compositeKey = key then
    keepHighest BlockEntry.sequenceNumber best e else best) none

def get (h : SSTableHandle) (fetch : BlockFetcher) (key : CompositeKey) :
    FlushResult (Option BlockEntry) :=
  if !h.mayContainRecord key.recordId then .ok none
  else
    match h.findBlockForKey key with
    | none => .ok none
    | some entry => (fetch (h.request entry)).map (newestInBlock key)

def getBudgeted (codec : Codec) (backend : Backend) (fails : Bool) (h : SSTableHandle)
    (key : CompositeKey) (initial : Nat) (budget : ReadBudget) (cache : Cache) :
    FlushResult (Option BlockEntry) × ReadBudget × Cache :=
  if !h.mayContainRecord key.recordId then (.ok none, budget, cache)
  else
    match h.findBlockForKey key with
    | none => (.ok none, budget, cache)
    | some entry =>
      let (fetched, budget, cache) := fetchBlockBudgeted codec backend fails
        (h.request entry) initial budget cache
      (fetched.map (newestInBlock key), budget, cache)

def scan (h : SSTableHandle) (fetch : BlockFetcher) (start : CompositeKey)
    (stop : Option CompositeKey) :
    FlushResult (List BlockEntry) :=
  let first := (IndexBlock.findBlockIndex h.indexBlock start).getD 0
  scanFrom (h.getBlock fetch) start stop first first (h.indexBlock.drop first)

end SSTableHandle

/-- The fetcher shows the stored blocks of an open table. -/
def Shows (codec : Codec) (backend : Backend) (h : SSTableHandle) (fetch : BlockFetcher) : Prop :=
  ∀ ie ∈ h.indexBlock, fetch (h.request ie) = fetchDirect codec backend (h.request ie)

/-- What the cache holds under the keys of an open table are blocks of the table. -/
def CachedFrom (codec : Codec) (backend : Backend) (h : SSTableHandle) (cache : Cache) : Prop :=
  ∀ ie ∈ h.indexBlock, ∀ entries, cache.get (h.request ie).key = some entries →
    fetchDirect codec backend (h.request ie) = .ok entries

theorem fetchDirect_shows (codec : Codec) (backend : Backend) (h : SSTableHandle) :
    Shows codec backend h (fetchDirect codec backend) := fun _ _ => rfl

/-- So does a cache with blocks of the file only. -/
theorem fetchBlock_shows {codec : Codec} {backend : Backend} {h : SSTableHandle} {cache : Cache}
    (cached : CachedFrom codec backend h cache) :
    Shows codec backend h fun r => (fetchBlock codec backend false r cache).1 := by
  intro ie member
  show (fetchBlock codec backend false (h.request ie) cache).1 = _
  unfold fetchBlock
  split
  · rename_i entries found
    exact (cached ie member entries found).symm
  · rw [show fetchInner codec backend false (h.request ie) = fetchDirect codec backend (h.request ie) from rfl]
    split
    · rename_i failed
      exact failed.symm
    · rename_i read
      exact read.symm

theorem fetchBlockBudgeted_shows {codec : Codec} {backend : Backend} {h : SSTableHandle}
    {cache : Cache} (cached : CachedFrom codec backend h cache) {budget : ReadBudget}
    (left : 0 < budget.remaining) (initial : Nat) :
    Shows codec backend h fun r => (fetchBlockBudgeted codec backend false r initial budget cache).1 := by
  intro ie member
  show (fetchBlockBudgeted codec backend false (h.request ie) initial budget cache).1 = _
  unfold fetchBlockBudgeted
  split
  · rename_i entries found
    exact (cached ie member entries found).symm
  · rw [show budget.trySpend = (true, { budget with remaining := budget.remaining - 1 }) from if_pos left,
      show fetchInner codec backend false (h.request ie) =
        fetchDirect codec backend (h.request ie) from rfl]
    dsimp only
    split
    · rename_i failed
      exact failed.symm
    · rename_i read
      exact read.symm

section Truncation

def fill (width : Nat) (bytes : List UInt8) : List UInt8 :=
  bytes.take width ++ List.replicate (width - bytes.length) 0

theorem truncateKey_eq (key : CompositeKey) :
    SstFooter.truncateKey key = fill 16 key.bytes.data := by
  simp only [SstFooter.truncateKey, fill, minMaxKeyTruncationLen, List.length_take]
  congr 2
  omega

theorem fill_cons (width : Nat) (b : UInt8) (bytes : List UInt8) :
    fill (width + 1) (b :: bytes) = b :: fill width bytes := by
  simp [fill]

theorem fill_nil (width : Nat) : fill (width + 1) [] = 0 :: fill width [] := by
  simp [fill, List.replicate_succ]

theorem fill_mono (width : Nat) {a b : List UInt8} (le : a ≤ b) : fill width a ≤ fill width b := by
  induction width generalizing a b with
  | zero => simp [fill]
  | succ width ih =>
    rcases le.lt_or_eq with less | rfl
    · cases b with
      | nil => exact absurd less (List.not_lt_nil _)
      | cons y ys =>
        cases a with
        | nil =>
          rw [fill_nil, fill_cons]
          rcases (UInt8.zero_le : (0 : UInt8) ≤ y).lt_or_eq with positive | zero
          · exact (List.cons_lt_cons_iff.mpr (Or.inl positive)).le
          · rw [← zero]
            exact List.cons_le_cons _ (ih (not_lt.mp (List.not_lt_nil _)))
        | cons x xs =>
          rw [fill_cons, fill_cons]
          rcases List.cons_lt_cons_iff.mp less with first | ⟨rfl, rest⟩
          · exact (List.cons_lt_cons_iff.mpr (Or.inl first)).le
          · exact List.cons_le_cons _ (ih rest.le)
    · exact le_refl _

end Truncation

/-- A file that the writer has stored for the entries, within the widths of its format. -/
structure TableFile (codec : Codec) (config : SstConfig) (entries : List MemtableEntry) where
  backend : Backend
  path : String
  sections : Sections
  index : List IndexEntry
  stored : backend.get path = some (SSTableWriter.assemble codec config sections)
  built : SSTableWriter.Built codec config entries
    (SSTableWriter.cutBlocks config.blockSizeTarget [] entries) sections index
  encodable : ∀ e ∈ entries, Encodable e
  count : entries.length < 2 ^ 64
  fits : sections.Fits

namespace TableFile
variable {codec : Codec} {config : SstConfig} {entries : List MemtableEntry}

def blocks (_ : TableFile codec config entries) : List (List BlockEntry) :=
  (SSTableWriter.cutBlocks config.blockSizeTarget [] entries).map (List.map BlockEntry.ofMemtable)

/-- What `open` and `load_metadata` have read. -/
structure Opens (f : TableFile codec config entries) (reader : SSTableReader)
    (handle : SSTableHandle) : Prop where
  loaded : reader.codec = codec ∧ reader.backend = f.backend ∧ reader.path = f.path ∧
    reader.footer = SSTableWriter.footer config f.sections ∧ reader.index = some f.index
  filtered : ∃ filter, reader.filter = some filter ∧
    ∀ e ∈ entries, filter.maybeContains e.recordId = true
  opened : handle.path = f.path ∧ handle.footer = SSTableWriter.footer config f.sections ∧
    handle.indexBlock = f.index
  known : ∀ e ∈ entries, handle.mayContainRecord e.recordId = true

theorem flatten_blocks (f : TableFile codec config entries) :
    f.blocks.flatten = entries.map BlockEntry.ofMemtable := by
  rw [blocks, ← List.map_flatten, SSTableWriter.flatten_cutBlocks, List.nil_append]

theorem blocks_ne_nil (f : TableFile codec config entries) : ∀ b ∈ f.blocks, b ≠ [] := by
  intro b listed
  obtain ⟨es, cut, rfl⟩ := List.mem_map.mp listed
  have some := SSTableWriter.cutBlocks_ne_nil _ _ _ es cut
  simpa using some

theorem indexes (f : TableFile codec config entries) :
    Indexes IndexEntry.firstKey BlockEntry.compositeKey f.index f.blocks := by
  refine List.forall₂_map_right_iff.mpr (f.built.blocks.imp ?_)
  intro ie es stored
  rw [List.head?_map, Option.map_map]
  exact stored.firstKey

theorem fetchDirect_block (f : TableFile codec config entries) {i : Nat} {ie : IndexEntry}
    {b : List BlockEntry} (listed : f.index[i]? = some ie) (block : f.blocks[i]? = some b) :
    (do
      let raw ← f.backend.getRange f.path ie.blockOffset ie.blockSize
      decodeBlock codec raw config.compression) = .ok b := by
  rw [blocks, List.getElem?_map] at block
  obtain ⟨es, group, rfl⟩ := Option.map_eq_some_iff.mp block
  obtain ⟨ie', listed', place⟩ := forall₂_get f.built.blocks group
  obtain rfl := Option.some.inj (listed.symm.trans listed')
  obtain ⟨data, range, decodes⟩ := getRange_stored f.stored f.fits place
  rw [range]
  exact decodes

theorem mayContainKey (f : TableFile codec config entries)
    (sorted : entries.Pairwise fun a b => a.compositeKey ≤ b.compositeKey) {e : MemtableEntry}
    (member : e ∈ entries) :
    (SSTableWriter.footer config f.sections).mayContainKey e.compositeKey = true := by
  have minKey := f.built.minKey
  have maxKey := f.built.maxKey
  obtain ⟨first, starts, least⟩ := Option.map_eq_some_iff.mp minKey
  obtain ⟨last, ends, greatest⟩ := Option.map_eq_some_iff.mp maxKey
  have lower : first.compositeKey ≤ e.compositeKey := by
    obtain ⟨rest, rfl⟩ := List.head?_eq_some_iff.mp starts
    rcases List.mem_cons.mp member with rfl | later
    · exact le_refl _
    · exact (List.pairwise_cons.mp sorted).1 e later
  have upper : e.compositeKey ≤ last.compositeKey := by
    obtain ⟨front, rfl⟩ := List.getLast?_eq_some_iff.mp ends
    rcases List.mem_append.mp member with early | final
    · exact (List.pairwise_append.mp sorted).2.2 e early last List.mem_cons_self
    · rw [List.mem_singleton.mp final]
  simp only [SstFooter.mayContainKey, SSTableWriter.footer, ← least, ← greatest, truncateKey_eq,
    decide_eq_true_eq]
  exact ⟨fill_mono 16 lower, fill_mono 16 upper⟩

end TableFile

/-- The writer stores the entries in a file that can be opened. -/
theorem write_opens {codec : Codec} (lossless : codec.Lossless) (config : SstConfig)
    {entries : List MemtableEntry} (nonempty : entries ≠ [])
    (encodable : ∀ e ∈ entries, Encodable e) (count : entries.length < 2 ^ 64)
    (counted : SSTableWriter.Counted config.blockSizeTarget entries)
    (fits : ∀ state s, SSTableWriter.addEntries codec config {} entries = .ok state →
      SSTableWriter.sections codec config state = .ok s → s.Fits)
    (backend : Backend) (path : String) :
    ∃ info opened reader handle, ∃ f : TableFile codec config entries,
      SSTableWriter.write codec config backend path entries = .ok (info, f.backend) ∧
        f.path = path ∧
      SSTableReader.openFile codec f.backend path info.fileSize = .ok opened ∧
        opened.loadMetadata = .ok reader ∧
      SSTableHandle.openFile codec f.backend path info.fileSize = .ok handle ∧
        f.Opens reader handle ∧
      ∃ state closed, SSTableWriter.addEntries codec config {} entries = .ok state ∧
        SSTableWriter.closeBlock codec config state = .ok closed ∧ f.index = closed.index := by
  obtain ⟨state, closed, s, added, closes, made, built⟩ :=
    write_built lossless config nonempty encodable counted
  have small := fits state s added made
  have flat := SSTableWriter.flatten_cutBlocks config.blockSizeTarget [] entries
  rw [List.nil_append] at flat
  have found : (backend.put path (SSTableWriter.assemble codec config s)).get path =
      some (SSTableWriter.assemble codec config s) := ObjectStore.get_put_self _ _ _
  have few : s.entryCount < 2 ^ 64 := built.count.trans_lt count
  have places := located found small built.header few
  have footer := SstFooter.decode_encode (footer_fits small few :
    (SSTableWriter.footer config s).Fits) codec
  obtain ⟨recordIds, tokens, known, opens, filterRead, indexRead, dedupRead⟩ :=
    load_spec found built encodable small count
  have loads := load_sections (SSTableWriter.assemble codec config s).length places filterRead
    indexRead dedupRead
  have listed : ∀ e ∈ entries,
      (FilterBlock.mk (BloomFilter.build codec config.bloomBitsPerKey recordIds)).maybeContains
      e.recordId = true := by
    intro e member
    refine BloomFilter.maybeContains_build _ _ ((known e.recordId).mpr ?_)
    rw [flat]
    exact List.mem_map_of_mem member
  refine ⟨SSTableWriter.info codec config path s, _, _,
    { path, footer := SSTableWriter.footer config s
      bloomFilter := ⟨BloomFilter.build codec config.bloomBitsPerKey recordIds⟩, indexBlock :=
        closed.index },
    { backend := backend.put path (SSTableWriter.assemble codec config s), path, sections := s,
      index := closed.index
      stored := found, built, encodable, count, fits := small }, ?_, rfl, opens, loads, ?_,
    { loaded := ⟨rfl, rfl, rfl, rfl, rfl⟩
      filtered := ⟨_, rfl, listed⟩
      opened := ⟨rfl, rfl, rfl⟩
      known := listed }, state, closed, added, closes, rfl⟩
  · simp only [SSTableWriter.write, added, made, bind, Except.bind, pure, Except.pure]
  · simp only [SSTableHandle.openFile, SSTableWriter.info, places.footer, places.filter,
      places.index, footer, filterRead,
      indexRead, bind, Except.bind]
    rfl

/-- The answer is the version of the key with the highest number, or nothing where no entry has the
key. -/
def GivesNewest (key : CompositeKey) (entries : List MemtableEntry)
    (result : FlushResult (Option BlockEntry)) : Prop :=
  ∃ found, result = .ok found ∧
    FindsNewest BlockEntry.compositeKey BlockEntry.sequenceNumber key
      (entries.map BlockEntry.ofMemtable) found

/-- Every block that starts with the key starts with its newest version. -/
def NewestLeads (target : Nat) (entries : List MemtableEntry) (key : CompositeKey) : Prop :=
  Whole MemtableEntry.compositeKey MemtableEntry.sequenceNumber key
    (SSTableWriter.cutBlocks target [] entries)

namespace TableFile
variable {codec : Codec} {config : SstConfig} {entries : List MemtableEntry} {key : CompositeKey}

theorem ranked_blocks (f : TableFile codec config entries)
    (sorted : Ranked MemtableEntry.compositeKey MemtableEntry.sequenceNumber entries) :
    Ranked BlockEntry.compositeKey BlockEntry.sequenceNumber f.blocks.flatten := by
  rw [f.flatten_blocks]
  exact List.pairwise_map.mpr sorted

theorem newestLeads_iff (f : TableFile codec config entries) :
    Whole BlockEntry.compositeKey BlockEntry.sequenceNumber key f.blocks ↔
      NewestLeads config.blockSizeTarget entries key := whole_map BlockEntry.ofMemtable _

/-- A lookup that is right about the block it reads. -/
theorem search_iff (f : TableFile codec config entries)
    (sorted : Ranked MemtableEntry.compositeKey MemtableEntry.sequenceNumber entries)
    {fetch : IndexEntry → FlushResult (List BlockEntry)}
    (shows : ∀ (i : Nat) ie b, f.index[i]? = some ie → f.blocks[i]? = some b → fetch ie = .ok b)
    {search : List BlockEntry → Option BlockEntry}
    (finds : ∀ b, Ranked BlockEntry.compositeKey BlockEntry.sequenceNumber b →
      FindsNewest BlockEntry.compositeKey BlockEntry.sequenceNumber key b (search b)) :
    GivesNewest key entries
        (match IndexBlock.findBlock f.index key with
          | none => .ok none
          | some ie => (fetch ie).map search) ↔
      NewestLeads config.blockSizeTarget entries key := by
  have ranked := f.ranked_blocks sorted
  obtain ⟨found, answered, below, inside⟩ : ∃ found,
      (match IndexBlock.findBlock f.index key with
        | none => .ok none
        | some ie => (fetch ie).map search) = Except.ok found ∧
      (partitionPoint (fun ie => decide (ie.firstKey ≤ key)) f.index = 0 → found = none) ∧
      ∀ i b, partitionPoint (fun ie => decide (ie.firstKey ≤ key)) f.index = i + 1 →
        f.blocks[i]? = some b →
        FindsNewest BlockEntry.compositeKey BlockEntry.sequenceNumber key b found := by
    cases point : partitionPoint (fun ie => decide (ie.firstKey ≤ key)) f.index with
    | zero =>
      have none_found : IndexBlock.findBlock f.index key = none := by
        simp only [IndexBlock.findBlock, IndexBlock.findBlockIndex, point, Option.bind_none]
      exact ⟨none, by rw [none_found], fun _ => rfl, (fun i b reached => nomatch reached)⟩
    | succ i =>
      obtain ⟨before, b, after, split, length, -, ie, listed, -⟩ :=
        f.indexes.covers (ranked.cut f.blocks_ne_nil) point
      have block : f.blocks[i]? = some b := by
        rw [split, ← length, List.getElem?_append_right (le_refl _), Nat.sub_self]
        rfl
      have chosen : IndexBlock.findBlock f.index key = some ie := by
        simp only [IndexBlock.findBlock, IndexBlock.findBlockIndex, point, Option.bind_some, listed]
      refine ⟨search b, ?_, (fun reached => nomatch reached), ?_⟩
      · rw [chosen]
        dsimp only
        rw [shows i ie b listed block]
        rfl
      · intro j b' same block'
        obtain rfl : i = j := by omega
        obtain rfl := Option.some.inj (block.symm.trans block')
        exact finds b (ranked.sublist (List.sublist_flatten_of_mem (List.mem_of_getElem? block)))
  rw [← f.newestLeads_iff, ← indexed_findsNewest_iff f.indexes ranked f.blocks_ne_nil below inside,
    f.flatten_blocks]
  constructor
  · rintro ⟨other, same, newest⟩
    obtain rfl := Except.ok.inj (answered.symm.trans same)
    exact newest
  · intro newest
    exact ⟨found, answered, newest⟩

/-- A table without the key has no block that starts with it. -/
theorem absent_iff (f : TableFile codec config entries)
    (absent : ∀ e ∈ entries, e.compositeKey ≠ key) :
    GivesNewest key entries (.ok none) ↔ NewestLeads config.blockSizeTarget entries key := by
  have away : ∀ x ∈ f.blocks.flatten, x.compositeKey ≠ key := by
    intro x member
    rw [f.flatten_blocks] at member
    obtain ⟨e, listed, rfl⟩ := List.mem_map.mp member
    exact absent e listed
  rw [← f.newestLeads_iff, ← findsNewest_absent away, f.flatten_blocks]
  constructor
  · rintro ⟨found, same, newest⟩
    obtain rfl := Except.ok.inj same
    exact newest
  · intro newest
    exact ⟨none, rfl, newest⟩

variable {reader : SSTableReader} {handle : SSTableHandle} {f : TableFile codec config entries}

theorem reader_get_iff (opens : f.Opens reader handle)
    (sorted : Ranked MemtableEntry.compositeKey MemtableEntry.sequenceNumber entries)
    (key : CompositeKey) :
    GivesNewest key entries (reader.get key) ↔ NewestLeads config.blockSizeTarget entries key := by
  obtain ⟨fromCodec, fromBackend, fromPath, footer, index⟩ := opens.loaded
  obtain ⟨filter, filtered, knows⟩ := opens.filtered
  have ascends : entries.Pairwise fun a b => a.compositeKey ≤ b.compositeKey := by
    refine sorted.imp ?_
    rintro a b (less | ⟨same, -⟩)
    · exact less.le
    · exact same.le
  simp only [SSTableReader.get, SSTableReader.requireMetadata, filtered, index, bind, Except.bind,
    pure, Except.pure]
  split
  · rename_i outside
    refine f.absent_iff ?_
    rintro e member rfl
    rw [footer, f.mayContainKey ascends member] at outside
    cases outside
  split
  · rename_i unknown
    refine f.absent_iff ?_
    rintro e member rfl
    rw [show filter.maybeContains e.compositeKey.recordId = true from knows e member] at unknown
    cases unknown
  · have searched := @search_iff _ _ _ key f sorted
      (fun ie => do
        let raw ← f.backend.getRange f.path ie.blockOffset ie.blockSize
        decodeBlock codec raw config.compression)
      (fun i ie b listed block => f.fetchDirect_block listed block)
      (fun b => b.find? fun e => e.compositeKey = key)
      (fun b ranked => findsNewest_find (fun e => decide_eq_true_iff) ranked)
    have compression : (SSTableWriter.footer config f.sections).compressionType =
        config.compression := rfl
    rw [← searched, fromCodec, fromBackend, fromPath, footer, compression]
    cases IndexBlock.findBlock f.index key with
    | none => rfl
    | some ie =>
      dsimp only [bind, Except.bind]
      cases f.backend.getRange f.path ie.blockOffset ie.blockSize with
      | error e => rfl
      | ok raw =>
        dsimp only
        cases decodeBlock codec raw config.compression <;> rfl

/-- The two lookups of a handle, whatever shows the blocks of its file. -/
theorem handle_lookup_iff (opens : f.Opens reader handle)
    (sorted : Ranked MemtableEntry.compositeKey MemtableEntry.sequenceNumber entries)
    {fetch : BlockFetcher} (shows : Shows codec f.backend handle fetch) (key : CompositeKey) :
    GivesNewest key entries (handle.get fetch key) ↔
      NewestLeads config.blockSizeTarget entries key := by
  obtain ⟨path, footer, index⟩ := opens.opened
  unfold SSTableHandle.get
  split
  · rename_i unknown
    refine f.absent_iff ?_
    rintro e member rfl
    rw [show handle.mayContainRecord e.compositeKey.recordId = true from opens.known e member] at unknown
    cases unknown
  · rw [SSTableHandle.findBlockForKey, index]
    refine f.search_iff sorted ?_ (fun b _ => findsNewest_foldl b)
    intro i ie b listed block
    have member : ie ∈ handle.indexBlock := by
      rw [index]
      exact List.mem_of_getElem? listed
    rw [shows ie member, ← f.fetchDirect_block listed block, fetchDirect, SSTableHandle.request,
      path, footer]
    rfl

theorem getBudgeted_eq (codec : Codec) (backend : Backend) (h : SSTableHandle) (key : CompositeKey)
    (initial : Nat) (budget : ReadBudget) (cache : Cache) :
    (h.getBudgeted codec backend false key initial budget cache).1 =
      h.get (fun r => (fetchBlockBudgeted codec backend false r initial budget cache).1) key := by
  unfold SSTableHandle.getBudgeted SSTableHandle.get
  split
  · rfl
  · cases h.findBlockForKey key <;> rfl

end TableFile

/-- A point lookup in the written file gives the newest version of a key exactly when every block
that starts with the key starts with its newest version. -/
theorem get_newest_iff {codec : Codec} (lossless : codec.Lossless) (config : SstConfig)
    {entries : List MemtableEntry} (nonempty : entries ≠ [])
    (sorted : Ranked MemtableEntry.compositeKey MemtableEntry.sequenceNumber entries)
    (encodable : ∀ e ∈ entries, Encodable e) (count : entries.length < 2 ^ 64)
    (counted : SSTableWriter.Counted config.blockSizeTarget entries)
    (fits : ∀ state s, SSTableWriter.addEntries codec config {} entries = .ok state →
      SSTableWriter.sections codec config state = .ok s → s.Fits)
    (backend : Backend) (path : String) :
    ∃ info stored opened reader handle, SSTableWriter.write codec config backend path entries =
      .ok (info, stored) ∧
      SSTableReader.openFile codec stored path info.fileSize = .ok opened ∧
        opened.loadMetadata = .ok reader ∧
      SSTableHandle.openFile codec stored path info.fileSize = .ok handle ∧
      ∀ key,
        (GivesNewest key entries (reader.get key) ↔ NewestLeads config.blockSizeTarget entries key) ∧
        (∀ fetch, Shows codec stored handle fetch →
          (GivesNewest key entries (handle.get fetch key) ↔
            NewestLeads config.blockSizeTarget entries key)) ∧
        ∀ cache initial budget, CachedFrom codec stored handle cache → 0 < budget.remaining →
          (GivesNewest key entries (handle.getBudgeted codec stored false key initial budget cache).1 ↔
            NewestLeads config.blockSizeTarget entries key) := by
  obtain ⟨info, opened, reader, handle, f, written, rfl, opensReader, loads, opensHandle, opens, -⟩ :=
    write_opens lossless config nonempty encodable count counted fits backend path
  refine ⟨info, f.backend, opened, reader, handle, written, opensReader, loads, opensHandle, ?_⟩
  intro key
  refine ⟨TableFile.reader_get_iff opens sorted key, ?_, ?_⟩
  · intro fetch shows
    exact TableFile.handle_lookup_iff opens sorted shows key
  · intro cache initial budget cached left
    rw [TableFile.getBudgeted_eq]
    exact TableFile.handle_lookup_iff opens sorted (fetchBlockBudgeted_shows cached left initial) key

section Example

theorem sampleEntries_encodable : ∀ e ∈ sampleEntries, Encodable e :=
  fun e member => encodable_of_built (sampleEntries_built e member) (sampleEntries_sized e member)

theorem sampleEntries_ranked :
    Ranked MemtableEntry.compositeKey MemtableEntry.sequenceNumber sampleEntries := by
  unfold Ranked
  decide

def sampleKey : CompositeKey := CompositeKey.encode ⟨[114]⟩ [1]

/-- Both versions of the key are in the first block. -/
theorem get_newest_sample :
    ∃ info stored opened reader handle,
      SSTableWriter.write plainCodec plainConfig ObjectStore.empty "t.sst" sampleEntries =
        .ok (info, stored) ∧
      SSTableReader.openFile plainCodec stored "t.sst" info.fileSize = .ok opened ∧
        opened.loadMetadata = .ok reader ∧
      SSTableHandle.openFile plainCodec stored "t.sst" info.fileSize = .ok handle ∧
      GivesNewest sampleKey sampleEntries (reader.get sampleKey) ∧
      GivesNewest sampleKey sampleEntries (handle.get (fetchDirect plainCodec stored) sampleKey) := by
  obtain ⟨info, stored, opened, reader, handle, written, opens, loads, opensHandle, lookups⟩ :=
    get_newest_iff plainCodec_lossless plainConfig
      (by decide) sampleEntries_ranked sampleEntries_encodable (by decide)
      (SSTableWriter.counted_of_target (by decide) _) sampleEntries_fit ObjectStore.empty "t.sst"
  have leads : NewestLeads plainConfig.blockSizeTarget sampleEntries sampleKey := by
    unfold NewestLeads Whole
    decide +kernel
  obtain ⟨reads, gets, -⟩ := lookups sampleKey
  exact ⟨info, stored, opened, reader, handle, written, opens, loads, opensHandle, reads.mpr leads,
    (gets _ (fetchDirect_shows _ _ _)).mpr leads⟩

/-- A block for every entry. -/
def tightConfig : SstConfig where
  blockSizeTarget := 1
  compression := .none

def twoVersions : List MemtableEntry := [sampleEntry 1 7 300, sampleEntry 1 8 2]

theorem twoVersions_ranked :
    Ranked MemtableEntry.compositeKey MemtableEntry.sequenceNumber twoVersions := by
  unfold Ranked
  decide

theorem twoVersions_encodable : ∀ e ∈ twoVersions, Encodable e := by
  intro e member
  refine sampleEntries_encodable e ?_
  rw [show sampleEntries = twoVersions ++ [sampleEntry 2 9 301] from rfl]
  exact List.mem_append_left _ member

theorem twoVersions_fit :
    ∀ state s, SSTableWriter.addEntries plainCodec tightConfig {} twoVersions = .ok state →
    SSTableWriter.sections plainCodec tightConfig state = .ok s → s.Fits :=
  @fits_of_lengths plainCodec tightConfig twoVersions 45 4 29 44 (by decide +kernel) (by decide)

/-- The second block starts with the old version of the key, and none of the lookups gives the new
one. -/
theorem get_old_version :
    ∃ info stored opened reader handle,
      SSTableWriter.write plainCodec tightConfig ObjectStore.empty "t.sst" twoVersions =
        .ok (info, stored) ∧
      SSTableReader.openFile plainCodec stored "t.sst" info.fileSize = .ok opened ∧
        opened.loadMetadata = .ok reader ∧
      SSTableHandle.openFile plainCodec stored "t.sst" info.fileSize = .ok handle ∧
      ¬ GivesNewest sampleKey twoVersions (reader.get sampleKey) ∧
      ¬ GivesNewest sampleKey twoVersions (handle.get (fetchDirect plainCodec stored) sampleKey) ∧
      ¬ GivesNewest sampleKey twoVersions
        (handle.getBudgeted plainCodec stored false sampleKey 1 { remaining := 1 } ObjectStore.empty).1 := by
  obtain ⟨info, opened, reader, handle, f, written, path, opensReader, loads, opensHandle, opens, -⟩ :=
    write_opens plainCodec_lossless tightConfig (show twoVersions ≠
      [] by decide) twoVersions_encodable (by decide)
      (SSTableWriter.counted_of_target (by decide) _) twoVersions_fit ObjectStore.empty "t.sst"
  have split : ¬ NewestLeads tightConfig.blockSizeTarget twoVersions sampleKey := by
    unfold NewestLeads Whole
    decide +kernel
  have uncached : CachedFrom plainCodec f.backend handle ObjectStore.empty :=
    fun ie _ entries found => nomatch found
  refine ⟨info, f.backend, opened, reader, handle, written, opensReader, loads, opensHandle, ?_, ?_, ?_⟩
  · rw [TableFile.reader_get_iff opens twoVersions_ranked]
    exact split
  · rw [TableFile.handle_lookup_iff opens twoVersions_ranked (fetchDirect_shows _ _ _)]
    exact split
  · rw [TableFile.getBudgeted_eq, TableFile.handle_lookup_iff opens twoVersions_ranked
      (fetchBlockBudgeted_shows uncached Nat.one_pos 1)]
    exact split

end Example

section Scan

/-- The range read of the loop over the blocks is that over their entries. -/
theorem scanFrom_eq {getBlock : Nat → FlushResult (List BlockEntry)} {start : CompositeKey}
    {stop : Option CompositeKey} {first i : Nat} {index : List IndexEntry}
    {blocks : List (List BlockEntry)} (after : first ≤ i)
    (indexes : Indexes IndexEntry.firstKey BlockEntry.compositeKey index blocks)
    (shows : ∀ j b, blocks[j]? = some b → getBlock (i + j) = .ok b) :
    scanFrom getBlock start stop first i index =
      .ok (scanBlocks BlockEntry.compositeKey start stop (decide (i = first)) blocks) := by
  induction indexes generalizing i with
  | nil => rfl
  | @cons ie b index blocks starts rest ih =>
    have here := shows 0 b rfl
    have later := @ih (i + 1) (by omega) (by
      intro j b' found
      rw [Nat.add_right_comm]
      exact shows (j + 1) b' found)
    rw [show decide (i + 1 = first) = false from decide_eq_false (by omega)] at later
    rw [Nat.add_zero] at here
    obtain ⟨head, at_head, key⟩ := Option.map_eq_some_iff.mp starts
    have ends : (i > first ∧ stop.any (fun s => s ≤ ie.firstKey) = true) ↔
        (!decide (i = first) && stop.any fun s => b.head?.any fun e => s ≤ e.compositeKey) = true := by
      rw [at_head, ← key]
      simp only [Option.any_some, Bool.and_eq_true, Bool.not_eq_true', decide_eq_false_iff_not]
      constructor
      · rintro ⟨behind, past⟩
        exact ⟨by omega, past⟩
      · rintro ⟨other, past⟩
        exact ⟨by omega, past⟩
    unfold scanFrom scanBlocks
    by_cases past : i > first ∧ stop.any (fun s => s ≤ ie.firstKey) = true
    · rw [if_pos past, if_pos (ends.mp past)]
    · rw [if_neg past, if_neg (fun p => past (ends.mpr p)), here]
      dsimp only [bind, Except.bind]
      cases scanned : scanBlock BlockEntry.compositeKey start stop b with
      | mk kept ended =>
        cases ended with
        | true => rfl
        | false =>
          dsimp only
          rw [later]
          rfl

/-- The answer is the entries of the range, in the order of the file. -/
def GivesRange (start : CompositeKey) (stop : Option CompositeKey) (entries : List MemtableEntry)
    (result : FlushResult (List BlockEntry)) : Prop :=
  result = .ok ((entries.map BlockEntry.ofMemtable).filter (InRange BlockEntry.compositeKey start stop))

/-- A block that starts with the key has no entry of the key before it. -/
def NoneBefore (target : Nat) (entries : List MemtableEntry) (key : CompositeKey) : Prop :=
  Unbroken key MemtableEntry.compositeKey (SSTableWriter.cutBlocks target [] entries)

namespace TableFile
variable {codec : Codec} {config : SstConfig} {entries : List MemtableEntry} {reader : SSTableReader}
  {handle : SSTableHandle} {f : TableFile codec config entries}

theorem scan_iff (sorted : Ranked MemtableEntry.compositeKey MemtableEntry.sequenceNumber entries)
    {getBlock : Nat → FlushResult (List BlockEntry)}
    (shows : ∀ (i : Nat) b, f.blocks[i]? = some b → getBlock i = .ok b) (start : CompositeKey)
    (stop : Option CompositeKey) :
    GivesRange start stop entries
        (scanFrom getBlock start stop ((IndexBlock.findBlockIndex f.index start).getD 0)
          ((IndexBlock.findBlockIndex f.index start).getD 0)
          (f.index.drop ((IndexBlock.findBlockIndex f.index start).getD 0))) ↔
      (∃ s ∈ stop, s ≤ start) ∨ NoneBefore config.blockSizeTarget entries start := by
  have cut := (f.ranked_blocks sorted).cut f.blocks_ne_nil
  have chosen : (IndexBlock.findBlockIndex f.index start).getD 0 =
      partitionPoint (fun ie => decide (ie.firstKey ≤ start)) f.index - 1 := by
    unfold IndexBlock.findBlockIndex
    split
    · rename_i none
      rw [none]
      rfl
    · rename_i i found
      rw [found]
      rfl
  generalize (IndexBlock.findBlockIndex f.index start).getD 0 = first at chosen
  have scanned := @scanFrom_eq getBlock start stop first first _ _ (le_refl first)
    (List.forall₂_drop first f.indexes) (by
      intro j b found
      rw [List.getElem?_drop] at found
      exact shows (first + j) b found)
  have exact_iff := @indexed_scan_iff _ _ _ _ _ start stop _ _ _ f.indexes cut first chosen
  rw [f.flatten_blocks, blocks, unbroken_map] at exact_iff
  rw [GivesRange, scanned, show decide (first = first) = true from decide_eq_true rfl]
  constructor
  · intro same
    exact exact_iff.mp (Except.ok.inj same)
  · intro whole
    exact congrArg Except.ok (exact_iff.mpr whole)

theorem reader_scan_iff (opens : f.Opens reader handle)
    (sorted : Ranked MemtableEntry.compositeKey MemtableEntry.sequenceNumber entries)
    (start : CompositeKey) (stop : Option CompositeKey) :
    GivesRange start stop entries (reader.scan start stop) ↔
      (∃ s ∈ stop, s ≤ start) ∨ NoneBefore config.blockSizeTarget entries start := by
  obtain ⟨fromCodec, fromBackend, fromPath, footer, index⟩ := opens.loaded
  obtain ⟨filter, filtered, -⟩ := opens.filtered
  rw [← @scan_iff _ _ _ f sorted reader.getBlock ?_ start stop]
  · simp only [SSTableReader.scan, SSTableReader.requireMetadata, filtered, index, bind, Except.bind]
  · intro i b block
    obtain ⟨ie, listed, -⟩ := forall₂_get f.indexes block
    rw [← f.fetchDirect_block listed block]
    simp only [SSTableReader.getBlock, index, listed, fromCodec, fromBackend, fromPath, footer]
    rfl

theorem handle_scan_iff (opens : f.Opens reader handle)
    (sorted : Ranked MemtableEntry.compositeKey MemtableEntry.sequenceNumber entries)
    {fetch : BlockFetcher} (shows : Shows codec f.backend handle fetch) (start : CompositeKey)
    (stop : Option CompositeKey) :
    GivesRange start stop entries (handle.scan fetch start stop) ↔
      (∃ s ∈ stop, s ≤ start) ∨ NoneBefore config.blockSizeTarget entries start := by
  obtain ⟨path, footer, index⟩ := opens.opened
  rw [← @scan_iff _ _ _ f sorted (handle.getBlock fetch) ?_ start stop]
  · rw [SSTableHandle.scan, index]
  · intro i b block
    obtain ⟨ie, listed, -⟩ := forall₂_get f.indexes block
    have member : ie ∈ handle.indexBlock := by
      rw [index]
      exact List.mem_of_getElem? listed
    rw [← f.fetchDirect_block listed block]
    simp only [SSTableHandle.getBlock, index, listed]
    rw [shows ie member, fetchDirect, SSTableHandle.request, path, footer]
    rfl

end TableFile

/-- A range scan of the written file gives the entries of the range exactly when the range is empty
or no block that starts with its first key has an entry of that key before it. -/
theorem scan_exact_iff {codec : Codec} (lossless : codec.Lossless) (config : SstConfig)
    {entries : List MemtableEntry} (nonempty : entries ≠ [])
    (sorted : Ranked MemtableEntry.compositeKey MemtableEntry.sequenceNumber entries)
    (encodable : ∀ e ∈ entries, Encodable e) (count : entries.length < 2 ^ 64)
    (counted : SSTableWriter.Counted config.blockSizeTarget entries)
    (fits : ∀ state s, SSTableWriter.addEntries codec config {} entries = .ok state →
      SSTableWriter.sections codec config state = .ok s → s.Fits)
    (backend : Backend) (path : String) :
    ∃ info stored opened reader handle, SSTableWriter.write codec config backend path entries =
      .ok (info, stored) ∧
      SSTableReader.openFile codec stored path info.fileSize = .ok opened ∧
        opened.loadMetadata = .ok reader ∧
      SSTableHandle.openFile codec stored path info.fileSize = .ok handle ∧
      ∀ start stop,
        (GivesRange start stop entries (reader.scan start stop) ↔
          (∃ s ∈ stop, s ≤ start) ∨ NoneBefore config.blockSizeTarget entries start) ∧
        ∀ fetch, Shows codec stored handle fetch →
          (GivesRange start stop entries (handle.scan fetch start stop) ↔
            (∃ s ∈ stop, s ≤ start) ∨ NoneBefore config.blockSizeTarget entries start) := by
  obtain ⟨info, opened, reader, handle, f, written, rfl, opensReader, loads, opensHandle, opens, -⟩ :=
    write_opens lossless config nonempty encodable count counted fits backend path
  refine ⟨info, f.backend, opened, reader, handle, written, opensReader, loads, opensHandle, ?_⟩
  intro start stop
  refine ⟨TableFile.reader_scan_iff opens sorted start stop, ?_⟩
  intro fetch shows
  exact TableFile.handle_scan_iff opens sorted shows start stop

section Example

/-- All versions of the key are in its first block. -/
theorem scan_exact_sample :
    ∃ info stored opened reader handle,
      SSTableWriter.write plainCodec plainConfig ObjectStore.empty "t.sst" sampleEntries =
        .ok (info, stored) ∧
      SSTableReader.openFile plainCodec stored "t.sst" info.fileSize = .ok opened ∧
        opened.loadMetadata = .ok reader ∧
      SSTableHandle.openFile plainCodec stored "t.sst" info.fileSize = .ok handle ∧
      GivesRange sampleKey none sampleEntries (reader.scan sampleKey none) ∧
      GivesRange sampleKey none sampleEntries (handle.scan (fetchDirect plainCodec stored) sampleKey none) := by
  obtain ⟨info, stored, opened, reader, handle, written, opens, loads, opensHandle, scans⟩ :=
    scan_exact_iff plainCodec_lossless plainConfig
      (by decide) sampleEntries_ranked sampleEntries_encodable (by decide)
      (SSTableWriter.counted_of_target (by decide) _) sampleEntries_fit ObjectStore.empty "t.sst"
  have cut : SSTableWriter.cutBlocks plainConfig.blockSizeTarget [] sampleEntries =
      [[sampleEntry 1 7 300, sampleEntry 1 8 2], [sampleEntry 2 9 301]] := by decide +kernel
  have whole : NoneBefore plainConfig.blockSizeTarget sampleEntries sampleKey := by
    intro before b after split starts e member
    rw [cut] at split
    rcases before with _ | ⟨first, _ | ⟨second, more⟩⟩
    · cases member
    · obtain ⟨rfl, rest⟩ := List.cons.inj split
      obtain ⟨rfl, -⟩ := List.cons.inj rest
      exact absurd starts (by decide)
    · have lengths := congrArg List.length split
      simp only [List.cons_append, List.length_cons, List.length_append, List.length_nil] at lengths
      omega
  obtain ⟨reads, handles⟩ := scans sampleKey none
  exact ⟨info, stored, opened, reader, handle, written, opens, loads, opensHandle,
    reads.mpr (Or.inr whole),
    (handles _ (fetchDirect_shows _ _ _)).mpr (Or.inr whole)⟩

/-- The new version of the key is in the block before the one where the scan starts. -/
theorem scan_misses_version :
    ∃ info stored opened reader handle,
      SSTableWriter.write plainCodec tightConfig ObjectStore.empty "t.sst" twoVersions =
        .ok (info, stored) ∧
      SSTableReader.openFile plainCodec stored "t.sst" info.fileSize = .ok opened ∧
        opened.loadMetadata = .ok reader ∧
      SSTableHandle.openFile plainCodec stored "t.sst" info.fileSize = .ok handle ∧
      ¬ GivesRange sampleKey none twoVersions (reader.scan sampleKey none) ∧
      ¬ GivesRange sampleKey none twoVersions (handle.scan (fetchDirect plainCodec stored) sampleKey none) := by
  obtain ⟨info, opened, reader, handle, f, written, path, opensReader, loads, opensHandle, opens, -⟩ :=
    write_opens plainCodec_lossless tightConfig (show twoVersions ≠
      [] by decide) twoVersions_encodable (by decide)
      (SSTableWriter.counted_of_target (by decide) _) twoVersions_fit ObjectStore.empty "t.sst"
  have cut : SSTableWriter.cutBlocks tightConfig.blockSizeTarget [] twoVersions =
      [[sampleEntry 1 7 300], [sampleEntry 1 8 2]] := by decide +kernel
  have split : ¬ ((∃ s ∈ (none : Option CompositeKey), s ≤ sampleKey) ∨
      NoneBefore tightConfig.blockSizeTarget twoVersions sampleKey) := by
    rintro (⟨s, given, -⟩ | whole)
    · cases given
    · exact whole [[sampleEntry 1 7 300]] [sampleEntry 1 8 2]
        [] cut (by decide) (sampleEntry 1 7 300) (by decide) (by decide)
  refine ⟨info, f.backend, opened, reader, handle, written, opensReader, loads, opensHandle, ?_, ?_⟩
  · rw [TableFile.reader_scan_iff opens twoVersions_ranked]
    exact split
  · rw [TableFile.handle_scan_iff opens twoVersions_ranked (fetchDirect_shows _ _ _)]
    exact split

end Example

end Scan

end FlushDB.Sst
