import FlushDB.Engine.DeadObjects
import FlushDB.Engine.Recorded
import FlushDB.Engine.TableLookup
import FlushDB.Sstable.Prefilters

/-!
The footers, filters and indexes of tables, pinned under the ids of the tables. An opening that
finds them reads nothing of the object. Since tables are written once, the handle that it makes is
the one that the object gives, whatever has been moved, merged, evicted or has crashed since they
were read.
-/

namespace FlushDB.Sst
open Lib BlockCache

structure PinnedMetadata where
  bloomFilter : FilterBlock
  indexBlock : List IndexEntry
  footer : SstFooter
  estimatedSizeBytes : Nat

/-- A block of the index is taken for 50 bytes. -/
def PinnedMetadata.new (bloomFilter : FilterBlock) (indexBlock : List IndexEntry)
    (footer : SstFooter) : PinnedMetadata where
  bloomFilter
  indexBlock
  footer
  estimatedSizeBytes := bloomFilter.serialize.length + indexBlock.length * 50 + 80

def totalSize (entries : ObjectStore SstId PinnedMetadata) : Nat :=
  (entries.objects.map fun entry => entry.2.estimatedSizeBytes).sum

section Sizes
variable {entries : ObjectStore SstId PinnedMetadata} {sstId : SstId} {existing : PinnedMetadata}

/-- Writing again under a key reorders at most. -/
theorem perm_put (found : entries.get sstId = some existing) :
    entries.objects.Perm (entries.put sstId existing).objects := by
  refine (List.perm_ext_iff_of_nodup (entries.unique.of_map _)
    ((entries.put sstId existing).unique.of_map _)).mpr ?_
  rintro ⟨other, metadata⟩
  rw [← ObjectStore.get_eq_some, ← ObjectStore.get_eq_some, ObjectStore.get_put]
  split
  · rename_i same
    rw [same, found]
  · exact Iff.rfl

theorem totalSize_put (entries : ObjectStore SstId PinnedMetadata) (sstId : SstId)
    (metadata : PinnedMetadata) :
    totalSize (entries.put sstId metadata) = metadata.estimatedSizeBytes + totalSize
      (entries.delete sstId) := rfl

theorem totalSize_present (found : entries.get sstId = some existing) :
    totalSize entries = existing.estimatedSizeBytes + totalSize (entries.delete sstId) := by
  rw [← totalSize_put]
  exact ((perm_put found).map _).sum_nat

theorem length_present (found : entries.get sstId = some existing) :
    entries.objects.length = (entries.delete sstId).objects.length + 1 :=
  (perm_put found).length_eq

end Sizes

/-- At most `maxEntries` tables; the total is that of the entries. -/
structure PinnedMetadataCache where
  entries : ObjectStore SstId PinnedMetadata
  totalSizeBytes : Nat
  maxEntries : Nat
  counted : totalSizeBytes = totalSize entries
  bounded : entries.objects.length ≤ maxEntries

namespace PinnedMetadataCache

def new (maxEntries : Nat) : PinnedMetadataCache where
  entries := ObjectStore.empty
  totalSizeBytes := 0
  maxEntries
  counted := rfl
  bounded := Nat.zero_le _

/-- A full cache takes no further table. -/
def pin (c : PinnedMetadataCache) (sstId : SstId) (metadata : PinnedMetadata) :
    PinnedMetadataCache :=
  match found : c.entries.get sstId with
  | some existing =>
    { c with
      entries := c.entries.put sstId metadata
      totalSizeBytes := c.totalSizeBytes - existing.estimatedSizeBytes + metadata.estimatedSizeBytes
      counted := by
        rw [c.counted, totalSize_put, totalSize_present found]
        omega
      bounded := by
        have := length_present found
        have := c.bounded
        show (c.entries.delete sstId).objects.length + 1 ≤ c.maxEntries
        omega }
  | none =>
    if room : c.entries.objects.length ≥ c.maxEntries then c
    else
      { c with
        entries := c.entries.put sstId metadata
        totalSizeBytes := c.totalSizeBytes + metadata.estimatedSizeBytes
        counted := by
          rw [c.counted, totalSize_put, ObjectStore.delete_absent found, Nat.add_comm]
        bounded := by
          show (c.entries.delete sstId).objects.length + 1 ≤ c.maxEntries
          rw [ObjectStore.delete_absent found]
          omega }

def get (c : PinnedMetadataCache) (sstId : SstId) : Option PinnedMetadata := c.entries.get sstId

def release (c : PinnedMetadataCache) (sstId : SstId) : Bool × PinnedMetadataCache :=
  match found : c.entries.get sstId with
  | some removed =>
    (true,
      { c with
        entries := c.entries.delete sstId
        totalSizeBytes := c.totalSizeBytes - removed.estimatedSizeBytes
        counted := by
          rw [c.counted, totalSize_present found]
          omega
        bounded := by
          have := length_present found
          have := c.bounded
          omega })
  | none => (false, c)

def releaseBatch (c : PinnedMetadataCache) (sstIds : List SstId) : PinnedMetadataCache :=
  sstIds.foldl (fun c sstId => (c.release sstId).2) c

variable {c : PinnedMetadataCache} {sstId other : SstId} {metadata shown : PinnedMetadata}

theorem get_of_pin (h : (c.pin sstId metadata).get other = some shown) :
    c.get other = some shown ∨ other = sstId ∧ shown = metadata := by
  have put : (c.entries.put sstId metadata).get other = some shown → c.get other = some shown ∨
      other = sstId ∧ shown = metadata := by
    intro found
    rw [ObjectStore.get_put] at found
    split at found
    · rename_i same
      exact Or.inr ⟨same, (Option.some.inj found).symm⟩
    · exact Or.inl found
  unfold pin at h
  split at h
  · exact put h
  · split at h
    · exact Or.inl h
    · exact put h

theorem get_pin_self (room : c.entries.objects.length < c.maxEntries) :
    (c.pin sstId metadata).get sstId = some metadata := by
  unfold pin
  split
  · exact ObjectStore.get_put_self _ _ _
  · split
    · omega
    · exact ObjectStore.get_put_self _ _ _

theorem get_of_release (h : (c.release sstId).2.get other = some shown) :
    c.get other = some shown := by
  unfold release at h
  split at h
  · exact ObjectStore.get_of_delete h
  · exact h

theorem get_of_releaseBatch {sstIds : List SstId}
    (h : (c.releaseBatch sstIds).get other = some shown) : c.get other = some shown := by
  induction sstIds generalizing c with
  | nil => exact h
  | cons first rest ih => exact get_of_release (ih h)

end PinnedMetadataCache

namespace SSTableHandle
variable (codec : Codec) (backend : Backend)

def metadata (h : SSTableHandle) : PinnedMetadata := .new h.bloomFilter h.indexBlock h.footer

/-- `fails` where the object store cannot be read. -/
def openWithCache (path : String) (sstId : SstId) (sizeBytes : Nat) (fails : Bool)
    (pinned : PinnedMetadataCache) :
    FlushResult SSTableHandle × PinnedMetadataCache :=
  match pinned.get sstId with
  | some cached =>
    (.ok { path, footer := cached.footer, bloomFilter := cached.bloomFilter,
           indexBlock := cached.indexBlock }, pinned)
  | none =>
    match if fails then .error (.io "get_range") else openFile codec backend path sizeBytes with
    | .error e => (.error e, pinned)
    | .ok handle => (.ok handle, pinned.pin sstId handle.metadata)

variable {codec backend}

/-- A handle depends on the bytes of its object only, and has its path. -/
theorem openFile_congr {backend' : Backend} {path path' : String}
    (same : backend.get path = backend'.get path') (present : (backend.get path).isSome)
    (sizeBytes : Nat) :
    openFile codec backend path sizeBytes = (openFile codec backend' path' sizeBytes).map fun h =>
      { h with path } := by
  obtain ⟨bytes, found⟩ := Option.isSome_iff_exists.mp present
  have ranges : ∀ offset length, backend.getRange path offset length =
      backend'.getRange path' offset length := by
    intro offset length
    unfold Backend.getRange
    rw [← same, found]
  show _ = (fun h => { h with path }) <$> openFile codec backend' path' sizeBytes
  unfold openFile
  simp only [ranges, map_bind, map_pure]

end SSTableHandle

end FlushDB.Sst

namespace FlushDB.Pinning
open Lib Sst

/-- An engine over its storage, and the metadata that its process keeps. -/
structure State where
  world : World := {}
  pinned : PinnedMetadataCache

/-- Openings and evictions may stand anywhere between the steps of the engine. -/
inductive Label where
  | engine (a : World.Label)
  | openWithCache (path : SstPath) (fails : Bool)
  | evict (sstIds : List SstId)

section
variable (codec : Codec) (encode : List MergeEntry → List UInt8)

/-- The bucket, as far as the object of a table goes. -/
def objectAt (ns : String) (tables : Tables) (path : SstPath) : Backend :=
  match tables.get path with
  | none => ObjectStore.empty
  | some entries => ObjectStore.empty.put (path.key ns) (encode entries)

/-- `size_bytes` of the table: the size of its object (`sizeAt_listed`). -/
def sizeAt (tables : Tables) (path : SstPath) : Nat :=
  ((tables.get path).map fun entries => (encode entries).length).getD 0

def openPath (ns : String) (tables : Tables) (path : SstPath) : FlushResult Sst.SSTableHandle :=
  SSTableHandle.openFile codec (objectAt encode ns tables path) (path.key ns)
    (sizeAt encode tables path)

def openPathWithCache (ns : String) (tables : Tables) (path : SstPath) (fails : Bool)
    (pinned : PinnedMetadataCache) :
    FlushResult Sst.SSTableHandle × PinnedMetadataCache :=
  SSTableHandle.openWithCache codec (objectAt encode ns tables path) (path.key ns) path.file
    (sizeAt encode tables path) fails pinned

/-- A new process starts with an empty cache. Openings stand between the calls of the engine; one
inside a flush or a rebuild of the levels counts as one behind the call, when the table it opens is
stored. -/
def step (env : Env) (maxEntries : Nat) (s : State) : Label → Option State
  | .engine a =>
    (World.step env s.world a).map fun world =>
      match a with
      | .openEngine _ _ => { world, pinned := .new maxEntries }
      | _ => { s with world }
  | .openWithCache path fails =>
    some { s with pinned := (openPathWithCache codec encode env.config.ns s.world.disk.tables path fails s.pinned).2 }
  | .evict sstIds => some { s with pinned := s.pinned.releaseBatch sstIds }

/-- What reading an object gives, wherever it lies. -/
def readMetadata (entries : List MergeEntry) : FlushResult PinnedMetadata :=
  (SSTableHandle.openFile codec (ObjectStore.empty.put "" (encode entries)) ""
    (encode entries).length).map SSTableHandle.metadata

structure Right (env : Env) (s : State) : Prop where
  ready : World.Ready env s.world
  remembers : Remembers SstPath.file (readMetadata codec encode)
    (s.world.disk.Drawn env) s.world.disk.tables s.pinned.get

end

section
variable {codec : Codec} {encode : List MergeEntry → List UInt8} {ns : String} {tables : Tables}
  {path : SstPath}
  {entries : List MergeEntry} {env : Env} {maxEntries : Nat} {s s' : State} {a : Label}

/-- Where the files have the sizes that the engine records, a listed table is opened with its
`size_bytes`. -/
theorem sizeAt_listed (lengths : ∀ entries, (encode entries).length = env.fileSize entries)
    {w : World} (ready : World.Ready env w) (told : w.disk.Told env) {level : Level}
    {t : SSTableMeta} (listed : t ∈ ManifestBucket.tablesAt w.disk.manifests level) :
    sizeAt encode w.disk.tables (t.sstPath level) = t.sizeBytes := by
  obtain ⟨entries, found⟩ := Option.isSome_iff_exists.mp (ready.shelf.present level t listed)
  rw [SSTableMeta.sstPath_eq, sizeAt, found, ((told level t listed).records level entries found).sizeBytes]
  exact lengths entries

theorem openPath_absent (absent : tables.get path = none) :
    ∃ e, openPath codec encode ns tables path = .error e := by
  refine ⟨.notFound (path.key ns), ?_⟩
  unfold openPath objectAt
  rw [absent]
  rfl

theorem openPath_metadata (found : tables.get path = some entries) :
    (openPath codec encode ns tables path).map SSTableHandle.metadata =
      readMetadata codec encode entries := by
  have size : sizeAt encode tables path = (encode entries).length := by
    unfold sizeAt
    rw [found]
    rfl
  have object : (objectAt encode ns tables path).get (path.key ns) = some (encode entries) := by
    unfold objectAt
    rw [found]
    exact ObjectStore.get_put_self _ _ _
  have alone : (ObjectStore.empty.put "" (encode entries) : Backend).get "" =
      some (encode entries) := ObjectStore.get_put_self _ _ _
  unfold openPath readMetadata
  rw [size, SSTableHandle.openFile_congr (object.trans alone.symm) (Option.isSome_of_eq_some object)]
  cases SSTableHandle.openFile codec (ObjectStore.empty.put "" (encode entries)) ""
    (encode entries).length <;> rfl

theorem openPath_of_metadata (found : tables.get path = some entries) {metadata : PinnedMetadata}
    (read : readMetadata codec encode entries = .ok metadata) :
    openPath codec encode ns tables path =
      .ok { path := path.key ns, footer := metadata.footer, bloomFilter := metadata.bloomFilter,
            indexBlock := metadata.indexBlock } := by
  rw [← openPath_metadata found] at read
  cases opens : openPath codec encode ns tables path with
  | error e =>
    rw [opens] at read
    cases read
  | ok handle =>
    rw [opens] at read
    obtain rfl := Except.ok.inj read
    have object : ((objectAt encode ns tables path).get (path.key ns)).isSome := by
      unfold objectAt
      rw [found]
      exact Option.isSome_of_eq_some (ObjectStore.get_put_self _ _ _)
    have placed := @SSTableHandle.openFile_congr codec _ _ (path.key ns) _ rfl object
      (sizeAt encode tables path)
    unfold openPath at opens
    rw [opens] at placed
    rw [Except.ok.inj placed]
    rfl

/-- An opening gives what it finds in the cache, or else what the object gives. -/
theorem openPathWithCache_cases (fails : Bool) (pinned : PinnedMetadataCache) :
    (∃ cached, pinned.get path.file = some cached ∧
      openPathWithCache codec encode ns tables path fails pinned =
        (.ok { path := path.key ns, footer := cached.footer, bloomFilter := cached.bloomFilter,
               indexBlock := cached.indexBlock },
          pinned)) ∨
      pinned.get path.file = none ∧
        ((∃ e, openPathWithCache codec encode ns tables path fails pinned = (.error e, pinned) ∧
            (fails = false → openPath codec encode ns tables path = .error e)) ∨
          ∃ handle, openPath codec encode ns tables path = .ok handle ∧
            openPathWithCache codec encode ns tables path fails pinned =
              (.ok handle, pinned.pin path.file handle.metadata)) := by
  unfold openPathWithCache SSTableHandle.openWithCache
  cases known : pinned.get path.file with
  | some cached => exact Or.inl ⟨cached, rfl, rfl⟩
  | none =>
    refine Or.inr ⟨rfl, ?_⟩
    cases fails with
    | true => exact Or.inl ⟨.io "get_range", rfl, by rintro ⟨⟩⟩
    | false =>
      cases opens : openPath codec encode ns tables path with
      | error e =>
        refine Or.inl ⟨e, ?_, fun _ => rfl⟩
        unfold openPath at opens
        simp only [opens, Bool.false_eq_true, if_false]
      | ok handle =>
        refine Or.inr ⟨handle, rfl, ?_⟩
        unfold openPath at opens
        simp only [opens, Bool.false_eq_true, if_false]

theorem step_right (unique : Function.Injective env.ulid) (right : Right codec encode env s)
    (taken : step codec encode env maxEntries s a = some s') : Right codec encode env s' := by
  obtain ⟨ready, remembers⟩ := right
  cases a with
  | engine a =>
    obtain ⟨world, went, rfl⟩ := Option.map_eq_some_iff.mp taken
    have ready' := World.step_ready unique ready went
    have remembers' := remembers.step (World.step_hands unique ready went)
    cases a with
    | openEngine nowMs fault => exact ⟨ready', Remembers.nothing⟩
    | _ => exact ⟨ready', remembers'⟩
  | openWithCache path fails =>
    obtain rfl := Option.some.inj taken
    refine ⟨ready, ?_⟩
    rcases openPathWithCache_cases fails s.pinned with ⟨cached, -, answer⟩ | ⟨-,
      ⟨e, answer, -⟩ | ⟨handle, opens, answer⟩⟩
    · rw [answer]
      exact remembers
    · rw [answer]
      exact remembers
    · rw [answer]
      cases found : s.world.disk.tables.get path with
      | none =>
        obtain ⟨e, failed⟩ := @openPath_absent codec encode env.config.ns _ _ found
        rw [opens] at failed
        cases failed
      | some entries =>
        have read : readMetadata codec encode entries = .ok handle.metadata := by
          rw [← openPath_metadata found, opens]
          rfl
        exact remembers.learn ready.shelf.writtenOnce found read fun n d =>
          PinnedMetadataCache.get_of_pin
  | evict sstIds =>
    obtain rfl := Option.some.inj taken
    exact ⟨ready, remembers.forget fun n d => PinnedMetadataCache.get_of_releaseBatch⟩

/-- In every run of an engine, with openings of tables and evictions between its steps: where a
table has its object, opening it through the cache gives the handle that reading the object gives,
whether it is pinned or can be read. -/
theorem pinned_metadata_right {env : Env} (unique : Function.Injective env.ulid) (codec : Codec)
    (encode : List MergeEntry → List UInt8) (maxEntries : Nat) {labels : List Label} {s : State}
    (run : exec (step codec encode env maxEntries) { pinned := .new maxEntries } labels = some s)
    {path : SstPath} (present : (s.world.disk.tables.get path).isSome) (fails : Bool)
    (readable : fails = false ∨ (s.pinned.get path.file).isSome) :
    (openPathWithCache codec encode env.config.ns s.world.disk.tables path fails s.pinned).1 =
      openPath codec encode env.config.ns s.world.disk.tables path := by
  have right : Right codec encode env s :=
    exec_keeps (fun _ _ _ kept taken => step_right unique kept taken)
      ⟨World.ready_empty env, Remembers.nothing⟩ run
  obtain ⟨entries, found⟩ := Option.isSome_iff_exists.mp present
  rcases openPathWithCache_cases fails s.pinned with ⟨cached, known, answer⟩ | ⟨unknown,
    ⟨e, answer, same⟩ | ⟨handle, opens, answer⟩⟩
  · rw [answer]
    exact (openPath_of_metadata found ((right.remembers _ _ known).2 path entries rfl found)).symm
  · rw [answer]
    rcases readable with reachable | known
    · exact (same reachable).symm
    · rw [unknown] at known
      cases known
  · rw [answer, opens]

section Example

/-- Steps of the engine alone leave an empty cache empty. -/
theorem exec_engine {labels : List World.Label} {w w' : World}
    (run : exec (World.step env) w labels = some w') :
    exec (step codec encode env maxEntries) ⟨w, .new maxEntries⟩ (labels.map Label.engine) =
      some ⟨w', .new maxEntries⟩ := by
  induction labels generalizing w with
  | nil =>
    cases run
    rfl
  | cons a rest ih =>
    obtain ⟨mid, went, later⟩ := exec_cons run
    refine Option.bind_eq_some_iff.mpr ⟨⟨mid, .new maxEntries⟩, ?_, ih later⟩
    show (World.step env w a).map _ = _
    rw [went]
    cases a <;> rfl

/-- The file that the writer makes of a table. -/
def fileBytes (entries : List MergeEntry) : List UInt8 :=
  let written := Sst.SSTableWriter.write plainCodec plainConfig ObjectStore.empty ""
    (entries.map fun e =>
    { compositeKey := e.compositeKey, value := e.value, metadata := e.metadata,
      idempotencyKey := .none
      sequenceNumber := e.sequenceNumber, entryType := e.entryType, origin := 0 })
  (written.toOption.bind fun file => file.2.get "").getD []

def movedEntry : MergeEntry := ⟨CompositeKey.encode ⟨[114]⟩ [2], ⟨[1]⟩, ⟨[]⟩, .put, 2, 1⟩

theorem movedEntry_read :
    ∃ metadata, readMetadata plainCodec fileBytes [movedEntry] = .ok metadata := by
  have encodable : ∀ e ∈ [sampleEntry 2 1 2], Encodable e := by
    intro e member
    rw [List.mem_singleton.mp member]
    exact encodable_of_built (Or.inl ⟨⟨[114]⟩, ⟨[2]⟩, rfl⟩) ⟨by decide, by decide, by decide⟩
  obtain ⟨info, -, -, handle, f, written, -, -, -, opens, -⟩ :=
    write_opens plainCodec_lossless plainConfig (List.cons_ne_nil _ _) encodable (by decide)
      (Sst.SSTableWriter.counted_of_target (by decide) _)
      (@fits_of_lengths plainCodec plainConfig [sampleEntry 2 1 2] 30 4 29 24
        (by decide +kernel) (by decide))
      ObjectStore.empty ""
  obtain ⟨-, sections, -, -, rfl, stored⟩ := Sst.SSTableWriter.write_ok written
  have size : (Sst.SSTableWriter.info plainCodec plainConfig "" sections).fileSize =
      (Sst.SSTableWriter.assemble plainCodec plainConfig sections).length := rfl
  have bytes : fileBytes [movedEntry] = Sst.SSTableWriter.assemble plainCodec plainConfig sections := by
    have file : f.backend.get "" = some (Sst.SSTableWriter.assemble plainCodec plainConfig sections) := by
      rw [stored]
      exact ObjectStore.get_put_self _ _ _
    show ((Sst.SSTableWriter.write plainCodec plainConfig ObjectStore.empty ""
      [sampleEntry 2 1 2]).toOption.bind
      fun file => file.2.get "").getD [] = _
    rw [written]
    show (f.backend.get "").getD [] = _
    rw [file]
    rfl
  rw [size, stored, ← bytes] at opens
  refine ⟨handle.metadata, ?_⟩
  unfold readMetadata
  rw [opens]
  rfl

/-- A fragment is opened in L1, moves to L2 and is then opened where it cannot be read. -/
theorem pinned_metadata_right_moved :
    ∃ s, exec (step plainCodec fileBytes World.conflictEnv 1) { pinned := .new 1 }
        ((World.conflictRun 8).map .engine ++ [.openWithCache ⟨.L1, .fragment "xx" 1⟩ false,
          .engine (.maybeCompact fun _ => {})]) =
          some s ∧
      s.world.disk.tables.get ⟨.L1, .fragment "xx" 1⟩ = none ∧
      (openPathWithCache plainCodec fileBytes "ns" s.world.disk.tables
        ⟨.L2, .fragment "xx" 1⟩ true s.pinned).1 =
        openPath plainCodec fileBytes "ns" s.world.disk.tables ⟨.L2, .fragment "xx" 1⟩ := by
  have summary : ((exec (World.step World.conflictEnv) {} (World.conflictRun 8)).bind fun w =>
      (World.step World.conflictEnv w (.maybeCompact fun _ => {})).map fun w' =>
        (w.disk.tables.get ⟨.L1, .fragment "xx" 1⟩, (w'.disk.tables.get ⟨.L1, .fragment "xx" 1⟩).isNone,
          (w'.disk.tables.get ⟨.L2, .fragment "xx" 1⟩).isSome)) =
            some (some [movedEntry], true, true) := by decide +kernel
  obtain ⟨w, run, rest⟩ := Option.bind_eq_some_iff.mp summary
  obtain ⟨w', compacts, held⟩ := Option.map_eq_some_iff.mp rest
  obtain ⟨found, after⟩ := Prod.mk.inj held
  obtain ⟨left, moved⟩ := Prod.mk.inj after
  obtain ⟨metadata, read⟩ := movedEntry_read
  have opens := @openPath_of_metadata plainCodec fileBytes "ns" _ _ _ found _ read
  have whole : exec (step plainCodec fileBytes World.conflictEnv 1) { pinned := .new 1 }
      ((World.conflictRun 8).map .engine ++ [.openWithCache ⟨.L1, .fragment "xx" 1⟩ false,
        .engine (.maybeCompact fun _ => {})]) =
        some ⟨w', (openPathWithCache plainCodec fileBytes "ns" w.disk.tables
          ⟨.L1, .fragment "xx" 1⟩ false (.new 1)).2⟩ := by
    refine exec_append (exec_engine run) ?_
    show (World.step World.conflictEnv w _).map _ >>= _ = _
    rw [compacts]
    rfl
  have pinned : ((openPathWithCache plainCodec fileBytes "ns" w.disk.tables
      ⟨.L1, .fragment "xx" 1⟩ false (.new 1)).2.get
      (.fragment "xx" 1)).isSome := by
    rcases @openPathWithCache_cases plainCodec fileBytes "ns" w.disk.tables
      ⟨.L1, .fragment "xx" 1⟩ false (.new 1) with
      ⟨cached, known, -⟩ | ⟨-, ⟨e, -, failed⟩ | ⟨handle, -, answer⟩⟩
    · cases known
    · cases opens.symm.trans (failed rfl)
    · rw [answer]
      exact Option.isSome_of_eq_some (PinnedMetadataCache.get_pin_self Nat.one_pos)
  refine ⟨_, whole, Option.isNone_iff_eq_none.mp left, ?_⟩
  exact @pinned_metadata_right World.conflictEnv
    (World.sampleEnv_unique 100) plainCodec fileBytes 1 _ _ whole ⟨.L2, .fragment "xx" 1⟩
    moved true (Or.inr pinned)

end Example

end

end FlushDB.Pinning
