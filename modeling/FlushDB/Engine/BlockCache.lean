import FlushDB.Engine.Reads
import FlushDB.Sstable.RoundTrip

/-!
The block cache. Decoded blocks are kept under the file name of their table and their offset; what
is not there is read from the object store. Files of different runs can have the same name, and a
block of one is then returned for a block of the other.
-/

namespace FlushDB.BlockCache
open Lib Sst

section Paths

def generateSstPath (ns : String) (level : Nat) (id : String) : String :=
  "flushdb/" ++ ns ++ "/sstables/L" ++ toString level ++ "/" ++ id ++ ".sst"

def pad4 (n : Nat) : String :=
  let digits := toString n
  String.ofList (List.replicate (4 - digits.length) '0') ++ digits

def generateRunFragmentPath (ns : String) (level : Nat) (runId : String) (fragmentIndex : Nat) :
    String :=
  "flushdb/" ++ ns ++ "/sstables/L" ++ toString level ++ "/run-" ++ runId ++ "/frag-" ++ pad4
    fragmentIndex ++ ".sst"

/-- The last component of a path. -/
def fileName (path : String) : List Char := (path.toList.reverse.takeWhile (· ≠ '/')).reverse

/-- The file name without its extension; a path without the extension is its own id. -/
def sstIdFromPath (path : String) : String :=
  let name := fileName path
  if ".sst".toList <:+ name then String.ofList (name.take (name.length - 4)) else path

end Paths

structure BlockCacheKey where
  sstId : String
  blockOffset : Nat
  deriving DecidableEq

/-- What a caller asks for. -/
structure Request where
  sstPath : String
  offset : Nat
  size : Nat
  compression : CompressionType

def Request.key (r : Request) : BlockCacheKey where
  sstId := sstIdFromPath r.sstPath
  blockOffset := r.offset

abbrev Cache := ObjectStore BlockCacheKey (List BlockEntry)

/-- Drops the blocks for which the predicate holds. -/
def Cache.drop (p : BlockCacheKey → Bool) (cache : Cache) : Cache :=
  (cache.objects.filter fun pair => p pair.1).foldl (fun cache pair => cache.delete pair.1) cache

def Cache.invalidateSst (sstId : String) (cache : Cache) : Cache :=
  Cache.drop (fun key => key.sstId = sstId) cache

def evictSstables (sstIds : List String) (cache : Cache) : Cache :=
  sstIds.foldl (fun cache id => Cache.invalidateSst id cache) cache

section Fetch
variable (codec : Codec) (backend : Backend)

/-- `DirectBlockFetcher::fetch_block`. -/
def fetchDirect (r : Request) : FlushResult (List BlockEntry) := do
  let raw ← backend.getRange r.sstPath r.offset r.size
  decodeBlock codec raw r.compression

/-- The read behind the cache; the object store may not answer. -/
def fetchInner (fails : Bool) (r : Request) : FlushResult (List BlockEntry) :=
  if fails then .error (.io "get_range") else fetchDirect codec backend r

def fetchBlock (fails : Bool) (r : Request) (cache : Cache) :
    FlushResult (List BlockEntry) × Cache :=
  match cache.get r.key with
  | some entries => (.ok entries, cache)
  | none =>
    match fetchInner codec backend fails r with
    | .error e => (.error e, cache)
    | .ok entries => (.ok entries, cache.put r.key entries)

/-- A block that is not in the cache costs one of the reads left to the caller. -/
def fetchBlockBudgeted (fails : Bool) (r : Request) (initial : Nat) (budget : ReadBudget)
    (cache : Cache) :
    FlushResult (List BlockEntry) × ReadBudget × Cache :=
  match cache.get r.key with
  | some entries => (.ok entries, budget, cache)
  | none =>
    match budget.trySpend with
    | (false, budget) =>
      (.error (.resourceExhausted "GET budget"
        s!"read budget exhausted after {initial - budget.remaining} GETs"), budget, cache)
    | (true, budget) =>
      match fetchInner codec backend fails r with
      | .error e => (.error e, budget, cache)
      | .ok entries => (.ok entries, budget, cache.put r.key entries)

end Fetch

/-- `answers` is ghost: what every call has returned. -/
structure State where
  cache : Cache := ObjectStore.empty
  answers : List (Request × FlushResult (List BlockEntry)) := []

/-- Calls on one cache. The cache may drop any block at any time. -/
inductive Label where
  | fetchBlock (r : Request) (fails : Bool)
  | fetchBlockBudgeted (r : Request) (initial : Nat) (budget : ReadBudget) (fails : Bool)
  | invalidate (key : BlockCacheKey)
  | evictSstables (sstIds : List String)
  | evict (p : BlockCacheKey → Bool)

def Label.request : Label → Option Request
  | .fetchBlock r _ | .fetchBlockBudgeted r _ _ _ => some r
  | _ => none

def step (codec : Codec) (backend : Backend) (s : State) : Label → State
  | .fetchBlock r fails =>
    let (answer, cache) := fetchBlock codec backend fails r s.cache
    { cache, answers := s.answers ++ [(r, answer)] }
  | .fetchBlockBudgeted r initial budget fails =>
    let (answer, _, cache) := fetchBlockBudgeted codec backend fails r initial budget s.cache
    { cache, answers := s.answers ++ [(r, answer)] }
  | .invalidate key => { s with cache := s.cache.delete key }
  | .evictSstables sstIds => { s with cache := evictSstables sstIds s.cache }
  | .evict p => { s with cache := Cache.drop p s.cache }

def run (codec : Codec) (backend : Backend) (labels : List Label) : State :=
  labels.foldl (step codec backend) {}

/-- Every block that was returned is the one that the object store holds. -/
def Transparent (codec : Codec) (backend : Backend) (s : State) : Prop :=
  ∀ r entries, (r, .ok entries) ∈ s.answers → fetchDirect codec backend r = .ok entries

/-- Requests that share a cache key read the same block. -/
def Unambiguous (codec : Codec) (backend : Backend) (requests : Set Request) : Prop :=
  ∀ p ∈ requests, ∀ q ∈ requests, p.key = q.key →
    ∀ entries, fetchDirect codec backend p = .ok entries → fetchDirect codec backend q = .ok entries

section
variable {codec : Codec} {backend : Backend} {requests : Set Request}

/-- Every cached block was read for one of the requests. -/
def Filled (codec : Codec) (backend : Backend) (requests : Set Request) (cache : Cache) : Prop :=
  ∀ key entries, cache.get key = some entries →
    ∃ r ∈ requests, r.key = key ∧ fetchDirect codec backend r = .ok entries

theorem Filled.delete {cache : Cache} (h : Filled codec backend requests cache)
    (key : BlockCacheKey) :
    Filled codec backend requests (cache.delete key) :=
  fun other entries found => h other entries (ObjectStore.get_of_delete found)

theorem Filled.put {cache : Cache} (h : Filled codec backend requests cache) {r : Request}
    (asked : r ∈ requests) {entries : List BlockEntry}
    (read : fetchDirect codec backend r = .ok entries) :
    Filled codec backend requests (cache.put r.key entries) :=
  ObjectStore.forall_put h ⟨r, asked, rfl, read⟩

theorem Filled.drop {cache : Cache} (h : Filled codec backend requests cache)
    (p : BlockCacheKey → Bool) :
    Filled codec backend requests (Cache.drop p cache) := by
  unfold Cache.drop
  generalize cache.objects.filter (fun pair => p pair.1) = dropped
  induction dropped generalizing cache with
  | nil => exact h
  | cons pair rest ih => exact ih (h.delete pair.1)

theorem Filled.evictSstables {cache : Cache} (h : Filled codec backend requests cache)
    (sstIds : List String) :
    Filled codec backend requests (evictSstables sstIds cache) := by
  unfold BlockCache.evictSstables
  induction sstIds generalizing cache with
  | nil => exact h
  | cons id rest ih => exact ih (h.drop _)

theorem fetchInner_ok {fails : Bool} {r : Request} {entries : List BlockEntry}
    (h : fetchInner codec backend fails r = .ok entries) :
    fetchDirect codec backend r = .ok entries := by
  unfold fetchInner at h
  split at h
  · cases h
  · exact h

/-- A call leaves blocks of the requests only, and what it returns was read for one that shares the
key. -/
theorem fetchBlock_spec {cache : Cache} (h : Filled codec backend requests cache) {r : Request}
    (asked : r ∈ requests) (fails : Bool) :
    Filled codec backend requests (fetchBlock codec backend fails r cache).2 ∧
      ∀ entries, (fetchBlock codec backend fails r cache).1 = .ok entries →
        ∃ p ∈ requests, p.key = r.key ∧ fetchDirect codec backend p = .ok entries := by
  unfold fetchBlock
  split
  · rename_i cached found
    refine ⟨h, ?_⟩
    rintro entries ⟨⟩
    exact h r.key cached found
  · split
    · exact ⟨h, fun entries failed => nomatch failed⟩
    · rename_i read fetched
      refine ⟨h.put asked (fetchInner_ok fetched), ?_⟩
      rintro entries ⟨⟩
      exact ⟨r, asked, rfl, fetchInner_ok fetched⟩

theorem fetchBlockBudgeted_spec {cache : Cache} (h : Filled codec backend requests cache)
    {r : Request} (asked : r ∈ requests) (fails : Bool) (initial : Nat) (budget : ReadBudget) :
    Filled codec backend requests (fetchBlockBudgeted codec backend fails r initial budget cache).2.2 ∧
      ∀ entries, (fetchBlockBudgeted codec backend fails r initial budget cache).1 = .ok entries →
        ∃ p ∈ requests, p.key = r.key ∧ fetchDirect codec backend p = .ok entries := by
  unfold fetchBlockBudgeted
  split
  · rename_i cached found
    refine ⟨h, ?_⟩
    rintro entries ⟨⟩
    exact h r.key cached found
  · split
    · exact ⟨h, fun entries failed => nomatch failed⟩
    · split
      · exact ⟨h, fun entries failed => nomatch failed⟩
      · rename_i read fetched
        refine ⟨h.put asked (fetchInner_ok fetched), ?_⟩
        rintro entries ⟨⟩
        exact ⟨r, asked, rfl, fetchInner_ok fetched⟩

theorem step_transparent (clear : Unambiguous codec backend requests) {s : State} {a : Label}
    (asked : ∀ r ∈ a.request, r ∈ requests)
    (h : Filled codec backend requests s.cache ∧ Transparent codec backend s) :
    Filled codec backend requests (step codec backend s a).cache ∧
      Transparent codec backend (step codec backend s a) := by
  obtain ⟨filled, transparent⟩ := h
  have answered : ∀ {r : Request} {answer : FlushResult (List BlockEntry)}, r ∈ requests →
      (∀ entries, answer = .ok entries → ∃ p ∈ requests, p.key = r.key ∧
        fetchDirect codec backend p = .ok entries) →
        ∀ q entries, (q, .ok entries) ∈ s.answers ++ [(r, answer)] →
          fetchDirect codec backend q = .ok entries := by
    intro r answer member read q entries listed
    rcases List.mem_append.mp listed with old | new
    · exact transparent q entries old
    · obtain ⟨rfl, rfl⟩ := Prod.mk.inj (List.mem_singleton.mp new)
      obtain ⟨p, listed', same, direct⟩ := read entries rfl
      exact clear p listed' q member same entries direct
  cases a with
  | fetchBlock r fails =>
    obtain ⟨filled', read⟩ := fetchBlock_spec filled (asked r rfl) fails
    exact ⟨filled', answered (asked r rfl) read⟩
  | fetchBlockBudgeted r initial budget fails =>
    obtain ⟨filled', read⟩ := fetchBlockBudgeted_spec filled (asked r rfl) fails initial budget
    exact ⟨filled', answered (asked r rfl) read⟩
  | invalidate key => exact ⟨filled.delete key, transparent⟩
  | evictSstables sstIds => exact ⟨filled.evictSstables sstIds, transparent⟩
  | evict p => exact ⟨filled.drop p, transparent⟩

theorem run_transparent (clear : Unambiguous codec backend requests) {labels : List Label}
    (asked : ∀ a ∈ labels, ∀ r ∈ a.request, r ∈ requests) :
    Transparent codec backend (run codec backend labels) := by
  have general : ∀ s : State, Filled codec backend requests s.cache ∧ Transparent codec backend s →
      Transparent codec backend (labels.foldl (step codec backend) s) := by
    induction labels with
    | nil => exact fun s h => h.2
    | cons a rest ih =>
      intro s h
      exact ih (fun b later => asked b (List.mem_cons_of_mem _ later)) _
        (step_transparent clear (asked a List.mem_cons_self) h)
  exact general {} ⟨(fun key entries found => nomatch found), (fun r entries none => nomatch none)⟩

end

/-- The cache shows the stored blocks in every run over a set of requests exactly when those that
share a file name and an offset read the same block. -/
theorem transparent_iff (codec : Codec) (backend : Backend) (requests : Set Request) :
    (∀ labels, (∀ a ∈ labels, ∀ r ∈ Label.request a, r ∈ requests) →
      Transparent codec backend (run codec backend labels)) ↔
      Unambiguous codec backend requests := by
  constructor
  · intro transparent p asked q asked' same entries read
    have shown := transparent [.fetchBlock p false, .fetchBlock q false] (by
      intro a member r request
      simp only [List.mem_cons, List.not_mem_nil, or_false] at member
      rcases member with rfl | rfl
      · obtain rfl := Option.some.inj request
        exact asked
      · obtain rfl := Option.some.inj request
        exact asked')
    apply shown q entries
    have inner : fetchInner codec backend false p = .ok entries := read
    have missed : (ObjectStore.empty : Cache).get p.key = none := rfl
    simp [run, step, fetchBlock, inner, ← same, missed]
  · intro clear labels asked
    exact run_transparent clear asked

section Example

def firstFragment : String := generateRunFragmentPath "ns" 1 "01JA" 0
def secondFragment : String := generateRunFragmentPath "ns" 1 "01JB" 0

/-- The first fragments of two runs, of one entry each. -/
def fragments : Backend :=
  match Sst.SSTableWriter.write plainCodec plainConfig ObjectStore.empty firstFragment
    [sampleEntry 1 7 3] with
  | .error _ => ObjectStore.empty
  | .ok (_, backend) =>
    match Sst.SSTableWriter.write plainCodec plainConfig backend secondFragment [sampleEntry 2 9 4] with
    | .error _ => ObjectStore.empty
    | .ok (_, backend) => backend

/-- The only block of such a file, right behind the header. -/
def onlyBlock (path : String) : Request where
  sstPath := path
  offset := headerSize
  size := 14
  compression := .none

/-- The block of the second run is answered with that of the first. -/
theorem fragments_collide :
    ∃ entries, (onlyBlock secondFragment, .ok entries) ∈
        (run plainCodec fragments [.fetchBlock (onlyBlock firstFragment) false,
          .fetchBlock (onlyBlock secondFragment) false]).answers ∧
      fetchDirect plainCodec fragments (onlyBlock secondFragment) =
        .ok [BlockEntry.ofMemtable (sampleEntry 2 9 4)] ∧
      fetchDirect plainCodec fragments (onlyBlock secondFragment) ≠ .ok entries := by
  have first : fetchDirect plainCodec fragments (onlyBlock firstFragment) =
      .ok [BlockEntry.ofMemtable (sampleEntry 1 7 3)] := by decide +kernel
  have second : fetchDirect plainCodec fragments (onlyBlock secondFragment) =
      .ok [BlockEntry.ofMemtable (sampleEntry 2 9 4)] := by decide +kernel
  have shared : (onlyBlock firstFragment).key = (onlyBlock secondFragment).key := by decide +kernel
  have differ : [BlockEntry.ofMemtable (sampleEntry 2 9 4)] ≠
      [BlockEntry.ofMemtable (sampleEntry 1 7 3)] := by decide
  have inner : fetchInner plainCodec fragments false (onlyBlock firstFragment) =
      .ok [BlockEntry.ofMemtable (sampleEntry 1 7 3)] := first
  have missed : (ObjectStore.empty : Cache).get (onlyBlock firstFragment).key = none := rfl
  refine ⟨[BlockEntry.ofMemtable (sampleEntry 1 7 3)], ?_, second, ?_⟩
  · simp [run, step, fetchBlock, inner, ← shared, missed]
  · rw [second]
    exact fun same => differ (Except.ok.inj same)

end Example

end FlushDB.BlockCache
