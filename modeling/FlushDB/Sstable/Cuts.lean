import Mathlib.Data.List.Flatten
import FlushDB.Lib.BlockIndex
import FlushDB.Sstable.File

/-!
How the writer cuts the entries into blocks, and what it keeps of them. The entries of a block are
counted in 32 bits: a last block of `2 ^ 32` entries is taken for an empty one and left out, and one
before it ends the writing.
-/

namespace FlushDB.Sst
open Lib

namespace SSTableWriter

section
variable {codec : Codec} {config : SstConfig}

/-- The entry is taken, and its block not yet looked at. -/
def taken (state : WriteState) (e : MemtableEntry) : WriteState :=
  { state with
    blockBuilder := state.blockBuilder.addEntry e
    minKey := state.minKey.or (some e.compositeKey)
    maxKey := some e.compositeKey
    entryCount := state.entryCount + 1 }

theorem addEntry_eq (codec : Codec) (config : SstConfig) (state : WriteState) (e : MemtableEntry) :
    addEntry codec config state e = if (taken state e).blockBuilder.isFull config.blockSizeTarget then
      flushBlock codec config (taken state e) else .ok (taken state e) := rfl

/-- The block of a taken entry is closed where it is full. -/
theorem addEntry_ok {state next : WriteState} {e : MemtableEntry}
    (added : addEntry codec config state e = .ok next) :
    ((taken state e).blockBuilder.isFull config.blockSizeTarget = true ∧
      flushBlock codec config (taken state e) = .ok next) ∨
      ((taken state e).blockBuilder.isFull config.blockSizeTarget = false ∧ next = taken state e) := by
  rw [addEntry_eq] at added
  split at added
  · rename_i full
    exact Or.inl ⟨full, added⟩
  · rename_i more
    exact Or.inr ⟨Bool.eq_false_of_not_eq_true more, (Except.ok.inj added).symm⟩

theorem closeBlock_ok {state closed : WriteState}
    (closes : closeBlock codec config state = .ok closed) :
    (state.blockBuilder.entryCount = 0 ∧ closed = state) ∨
      (state.blockBuilder.entryCount ≠ 0 ∧ flushBlock codec config state = .ok closed) := by
  unfold closeBlock at closes
  split at closes
  · rename_i empty
    exact Or.inl ⟨of_decide_eq_true empty, (Except.ok.inj closes).symm⟩
  · rename_i more
    exact Or.inr ⟨fun empty => more (decide_eq_true empty), closes⟩

/-- What `sections` puts together when it does not fail. -/
theorem sections_ok {state : WriteState} {s : Sections}
    (finished : sections codec config state = .ok s) :
    ∃ closed minKey maxKey, closeBlock codec config state = .ok closed ∧
      closed.minKey = some minKey ∧
      closed.maxKey = some maxKey ∧
      s = { output := closed.output
            dedup := (DedupBlock.build closed.tokens).serialize
            filter := (FilterBlock.mk
              (BloomFilter.build codec config.bloomBitsPerKey closed.recordIds)).serialize
            index := IndexBlock.serialize closed.index
            entryCount := closed.entryCount
            minKey
            maxKey } := by
  obtain ⟨closed, closes, made⟩ := bind_ok finished
  split at made
  · rename_i minKey maxKey least greatest
    exact ⟨closed, minKey, maxKey, closes, least, greatest, (Except.ok.inj made).symm⟩
  · cases made

theorem write_ok {backend stored : Backend} {path : String} {entries : List MemtableEntry}
    {written : SstInfo} (writes : write codec config backend path entries = .ok (written, stored)) :
    ∃ state s, addEntries codec config {} entries = .ok state ∧
      sections codec config state = .ok s ∧
      written = info codec config path s ∧ stored = backend.put path (assemble codec config s) := by
  obtain ⟨state, added, later⟩ := bind_ok writes
  obtain ⟨s, finished, made⟩ := bind_ok later
  cases made
  exact ⟨state, s, added, finished, rfl, rfl⟩

/-- What each entry keeps, all the entries keep. -/
theorem addEntries_rule {kept : WriteState → List MemtableEntry → Prop}
    (step : ∀ state next entries e, kept state entries → addEntry codec config state e = .ok next →
      kept next (entries ++ [e]))
    {state next : WriteState} {entries more : List MemtableEntry} (h : kept state entries)
    (added : addEntries codec config state more = .ok next) : kept next (entries ++ more) := by
  induction more generalizing state entries with
  | nil =>
    obtain rfl := Except.ok.inj added
    rw [List.append_nil]
    exact h
  | cons e rest ih =>
    obtain ⟨mid, first, later⟩ := bind_ok added
    rw [List.append_cons]
    exact ih (step state mid entries e h first) later

/-- The entries in blocks; an entry that brings its block to the target ends it. -/
def cutBlocks (target : Nat) : List MemtableEntry → List MemtableEntry → List (List MemtableEntry)
  | [], [] => []
  | pending, [] => [pending]
  | pending, e :: rest =>
    if (encodeEntries 0 none (pending ++ [e])).length ≥ target then
      (pending ++ [e]) :: cutBlocks target [] rest
    else cutBlocks target (pending ++ [e]) rest

theorem cutBlocks_cons (target : Nat) (pending : List MemtableEntry) (e : MemtableEntry)
    (rest : List MemtableEntry) :
    cutBlocks target pending (e :: rest) =
      if (encodeEntries 0 none (pending ++ [e])).length ≥ target then
        (pending ++ [e]) :: cutBlocks target [] rest
      else cutBlocks target (pending ++ [e]) rest := by
  cases pending with
  | nil => rfl
  | cons first others => rfl

/-- The count of no block wraps to zero. -/
def Counted (target : Nat) (entries : List MemtableEntry) : Prop :=
  ∀ b ∈ cutBlocks target [] entries, b.length % 2 ^ 32 ≠ 0

instance (target : Nat) (entries : List MemtableEntry) : Decidable (Counted target entries) :=
  inferInstanceAs (Decidable (∀ b ∈ cutBlocks target [] entries, b.length % 2 ^ 32 ≠ 0))

/-- The blocks that are written when the writer does not fail. -/
def writtenBlocks (target : Nat) (entries : List MemtableEntry) : List (List MemtableEntry) :=
  (cutBlocks target [] entries).filter fun b => b.length % 2 ^ 32 ≠ 0

theorem flatten_cutBlocks (target : Nat) (pending entries : List MemtableEntry) :
    (cutBlocks target pending entries).flatten = pending ++ entries := by
  fun_induction cutBlocks target pending entries with
  | case1 => rfl
  | case2 pending => simp
  | case3 pending e rest reached ih => simp [ih]
  | case4 pending e rest more ih => simp [ih]

theorem cutBlocks_ne_nil (target : Nat) (pending entries : List MemtableEntry) :
    ∀ b ∈ cutBlocks target pending entries, b ≠ [] := by
  fun_induction cutBlocks target pending entries with
  | case1 => simp
  | case2 pending some => simpa using some
  | case3 pending e rest reached ih => simpa using ih
  | case4 pending e rest more ih => exact ih

/-- The entries that stand in written blocks. -/
def writtenEntries (target : Nat) (entries : List MemtableEntry) : List MemtableEntry :=
  (writtenBlocks target entries).flatten

theorem Counted.writtenBlocks {target : Nat} {entries : List MemtableEntry}
    (counted : Counted target entries) :
    writtenBlocks target entries = cutBlocks target [] entries :=
  List.filter_eq_self.mpr fun b listed => decide_eq_true (counted b listed)

theorem Counted.writtenEntries {target : Nat} {entries : List MemtableEntry}
    (counted : Counted target entries) :
    writtenEntries target entries = entries := by
  rw [SSTableWriter.writtenEntries, counted.writtenBlocks, flatten_cutBlocks, List.nil_append]

/-- No list is left out of those that together are as long as all of them. -/
theorem filter_whole {α : Type} {p : List α → Bool} {blocks : List (List α)}
    (nonempty : ∀ b ∈ blocks, b ≠ [])
    (whole : (blocks.filter p).flatten.length = blocks.flatten.length) :
    ∀ b ∈ blocks, p b = true := by
  induction blocks with
  | nil => simp
  | cons first rest ih =>
    have some := List.length_pos_iff.mpr (nonempty first List.mem_cons_self)
    have others := fun b listed => nonempty b (List.mem_cons_of_mem _ listed)
    have fewer : (rest.filter p).flatten.length ≤ rest.flatten.length :=
      (List.Sublist.flatten List.filter_sublist).length_le
    rw [List.flatten_cons, List.length_append] at whole
    cases kept : p first with
    | true =>
      rw [List.filter_cons_of_pos kept, List.flatten_cons, List.length_append] at whole
      exact List.forall_mem_cons.mpr ⟨kept, ih others (by omega)⟩
    | false =>
      rw [List.filter_cons_of_neg (by rw [kept]; exact Bool.false_ne_true)] at whole
      omega

theorem writtenEntries_part {target : Nat} {entries : List MemtableEntry} :
    (writtenEntries target entries).Sublist entries := by
  have flat := flatten_cutBlocks target [] entries
  rw [List.nil_append] at flat
  nth_rewrite 2 [← flat]
  exact List.Sublist.flatten List.filter_sublist

/-- Where all the entries stand in written blocks, no block is left out. -/
theorem counted_of_flatten {target : Nat} {entries : List MemtableEntry}
    (whole : (writtenEntries target entries).length = entries.length) : Counted target entries := by
  have kept := @filter_whole _ (fun b => decide (b.length % 2 ^ 32 ≠ 0)) _
    (cutBlocks_ne_nil target [] entries) (by
    rw [flatten_cutBlocks, List.nil_append]
    exact whole)
  exact fun b listed => of_decide_eq_true (kept b listed)

/-- A block has no more entries than bytes, but for the one that ends it. -/
theorem length_cutBlocks (target : Nat) (pending entries : List MemtableEntry)
    (few : pending.length ≤ target) :
    ∀ b ∈ cutBlocks target pending entries, b.length ≤ target + 1 := by
  fun_induction cutBlocks target pending entries with
  | case1 => simp
  | case2 pending some =>
    intro b listed
    rw [List.mem_singleton.mp listed]
    omega
  | case3 pending e rest reached ih =>
    intro b listed
    rcases List.mem_cons.mp listed with rfl | later
    · rw [List.length_append, List.length_singleton]
      omega
    · exact ih (Nat.zero_le _) b later
  | case4 pending e rest more ih =>
    have bytes := length_le_encodeEntries 0 none (pending ++ [e])
    exact ih (by omega)

/-- No count wraps where the blocks are cut below `2 ^ 32 - 1` bytes. -/
theorem counted_of_target {target : Nat} (small : target + 1 < 2 ^ 32)
    (entries : List MemtableEntry) : Counted target entries := by
  intro b listed
  have few := length_cutBlocks target [] entries (Nat.zero_le _) b listed
  have some := List.length_pos_iff.mpr (cutBlocks_ne_nil target [] entries b listed)
  omega

/-- The closed blocks, and what the open one holds. -/
structure Cuts (state : WriteState) (groups : List (List MemtableEntry))
    (pending : List MemtableEntry) : Prop where
  builder : state.blockBuilder.Holds pending
  indexes : Indexes IndexEntry.firstKey MemtableEntry.compositeKey state.index groups
  counted : ∀ b ∈ groups, b.length % 2 ^ 32 ≠ 0
  minKey : state.minKey = (groups.flatten ++ pending).head?.map MemtableEntry.compositeKey
  maxKey : state.maxKey = (groups.flatten ++ pending).getLast?.map MemtableEntry.compositeKey
  count : state.entryCount = (groups.flatten ++ pending).length
  recordIds : ∀ id, id ∈ state.recordIds ↔ id ∈ groups.flatten.map MemtableEntry.recordId
  tokens : state.tokens = (groups.flatten.map MemtableEntry.idempotencyKey).filter fun token =>
    !token.isNone

theorem cuts_empty : Cuts {} [] [] :=
  ⟨BlockBuilder.holds_empty, .nil, by simp, rfl, rfl, rfl, fun _ => Iff.rfl, rfl⟩

variable {state next closed : WriteState} {groups : List (List MemtableEntry)}
  {pending entries more : List MemtableEntry}

theorem flatten_closed (groups : List (List MemtableEntry)) (pending : List MemtableEntry) :
    (groups ++ [pending]).flatten ++ [] = groups.flatten ++ pending := by
  simp

theorem flushBlock_cuts (h : Cuts state groups pending)
    (flushed : flushBlock codec config state = .ok next) :
    Cuts next (groups ++ [pending]) [] := by
  obtain ⟨block, finished, made⟩ := bind_ok flushed
  obtain rfl := Except.ok.inj made
  obtain ⟨counted, -, firstKey, -, recordIds, tokens⟩ := BlockBuilder.finish_ok finished
  refine ⟨BlockBuilder.holds_empty, List.rel_append h.indexes (.cons ?_ .nil), ?_, ?_, ?_, ?_, ?_, ?_⟩
  · rw [← h.builder.firstKey]
    exact firstKey
  · intro b listed
    rcases List.mem_append.mp listed with old | new
    · exact h.counted b old
    · rw [List.mem_singleton.mp new, ← h.builder.entryCount]
      exact counted
  · rw [flatten_closed]
    exact h.minKey
  · rw [flatten_closed]
    exact h.maxKey
  · rw [flatten_closed]
    exact h.count
  · intro id
    rw [recordIds, List.mem_append, h.recordIds id, h.builder.recordIds id]
    simp
  · rw [tokens, h.tokens, h.builder.tokens]
    simp

theorem taken_cuts (h : Cuts state groups pending) (e : MemtableEntry) :
    Cuts (taken state e) groups (pending ++ [e]) := by
  have same : groups.flatten ++ (pending ++ [e]) = groups.flatten ++ pending ++ [e] :=
    (List.append_assoc _ _ _).symm
  refine ⟨h.builder.addEntry e, h.indexes, h.counted, ?_, ?_, ?_, h.recordIds, h.tokens⟩
  · rw [same, taken, h.minKey]
    cases groups.flatten ++ pending with
    | nil => rfl
    | cons first rest => rfl
  · rw [same, taken]
    simp
  · rw [same, List.length_append, ← h.count]
    rfl

/-- The entries so far in blocks of which something is kept, and how those still to come are cut. -/
def CutsLike (held : WriteState → List (List MemtableEntry) → List MemtableEntry → Prop)
    (target : Nat) (state : WriteState) (entries : List MemtableEntry) : Prop :=
  ∃ groups pending, held state groups pending ∧
    ∀ rest, groups ++ cutBlocks target pending rest = cutBlocks target [] (entries ++ rest)

section Kept
variable {held : WriteState → List (List MemtableEntry) → List MemtableEntry → Prop}
  (cuts : ∀ {state groups pending}, held state groups pending → Cuts state groups pending)
  (flush : ∀ {state next groups pending}, held state groups pending →
    flushBlock codec config state = .ok next →
    held next (groups ++ [pending]) [])
include cuts flush

/-- What taking an entry and closing a block keep, the writing of all entries keeps. -/
theorem addEntries_like
    (take : ∀ {state groups pending} e, held state groups pending →
      held (taken state e) groups (pending ++ [e]))
    (h : CutsLike held config.blockSizeTarget state entries)
    (added : addEntries codec config state more = .ok next) :
    CutsLike held config.blockSizeTarget next (entries ++ more) := by
  refine addEntries_rule ?_ h added
  rintro state next entries e ⟨groups, pending, here, same⟩ one
  have seen := take e here
  have full := (cuts seen).builder.isFull config.blockSizeTarget
  rcases addEntry_ok one with ⟨reached, flushed⟩ | ⟨below, rfl⟩
  · rw [full] at reached
    refine ⟨groups ++ [pending ++ [e]], [], flush seen flushed, fun rest => ?_⟩
    have cut := same (e :: rest)
    rw [cutBlocks_cons, if_pos (of_decide_eq_true reached), List.append_cons] at cut
    rw [cut, List.append_cons entries]
  · rw [full] at below
    refine ⟨groups, pending ++ [e], seen, fun rest => ?_⟩
    have cut := same (e :: rest)
    rw [cutBlocks_cons, if_neg (of_decide_eq_false below)] at cut
    rw [cut, List.append_cons entries]

/-- Once the last block is closed, the written blocks stand; what is left of the entries is a block
that counts as empty. -/
theorem closeBlock_like (h : CutsLike held config.blockSizeTarget state entries)
    (closes : closeBlock codec config state = .ok closed) :
    ∃ pending, held closed (writtenBlocks config.blockSizeTarget entries) pending ∧
      (writtenBlocks config.blockSizeTarget entries).flatten ++ pending = entries := by
  obtain ⟨groups, pending, here, same⟩ := h
  have whole := same []
  rw [List.append_nil] at whole
  have all : groups.flatten ++ pending = entries := by
    have flat := congrArg List.flatten whole
    rwa [List.flatten_append, flatten_cutBlocks, flatten_cutBlocks, List.append_nil,
      List.nil_append] at flat
  have counts := (cuts here).builder.entryCount
  have kept : groups.filter (fun b => decide (b.length % 2 ^ 32 ≠ 0)) = groups :=
    List.filter_eq_self.mpr fun b listed => decide_eq_true ((cuts here).counted b listed)
  have last : cutBlocks config.blockSizeTarget pending [] = if pending = [] then []
      else [pending] := by
    cases pending with
    | nil => rfl
    | cons first rest => rfl
  rcases closeBlock_ok closes with ⟨empty, rfl⟩ | ⟨some, flushed⟩
  · have written : writtenBlocks config.blockSizeTarget entries = groups := by
      have skipped : ¬ pending.length % 2 ^ 32 ≠ 0 := by
        rw [← counts]
        exact not_not.mpr empty
      rw [writtenBlocks, ← whole, List.filter_append, kept, last]
      split
      · exact List.append_nil _
      · rw [List.filter_singleton, decide_eq_false skipped]
        exact List.append_nil _
    rw [written]
    exact ⟨pending, here, all⟩
  · have written : writtenBlocks config.blockSizeTarget entries = groups ++ [pending] := by
      have nonempty : pending ≠ [] := by
        rintro rfl
        exact some counts
      rw [writtenBlocks, ← whole, List.filter_append, kept, last, if_neg nonempty,
        List.filter_singleton, ← counts]
      simp [some]
    rw [written]
    exact ⟨[], flush here flushed, by rw [flatten_closed, all]⟩

end Kept

theorem addEntries_cuts (added : addEntries codec config {} entries = .ok state) :
    CutsLike Cuts config.blockSizeTarget state entries := by
  have start : CutsLike Cuts config.blockSizeTarget {} [] := ⟨[], [], cuts_empty, fun _ => rfl⟩
  exact addEntries_like id flushBlock_cuts (fun e h => taken_cuts h e) start added

theorem closeBlock_cuts (added : addEntries codec config {} entries = .ok state)
    (closes : closeBlock codec config state = .ok closed) :
    ∃ pending, Cuts closed (writtenBlocks config.blockSizeTarget entries) pending ∧
      (writtenBlocks config.blockSizeTarget entries).flatten ++ pending = entries :=
  closeBlock_like id flushBlock_cuts (addEntries_cuts added) closes

theorem closeBlock_keys (added : addEntries codec config {} entries = .ok state)
    (closes : closeBlock codec config state = .ok closed) :
    closed.minKey = entries.head?.map MemtableEntry.compositeKey ∧
      closed.maxKey = entries.getLast?.map MemtableEntry.compositeKey := by
  obtain ⟨pending, cuts, all⟩ := closeBlock_cuts added closes
  rw [cuts.minKey, cuts.maxKey, all]
  exact ⟨rfl, rfl⟩

/-- The keys at the ends of the file are those of all the entries. -/
theorem sections_keys {s : Sections} (added : addEntries codec config {} entries = .ok state)
    (finished : sections codec config state = .ok s) :
    entries.head?.map MemtableEntry.compositeKey = some s.minKey ∧
      entries.getLast?.map MemtableEntry.compositeKey = some s.maxKey := by
  obtain ⟨closed, least, greatest, closes, minimum, maximum, rfl⟩ := sections_ok finished
  obtain ⟨minKey, maxKey⟩ := closeBlock_keys added closes
  exact ⟨minKey.symm.trans minimum, maxKey.symm.trans maximum⟩

section Total
variable (lossless : codec.Lossless)
include lossless

theorem flushBlock_total (h : Cuts state groups pending) (counted : pending.length % 2 ^ 32 ≠ 0) :
    ∃ next, flushBlock codec config state = .ok next := by
  obtain ⟨block, finished⟩ := h.builder.finish_total lossless config.compression counted
  simp only [flushBlock, finished, bind, Except.bind]
  exact ⟨_, rfl⟩

/-- Where no count wraps, every entry is taken. -/
theorem addEntries_total (h : CutsLike Cuts config.blockSizeTarget state entries)
    (counted : Counted config.blockSizeTarget (entries ++ more)) :
    ∃ next, addEntries codec config state more = .ok next := by
  induction more generalizing state entries with
  | nil => exact ⟨state, rfl⟩
  | cons e rest ih =>
    obtain ⟨mid, added⟩ : ∃ mid, addEntry codec config state e = .ok mid := by
      obtain ⟨groups, pending, here, same⟩ := h
      have seen := taken_cuts here e
      rw [addEntry_eq, seen.builder.isFull]
      split
      · rename_i reached
        refine flushBlock_total lossless seen (counted _ ?_)
        rw [← same, cutBlocks_cons, if_pos (of_decide_eq_true reached)]
        simp
      · exact ⟨_, rfl⟩
    have one : addEntries codec config state [e] = .ok mid := by
      simp [addEntries, added, bind, Except.bind]
    obtain ⟨next, later⟩ := ih (addEntries_like id flushBlock_cuts
      (fun e h => taken_cuts h e) h one) (by rwa [← List.append_cons])
    refine ⟨next, ?_⟩
    simp only [addEntries, added, bind, Except.bind]
    exact later

/-- Where no count wraps, the writer takes every list of entries but the empty one. -/
theorem sections_total (counted : Counted config.blockSizeTarget entries)
    (nonempty : entries ≠ []) :
    ∃ state s, addEntries codec config {} entries = .ok state ∧
      sections codec config state = .ok s := by
  obtain ⟨state, added⟩ := @addEntries_total codec config {} [] entries lossless
    ⟨[], [], cuts_empty, fun _ => rfl⟩ counted
  obtain ⟨closed, closes⟩ : ∃ closed, closeBlock codec config state = .ok closed := by
    obtain ⟨groups, pending, here, same⟩ := addEntries_cuts added
    unfold closeBlock
    split
    · exact ⟨state, rfl⟩
    · rename_i some
      refine flushBlock_total lossless here ?_
      rw [← here.builder.entryCount]
      exact fun empty => some (decide_eq_true empty)
  obtain ⟨first, rest, rfl⟩ := List.exists_cons_of_ne_nil nonempty
  obtain ⟨least, greatest⟩ := closeBlock_keys added closes
  obtain ⟨last, final⟩ : ∃ last, (first :: rest).getLast? = some last := ⟨_, List.getLast?_cons⟩
  rw [final] at greatest
  obtain ⟨s, made⟩ : ∃ s, sections codec config state = .ok s := by
    simp only [sections, closes, least, greatest, List.head?_cons, Option.map_some, bind, Except.bind]
    exact ⟨_, rfl⟩
  exact ⟨state, s, added, made⟩

end Total

/-! A block below the target stays open to the end; where its count wraps, nothing of it is
written. -/

theorem cutBlocks_below {target : Nat} (nonempty : pending ++ entries ≠ [])
    (below : (encodeEntries 0 none (pending ++ entries)).length < target) :
    cutBlocks target pending entries = [pending ++ entries] := by
  induction entries generalizing pending with
  | nil =>
    rw [List.append_nil] at nonempty ⊢
    obtain ⟨first, rest, rfl⟩ := List.exists_cons_of_ne_nil nonempty
    rfl
  | cons e rest ih =>
    rw [List.append_cons] at below ⊢
    have short := (length_encodeEntries_le_append 0 none (pending ++ [e]) rest).trans_lt below
    rw [cutBlocks_cons, if_neg (Nat.not_le_of_lt short)]
    exact ih (by simp) below

theorem writtenBlocks_wrapped {target : Nat}
    (below : (encodeEntries 0 none entries).length < target) (wraps : entries.length % 2 ^ 32 = 0) :
    writtenBlocks target entries = [] := by
  cases entries with
  | nil => rfl
  | cons first rest =>
    rw [writtenBlocks, cutBlocks_below (List.cons_ne_nil _ _) below, List.nil_append,
      List.filter_singleton,
      decide_eq_false (not_not.mpr wraps)]
    rfl

theorem foldl_taken_cuts (h : Cuts state groups pending) (entries : List MemtableEntry) :
    Cuts (entries.foldl taken state) groups (pending ++ entries) := by
  induction entries generalizing state pending with
  | nil =>
    rw [List.append_nil]
    exact h
  | cons e rest ih =>
    rw [List.append_cons]
    exact ih (taken_cuts h e)

theorem foldl_taken_output (state : WriteState) (entries : List MemtableEntry) :
    (entries.foldl taken state).output = state.output := by
  induction entries generalizing state with
  | nil => rfl
  | cons e rest ih => exact ih (taken state e)

theorem addEntries_below (h : state.blockBuilder.Holds pending)
    (below : (encodeEntries 0 none (pending ++ entries)).length < config.blockSizeTarget) :
    addEntries codec config state entries = .ok (entries.foldl taken state) := by
  induction entries generalizing state pending with
  | nil => rfl
  | cons e rest ih =>
    have seen : (taken state e).blockBuilder.Holds (pending ++ [e]) := h.addEntry e
    rw [List.append_cons] at below
    have short := (length_encodeEntries_le_append 0 none (pending ++ [e]) rest).trans_lt below
    have added : addEntry codec config state e = .ok (taken state e) := by
      rw [addEntry_eq, seen.isFull, if_neg (by simpa using short)]
    simp only [addEntries, added, bind, Except.bind, List.foldl_cons]
    exact ih seen below

/-- The count of the only block wraps to zero: the file has no block. -/
theorem sections_wrapped (codec : Codec) (nonempty : entries ≠ [])
    (below : (encodeEntries 0 none entries).length < config.blockSizeTarget)
    (wraps : entries.length % 2 ^ 32 = 0) :
    ∃ state s, addEntries codec config {} entries = .ok state ∧
      sections codec config state = .ok s ∧
      s.output = List.replicate headerSize 0 ∧ s.dedup = (DedupBlock.build []).serialize ∧
      s.filter = (FilterBlock.mk (BloomFilter.build codec config.bloomBitsPerKey [])).serialize ∧
      s.index = IndexBlock.serialize [] := by
  have cuts : Cuts (entries.foldl taken {}) [] entries := foldl_taken_cuts cuts_empty entries
  have empty : (entries.foldl taken {}).blockBuilder.isEmpty = true := by
    rw [BlockBuilder.isEmpty, cuts.builder.entryCount, wraps]
    rfl
  have index : (entries.foldl taken {}).index = [] := List.forall₂_nil_right_iff.mp cuts.indexes
  have recordIds : (entries.foldl taken {}).recordIds = [] :=
    List.eq_nil_iff_forall_not_mem.mpr fun id listed =>
      absurd ((cuts.recordIds id).mp listed) List.not_mem_nil
  obtain ⟨first, rest, rfl⟩ := List.exists_cons_of_ne_nil nonempty
  obtain ⟨last, final⟩ : ∃ last, (first :: rest).getLast? = some last := ⟨_, List.getLast?_cons⟩
  have minKey : ((first :: rest).foldl taken {}).minKey = some first.compositeKey := cuts.minKey
  have maxKey : ((first :: rest).foldl taken {}).maxKey = some last.compositeKey :=
    cuts.maxKey.trans (congrArg _ final)
  obtain ⟨s, made⟩ : ∃ s, sections codec config ((first :: rest).foldl taken {}) = .ok s := by
    simp only [sections, closeBlock, if_pos empty, bind, Except.bind, minKey, maxKey]
    exact ⟨_, rfl⟩
  refine ⟨_, s, addEntries_below BlockBuilder.holds_empty below, made, ?_⟩
  obtain ⟨closed, least, greatest, closes, -, -, rfl⟩ := sections_ok made
  rw [closeBlock, if_pos empty] at closes
  obtain rfl := Except.ok.inj closes
  dsimp only
  rw [foldl_taken_output, index, recordIds, cuts.tokens]
  exact ⟨rfl, rfl, rfl, rfl⟩

end

end SSTableWriter

end FlushDB.Sst
