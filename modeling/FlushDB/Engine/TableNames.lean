import FlushDB.Engine.BlockCache
import FlushDB.Engine.DeadObjects
import FlushDB.Lib.RSplit
import FlushDB.Server.NamespaceConfig

/-!
The names of tables as texts. A path is made where a table is written, is taken apart for the id of
the table, and is put together again from what the manifest has of it.
-/

namespace FlushDB
open Lib

/-- The text of a ULID: twenty-six digits of base 32. -/
structure Ulid where
  text : String
  length : text.length = 26
  crockford : ∀ c ∈ text.toList, c ∈ "0123456789ABCDEFGHJKMNPQRSTVWXYZ".toList

/-- The fields of `SSTableMeta` that name its object. -/
structure TableName where
  id : String
  runId : Option String
  fragmentIndex : Option Nat
  deriving DecidableEq

namespace TableName

/-- The id that `from_sst_info` gives to the file at a path. The names of fragments repeat between
runs, so the directory of the run belongs to it. -/
def idOfPath (path : String) : String :=
  let segments := rsplitn '/' 3 path.toList
  let filename := trimEndMatches ".sst".toList (segments.headD [])
  match segments[1]? with
  | some directory =>
    if "run-".toList.isPrefixOf directory then String.ofList (directory ++ '/' :: filename)
      else String.ofList filename
  | none => String.ofList filename

def ofPath (path : String) : TableName where
  id := idOfPath path
  runId := none
  fragmentIndex := none

def sstPath (name : TableName) (ns : String) (level : Level) : String :=
  match name.runId, name.fragmentIndex with
  | some runId, some fragIdx =>
    "flushdb/" ++ ns ++ "/sstables/" ++ toString level ++ "/run-" ++ runId ++ "/frag-" ++ SstId.pad4
      fragIdx ++ ".sst"
  | _, _ => "flushdb/" ++ ns ++ "/sstables/" ++ toString level ++ "/" ++ name.id ++ ".sst"

end TableName

/-- A table that has been put under `path` and is listed at `level`. `ulid` and `fragment` are
ghost: what it was named after. -/
structure Written where
  path : String
  level : Level
  name : TableName
  ulid : Ulid
  fragment : Option Nat

namespace Written

/-- `FlushPipeline::flush` -/
def flushed (ns : String) (ulid : Ulid) : Written :=
  let path := BlockCache.generateSstPath ns 0 ulid.text
  { path, level := .L0, name := .ofPath path, ulid, fragment := none }

/-- An output that is the only one of its run. -/
def single (ns : String) (target : Level) (ulid : Ulid) : Written :=
  let path := BlockCache.generateSstPath ns target.asU8 ulid.text
  { path, level := target, name := .ofPath path, ulid, fragment := none }

def fragmentOf (ns : String) (target : Level) (runId : Ulid) (index : Nat) : Written :=
  let path := BlockCache.generateRunFragmentPath ns target.asU8 runId.text index
  { path
    level := target
    name := { TableName.ofPath path with runId := some runId.text, fragmentIndex := some index }
    ulid := runId
    fragment := some index }

/-- The outputs of a merge with their entries, from the fragment `index` on. -/
def outputs (ns : String) (target : Level) (runId ulid : Ulid) (targetSize : Nat) :
    Nat → List MergeEntry → Nat → List MergeEntry → List (Written × List MergeEntry)
  | index, current, _, [] =>
    if current.isEmpty then
      [] else [(if index = 0 then single ns target ulid else fragmentOf ns target runId index, current)]
  | index, current, size, e :: rest =>
    if size + CompactionExecutor.entrySize e ≥ targetSize then
      (fragmentOf ns target runId index, current ++ [e]) :: outputs ns target runId ulid targetSize
        (index + 1) [] 0 rest
    else outputs ns target runId ulid targetSize index (current ++ [e])
      (size + CompactionExecutor.entrySize e) rest

/-- A trivial move copies the object and lists the table as it is. -/
def moved (ns : String) (target : Level) (w : Written) : Written :=
  { w with path := w.name.sstPath ns target, level := target }

end Written

/-- The tables that flushes and compactions of a namespace write. -/
inductive TableWritten (ns : String) : Written → Prop where
  | flush (ulid : Ulid) : TableWritten ns (.flushed ns ulid)
  | output {target : Level} {runId ulid : Ulid} {targetSize : Nat} {merged : List MergeEntry}
      {out : Written × List MergeEntry}
      (member : out ∈ Written.outputs ns target runId ulid targetSize 0 [] 0 merged) :
        TableWritten ns out.1
  | move {w : Written} (written : TableWritten ns w) (target : Level) :
      TableWritten ns (w.moved ns target)

theorem Ulid.not_mem {ulid : Ulid} {c : Char}
    (other : c ∉ "0123456789ABCDEFGHJKMNPQRSTVWXYZ".toList) : c ∉ ulid.text.toList :=
  fun member => other (ulid.crockford c member)

theorem BlockCache.pad4_eq (n : Nat) : BlockCache.pad4 n = SstId.pad4 n := by
  apply String.toList_inj.mp
  simp only [BlockCache.pad4, SstId.pad4, String.toList_append, String.toList_ofList, pushn_toList,
    String.toList_empty, List.nil_append]

theorem Level.toString_asU8 (level : Level) : toString level = "L" ++ toString level.asU8 := by
  cases level <;> rfl

namespace TableName

/-- What the id of a path is by its last two components. -/
theorem idOfPath_eq {path : String} {front directory file : List Char}
    (parts : path.toList = front ++ '/' :: (directory ++ '/' :: (file ++ ".sst".toList)))
      (clean : '/' ∉ directory) (plain : '/' ∉ file)
    (bare : '.' ∉ file) :
    idOfPath path = if "run-".toList.isPrefixOf directory then
      String.ofList (directory ++ '/' :: file) else String.ofList file := by
  have name : '/' ∉ file ++ ".sst".toList := by
    rw [List.mem_append, not_or]
    exact ⟨plain, by decide⟩
  have whole : front ++ '/' :: (directory ++ '/' :: (file ++ ".sst".toList)) =
      (front ++ '/' :: directory) ++ '/' :: (file ++ ".sst".toList) := by simp
  have ending : ¬ ".sst".toList <:+ file := fun ends => bare (ends.mem (by decide))
  rw [idOfPath, parts, whole, rsplitn_append name, rsplitn_append clean, List.headD_cons,
    trimEndMatches_append (by decide) ending]
  rfl

theorem idOfPath_generateSstPath (ns : String) (level : Level) (ulid : Ulid) :
    idOfPath (BlockCache.generateSstPath ns level.asU8 ulid.text) = ulid.text := by
  have parts : (BlockCache.generateSstPath ns level.asU8 ulid.text).toList =
      ("flushdb/" ++ ns ++ "/sstables").toList ++ '/' ::
        ((toString level).toList ++ '/' :: (ulid.text.toList ++ ".sst".toList)) := by
    rw [level.toString_asU8]
    simp [BlockCache.generateSstPath, String.toList_append]
  have clean : '/' ∉ (toString level).toList := by cases level <;> decide
  have other : "run-".toList.isPrefixOf (toString level).toList = false := by cases level <;> decide
  rw [idOfPath_eq parts clean
    (Ulid.not_mem (by decide)) (Ulid.not_mem (by decide)), other, if_neg (by decide), String.ofList_toList]

theorem idOfPath_generateRunFragmentPath (ns : String) (level : Level) (runId : Ulid)
    (index : Nat) :
    idOfPath (BlockCache.generateRunFragmentPath ns level.asU8 runId.text index) =
      toString (SstId.fragment runId.text index) := by
  have digits := digits_padded 4 index
  have parts : (BlockCache.generateRunFragmentPath ns level.asU8 runId.text index).toList =
      ("flushdb/" ++ ns ++ "/sstables/" ++ toString level).toList ++ '/' ::
        (("run-" ++ runId.text).toList ++
        '/' :: (("frag-" ++ SstId.pad4 index).toList ++ ".sst".toList)) := by
    rw [level.toString_asU8, BlockCache.generateRunFragmentPath, BlockCache.pad4_eq]
    simp [String.toList_append]
  have clean : '/' ∉ ("run-" ++ runId.text).toList := by
    rw [String.toList_append, List.mem_append, not_or]
    exact ⟨by decide, Ulid.not_mem (by decide)⟩
  have file : ∀ c, c ∉ "frag-".toList → c.isDigit = false →
      c ∉ ("frag-" ++ SstId.pad4 index).toList := by
    intro c front other
    rw [String.toList_append, List.mem_append, not_or]
    refine ⟨front, fun member => ?_⟩
    rw [digits c member] at other
    cases other
  have run : "run-".toList.isPrefixOf ("run-" ++ runId.text).toList = true := by
    rw [String.toList_append, List.isPrefixOf_iff_prefix]
    exact List.prefix_append _ _
  rw [idOfPath_eq parts clean (file '/' (by decide) rfl) (file '.' (by decide) rfl), run, if_pos rfl]
  apply String.toList_inj.mp
  simp [toString, String.toList_append]

def named (ulid : Ulid) : Option Nat → TableName
  | none => ⟨ulid.text, none, none⟩
  | some index => ⟨toString (SstId.fragment ulid.text index), some ulid.text, some index⟩

theorem sstPath_named (ns : String) (level : Level) (ulid : Ulid) (fragment : Option Nat) :
    (named ulid fragment).sstPath ns level = match fragment with
      | none => BlockCache.generateSstPath ns level.asU8 ulid.text
      | some index => BlockCache.generateRunFragmentPath ns level.asU8 ulid.text index := by
  have levels := level.toString_asU8
  apply String.toList_inj.mp
  cases fragment with
  | none => simp [named, sstPath, BlockCache.generateSstPath, levels, String.toList_append]
  | some index =>
    simp [named, sstPath, BlockCache.generateRunFragmentPath, BlockCache.pad4_eq, levels,
      String.toList_append]

theorem named_id_injective {u v : Ulid} {f g : Option Nat}
    (same : (named u f).id = (named v g).id) : u = v ∧ f = g := by
  have slash : ∀ (r : Ulid) (i : Nat), '/' ∈ (toString (SstId.fragment r.text i)).toList := by
    intro r i
    simp [toString, String.toList_append]
  have single : ∀ (r w : Ulid) (i : Nat), r.text ≠ toString (SstId.fragment w.text i) := by
    intro r w i equal
    have inside := slash w i
    rw [← equal] at inside
    exact Ulid.not_mem (by decide) inside
  have texts : ∀ {r w : Ulid}, r.text = w.text → r = w := by
    rintro ⟨r, -, -⟩ ⟨w, -, -⟩ rfl
    rfl
  cases f with
  | none =>
    cases g with
    | none => exact ⟨texts same, rfl⟩
    | some j => exact absurd same (single u v j)
  | some i =>
    cases g with
    | none => exact absurd same.symm (single v u i)
    | some j =>
      have chars := congrArg String.toList same
      have parts : ∀ (r : Ulid) (k : Nat), (toString (SstId.fragment r.text k)).toList =
          ("run-" ++ r.text).toList ++ '/' :: ("frag-" ++ SstId.pad4 k).toList := by
        intro r k
        simp [toString, String.toList_append]
      have clean : ∀ k, '/' ∉ ("frag-" ++ SstId.pad4 k).toList := by
        intro k
        rw [String.toList_append, List.mem_append, not_or]
        exact ⟨by decide, slash_not_mem_padded 4 k⟩
      rw [named, named, parts, parts] at chars
      have files := cut_last (clean i) (clean j) chars
      rw [files] at chars
      have runs := List.append_cancel_right chars
      rw [String.toList_append, String.toList_append] at files runs
      refine ⟨texts (String.toList_inj.mp (List.append_cancel_left runs)), ?_⟩
      rw [pad4_injective (String.toList_inj.mp (List.append_cancel_left files))]

end TableName

/-- The name is the one that the table was given, and says where the table was put. -/
structure Written.Named (ns : String) (w : Written) : Prop where
  name : w.name = .named w.ulid w.fragment
  path : w.name.sstPath ns w.level = w.path

namespace Written
variable {ns : String} {target : Level} {runId ulid : Ulid}

theorem single_named : (single ns target ulid).Named ns := by
  have name : (single ns target ulid).name = .named ulid none := by
    simp only [single, TableName.ofPath, TableName.idOfPath_generateSstPath, TableName.named]
  refine ⟨name, ?_⟩
  rw [name, TableName.sstPath_named]
  rfl

theorem flushed_named : (flushed ns ulid).Named ns := @single_named ns .L0 ulid

theorem fragmentOf_named (index : Nat) : (fragmentOf ns target runId index).Named ns := by
  have name : (fragmentOf ns target runId index).name = .named runId (some index) := by
    simp only [fragmentOf, TableName.ofPath, TableName.idOfPath_generateRunFragmentPath,
      TableName.named]
  refine ⟨name, ?_⟩
  rw [name, TableName.sstPath_named]
  rfl

theorem outputs_named {targetSize index size : Nat} {current merged : List MergeEntry}
    {out : Written × List MergeEntry}
    (member : out ∈ outputs ns target runId ulid targetSize index current size merged) :
    out.1.Named ns := by
  induction merged generalizing index current size with
  | nil =>
    unfold outputs at member
    split at member
    · cases member
    · obtain rfl := List.mem_singleton.mp member
      dsimp only
      split
      · exact single_named
      · exact fragmentOf_named index
  | cons e rest ih =>
    unfold outputs at member
    split at member
    · rcases List.mem_cons.mp member with rfl | later
      · exact fragmentOf_named index
      · exact ih later
    · exact ih member

end Written

/-- In whatever order tables are written and moved, the manifest names the object that was put. -/
theorem TableWritten.named {ns : String} {w : Written} (written : TableWritten ns w) :
    w.Named ns := by
  induction written with
  | flush ulid => exact Written.flushed_named
  | output member => exact Written.outputs_named member
  | move written target ih => exact ⟨ih.name, rfl⟩

/-- Every table that is written or moved is found where the manifest says, and tables that are named
after other ULIDs, or are other fragments, have other ids. -/
theorem tableWritten_spec (ns : String) :
    (∀ w, TableWritten ns w → w.name.sstPath ns w.level = w.path) ∧
      ∀ ns' v w, TableWritten ns v → TableWritten ns' w →
        (v.ulid, v.fragment) ≠ (w.ulid, w.fragment) → v.name.id ≠ w.name.id := by
  refine ⟨fun w written => written.named.path, ?_⟩
  intro ns' v w first second different same
  rw [first.named.name, second.named.name] at same
  obtain ⟨ulids, fragments⟩ := TableName.named_id_injective same
  exact different (Prod.ext ulids fragments)

section Example

def sampleUlid : Ulid where
  text := "01ARZ3NDEKTSV4RRFFQ69G5FAV"
  length := by decide
  crockford := by simp

/-- A table of a flush is moved down, in a namespace with a slash. -/
theorem movedFlush_found : ((Written.flushed "a/b" sampleUlid).moved "a/b" .L1).name.sstPath "a/b" .L1 =
    "flushdb/a/b/sstables/L1/01ARZ3NDEKTSV4RRFFQ69G5FAV.sst" :=
  ((tableWritten_spec "a/b").1 _ (.move (.flush sampleUlid) .L1)).trans (by
    show (Written.flushed "a/b" sampleUlid).name.sstPath "a/b" .L1 = _
    rw [(@Written.flushed_named "a/b" sampleUlid).name]
    decide)

end Example

/-! ## The tables of the engine -/

def SSTableMeta.tableName (t : SSTableMeta) : TableName where
  id := toString t.id
  runId := t.runId
  fragmentIndex := t.fragmentIndex

/-- The key of an object is the path that is put together for its table. -/
theorem SSTableMeta.tableName_sstPath (t : SSTableMeta) (ns : String) (level : Level) :
    t.tableName.sstPath ns level = (t.sstPath level).key ns := by
  rcases t with ⟨id, _, _, _, _, _, _, _, runId, fragmentIndex, named⟩
  apply String.toList_inj.mp
  cases runId with
  | none =>
    simp [tableName, sstPath, TableName.sstPath, SstPath.key, String.toList_append, toString]
  | some r =>
    cases fragmentIndex with
    | none =>
      simp [tableName, sstPath, TableName.sstPath, SstPath.key, String.toList_append, toString]
    | some i =>
      simp [tableName, sstPath, TableName.sstPath, SstPath.key, String.toList_append, toString]

namespace CompactionExecutor
variable {ns : String} {target : Level} {runId ulid : Ulid} {drawn : Drawn}

theorem splitFragments_nonempty (size : Nat) (merged current : List MergeEntry) (taken : Nat) :
    ∀ fragment ∈ (splitFragments size current taken merged).1, fragment ≠ [] := by
  induction merged generalizing current taken with
  | nil => exact nofun
  | cons e rest ih =>
    unfold splitFragments
    split
    · intro fragment member
      rcases List.mem_cons.mp member with rfl | later
      · exact List.append_ne_nil_of_right_ne_nil _ (List.cons_ne_nil _ _)
      · exact ih [] 0 fragment later
    · exact ih _ _

/-- The loop writes the fragments that the merged entries are cut into, and the rest of them. -/
theorem outputs_eq (size index taken : Nat) (current merged : List MergeEntry) :
    Written.outputs ns target runId ulid size index current taken merged =
      ((splitFragments size current taken merged).1.zipIdx index).map
        (fun (entries, i) => (Written.fragmentOf ns target runId i, entries)) ++
        if (splitFragments size current taken merged).2.isEmpty then []
        else [(if index + (splitFragments size current taken merged).1.length = 0 then .single ns target ulid
            else .fragmentOf ns target runId (index + (splitFragments size current taken merged).1.length),
          (splitFragments size current taken merged).2)] := by
  induction merged generalizing index current taken with
  | nil => simp [Written.outputs, splitFragments]
  | cons e rest ih =>
    rw [Written.outputs, splitFragments]
    split
    · rw [ih]
      simp only [List.zipIdx_cons, List.map_cons, List.cons_append, List.length_cons, Nat.add_assoc,
        Nat.add_comm 1]
    · exact ih _ _ _

theorem nameFragments_written (fileSize : List MergeEntry → Nat) (run : drawn.runId = runId.text)
    {fragments : List (List MergeEntry)} (nonempty : ∀ fragment ∈ fragments, fragment ≠ [])
    (index : Nat) :
    (nameFragments fileSize drawn index fragments).map
      (fun out => ((out.1.sstPath target).key ns, out.1.tableName, out.2)) =
      (fragments.zipIdx index).map fun (entries, i) =>
        ((Written.fragmentOf ns target runId i).path, (Written.fragmentOf ns target runId i).name,
          entries) := by
  induction fragments generalizing index with
  | nil => rfl
  | cons fragment rest ih =>
    cases fragment with
    | nil => exact absurd rfl (nonempty [] List.mem_cons_self)
    | cons first entries =>
      have written := @Written.fragmentOf_named ns target runId index
      have path : (Written.fragmentOf ns target runId index).name.sstPath ns target =
          (Written.fragmentOf ns target runId index).path := written.path
      have name : ((SSTableMeta.ofEntries fileSize
          (.fragment drawn.runId index) drawn.nowMs first entries).asFragment drawn.runId
          index).tableName = (Written.fragmentOf ns target runId index).name := by
        rw [written.name, run]
        rfl
      rw [nameFragments, List.map_cons, List.zipIdx_cons, List.map_cons,
        ih fun f member => nonempty f (List.mem_cons_of_mem _ member),
        ← SSTableMeta.tableName_sstPath, name, path]

/-- The outputs of the executor have the names and the keys that the loop writes. -/
theorem outputs_written (fileSize : List MergeEntry → Nat) (run : drawn.runId = runId.text)
    (own : drawn.ulid = ulid.text) (size : Nat) (merged : List MergeEntry) :
    (outputs fileSize drawn size merged).map (fun out =>
      ((out.1.sstPath target).key ns, out.1.tableName, out.2)) =
      (Written.outputs ns target runId ulid size 0 [] 0 merged).map fun out =>
        (out.1.path, out.1.name, out.2) := by
  have whole := splitFragments_nonempty size merged [] 0
  rw [outputs_eq, outputs]
  generalize splitFragments size [] 0 merged = cut at whole
  obtain ⟨fragments, last⟩ := cut
  cases last with
  | nil =>
    cases fragments with
    | nil => rfl
    | cons fragment rest =>
      rw [nameFragments_written fileSize run whole]
      simp
  | cons first entries =>
    cases fragments with
    | nil =>
      have written := @Written.single_named ns target ulid
      have path : (Written.single ns target ulid).name.sstPath ns target =
          (Written.single ns target ulid).path := written.path
      have name : (SSTableMeta.ofEntries fileSize (.single drawn.ulid) drawn.nowMs first entries).tableName =
          (Written.single ns target ulid).name := by
        rw [written.name, own]
        rfl
      simp only [List.map_cons, List.map_nil, ← SSTableMeta.tableName_sstPath, name, path]
      rfl
    | cons fragment rest =>
      have all : ∀ f ∈ (fragment :: rest) ++ [first :: entries], f ≠ [] := by
        intro f member
        rcases List.mem_append.mp member with early | late
        · exact whole f early
        · rw [List.mem_singleton.mp late]
          exact List.cons_ne_nil _ _
      rw [nameFragments_written fileSize run all, List.zipIdx_append, List.map_append]
      simp

end CompactionExecutor

end FlushDB
