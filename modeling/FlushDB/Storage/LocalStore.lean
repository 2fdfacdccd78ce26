import FlushDB.Storage.Backend
import FlushDB.Storage.LocalFs

/-!
The local directory as a store of objects. A put writes a temporary file beside its target and
renames it, so that it is done in whole or not at all, at whatever step it fails or ends; a listing
leaves the temporary files out.
-/

namespace FlushDB
open Lib

inductive ReplaceStep where
  | createDir (path : List String)
  | create
  | write (written : Nat)
  | rename (removed : Bool)
  | reply
  deriving DecidableEq

/-- The step that a put does not get past. After a rename that fails the temporary file is removed
or not. -/
structure ReplaceFault where
  step : ReplaceStep
  ended : Bool := false

namespace ReplaceFault

def answer (fault : ReplaceFault) (call : String) : Unfinished :=
  if fault.ended then none else some (.io call)

def directory (fault : ReplaceFault) : Option PutFault :=
  match fault.step with
  | .createDir path => some { step := .createDir path, ended := fault.ended }
  | _ => none

end ReplaceFault

/-- Where a removal stops: the call fails, or ends before or after it. -/
inductive RemoveStop where
  | failed | before | after
  deriving DecidableEq

/-- A call with what befalls it. -/
inductive LocalCall where
  | put (key : String) (value : List UInt8) (uuid : String) (fault : Option ReplaceFault)
  | get (key : String) (fails : Bool)
  | getRange (key : String) (offset length : Nat) (fails : Bool)
  | delete (key : String) (stop : Option RemoveStop)
  | conditionalPut (key : String) (value : List UInt8) (fault : Option PutFault)
  | listPrefix (start : String) (fails : Bool)

namespace LocalCall

def call : LocalCall → StorageCall
  | .put key value _ _ => .put key value
  | .get key _ => .get key
  | .getRange key offset length _ => .getRange key offset length
  | .delete key _ => .delete key
  | .conditionalPut key value _ => .conditionalPut key value
  | .listPrefix start _ => .listPrefix start

def undisturbed : LocalCall → Bool
  | .put _ _ _ fault => fault.isNone
  | .conditionalPut _ _ fault => fault.isNone
  | .delete _ stop => stop.isNone
  | .get _ fails | .getRange _ _ _ fails | .listPrefix _ fails => !fails

end LocalCall

namespace LocalFsBackend

def tempPath (path : List String) (uuid : String) : List String :=
  path.dropLast ++ [".tmp." ++ uuid]

/-- What is left of a put when the temporary file is written. -/
def renameOver (fault : Option ReplaceFault) (temp path : List String) (value : List UInt8)
    (t : LocalFiles) :
    Except Unfinished Unit × LocalFiles :=
  match fault with
  | some f@⟨.rename removed, ended⟩ =>
    (.error (f.answer "rename"), if removed && !ended then t.remove temp else t)
  | _ =>
    if t.isDirectory path then (.error (some (.io "rename")), t.remove temp)
    else
      match fault with
      | some ⟨.reply, _⟩ => (.error none, (t.remove temp).writeFile path value)
      | _ => (.ok (), (t.remove temp).writeFile path value)

def put (b : LocalFsBackend) (fault : Option ReplaceFault) (uuid key : String) (value : List UInt8)
    (t : LocalFiles) :
    Except Unfinished Unit × LocalFiles :=
  let path := b.fullPath key
  match createDirAll (fault.bind ReplaceFault.directory) (parents path) t with
  | (.error e, t) => (.error e, t)
  | (.ok (), t) =>
    if path = [] then (.error (some (.io "key resolves to a path with no parent directory")), t)
    else
      let temp := tempPath path uuid
      if t.isDirectory temp then (.error (some (.io "write")), t)
      else
        match fault with
        | some f@⟨.create, _⟩ => (.error (f.answer "write"), t)
        | some f@⟨.write written, _⟩ =>
          (.error (f.answer "write"), t.writeFile temp (value.take written))
        | _ => renameOver fault temp path value (t.writeFile temp value)

def getRange (b : LocalFsBackend) (key : String) (offset length : Nat) (t : LocalFiles) :
    FlushResult (List UInt8) :=
  match t.lookup (b.fullPath key) with
  | none => .error (if t.blocked (b.fullPath key) then .io "metadata" else .notFound key)
  | some .directory => if length = 0 then .ok [] else .error (.io "read")
  | some (.file content) =>
    if length = 0 then .ok []
    else if content.length ≤ offset then
      .error (.io s!"offset {offset} is at or beyond file size {content.length} for key '{key}'")
    else .ok ((content.drop offset).take (min length (content.length - offset)))

/-- A key that is missing is deleted already. -/
def delete (b : LocalFsBackend) (stop : Option RemoveStop) (key : String) (t : LocalFiles) :
    Except Unfinished Unit × LocalFiles :=
  match stop with
  | some .failed => (.error (some (.io "remove_file")), t)
  | some .before => (.error none, t)
  | _ =>
    match t.lookup (b.fullPath key) with
    | some .directory => (.error (some (.io "remove_file")), t)
    | some (.file _) =>
      (if stop = some .after then .error none else .ok (), t.remove (b.fullPath key))
    | none =>
      (if t.blocked (b.fullPath key) then .error (some (.io "remove_file")) else
        if stop = some .after then .error none else .ok (), t)

def serve (b : LocalFsBackend) (t : LocalFiles) :
    LocalCall → Except Unfinished StorageReply × LocalFiles
  | .put key value uuid fault =>
    let (result, t) := b.put fault uuid key value t
    (result.map fun _ => .done, t)
  | .get key fails =>
    (if fails then .error (some (.io "read")) else ((b.get key t).mapError some).map .content, t)
  | .getRange key offset length fails =>
    (if fails then .error (some (.io "read")) else
      ((b.getRange key offset length t).mapError some).map .content, t)
  | .delete key stop =>
    let (result, t) := b.delete stop key t
    (result.map fun _ => .done, t)
  | .conditionalPut key value fault =>
    let (result, t) := b.conditionalPut fault key value t
    (result.map fun _ => .done, t)
  | .listPrefix start fails =>
    (if fails then .error (some (.io "read_dir")) else .ok (.keys (b.listPrefix start t)), t)

end LocalFsBackend

/-- A name in a key: not empty, no dots, no temporary file. -/
structure PlainName (name : String) : Prop where
  nonempty : name ≠ ""
  clean : '/' ∉ name.toList
  here : name ≠ "."
  above : name ≠ ".."
  kept : ".tmp.".toList.isPrefixOf name.toList = false

def keyText (names : List String) : String := "/".intercalate names

/-- Keys that are paths of plain names, of which none goes through another. -/
structure KeySpace where
  own : List String → Prop
  nonempty : ∀ names, own names → names ≠ []
  plain : ∀ names, own names → ∀ name ∈ names, PlainName name
  apart : ∀ names other, own names → own other → names <+: other → names = other

section Paths
variable {names : List String}

theorem components_keyText (plain : ∀ name ∈ names, PlainName name) :
    components [] (keyText names).toList = names := by
  induction names with
  | nil => rfl
  | cons name rest ih =>
    have first := plain name List.mem_cons_self
    have long : name.toList ≠ [] := fun empty => first.nonempty (String.toList_inj.mp empty)
    have word : components [] name.toList = [name] := by
      rw [components_word [] first.clean long, List.nil_append, String.ofList_toList]
    cases rest with
    | nil =>
      rw [keyText, String.intercalate_singleton]
      exact word
    | cons second others =>
      rw [keyText, String.intercalate_cons_cons, String.toList_append, String.toList_append,
        List.append_assoc,
        show "/".toList ++ _ = '/' :: _ from rfl, components_append, word, List.singleton_append]
      exact congrArg _ (ih fun other member => plain other (List.mem_cons_of_mem _ member))

theorem keyText_injective {other : List String} (plain : ∀ name ∈ names, PlainName name)
    (plain' : ∀ name ∈ other, PlainName name) (same : keyText names = keyText other) :
    names = other := by
  rw [← components_keyText plain, same, components_keyText plain']

theorem resolve_plain (base : List String) (plain : ∀ name ∈ names, PlainName name) :
    resolve (base ++ names) = resolve base ++ names := by
  induction names generalizing base with
  | nil => rw [List.append_nil, List.append_nil]
  | cons name rest ih =>
    have first := plain name List.mem_cons_self
    have later := ih (base ++ [name]) fun other member => plain other (List.mem_cons_of_mem _ member)
    have one : resolve (base ++ [name]) = resolve base ++ [name] := by
      rw [resolve_append, List.foldl_cons, List.foldl_nil, if_neg first.here, if_neg first.above]
    rw [List.append_cons, later, one, List.append_assoc]
    rfl

theorem fullPath_keyText (b : LocalFsBackend) (nonempty : names ≠ [])
    (plain : ∀ name ∈ names, PlainName name) :
    b.fullPath (keyText names) = resolve b.baseDir ++ names := by
  have relative : (keyText names).toList.head? ≠ some '/' := by
    cases names with
    | nil => exact absurd rfl nonempty
    | cons name rest =>
      have first := plain name List.mem_cons_self
      have long : name.toList ≠ [] := fun empty => first.nonempty (String.toList_inj.mp empty)
      have head : (keyText (name :: rest)).toList.head? = name.toList.head? := by
        cases rest with
        | nil => rw [keyText, String.intercalate_singleton]
        | cons second others =>
          rw [keyText, String.intercalate_cons_cons, String.toList_append, String.toList_append,
            List.append_assoc,
            List.head?_append_of_ne_nil _ long]
      rw [head]
      intro slash
      exact first.clean (List.mem_of_head? slash)
  rw [LocalFsBackend.fullPath, if_neg relative, components_keyText plain, resolve_plain b.baseDir plain]

end Paths

def KeySpace.Has (space : KeySpace) (key : String) : Prop :=
  ∃ names, space.own names ∧ key = keyText names

/-- The objects are the files of the space, and other files below the directory are temporary. -/
structure Mirrors (space : KeySpace) (b : LocalFsBackend) (t : LocalFiles) (objects : Objects) :
    Prop where
  stored : ∀ names, space.own names → t.lookup (resolve b.baseDir ++ names) =
    (objects.get (keyText names)).map .file
  known : ∀ key value, objects.get key = some value → space.Has key
  clear : ∀ names, space.own names → t.blocked (resolve b.baseDir ++ names) = false
  files : ∀ path content, (path, content) ∈ t.files → resolve b.baseDir <+: path →
    (∃ names, space.own names ∧ path = resolve b.baseDir ++ names) ∨
      ".tmp.".toList.isPrefixOf (path.getLast?.getD "").toList = true
  directories : ∀ names, t.lookup (resolve b.baseDir ++ names) = some .directory →
    ∀ name ∈ names, ".tmp.".toList.isPrefixOf name.toList = false

namespace Mirrors
variable {space : KeySpace} {b : LocalFsBackend} {t u : LocalFiles} {objects : Objects}
  {names other : List String}

theorem path_ne_nil (own : space.own names) : resolve b.baseDir ++ names ≠ [] :=
  List.append_ne_nil_of_right_ne_nil _ (space.nonempty names own)

theorem keyText_ne (own : space.own names) (own' : space.own other) (apart : names ≠ other) :
    keyText names ≠ keyText other :=
  fun same => apart (keyText_injective (space.plain names own) (space.plain other own') same)

/-- No path of the space goes through another. -/
theorem not_through (own : space.own names) (own' : space.own other)
    (part : resolve b.baseDir ++ names <+: resolve b.baseDir ++ other) : names = other :=
  space.apart names other own own' ((List.prefix_append_right_inj _).mp part)

theorem more (h : Mirrors space b t objects) (own : space.own names)
    (more : FileTree.MoreDirectories (· ∈ parents (resolve b.baseDir ++ names)) t u) :
    Mirrors space b u objects := by
  have elsewhere : ∀ other, space.own other → resolve b.baseDir ++ other ∉ parents
      (resolve b.baseDir ++ names) := by
    intro other own' member
    obtain ⟨part, -, different⟩ := mem_parents.mp member
    exact different (congrArg _ (not_through own' own part))
  refine ⟨?_, h.known, ?_, ?_, ?_⟩
  · intro other own'
    rw [more.lookup_eq (elsewhere other own')]
    exact h.stored other own'
  · intro other own'
    rw [more.blocked_eq]
    exact h.clear other own'
  · rw [more.files]
    exact h.files
  · intro other found
    rcases more.added _ _ found with before | ⟨-, member⟩
    · exact h.directories other before
    · obtain ⟨part, -, -⟩ := mem_parents.mp member
      intro name inside
      exact (space.plain names own name (((List.prefix_append_right_inj _).mp part).subset inside)).kept

theorem write (h : Mirrors space b t objects) (own : space.own names) (value : List UInt8) :
    Mirrors space b (t.writeFile (resolve b.baseDir ++ names) value)
      (objects.put (keyText names) value) := by
  refine ⟨?_, ?_, ?_, ?_, ?_⟩
  · intro other own'
    by_cases same : other = names
    · rw [same, FileTree.lookup_writeFile t (path_ne_nil own), ObjectStore.get_put_self]
      rfl
    · have apart : resolve b.baseDir ++ other ≠ resolve b.baseDir ++ names :=
        fun equal => same (List.append_cancel_left equal)
      rw [FileTree.lookup_writeFile_ne t value apart,
        ObjectStore.get_put_ne _ _ (keyText_ne own' own same)]
      exact h.stored other own'
  · exact ObjectStore.forall_put h.known ⟨names, own, rfl⟩
  · intro other own'
    refine FileTree.blocked_of_fewer (h.clear other own') ?_
    intro front part different file
    have apart : front ≠ resolve b.baseDir ++ names := by
      rintro rfl
      exact different (congrArg _ (not_through own own' part))
    rwa [FileTree.isFile_congr (FileTree.lookup_writeFile_ne t value apart)] at file
  · intro path content member below
    have found := FileTree.mem_files.mp member
    by_cases same : path = resolve b.baseDir ++ names
    · exact Or.inl ⟨names, own, same⟩
    · rw [FileTree.writeFile, ObjectStore.get_put_ne _ _ same] at found
      exact h.files path content (FileTree.mem_files.mpr found) below
  · intro other found
    by_cases same : resolve b.baseDir ++ other = resolve b.baseDir ++ names
    · rw [same, FileTree.lookup_writeFile t (path_ne_nil own)] at found
      cases found
    · rw [FileTree.lookup_writeFile_ne t value same] at found
      exact h.directories other found

/-- Any file may go that is of no key. -/
theorem remove_other (h : Mirrors space b t objects) {path : List String}
    (elsewhere : ∀ names, space.own names → resolve b.baseDir ++ names ≠ path) :
    Mirrors space b (t.remove path) objects := by
  refine ⟨?_, h.known, ?_, ?_, ?_⟩
  · intro names own
    rw [FileTree.lookup_remove_ne t (elsewhere names own)]
    exact h.stored names own
  · exact fun names own => FileTree.blocked_remove (h.clear names own) path
  · intro file content member below
    exact h.files file content (FileTree.mem_files.mpr
      (ObjectStore.get_of_delete (FileTree.mem_files.mp member))) below
  · exact fun names found => h.directories names (FileTree.lookup_of_remove found)

theorem remove (h : Mirrors space b t objects) (own : space.own names) :
    Mirrors space b (t.remove (resolve b.baseDir ++ names)) (objects.delete (keyText names)) := by
  refine ⟨?_, ?_, ?_, ?_, ?_⟩
  · intro other own'
    by_cases same : other = names
    · rw [same, FileTree.lookup_remove t (path_ne_nil own), ObjectStore.get_delete_self]
      rfl
    · have apart : resolve b.baseDir ++ other ≠ resolve b.baseDir ++ names :=
        fun equal => same (List.append_cancel_left equal)
      rw [FileTree.lookup_remove_ne t apart, ObjectStore.get_delete_ne _ (keyText_ne own' own same)]
      exact h.stored other own'
  · exact fun key value found => h.known key value (ObjectStore.get_of_delete found)
  · exact fun other own' => FileTree.blocked_remove (h.clear other own') _
  · intro path content member below
    exact h.files path content (FileTree.mem_files.mpr
      (ObjectStore.get_of_delete (FileTree.mem_files.mp member))) below
  · exact fun other found => h.directories other (FileTree.lookup_of_remove found)

section Temporary
variable {uuid : String}

theorem tempPath_eq (own : space.own names) (uuid : String) :
    LocalFsBackend.tempPath (resolve b.baseDir ++ names) uuid =
      resolve b.baseDir ++ (names.dropLast ++ [".tmp." ++ uuid]) := by
  rw [LocalFsBackend.tempPath, List.dropLast_append_of_ne_nil (space.nonempty names own),
    List.append_assoc]

theorem temp_marked (uuid : String) : ".tmp.".toList.isPrefixOf (".tmp." ++ uuid).toList = true := by
  rw [String.toList_append, List.isPrefixOf_iff_prefix]
  exact List.prefix_append _ _

/-- No key goes through a temporary file. -/
theorem temp_apart (own : space.own names) (own' : space.own other)
    (part : LocalFsBackend.tempPath (resolve b.baseDir ++ names) uuid <+: resolve b.baseDir ++ other) :
    False := by
  rw [tempPath_eq own] at part
  have inside := ((List.prefix_append_right_inj _).mp part).subset
    (List.mem_append_right _ (List.mem_singleton_self _))
  have kept := (space.plain other own' _ inside).kept
  rw [temp_marked] at kept
  cases kept

theorem write_temp (h : Mirrors space b t objects) (own : space.own names) (uuid : String)
    (content : List UInt8) :
    Mirrors space b (t.writeFile (LocalFsBackend.tempPath (resolve b.baseDir ++ names) uuid)
      content) objects := by
  have elsewhere : ∀ other, space.own other → resolve b.baseDir ++ other ≠
      LocalFsBackend.tempPath (resolve b.baseDir ++ names) uuid :=
    fun other own' same => temp_apart own own' ⟨[], by rw [List.append_nil, same]⟩
  refine ⟨?_, h.known, ?_, ?_, ?_⟩
  · intro other own'
    rw [FileTree.lookup_writeFile_ne t content (elsewhere other own')]
    exact h.stored other own'
  · intro other own'
    refine FileTree.blocked_of_fewer (h.clear other own') ?_
    intro front part _ file
    have apart : front ≠ LocalFsBackend.tempPath (resolve b.baseDir ++ names) uuid := by
      rintro rfl
      exact temp_apart own own' part
    rwa [FileTree.isFile_congr (FileTree.lookup_writeFile_ne t content apart)] at file
  · intro path found member below
    by_cases same : path = LocalFsBackend.tempPath (resolve b.baseDir ++ names) uuid
    · refine Or.inr ?_
      rw [same, LocalFsBackend.tempPath, List.getLast?_concat]
      exact temp_marked uuid
    · have there := FileTree.mem_files.mp member
      rw [FileTree.writeFile, ObjectStore.get_put_ne _ _ same] at there
      exact h.files path found (FileTree.mem_files.mpr there) below
  · intro other found
    by_cases same : resolve b.baseDir ++ other =
      LocalFsBackend.tempPath (resolve b.baseDir ++ names) uuid
    · rw [same, FileTree.lookup_writeFile t (by rw [tempPath_eq own]; simp)] at found
      cases found
    · rw [FileTree.lookup_writeFile_ne t content same] at found
      exact h.directories other found

theorem remove_temp (h : Mirrors space b t objects) (own : space.own names) (uuid : String) :
    Mirrors space b (t.remove (LocalFsBackend.tempPath (resolve b.baseDir ++ names) uuid)) objects :=
  h.remove_other fun _ own' same => temp_apart own own' ⟨[], by rw [List.append_nil, same]⟩

/-- Nothing is in the way of a temporary file. -/
theorem temp_free (h : Mirrors space b t objects) (own : space.own names) (uuid : String) :
    t.isDirectory (LocalFsBackend.tempPath (resolve b.baseDir ++ names) uuid) = false := by
  rw [tempPath_eq own]
  unfold FileTree.isDirectory
  split
  · rename_i found
    have kept := h.directories _ found (".tmp." ++ uuid)
      (List.mem_append_right _ (List.mem_singleton_self _))
    rw [temp_marked] at kept
    cases kept
  · rfl

end Temporary

theorem target_free (h : Mirrors space b t objects) (own : space.own names) :
    t.isDirectory (resolve b.baseDir ++ names) = false := by
  unfold FileTree.isDirectory
  rw [h.stored names own]
  cases objects.get (keyText names) <;> rfl

/-- The files that a listing takes are those of the keys. -/
theorem listed_iff (h : Mirrors space b t objects) {path : List String} {content : List UInt8}
    (file : (path, content) ∈ t.files) :
    ((resolve b.baseDir).isPrefixOf path &&
      !(".tmp.".toList.isPrefixOf (path.getLast?.getD "").toList)) = true ↔
      ∃ names, space.own names ∧ path = resolve b.baseDir ++ names := by
  rw [Bool.and_eq_true, Bool.not_eq_true', List.isPrefixOf_iff_prefix]
  constructor
  · rintro ⟨below, kept⟩
    rcases h.files path content file below with own | temporary
    · exact own
    · rw [kept] at temporary
      cases temporary
  · rintro ⟨names, own, rfl⟩
    refine ⟨List.prefix_append _ _, ?_⟩
    have nonempty := space.nonempty names own
    rw [List.getLast?_append_of_ne_nil _ nonempty, List.getLast?_eq_some_getLast nonempty]
    exact (space.plain names own _ (List.getLast_mem nonempty)).kept

/-- A listing has the keys of the objects in their order. -/
theorem listed (h : Mirrors space b t objects) (start : String) :
    b.listPrefix start t = objects.keys.filter fun key => start.toList.isPrefixOf key.toList := by
  unfold LocalFsBackend.listPrefix
  dsimp only
  generalize taken : t.files.filter (fun file => (resolve b.baseDir).isPrefixOf file.1 &&
    !(".tmp.".toList.isPrefixOf (file.1.getLast?.getD "").toList)) = files
  have own : ∀ file ∈ files, ∃ names, space.own names ∧ file.1 = resolve b.baseDir ++ names := by
    intro file member
    rw [← taken, List.mem_filter] at member
    exact (h.listed_iff member.1).mp member.2
  have text : ∀ names, "/".intercalate ((resolve b.baseDir ++ names).drop
      (resolve b.baseDir).length) = keyText names := by
    intro names
    rw [List.drop_left]
    rfl
  have distinct : (files.map fun file => "/".intercalate (file.1.drop (resolve b.baseDir).length)).Nodup := by
    have paths : (files.map Prod.fst).Nodup := (FileTree.files_nodup t).sublist
      ((taken ▸ List.filter_sublist).map _)
    have split : (files.map fun file => "/".intercalate (file.1.drop (resolve b.baseDir).length)) =
        (files.map Prod.fst).map fun path => "/".intercalate (path.drop (resolve b.baseDir).length) := by
      rw [List.map_map]
      rfl
    rw [split]
    refine paths.map_on ?_
    intro path member path' member' same
    obtain ⟨file, inside, rfl⟩ := List.mem_map.mp member
    obtain ⟨file', inside', rfl⟩ := List.mem_map.mp member'
    obtain ⟨names, mine, place⟩ := own file inside
    obtain ⟨names', mine', place'⟩ := own file' inside'
    rw [place, place', text, text] at same
    rw [place, place', keyText_injective (space.plain names mine) (space.plain names' mine') same]
  have members : ∀ key, key ∈ (files.map fun file =>
      "/".intercalate (file.1.drop (resolve b.baseDir).length)) ↔ key ∈ objects.keys := by
    intro key
    rw [ObjectStore.mem_keys, List.mem_map]
    constructor
    · rintro ⟨file, member, rfl⟩
      obtain ⟨names, mine, place⟩ := own file member
      rw [place, text]
      have stored := h.stored names mine
      rw [← place, FileTree.lookup, if_neg (place ▸ path_ne_nil mine),
        FileTree.mem_files.mp (List.mem_of_mem_filter (taken ▸ member))] at stored
      cases found : objects.get (keyText names) with
      | none =>
        rw [found] at stored
        cases stored
      | some value => rfl
    · intro present
      obtain ⟨value, found⟩ := Option.isSome_iff_exists.mp present
      obtain ⟨names, mine, rfl⟩ := h.known key value found
      have stored := h.stored names mine
      rw [found, FileTree.lookup, if_neg (path_ne_nil mine)] at stored
      have file := FileTree.mem_files.mpr stored
      refine ⟨(resolve b.baseDir ++ names, value), ?_, text names⟩
      rw [← taken]
      exact List.mem_filter.mpr ⟨file, (h.listed_iff file).mpr ⟨names, mine, rfl⟩⟩
  have same : (files.map fun file => "/".intercalate (file.1.drop (resolve b.baseDir).length)).Perm
      objects.keys :=
    (List.perm_ext_iff_of_nodup distinct objects.keys_nodup).mpr members
  refine List.Perm.eq_of_pairwise ?_ (List.pairwise_insertionSort _ _) (objects.keys_sorted.filter _)
    ((List.perm_insertionSort _ _).trans (same.filter _))
  intro first second _ _ le ge
  exact le_antisymm le ge

theorem read_eq (h : Mirrors space b t objects) (own : space.own names) :
    t.read (resolve b.baseDir ++ names) =
    match objects.get (keyText names) with
    | some value => .ok value
    | none => .error .missing := by
  unfold FileTree.read
  rw [h.stored names own, h.clear names own]
  cases objects.get (keyText names) <;> rfl

end Mirrors

end FlushDB
