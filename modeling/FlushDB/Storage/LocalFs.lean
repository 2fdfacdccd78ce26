import FlushDB.Lib.FileTree
import FlushDB.Server.NamespaceConfig

/-!
The storage backend over a local directory, and the loading of manifests from it. A conditional put
makes its directories, creates the file, writes it and syncs it, one after the other; any of these
may fail, and the call may end before any of them without an answer.
-/

namespace FlushDB
open Lib

abbrev LocalFiles := FileTree String (List UInt8)

inductive PutStep where
  | createDir (path : List String)
  | create
  | write (written : Nat)
  | sync
  | join
  deriving DecidableEq

/-- The step that a conditional put does not get past: it fails, or the call has ended before it. -/
structure PutFault where
  step : PutStep
  ended : Bool := false

/-- The end of a call that does not return `Ok`: an error, or no answer at all. -/
abbrev Unfinished := Option FlushError

def PutFault.answer (fault : PutFault) (call : String) : Unfinished :=
  if fault.ended then none else some (.io call)

/-- The directories that a path goes through, from the top. -/
def parents (path : List String) : List (List String) :=
  path.inits.filter fun front => front ≠ [] && front ≠ path

namespace LocalFsBackend

def get (b : LocalFsBackend) (key : String) (t : LocalFiles) : FlushResult (List UInt8) :=
  match t.read (b.fullPath key) with
  | .ok content => .ok content
  | .error .missing => .error (.notFound key)
  | .error .other => .error (.io "read")

def createDirAll (fault : Option PutFault) :
    List (List String) → LocalFiles → Except Unfinished Unit × LocalFiles
  | [], t => (.ok (), t)
  | path :: rest, t =>
    match t.lookup path with
    | some .directory => createDirAll fault rest t
    | some (.file _) => (.error (some (.io "create_dir_all")), t)
    | none =>
      match fault.filter fun f => f.step = .createDir path with
      | some f => (.error (f.answer "create_dir_all"), t)
      | none => createDirAll fault rest (t.makeDirectory path)

/-- What is left of the call when the file has been created. -/
def writeCreated (fault : Option PutFault) (path : List String) (value : List UInt8)
    (t : LocalFiles) :
    Except Unfinished Unit × LocalFiles :=
  match fault with
  | some f@⟨.write written, _⟩ =>
    (.error (f.answer "write_all"), t.writeFile path (value.take written))
  | some f@⟨.sync, _⟩ => (.error (f.answer "sync_all"), t.writeFile path value)
  | some f@⟨.join, _⟩ => (.error (f.answer "spawn_blocking join error"), t.writeFile path value)
  | _ => (.ok (), t.writeFile path value)

def conditionalPut (b : LocalFsBackend) (fault : Option PutFault) (key : String)
    (value : List UInt8) (t : LocalFiles) :
    Except Unfinished Unit × LocalFiles :=
  let path := b.fullPath key
  match createDirAll fault (parents path) t with
  | (.error e, t) => (.error e, t)
  | (.ok (), t) =>
    match fault.filter fun f => f.step = .create with
    | some f => (.error (f.answer "open"), t)
    | none =>
      if (t.lookup path).isSome then
        (.error (some (.preconditionFailed s!"key '{key}' already exists")), t)
      else writeCreated fault path value (t.writeFile path [])

/-- The keys of the files below the base directory, without the temporary ones, that have the
prefix. -/
def listPrefix (b : LocalFsBackend) (start : String) (t : LocalFiles) : List String :=
  let base := resolve b.baseDir
  ((t.files.filter fun file => base.isPrefixOf file.1 &&
    !(".tmp.".toList.isPrefixOf ((file.1.getLast?.getD "").toList))).map fun file =>
      "/".intercalate (file.1.drop base.length)).filter
        (fun key => start.toList.isPrefixOf key.toList) |>.insertionSort (· ≤ ·)

end LocalFsBackend

/-- `str::parse::<u64>`. -/
def parseU64 (chars : List Char) : Except String Nat :=
  let digits := if chars.head? = some '+' then chars.tail else chars
  if digits.isEmpty then
    .error (if chars.isEmpty then "cannot parse integer from empty string"
      else "invalid digit found in string")
  else if !digits.all Char.isDigit then .error "invalid digit found in string"
  else if 2 ^ 64 ≤ Nat.ofDigitChars 10 digits 0 then .error "number too large to fit in target type"
  else .ok (Nat.ofDigitChars 10 digits 0)

def ManifestId.fromPathString (s : String) : FlushResult Nat :=
  if s.utf8ByteSize ≠ 20 then
    .error (.invalidArgument s!"manifest ID must be 20 digits, got {s.utf8ByteSize} chars")
  else
    match parseU64 s.toList with
    | .error e => .error (.invalidArgument s!"invalid manifest ID: {e}")
    | .ok id => .ok id

/-- The part of a path after its last slash. -/
def fileName (path : String) : String :=
  String.ofList (path.toList.reverse.takeWhile (· ≠ '/')).reverse

/-- JSON, which a package reads and writes. -/
structure ManifestCodec where
  serialize : Manifest → FlushResult (List UInt8)
  deserialize : List UInt8 → FlushResult Manifest

namespace LocalFsBackend
variable (b : LocalFsBackend) (codec : ManifestCodec) (base ns : String)

/-- `load_latest` on an empty directory stores the first manifest. -/
def storeFirst (nowMs : Nat) (t : LocalFiles) : Except Unfinished Manifest × LocalFiles :=
  let manifest := Manifest.newEmpty ns nowMs
  let path := manifestPath base ns 0
  match codec.serialize manifest with
  | .error e => (.error (some e), t)
  | .ok data =>
    match b.conditionalPut none path data t with
    | (.ok (), t) => (.ok manifest, t)
    | (.error (some (.preconditionFailed _)), t) =>
      (((b.get path t).bind codec.deserialize).mapError some, t)
    | (.error e, t) => (.error e, t)

def loadLatest (nowMs : Nat) (t : LocalFiles) : Except Unfinished Manifest × LocalFiles :=
  match (b.listPrefix (manifestPrefix base ns) t).getLast? with
  | none => b.storeFirst codec base ns nowMs t
  | some last =>
    match ManifestId.fromPathString (fileName last) with
    | .error e => (.error (some e), t)
    | .ok highest =>
      match (b.get (manifestPath base ns highest) t).bind codec.deserialize with
      | .error e => (.error (some e), t)
      | .ok manifest =>
        if manifest.formatVersion ≠ 1 then
          (.error (some (.corruptedData s!"unsupported manifest format_version: {manifest.formatVersion}")), t)
        else (.ok manifest, t)

end LocalFsBackend

/-- The step comes after the creation of the file. -/
def PutStep.late : PutStep → Bool
  | .createDir _ | .create => false
  | .write _ | .sync | .join => true

section Puts
variable {b : LocalFsBackend} {t u : LocalFiles} {path : List String}

theorem mem_parents {front : List String} :
    front ∈ parents path ↔ front <+: path ∧ front ≠ [] ∧ front ≠ path := by
  simp [parents, List.mem_inits]

theorem path_not_parent (path : List String) : path ∉ parents path :=
  fun member => (mem_parents.mp member).2.2 rfl

theorem blocked_eq_any (t : LocalFiles) (path : List String) :
    t.blocked path = (parents path).any t.isFile := by
  unfold FileTree.blocked parents
  rw [List.any_filter]
  refine congrArg (List.any path.inits) (funext fun front => ?_)
  by_cases root : front = []
  · subst front
    rw [show t.isFile [] = false from rfl, Bool.and_false, Bool.and_false]
  · simp [root]

theorem createDirAll_more (fault : Option PutFault) (among : List String → Prop)
    {paths : List (List String)} (inside : ∀ p ∈ paths, among p) (t : LocalFiles) :
    FileTree.MoreDirectories among t (LocalFsBackend.createDirAll fault paths t).2 := by
  induction paths generalizing t with
  | nil => exact .refl t
  | cons path rest ih =>
    have later : ∀ p ∈ rest, among p := fun p member => inside p (List.mem_cons_of_mem _ member)
    unfold LocalFsBackend.createDirAll
    split
    · exact ih later t
    · exact .refl t
    · rename_i absent
      split
      · exact .refl t
      · exact (FileTree.MoreDirectories.makeDirectory absent (inside path List.mem_cons_self)).trans
          (ih later _)

/-- Where no directory fails to be made, a file in the way decides. -/
theorem createDirAll_answer {fault : Option PutFault}
    (makes : ∀ f ∈ fault, ∀ p, f.step ≠ .createDir p) (paths : List (List String))
    (t : LocalFiles) : (LocalFsBackend.createDirAll fault paths t).1 =
      if paths.any t.isFile then .error (some (.io "create_dir_all")) else .ok () := by
  induction paths generalizing t with
  | nil => rfl
  | cons path rest ih =>
    unfold LocalFsBackend.createDirAll
    rw [List.any_cons]
    split
    · rename_i found
      rw [ih t, show t.isFile path = false by simp [FileTree.isFile, found], Bool.false_or]
    · rename_i content found
      rw [show t.isFile path = true by simp [FileTree.isFile, found], Bool.true_or, if_pos rfl]
    · rename_i absent
      have none : fault.filter (fun f => f.step = .createDir path) = none := by
        rw [Option.filter_eq_none_iff]
        intro f given
        simpa using makes f given path
      have more : FileTree.MoreDirectories (fun _ => True) t (t.makeDirectory path) :=
        .makeDirectory absent trivial
      have same : (t.makeDirectory path).isFile = t.isFile := funext more.isFile_eq
      rw [none]
      dsimp only
      rw [ih (t.makeDirectory path), show t.isFile path =
        false by simp [FileTree.isFile, absent], Bool.false_or, same]

theorem createDirAll_ok {fault : Option PutFault} {paths : List (List String)}
    (made : (LocalFsBackend.createDirAll fault paths t).1 = .ok ()) :
    paths.any t.isFile = false := by
  induction paths generalizing t with
  | nil => rfl
  | cons path rest ih =>
    unfold LocalFsBackend.createDirAll at made
    rw [List.any_cons]
    split at made
    · rename_i found
      rw [ih made, show t.isFile path = false by simp [FileTree.isFile, found], Bool.or_self]
    · cases made
    · rename_i absent
      have more : FileTree.MoreDirectories (fun _ => True) t (t.makeDirectory path) :=
        .makeDirectory absent trivial
      have same : (t.makeDirectory path).isFile = t.isFile := funext more.isFile_eq
      split at made
      · cases made
      · rw [← same, ih made, same, show t.isFile path = false by simp [FileTree.isFile, absent], Bool.or_self]

theorem fullPath_ne_nil {t : LocalFiles} (missing : t.read path = .error .missing) : path ≠ [] := by
  rintro rfl
  cases missing

/-- The file that a put has created holds what was written of it. -/
theorem writeCreated_cases (fault : Option PutFault) (value : List UInt8) (t : LocalFiles) :
    ∃ content, (LocalFsBackend.writeCreated fault path value t).2 = t.writeFile path content ∧
      ((LocalFsBackend.writeCreated fault path value t).1 = .ok () ↔
        ∀ f ∈ fault, f.step.late = false) := by
  unfold LocalFsBackend.writeCreated
  split
  · exact ⟨_, rfl, by simp [PutStep.late]⟩
  · exact ⟨_, rfl, by simp [PutStep.late]⟩
  · exact ⟨_, rfl, by simp [PutStep.late]⟩
  · rename_i write sync join
    refine ⟨_, rfl, fun _ f given => ?_, fun _ => rfl⟩
    obtain ⟨step, ended⟩ := f
    cases step with
    | createDir | create => rfl
    | write written => exact absurd given (write written ended)
    | sync => exact absurd given (sync ended)
    | join => exact absurd given (join ended)

/-- A put that finds nothing in the way of its directories goes on to create the file. -/
theorem conditionalPut_made {b : LocalFsBackend} {fault : Option PutFault} {key : String}
    {value : List UInt8} {made : LocalFiles}
    (dirs : LocalFsBackend.createDirAll fault (parents (b.fullPath key)) t = (.ok (), made)) :
    b.conditionalPut fault key value t =
      match fault.filter fun f => f.step = .create with
      | some f => (.error (f.answer "open"), made)
      | none =>
        if (made.lookup (b.fullPath key)).isSome then
          (.error (some (.preconditionFailed s!"key '{key}' already exists")), made)
        else LocalFsBackend.writeCreated fault (b.fullPath key) value
          (made.writeFile (b.fullPath key) []) := by
  unfold LocalFsBackend.conditionalPut
  dsimp only
  rw [dirs]

/-- A put leaves at most new directories, or has created the file where it was missing. -/
theorem conditionalPut_cases (b : LocalFsBackend) (fault : Option PutFault) (key : String)
    (value : List UInt8) (t : LocalFiles) :
    (FileTree.MoreDirectories (· ∈ parents (b.fullPath key)) t (b.conditionalPut fault key value t).2 ∧
        (b.conditionalPut fault key value t).1 ≠ .ok () ∧
        ∀ f ∈ fault, f.step.late = true → t.read (b.fullPath key) ≠ .error .missing) ∨
      t.read (b.fullPath key) = .error .missing ∧
        (∃ content, (b.conditionalPut fault key value t).2.read (b.fullPath key) = .ok content) ∧
        ((b.conditionalPut fault key value t).1 = .ok () ↔ ∀ f ∈ fault, f.step.late = false) := by
  have more := createDirAll_more fault (· ∈ parents (b.fullPath key)) (fun _ member => member) t
  have early : ∀ {f : PutFault} {step : PutStep}, f.step = step → step.late = false →
      f.step.late ≠ true := by
    rintro f step rfl before late
    exact Bool.false_ne_true (before.symm.trans late)
  rcases dirs : LocalFsBackend.createDirAll fault (parents (b.fullPath key)) t with ⟨result, made⟩
  rw [dirs] at more
  cases result with
  | error e =>
    have put : b.conditionalPut fault key value t = (.error e, made) := by
      unfold LocalFsBackend.conditionalPut
      dsimp only
      rw [dirs]
    rw [put]
    refine Or.inl ⟨more, nofun, ?_⟩
    intro f given late missing
    -- a step after the creation of the directories is given, so a file was in the way
    have makes : ∀ g ∈ fault, ∀ p, g.step ≠ .createDir p := by
      intro g given' p first
      obtain rfl := Option.some.inj (given.symm.trans given')
      exact early first rfl late
    have answer := createDirAll_answer makes (parents (b.fullPath key)) t
    rw [← blocked_eq_any, (FileTree.read_missing_iff.mp missing).2, dirs] at answer
    cases answer
  | ok done =>
    rw [conditionalPut_made dirs]
    split
    · rename_i f opening
      obtain ⟨given, create⟩ := Option.filter_eq_some_iff.mp opening
      refine Or.inl ⟨more, nofun, ?_⟩
      intro g given' late
      obtain rfl := Option.some.inj (given.symm.trans given')
      exact absurd late (early (of_decide_eq_true create) rfl)
    · split
      · rename_i taken
        refine Or.inl ⟨more, by simp, ?_⟩
        intro f _ _ missing
        rw [more.lookup_eq (path_not_parent _), (FileTree.read_missing_iff.mp missing).1] at taken
        cases taken
      · rename_i free
        have absent : made.lookup (b.fullPath key) = none := Option.not_isSome_iff_eq_none.mp free
        have clear := createDirAll_ok (congrArg Prod.fst dirs)
        rw [← blocked_eq_any] at clear
        rw [more.lookup_eq (path_not_parent _)] at absent
        have missing := FileTree.read_missing_iff.mpr ⟨absent, clear⟩
        obtain ⟨content, written, answer⟩ := @writeCreated_cases (b.fullPath key) fault value
          (made.writeFile (b.fullPath key) [])
        refine Or.inr ⟨missing, ⟨content, ?_⟩, answer⟩
        rw [written]
        exact FileTree.read_writeFile _ (fullPath_ne_nil missing) content

end Puts

section Loads
variable {b : LocalFsBackend} {t u : LocalFiles}

theorem length_toPathString (id : Nat) : 20 ≤ (ManifestId.toPathString id).toList.length := by
  unfold ManifestId.toPathString
  rw [String.toList_append, pushn_toList, List.length_append, List.length_append, List.length_replicate]
  simp only [String.length_toList]
  omega

theorem fullPath_manifestPath (b : LocalFsBackend) (base ns : String) :
    ∃ dir, ∀ id, b.fullPath (manifestPath base ns id) = dir ++ [ManifestId.toPathString id] := by
  obtain ⟨front, split⟩ : ∃ front, (manifestPrefix base ns).toList = front ++ ['/'] := by
    refine ⟨base.toList ++ '/' :: (ns.toList ++ "/manifests".toList), ?_⟩
    rw [manifestPrefix_toList, show "/manifests/".toList = "/manifests".toList ++ ['/'] from rfl]
    simp
  have word : ∀ id, components [] (ManifestId.toPathString id).toList =
      [ManifestId.toPathString id] := by
    intro id
    have long := length_toPathString id
    have clean : '/' ∉ (ManifestId.toPathString id).toList := slash_not_mem_padded 20 id
    rw [components_word [] clean, List.nil_append, String.ofList_toList]
    intro empty
    rw [empty] at long
    cases long
  have names : ∀ id, components [] (manifestPath base ns id).toList =
      components [] front ++ [ManifestId.toPathString id] := by
    intro id
    rw [manifestPath, String.toList_append, split, List.append_assoc, List.singleton_append,
      components_append, word]
  have plain : ∀ id dir, resolve (dir ++ [ManifestId.toPathString id]) =
      resolve dir ++ [ManifestId.toPathString id] := by
    intro id dir
    have long := length_toPathString id
    rw [resolve_append, List.foldl_cons, List.foldl_nil, if_neg, if_neg]
    · intro dots
      rw [dots] at long
      exact absurd long (by decide)
    · intro dot
      rw [dot] at long
      exact absurd long (by decide)
  have head : ∀ id, (manifestPath base ns id).toList.head? = (front ++ ['/']).head? := by
    intro id
    rw [manifestPath, String.toList_append, split, List.head?_append_of_ne_nil]
    exact List.append_ne_nil_of_right_ne_nil front (List.cons_ne_nil _ _)
  by_cases absolute : (front ++ ['/']).head? = some '/'
  · refine ⟨resolve (components [] front), fun id => ?_⟩
    rw [LocalFsBackend.fullPath, head, if_pos absolute, names, plain]
  · refine ⟨resolve (b.baseDir ++ components [] front), fun id => ?_⟩
    rw [LocalFsBackend.fullPath, head, if_neg absolute, names, ← List.append_assoc, plain]

theorem manifest_not_parent (b : LocalFsBackend) (base ns : String) (id other : Nat) :
    b.fullPath (manifestPath base ns id) ∉ parents (b.fullPath (manifestPath base ns other)) := by
  obtain ⟨dir, place⟩ := fullPath_manifestPath b base ns
  rw [place, place]
  intro member
  obtain ⟨front, -, different⟩ := mem_parents.mp member
  have long := front.length_le
  exact different (front.eq_of_length (by simp))

theorem get_more {key other : String}
    (more : FileTree.MoreDirectories (· ∈ parents (b.fullPath other)) t u)
    (apart : b.fullPath key ∉ parents (b.fullPath other)) : b.get key u = b.get key t := by
  unfold LocalFsBackend.get
  rw [more.read_eq apart]

/-- A put that nothing disturbs is decided by what stands on its path. -/
theorem conditionalPut_undisturbed (b : LocalFsBackend) (key : String) (value : List UInt8)
    (t : LocalFiles) :
    (b.conditionalPut none key value t).1 =
      if t.blocked (b.fullPath key) then .error (some (.io "create_dir_all"))
      else if (t.lookup (b.fullPath key)).isSome then
        .error (some (.preconditionFailed s!"key '{key}' already exists"))
      else .ok () := by
  have more := createDirAll_more none (· ∈ parents (b.fullPath key)) (fun _ member => member) t
  have answer := @createDirAll_answer none nofun (parents (b.fullPath key)) t
  rw [← blocked_eq_any] at answer
  rcases dirs : LocalFsBackend.createDirAll none (parents (b.fullPath key)) t with ⟨result, made⟩
  rw [dirs] at more answer
  cases blocked : t.blocked (b.fullPath key) with
  | true =>
    rw [blocked, if_pos rfl] at answer
    unfold LocalFsBackend.conditionalPut
    dsimp only
    rw [dirs, show result = _ from answer, if_pos rfl]
  | false =>
    rw [blocked, if_neg Bool.false_ne_true] at answer
    obtain rfl : result = .ok () := answer
    rw [conditionalPut_made dirs, if_neg Bool.false_ne_true, Option.filter_none]
    dsimp only
    rw [more.lookup_eq (path_not_parent _)]
    split <;> rfl

theorem storeFirst_more (codec : ManifestCodec) (base ns : String) (nowMs id : Nat)
    (more : FileTree.MoreDirectories (· ∈ parents (b.fullPath (manifestPath base ns id))) t u) :
    (b.storeFirst codec base ns nowMs u).1 = (b.storeFirst codec base ns nowMs t).1 := by
  unfold LocalFsBackend.storeFirst
  dsimp only
  split
  · rfl
  · rename_i data _
    have answers : (b.conditionalPut none (manifestPath base ns 0) data u).1 =
        (b.conditionalPut none (manifestPath base ns 0) data t).1 := by
      rw [conditionalPut_undisturbed, conditionalPut_undisturbed, more.blocked_eq,
        more.lookup_eq (manifest_not_parent b base ns 0 id)]
    have after : ∀ v, (b.conditionalPut none (manifestPath base ns 0) data v).1 ≠ .ok () →
        b.get (manifestPath base ns 0) (b.conditionalPut none (manifestPath base ns 0) data v).2 =
          b.get (manifestPath base ns 0) v := by
      intro v failed
      rcases conditionalPut_cases b none (manifestPath base ns 0) data
        v with ⟨left, -, -⟩ | ⟨-, -, answer⟩
      · exact get_more left (path_not_parent _)
      · exact absurd (answer.mpr nofun) failed
    have first := after t
    have second := after u
    rcases old : b.conditionalPut none (manifestPath base ns 0) data t with ⟨result, t'⟩
    rcases new : b.conditionalPut none (manifestPath base ns 0) data u with ⟨result', u'⟩
    rw [old] at answers first
    rw [new] at answers second
    obtain rfl : result' = result := answers
    rcases result' with (_ | e) | done
    · rfl
    · cases e with
      | preconditionFailed message =>
        dsimp only
        rw [first nofun, second nofun, get_more more (manifest_not_parent b base ns 0 id)]
      | _ => rfl
    · rfl

/-- Loading goes the same way with more directories on the way to a manifest. -/
theorem loadLatest_more (codec : ManifestCodec) (base ns : String) (nowMs id : Nat)
    (more : FileTree.MoreDirectories (· ∈ parents (b.fullPath (manifestPath base ns id))) t u) :
    (b.loadLatest codec base ns nowMs u).1 = (b.loadLatest codec base ns nowMs t).1 := by
  have listed : b.listPrefix (manifestPrefix base ns) u = b.listPrefix (manifestPrefix base ns) t := by
    unfold LocalFsBackend.listPrefix
    rw [more.files]
  have reads : ∀ other, b.get (manifestPath base ns other) u =
      b.get (manifestPath base ns other) t := fun other =>
    get_more more (manifest_not_parent b base ns other id)
  unfold LocalFsBackend.loadLatest
  rw [listed]
  split
  · exact storeFirst_more codec base ns nowMs id more
  · split
    · rfl
    · rw [reads]
      split
      · rfl
      · split <;> rfl

end Loads

theorem get_notFound_iff {b : LocalFsBackend} {key : String} {t : LocalFiles} :
    b.get key t = .error (.notFound key) ↔ t.read (b.fullPath key) = .error .missing := by
  unfold LocalFsBackend.get
  split
  · rename_i content found
    simp [found]
  · rename_i absent
    simp [absent]
  · rename_i other
    simp [other]

/-- A put that does not return `Ok` changes no read of its key and no loading of manifests, exactly
when it has not come past the creation of a file that was missing. -/
theorem conditionalPut_atomic_iff (b : LocalFsBackend) (fault : Option PutFault) (key : String)
    (value : List UInt8) (t : LocalFiles) :
    ((b.conditionalPut fault key value t).1 ≠ .ok () →
        b.get key (b.conditionalPut fault key value t).2 = b.get key t ∧
          ∀ codec base ns nowMs id, key = manifestPath base ns id →
            (b.loadLatest codec base ns nowMs (b.conditionalPut fault key value t).2).1 =
              (b.loadLatest codec base ns nowMs t).1) ↔
      ∀ f ∈ fault, f.step.late = true → b.get key t ≠ .error (.notFound key) := by
  rcases conditionalPut_cases b fault key value
    t with ⟨more, -, kept⟩ | ⟨missing, ⟨content, created⟩, answer⟩
  · constructor
    · intro _ f given late absent
      exact kept f given late (get_notFound_iff.mp absent)
    · intro _ _
      refine ⟨get_more more (path_not_parent _), ?_⟩
      rintro codec base ns nowMs id rfl
      exact loadLatest_more codec base ns nowMs id more
  · have before := get_notFound_iff.mpr missing
    constructor
    · intro atomic f given late _
      have failed : (b.conditionalPut fault key value t).1 ≠ .ok () := fun done =>
        Bool.false_ne_true ((answer.mp done f given).symm.trans late)
      have same := (atomic failed).1
      rw [before, LocalFsBackend.get, created] at same
      cases same
    · intro early failed
      refine absurd (answer.mpr fun f given => ?_) failed
      exact Bool.eq_false_iff.mpr fun late => early f given late before

section Example

def dataBackend : LocalFsBackend := ⟨["data"]⟩

/-- One manifest is stored. -/
def oneManifest : LocalFiles :=
  (dataBackend.conditionalPut none (manifestPath "flushdb" "n" 0) [123, 125] {}).2

/-- The process ends between the creation of the next manifest and its first byte. -/
def createdOnly : PutFault := { step := .write 0, ended := true }

def afterCreatedOnly : LocalFiles :=
  (dataBackend.conditionalPut (some createdOnly) (manifestPath "flushdb" "n" 1) [123, 125] oneManifest).2

/-- The manifest that was never stored is read as an empty file, and loading fails where that is no
manifest. -/
theorem createdOnly_truncated :
    (dataBackend.conditionalPut (some createdOnly) (manifestPath "flushdb" "n" 1)
      [123, 125] oneManifest).1 = .error none ∧
      dataBackend.get (manifestPath "flushdb" "n" 1) oneManifest =
        .error (.notFound (manifestPath "flushdb" "n" 1)) ∧
      dataBackend.get (manifestPath "flushdb" "n" 1) afterCreatedOnly = .ok [] ∧
      ∀ codec e, codec.deserialize [] = .error e →
        (dataBackend.loadLatest codec "flushdb" "n" 0 afterCreatedOnly).1 = .error (some e) := by
  have found : dataBackend.get (manifestPath "flushdb" "n" 1) afterCreatedOnly = .ok [] := by
    decide +kernel
  refine ⟨by decide +kernel, by decide +kernel, found, fun codec e invalid => ?_⟩
  have last : (dataBackend.listPrefix (manifestPrefix "flushdb" "n") afterCreatedOnly).getLast? =
      some "flushdb/n/manifests/00000000000000000001" := by decide +kernel
  have id : ManifestId.fromPathString (fileName "flushdb/n/manifests/00000000000000000001") =
      .ok 1 := by decide +kernel
  simp only [LocalFsBackend.loadLatest, last, id, found, Except.bind, invalid]

end Example

end FlushDB
