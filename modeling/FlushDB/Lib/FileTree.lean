import FlushDB.Lib.ObjectStore
import Mathlib.Data.List.Infix

/-!
Files and directories under one root. Directories that are added where nothing stood change neither
what is read elsewhere nor the files that are listed.
-/

namespace FlushDB.Lib

inductive Node (β : Type*) where
  | directory
  | file (content : β)
  deriving DecidableEq

/-- The nodes below the root, each under the names that lead to it. -/
structure FileTree (ν β : Type*) where
  nodes : ObjectStore (List ν) (Node β) := ObjectStore.empty

/-- Why a file is not read: nothing is there, or something else is. -/
inductive ReadFault where
  | missing | other
  deriving DecidableEq

namespace FileTree

variable {ν β : Type*} [DecidableEq ν]

/-- The root is a directory. -/
def lookup (t : FileTree ν β) (path : List ν) : Option (Node β) :=
  if path = [] then some .directory else t.nodes.get path

def isFile (t : FileTree ν β) (path : List ν) : Bool :=
  match t.lookup path with
  | some (.file _) => true
  | _ => false

/-- A file stands where the path needs a directory. -/
def blocked (t : FileTree ν β) (path : List ν) : Bool :=
  path.inits.any fun front => front ≠ path && t.isFile front

def read (t : FileTree ν β) (path : List ν) : Except ReadFault β :=
  match t.lookup path with
  | some (.file content) => .ok content
  | some .directory => .error .other
  | none => .error (if t.blocked path then .other else .missing)

def makeDirectory (t : FileTree ν β) (path : List ν) : FileTree ν β := ⟨t.nodes.put path .directory⟩

def writeFile (t : FileTree ν β) (path : List ν) (content : β) : FileTree ν β :=
  ⟨t.nodes.put path (.file content)⟩

def remove (t : FileTree ν β) (path : List ν) : FileTree ν β := ⟨t.nodes.delete path⟩

def isDirectory (t : FileTree ν β) (path : List ν) : Bool :=
  match t.lookup path with
  | some .directory => true
  | _ => false

/-- The files with their paths. -/
def files (t : FileTree ν β) : List (List ν × β) :=
  t.nodes.objects.filterMap fun object =>
    match object.2 with
    | .directory => none
    | .file content => some (object.1, content)

/-- The second has more directories, on such paths, and is the same otherwise. -/
structure MoreDirectories (among : List ν → Prop) (t u : FileTree ν β) : Prop where
  kept : ∀ path node, t.lookup path = some node → u.lookup path = some node
  added : ∀ path node, u.lookup path = some node → t.lookup path = some node ∨ node = .directory ∧
    among path
  files : u.files = t.files

theorem lookup_writeFile (t : FileTree ν β) {path : List ν} (below : path ≠ []) (content : β) :
    (t.writeFile path content).lookup path = some (.file content) := by
  rw [lookup, if_neg below]
  exact ObjectStore.get_put_self _ _ _

theorem lookup_writeFile_ne (t : FileTree ν β) {path other : List ν} (content : β)
    (apart : other ≠ path) :
    (t.writeFile path content).lookup other = t.lookup other := by
  unfold lookup
  split
  · rfl
  · exact ObjectStore.get_put_ne _ _ apart

theorem lookup_remove (t : FileTree ν β) {path : List ν} (below : path ≠ []) :
    (t.remove path).lookup path = none := by
  rw [lookup, if_neg below]
  exact ObjectStore.get_delete_self _ _

theorem lookup_remove_ne (t : FileTree ν β) {path other : List ν} (apart : other ≠ path) :
    (t.remove path).lookup other = t.lookup other := by
  unfold lookup
  split
  · rfl
  · exact ObjectStore.get_delete_ne _ apart

theorem lookup_of_remove {t : FileTree ν β} {path other : List ν} {node : Node β}
    (found : (t.remove path).lookup other = some node) :
    t.lookup other = some node := by
  unfold lookup at found ⊢
  split
  · rename_i root
    rwa [if_pos root] at found
  · rename_i below
    rw [if_neg below] at found
    exact ObjectStore.get_of_delete found

theorem mem_files {t : FileTree ν β} {path : List ν} {content : β} :
    (path, content) ∈ t.files ↔ t.nodes.get path = some (.file content) := by
  rw [ObjectStore.get_eq_some, files, List.mem_filterMap]
  constructor
  · rintro ⟨⟨other, node⟩, member, same⟩
    cases node with
    | directory => cases same
    | file content =>
      obtain ⟨rfl, rfl⟩ := Prod.mk.inj (Option.some.inj same)
      exact member
  · intro member
    exact ⟨_, member, rfl⟩

omit [DecidableEq ν] in
/-- No two files have one path. -/
theorem files_nodup (t : FileTree ν β) : (t.files.map Prod.fst).Nodup := by
  have part : (t.files.map Prod.fst).Sublist (t.nodes.objects.map Prod.fst) := by
    unfold files
    generalize t.nodes.objects = objects
    induction objects with
    | nil => exact .refl _
    | cons object rest ih =>
      obtain ⟨path, node⟩ := object
      cases node with
      | directory => exact ih.cons _
      | file content => exact ih.cons_cons _
  exact t.nodes.unique.sublist part

theorem read_writeFile (t : FileTree ν β) {path : List ν} (below : path ≠ []) (content : β) :
    (t.writeFile path content).read path = .ok content := by
  rw [read, lookup_writeFile t below]

theorem blocked_iff {t : FileTree ν β} {path : List ν} :
    t.blocked path = true ↔ ∃ front, front <+: path ∧ front ≠ path ∧ t.isFile front = true := by
  simp [blocked, List.mem_inits]

/-- Where no file has come on the way, the way stays clear. -/
theorem blocked_of_fewer {t u : FileTree ν β} {path : List ν} (clear : t.blocked path = false)
    (fewer : ∀ front, front <+: path → front ≠ path → u.isFile front = true → t.isFile front = true) :
    u.blocked path = false := by
  rw [Bool.eq_false_iff] at clear ⊢
  intro blocked
  obtain ⟨front, part, other, file⟩ := blocked_iff.mp blocked
  exact clear (blocked_iff.mpr ⟨front, part, other, fewer front part other file⟩)

theorem isFile_congr {t u : FileTree ν β} {path : List ν} (same : t.lookup path = u.lookup path) :
    t.isFile path = u.isFile path := by
  unfold isFile
  rw [same]

theorem blocked_remove {t : FileTree ν β} {path : List ν} (clear : t.blocked path = false)
    (other : List ν) :
    (t.remove other).blocked path = false := by
  apply blocked_of_fewer clear
  intro front _ _ file
  unfold isFile at file ⊢
  split at file
  · rename_i content found
    rw [lookup_of_remove found]
  · cases file

/-- Nothing but a missing path is read as missing. -/
theorem read_missing_iff {t : FileTree ν β} {path : List ν} :
    t.read path = .error .missing ↔ t.lookup path = none ∧ t.blocked path = false := by
  unfold read
  split
  · rename_i content found
    simp [found]
  · rename_i found
    simp [found]
  · rename_i absent
    simp [absent]

namespace MoreDirectories
variable {among : List ν → Prop} {t u v : FileTree ν β}

theorem refl (t : FileTree ν β) : MoreDirectories among t t :=
  ⟨fun _ _ => id, fun _ _ => Or.inl, rfl⟩

theorem trans (first : MoreDirectories among t u) (second : MoreDirectories among u v) :
    MoreDirectories among t v where
  kept path node found := second.kept path node (first.kept path node found)
  added path node found := by
    rcases second.added path node found with before | new
    · exact first.added path node before
    · exact Or.inr new
  files := second.files.trans first.files

/-- A directory is made where nothing stands. -/
theorem makeDirectory {path : List ν} (absent : t.lookup path = none) (here : among path) :
    MoreDirectories among t (t.makeDirectory path) := by
  have below : path ≠ [] := by
    rintro rfl
    cases absent
  have missing : t.nodes.get path = none := by rwa [lookup, if_neg below] at absent
  have others : ∀ other, other ≠ path → (t.makeDirectory path).lookup other = t.lookup other := by
    intro other different
    unfold lookup
    split
    · rfl
    · exact ObjectStore.get_put_ne _ _ different
  refine ⟨?_, ?_, ?_⟩
  · intro other node found
    rw [others other ?_]
    · exact found
    · rintro rfl
      cases absent.symm.trans found
  · intro other node found
    by_cases same : other = path
    · subst other
      rw [lookup, if_neg below] at found
      have made := found.symm.trans (ObjectStore.get_put_self t.nodes path .directory)
      exact Or.inr ⟨Option.some.inj made, here⟩
    · rw [others other same] at found
      exact Or.inl found
  · have untouched : (t.nodes.delete path).objects = t.nodes.objects := by
      refine List.filter_eq_self.mpr fun object member => decide_eq_true ?_
      intro same
      have found := ObjectStore.get_eq_some.mpr (Prod.eta object ▸ member)
      rw [same, missing] at found
      cases found
    unfold FileTree.files
    rw [FileTree.makeDirectory, ObjectStore.put, List.filterMap_cons_none rfl, untouched]

theorem lookup_eq (more : MoreDirectories among t u) {path : List ν} (elsewhere : ¬ among path) :
    u.lookup path = t.lookup path := by
  cases before : t.lookup path with
  | some node => exact more.kept path node before
  | none =>
    cases after : u.lookup path with
    | none => rfl
    | some node =>
      rcases more.added path node after with found | ⟨-, new⟩
      · rw [before] at found
        cases found
      · exact absurd new elsewhere

theorem isFile_eq (more : MoreDirectories among t u) (path : List ν) :
    u.isFile path = t.isFile path := by
  unfold isFile
  cases before : t.lookup path with
  | some node => rw [more.kept path node before]
  | none =>
    cases after : u.lookup path with
    | none => rfl
    | some node =>
      rcases more.added path node after with found | ⟨rfl, -⟩
      · rw [before] at found
        cases found
      · rfl

theorem blocked_eq (more : MoreDirectories among t u) (path : List ν) :
    u.blocked path = t.blocked path := by
  simp only [blocked, more.isFile_eq]

/-- Reads off the new directories find the same. -/
theorem read_eq (more : MoreDirectories among t u) {path : List ν} (elsewhere : ¬ among path) :
    u.read path = t.read path := by
  unfold read
  rw [more.lookup_eq elsewhere, more.blocked_eq]

end MoreDirectories

end FileTree

end FlushDB.Lib
