import FlushDB.Engine.Engine

/-!
The configuration of a namespace, its defaults and its checks, and where the storage of its
partitions lies.
-/

namespace FlushDB

inductive PartitionKeyStrategy where
  | simple
  | composite (delimiter : String) (fieldIndices : List Nat)
  | byPrefix (length : Nat)
  | customHash (hashName : String)
  deriving DecidableEq, Repr

inductive FsyncMode where
  | sync | batchSync
  deriving DecidableEq, Repr

def parseFsyncMode (mode : String) : FlushResult FsyncMode :=
  if mode = "sync" then .ok .sync
  else if mode = "batch_sync" then .ok .batchSync
  else .error (.invalidArgument s!"wal_fsync_mode: must be 'sync' or 'batch_sync', got '{mode}'")

def defaultS3PathPrefix (name : String) : String := "flushdb/" ++ name

/-- What serde puts where a document leaves the prefix out. -/
def serdeDefaultS3PathPrefix : String := "flushdb/default"

/-- A rate of `none` is NaN. -/
structure NamespaceConfig where
  name : String
  partitionKeyStrategy : PartitionKeyStrategy
  partitionCount : Nat
  s3PathPrefix : String
  bloomFilterFpRate : Option Rat := some (1 / 100)
  defaultPageSizeBytes : Nat := 2097152
  maxPageSizeBytes : Nat := 8388608
  targetLatencySloMs : Nat := 10
  maxLatencySloMs : Nat := 500
  walFsyncMode : String := "sync"
  walBatchSyncIntervalMs : Nat := 10

namespace NamespaceConfig

def validateStrategy (config : NamespaceConfig) : FlushResult Unit :=
  match config.partitionKeyStrategy with
  | .composite _ fieldIndices =>
    if fieldIndices.isEmpty then
      .error (.invalidArgument "field_indices: must have at least one field index") else .ok ()
  | .byPrefix length =>
    if length = 0 then .error (.invalidArgument "prefix_length: must be > 0") else .ok ()
  | .simple | .customHash _ => .ok ()

/-- Comparisons with NaN are false. -/
def fpRateOutside (config : NamespaceConfig) : Bool :=
  config.bloomFilterFpRate.any fun rate => rate ≤ 0 || rate ≥ 1

def validate (config : NamespaceConfig) : FlushResult Unit :=
  if config.name.toList.isEmpty then .error (.invalidArgument "name: must not be empty")
  else if config.name.toList.contains '/' || config.name.toList.contains (Char.ofNat 0) then
    .error (.invalidArgument "name: must not contain / or null bytes")
  else if config.partitionCount = 0 then .error (.invalidArgument "partition_count: must be > 0")
  else if config.partitionCount ≠ 2 ^ config.partitionCount.log2 then
    .error (.invalidArgument "partition_count: must be a power of 2")
  else if config.fpRateOutside then
    .error (.invalidArgument "bloom_filter_fp_rate: must be in (0.0, 1.0)")
  else if config.defaultPageSizeBytes > config.maxPageSizeBytes then
    .error (.invalidArgument "default_page_size_bytes: must be <= max_page_size_bytes")
  else if config.targetLatencySloMs > config.maxLatencySloMs then
    .error (.invalidArgument "target_latency_slo_ms: must be <= max_latency_slo_ms")
  else
    match parseFsyncMode config.walFsyncMode with
    | .error e => .error e
    | .ok _ =>
      if config.walBatchSyncIntervalMs = 0 then
        .error (.invalidArgument "wal_batch_sync_interval_ms: must be > 0")
      else config.validateStrategy

def withStrategy (name : String) (strategy : PartitionKeyStrategy) (partitionCount : Nat) :
    FlushResult NamespaceConfig :=
  let config : NamespaceConfig :=
    { name, partitionKeyStrategy := strategy, partitionCount,
      s3PathPrefix := defaultS3PathPrefix name }
  match config.validate with
  | .error e => .error e
  | .ok () => .ok config

def new (name : String) (partitionCount : Nat) : FlushResult NamespaceConfig :=
  withStrategy name .simple partitionCount

/-- The configuration read from a document with the required fields, and the prefix if it has
one. -/
def ofDocument (name : String) (strategy : PartitionKeyStrategy) (partitionCount : Nat)
    (s3PathPrefix : Option String) :
    NamespaceConfig :=
  { name, partitionKeyStrategy := strategy, partitionCount,
    s3PathPrefix := s3PathPrefix.getD serdeDefaultS3PathPrefix }

def engineConfig (config : NamespaceConfig) : EngineConfig := { ns := config.name }

end NamespaceConfig

/-! ## Paths -/

/-- `{:020}`. -/
def ManifestId.toPathString (id : Nat) : String :=
  let digits := toString id
  "".pushn '0' (20 - digits.length) ++ digits

def manifestPrefix (base ns : String) : String := base ++ "/" ++ ns ++ "/manifests/"

def manifestPath (base ns : String) (id : Nat) : String :=
  manifestPrefix base ns ++ ManifestId.toPathString id

/-- What the engine of a partition calls its namespace. -/
def partitionNamespace (partitionId : Nat) : String := "partition-" ++ SstId.pad4 partitionId

/-- The directory that a path leads to, component by component. `..` is taken from the names alone,
as if the directory before it were there; the directories of a key that is written are made
first. -/
def resolve (path : List String) : List String :=
  path.foldl (fun dir component =>
    if component = "." then dir else if component = ".." then dir.dropLast else dir ++ [component])
      []

/-- The names between the slashes of a path; `name` is what is read of the first. -/
def components (name : List Char) : List Char → List String
  | [] => if name.isEmpty then [] else [String.ofList name]
  | c :: rest =>
    if c = '/' then (if name.isEmpty then [] else [String.ofList name]) ++ components [] rest
      else components (name ++ [c]) rest

structure LocalFsBackend where
  baseDir : List String

/-- `base_dir.join`: an absolute key stands for itself. -/
def LocalFsBackend.fullPath (b : LocalFsBackend) (key : String) : List String :=
  if key.toList.head? = some '/' then resolve (components [] key.toList) else
    resolve (b.baseDir ++ components [] key.toList)

/-- The log of a partition lies in its own directory below the data directory. -/
def walDir (baseDataDir : List String) (name : String) (partitionId : Nat) : List String :=
  resolve (baseDataDir ++ [name, partitionNamespace partitionId, "wal"])

def NamespaceConfig.manifestsAt (config : NamespaceConfig) (partitionId : Nat) : String :=
  manifestPrefix config.s3PathPrefix (partitionNamespace partitionId)

/-- Where a server without a bucket keeps its objects. -/
def storageBackend (baseDataDir : List String) : LocalFsBackend where
  baseDir := baseDataDir ++ ["storage"]

def NamespaceConfig.manifestDir (baseDataDir : List String) (config : NamespaceConfig)
    (partitionId : Nat) : List String :=
  (storageBackend baseDataDir).fullPath (config.manifestsAt partitionId)

/-- No manifest of one is listed among those of the other, neither where keys are strings nor where
they are paths of directories, and no log lies in the other's directory. -/
def NamespaceConfig.Separate (baseDataDir : List String) (c d : NamespaceConfig) : Prop :=
  ∀ i < c.partitionCount, ∀ j < d.partitionCount,
    (¬ (c.manifestsAt i).toList <+: (d.manifestsAt j).toList ∧
      ¬ (d.manifestsAt j).toList <+: (c.manifestsAt i).toList) ∧
      (¬ c.manifestDir baseDataDir i <+: d.manifestDir baseDataDir j ∧
        ¬ d.manifestDir baseDataDir j <+: c.manifestDir baseDataDir i) ∧
      walDir baseDataDir c.name i ≠ walDir baseDataDir d.name j

instance (baseDataDir : List String) (c d : NamespaceConfig) :
    Decidable (c.Separate baseDataDir d) :=
  inferInstanceAs (Decidable (∀ i < c.partitionCount, ∀ j < d.partitionCount, _ ∧ _ ∧ _))

section Checks
variable {config : NamespaceConfig}

namespace NamespaceConfig

theorem validateStrategy_names {e : FlushError} (h : config.validateStrategy = .error e) :
    ∃ text, e = .invalidArgument ("field_indices: " ++ text) ∨
      e = .invalidArgument ("prefix_length: " ++ text) := by
  unfold validateStrategy at h
  split at h
  · split at h
    · exact ⟨"must have at least one field index", Or.inl (Except.error.inj h).symm⟩
    · cases h
  · split at h
    · exact ⟨"must be > 0", Or.inr (Except.error.inj h).symm⟩
    · cases h
  · cases h
  · cases h

theorem validate_ok (h : config.validate = .ok ()) :
    config.name.toList ≠ [] ∧ '/' ∉ config.name.toList ∧ (∃ k, config.partitionCount = 2 ^ k) ∧
      (∃ mode, parseFsyncMode config.walFsyncMode = .ok mode) ∧
        config.validateStrategy = .ok () := by
  unfold validate at h
  split at h
  · cases h
  rename_i named
  split at h
  · cases h
  rename_i slashes
  split at h
  · cases h
  split at h
  · cases h
  rename_i power
  split at h
  · cases h
  split at h
  · cases h
  split at h
  · cases h
  split at h
  · cases h
  rename_i mode parsed
  split at h
  · cases h
  refine ⟨?_, ?_, ⟨_, not_not.mp power⟩, ⟨mode, parsed⟩, h⟩
  · intro empty
    rw [empty] at named
    exact named rfl
  · intro slash
    exact slashes (by simp [slash])

/-- The defaults pass their checks: only what the caller gives can be refused. -/
theorem ofDocument_validate (name : String) (strategy : PartitionKeyStrategy) (partitionCount : Nat)
    (s3PathPrefix : Option String) (named : name.toList ≠ []) (slash : '/' ∉ name.toList)
    (zero : Char.ofNat 0 ∉ name.toList) {k : Nat} (power : partitionCount = 2 ^ k) :
    (ofDocument name strategy partitionCount s3PathPrefix).validate =
      (ofDocument name strategy partitionCount s3PathPrefix).validateStrategy := by
  have positive : partitionCount ≠ 0 := by
    rw [power]
    exact (Nat.two_pow_pos k).ne'
  have log : partitionCount = 2 ^ partitionCount.log2 := by rw [power, Nat.log2_two_pow]
  have rate : (ofDocument name strategy partitionCount s3PathPrefix).fpRateOutside = false := by
    simp only [fpRateOutside, ofDocument, Option.any_some]
    decide +kernel
  unfold validate
  rw [rate]
  simp only [ofDocument, List.isEmpty_iff, named, slash, zero, positive, ← log, parseFsyncMode,
    List.contains_eq_mem, decide_false,
    Bool.or_self, Bool.false_eq_true, if_false, if_true, ne_eq, not_true_eq_false, gt_iff_lt]
  rfl

end NamespaceConfig

end Checks

section Paths

theorem pushn_toList (s : String) (c : Char) (n : Nat) :
    (s.pushn c n).toList = s.toList ++ List.replicate n c := by
  rw [String.pushn_eq_repeat_push]
  induction n with
  | zero => simp [Nat.repeat]
  | succ n ih => simp [Nat.repeat, ih, List.replicate_succ']

theorem ofDigitChars_padded (width n : Nat) :
    Nat.ofDigitChars 10 ("".pushn '0' (width - (toString n).length) ++ toString n).toList 0 = n := by
  rw [String.toList_append, pushn_toList, Nat.toString_eq_repr, Nat.toList_repr]
  simp [Nat.ofDigitChars_append, Nat.ofDigitChars_replicate_zero, Nat.ofDigitChars_ten_toDigits]

theorem pad4_injective : Function.Injective SstId.pad4 := by
  intro m n same
  rw [← ofDigitChars_padded 4 m, ← ofDigitChars_padded 4 n]
  exact congrArg (fun s : String => Nat.ofDigitChars 10 s.toList 0) same

theorem digits_padded (width n : Nat) :
    ∀ c ∈ ("".pushn '0' (width - (toString n).length) ++ toString n).toList, c.isDigit = true := by
  intro c member
  rw [String.toList_append, pushn_toList, Nat.toString_eq_repr, Nat.toList_repr] at member
  rcases List.mem_append.mp member with zeros | digits
  · obtain rfl := List.eq_of_mem_replicate (List.mem_append.mp zeros |>.resolve_left (by simp))
    rfl
  · exact Nat.isDigit_of_mem_toDigits (by decide) (by decide) digits

theorem slash_not_mem_padded (width n : Nat) :
    '/' ∉ ("".pushn '0' (width - (toString n).length) ++ toString n).toList := fun member =>
  absurd (digits_padded width n _ member) (by decide)

theorem partitionNamespace_injective : Function.Injective partitionNamespace := by
  intro i j same
  refine pad4_injective (String.toList_inj.mp ?_)
  have chars := congrArg String.toList same
  rw [partitionNamespace, partitionNamespace, String.toList_append, String.toList_append] at chars
  exact List.append_cancel_left chars

theorem slash_not_mem_partitionNamespace (i : Nat) : '/' ∉ (partitionNamespace i).toList := by
  rw [partitionNamespace, String.toList_append]
  intro member
  rcases List.mem_append.mp member with name | number
  · revert name
    decide
  · exact slash_not_mem_padded 4 i number

/-- A list is cut in one way at its last separator. -/
theorem cut_last {α : Type} {a : α} {xs ys zs ws : List α} (last : a ∉ ys) (last' : a ∉ ws)
    (h : xs ++ a :: ys = zs ++ a :: ws) : ys = ws := by
  rcases List.append_eq_append_iff.mp h with ⟨extra, -, rest⟩ | ⟨extra, -, rest⟩
  · cases extra with
    | nil => exact (List.cons.inj rest).2
    | cons b extra =>
      refine absurd ?_ last
      rw [(List.cons.inj rest).2]
      exact List.mem_append_right _ List.mem_cons_self
  · cases extra with
    | nil => exact (List.cons.inj rest).2.symm
    | cons b extra =>
      refine absurd ?_ last'
      rw [(List.cons.inj rest).2]
      exact List.mem_append_right _ List.mem_cons_self

/-- A prefix that goes past the first separator has the same part before it. -/
theorem cut_first {α : Type} {a : α} {xs ys zs ws : List α} (first : a ∉ xs) (first' : a ∉ zs)
    (h : xs ++ a :: ys <+: zs ++ a :: ws) :
    xs = zs := by
  obtain ⟨more, same⟩ := h
  rw [List.append_assoc] at same
  rcases List.append_eq_append_iff.mp same with ⟨extra, rfl, rest⟩ | ⟨extra, rfl, rest⟩
  · cases extra with
    | nil => exact (List.append_nil _).symm
    | cons b extra =>
      obtain ⟨rfl, -⟩ := List.cons.inj rest
      exact absurd (List.mem_append_right _ List.mem_cons_self) first'
  · cases extra with
    | nil => exact List.append_nil _
    | cons b extra =>
      obtain ⟨rfl, -⟩ := List.cons.inj rest
      exact absurd (List.mem_append_right _ List.mem_cons_self) first

theorem manifestPrefix_toList (base ns : String) :
    (manifestPrefix base ns).toList = base.toList ++ '/' :: (ns.toList ++ "/manifests/".toList) := by
  simp [manifestPrefix, String.toList_append]

namespace NamespaceConfig
variable {c d : NamespaceConfig} {i j : Nat}

/-- The directory of the manifests tells the partition. -/
theorem manifestsAt_index (same : c.manifestsAt i = d.manifestsAt j) : i = j := by
  have chars := congrArg String.toList same
  simp only [manifestsAt, manifestPrefix_toList, ← List.cons_append, ← List.append_assoc] at chars
  have names := cut_last (slash_not_mem_partitionNamespace i) (slash_not_mem_partitionNamespace j)
    (List.append_cancel_right chars)
  exact partitionNamespace_injective (String.toList_inj.mp names)

/-- A manifest is listed under no longer directory than its own. -/
theorem listed_inside {dir : String} {id : Nat}
    (listed : (c.manifestsAt i).toList <+: (dir ++ ManifestId.toPathString id).toList) :
    (c.manifestsAt i).toList <+: dir.toList := by
  rw [String.toList_append] at listed
  obtain ⟨more, same⟩ := listed
  rcases List.append_eq_append_iff.mp same with ⟨extra, split, -⟩ | ⟨extra, split, digits⟩
  · exact ⟨extra, split.symm⟩
  · rcases List.eq_nil_or_concat extra with rfl | ⟨front, last, rfl⟩
    · rw [List.append_nil] at split
      exact ⟨[], by rw [List.append_nil, split]⟩
    · have ends : (c.manifestsAt i).toList.getLast? = some '/' := by
        rw [manifestsAt, manifestPrefix_toList, show "/manifests/".toList =
          "/manifests".toList ++ ['/'] from rfl,
          ← List.append_assoc, ← List.cons_append, ← List.append_assoc, List.getLast?_concat]
      rw [split, List.concat_eq_append, ← List.append_assoc, List.getLast?_concat] at ends
      obtain rfl := Option.some.inj ends
      refine absurd ?_ (slash_not_mem_padded 20 id)
      show '/' ∈ (ManifestId.toPathString id).toList
      rw [digits]
      simp

end NamespaceConfig

theorem resolve_append (base rest : List String) :
    resolve (base ++ rest) = rest.foldl (fun dir component =>
      if component = "." then dir else if component = ".." then dir.dropLast
        else dir ++ [component]) (resolve base) :=
  List.foldl_append

theorem components_append (name front back : List Char) :
    components name (front ++ '/' :: back) = components name front ++ components [] back := by
  induction front generalizing name with
  | nil => simp [components]
  | cons c rest ih =>
    rw [List.cons_append, components, components]
    split
    · rw [ih [], List.append_assoc]
    · exact ih (name ++ [c])

theorem components_word {word : List Char} (name : List Char) (clean : '/' ∉ word)
    (long : word ≠ []) :
    components name word = [String.ofList (name ++ word)] := by
  induction word generalizing name with
  | nil => exact absurd rfl long
  | cons c rest ih =>
    rw [List.mem_cons, not_or] at clean
    rw [components, if_neg (Ne.symm clean.1)]
    cases rest with
    | nil => simp [components]
    | cons d rest =>
      rw [ih (name ++ [c]) clean.2 (List.cons_ne_nil _ _), List.append_assoc]
      rfl

theorem partitionNamespace_ne (i : Nat) {name : String} (other : name.toList.head? ≠ some 'p') :
    partitionNamespace i ≠ name := by
  intro same
  have start : (partitionNamespace i).toList.head? = some 'p' := by
    rw [partitionNamespace, String.toList_append]
    rfl
  rw [same] at start
  exact other start

theorem partitionNamespace_ne_dots (i : Nat) : partitionNamespace i ≠ "." ∧
    partitionNamespace i ≠ ".." :=
  ⟨partitionNamespace_ne i (by decide), partitionNamespace_ne i (by decide)⟩

/-- The logs of two namespaces lie apart, unless the data directory is the root of the file
system. -/
theorem walDir_apart {baseDataDir : List String} (deep : resolve baseDataDir ≠ [])
    {name other : String} (different : name ≠ other) (i j : Nat) :
    walDir baseDataDir name i ≠ walDir baseDataDir other j := by
  intro same
  have depth : 0 < (resolve baseDataDir).length := List.length_pos_of_ne_nil deep
  obtain ⟨dot, dots⟩ := partitionNamespace_ne_dots i
  obtain ⟨dot', dots'⟩ := partitionNamespace_ne_dots j
  have wal : ("wal" : String) ≠ "." ∧ ("wal" : String) ≠ ".." := by decide
  simp only [walDir, resolve_append, List.foldl_cons, List.foldl_nil, dot, dots, dot', dots', wal.1,
    wal.2, if_false] at same
  have upper := (List.append_inj' same (by simp only [List.length_singleton])).1
  have parents := (List.append_inj' upper (by simp only [List.length_singleton])).1
  have lengths := congrArg List.length parents
  by_cases here : name = "."
  · have elsewhere : other ≠ "." := fun also => different (here.trans also.symm)
    rw [if_pos here, if_neg elsewhere] at lengths
    split at lengths
    · rw [List.length_dropLast] at lengths
      omega
    · rw [List.length_append, List.length_singleton] at lengths
      omega
  by_cases up : name = ".."
  · have elsewhere : other ≠ ".." := fun also => different (up.trans also.symm)
    rw [if_neg here, if_pos up, if_neg elsewhere, List.length_dropLast] at lengths
    split at lengths
    · omega
    · rw [List.length_append, List.length_singleton] at lengths
      omega
  · rw [if_neg here, if_neg up, List.length_append, List.length_singleton] at lengths
    split at lengths
    · omega
    · split at lengths
      · rw [List.length_dropLast] at lengths
        omega
      · rename_i dotless undotted
        rw [if_neg here, if_neg up, if_neg dotless, if_neg undotted] at parents
        exact different (List.cons.inj (List.append_cancel_left parents)).1

/-- The directories of the manifests under the default prefix, for the names that are directories'
own and for those that stand for another. -/
theorem NamespaceConfig.manifestDir_default {baseDataDir : List String} {c : NamespaceConfig}
    (base : c.s3PathPrefix = defaultS3PathPrefix c.name) (long : c.name.toList ≠ [])
    (slash : '/' ∉ c.name.toList) (i : Nat) :
    c.manifestDir baseDataDir i = resolve (baseDataDir ++ ["storage"]) ++
      ((if c.name = "." then ["flushdb"] else if c.name = ".." then [] else ["flushdb", c.name]) ++
        [partitionNamespace i, "manifests"]) := by
  have named : (partitionNamespace i).toList ≠ [] := by
    rw [partitionNamespace, String.toList_append]
    exact List.append_ne_nil_of_left_ne_nil (by decide) _
  have path : (c.manifestsAt i).toList = "flushdb".toList ++ '/' :: (c.name.toList ++ '/' ::
      ((partitionNamespace i).toList ++ '/' :: ("manifests".toList ++ '/' :: []))) := by
    rw [manifestsAt, manifestPrefix_toList, base, defaultS3PathPrefix, String.toList_append,
      List.append_assoc]
    rfl
  have relative : (c.manifestsAt i).toList.head? ≠ some '/' := by
    rw [path, List.head?_append_of_ne_nil _ (by decide)]
    decide
  have names : components [] (c.manifestsAt i).toList =
      ["flushdb", c.name, partitionNamespace i, "manifests"] := by
    rw [path, components_append, components_append, components_append, components_append,
      components_word [] slash long,
      components_word [] (slash_not_mem_partitionNamespace i) named]
    simp [components]
  obtain ⟨dot, dots⟩ := partitionNamespace_ne_dots i
  have fixed : ("flushdb" : String) ≠ "." ∧ ("flushdb" : String) ≠ ".." ∧
      ("manifests" : String) ≠ "." ∧
      ("manifests" : String) ≠ ".." := by decide
  rw [manifestDir, LocalFsBackend.fullPath, if_neg relative, names, resolve_append]
  simp only [storageBackend, List.foldl_cons, List.foldl_nil, dot, dots, fixed.1, fixed.2.1,
    fixed.2.2.1, fixed.2.2.2, if_false]
  by_cases here : c.name = "."
  · simp [here]
  by_cases up : c.name = ".."
  · simp [up]
  · simp [here, up]

/-- Different names have directories of manifests that do not lie in each other. -/
theorem manifestDirs_apart {name other : String} (different : name ≠ other) (i j : Nat) :
    ¬ (if name = "." then ["flushdb"] else if name = ".." then [] else ["flushdb", name]) ++
      [partitionNamespace i, "manifests"] <+:
      (if other = "." then ["flushdb"] else if other = ".." then [] else ["flushdb", other]) ++
        [partitionNamespace j, "manifests"] := by
  have manifests : ∀ k, "manifests" ≠ partitionNamespace k :=
    fun k => (partitionNamespace_ne k (by decide)).symm
  have flushdb : ∀ k, partitionNamespace k ≠ "flushdb" :=
    fun k => partitionNamespace_ne k (by decide)
  have flushdb' : ∀ k, "flushdb" ≠ partitionNamespace k := fun k => (flushdb k).symm
  split <;> split <;> (try split) <;> (try split) <;> simp_all [List.cons_prefix_cons]

/-- Namespaces of different names that take the default prefix of their name are apart. -/
theorem NamespaceConfig.withStrategy_separate {baseDataDir : List String}
    (deep : resolve baseDataDir ≠ []) {name other : String}
    {strategy strategy' : PartitionKeyStrategy} {count count' : Nat} {c d : NamespaceConfig}
    (first : withStrategy name strategy count = .ok c)
    (second : withStrategy other strategy' count' = .ok d) (different : name ≠ other) :
    c.Separate baseDataDir d := by
  have made : ∀ {name : String} {strategy : PartitionKeyStrategy} {count : Nat}
      {c : NamespaceConfig}, withStrategy name strategy count = .ok c →
      c.name = name ∧ c.s3PathPrefix = defaultS3PathPrefix name ∧ name.toList ≠ [] ∧
        '/' ∉ name.toList := by
    intro name strategy count c h
    unfold withStrategy at h
    dsimp only at h
    split at h
    · cases h
    · rename_i valid
      obtain rfl := Except.ok.inj h
      exact ⟨rfl, rfl, (validate_ok valid).1, (validate_ok valid).2.1⟩
  obtain ⟨rfl, base, nonempty, slash⟩ := made first
  obtain ⟨rfl, base', nonempty', slash'⟩ := made second
  have path : ∀ {c : NamespaceConfig}, c.s3PathPrefix = defaultS3PathPrefix c.name →
      ∀ i, (c.manifestsAt i).toList =
      "flushdb/".toList ++ (c.name.toList ++ '/' ::
        ((partitionNamespace i).toList ++ "/manifests/".toList)) := by
    intro c base i
    rw [manifestsAt, manifestPrefix_toList, base, defaultS3PathPrefix, String.toList_append,
      List.append_assoc]
  intro i _ j _
  have directories : ¬ c.manifestDir baseDataDir i <+: d.manifestDir baseDataDir j ∧
      ¬ d.manifestDir baseDataDir j <+: c.manifestDir baseDataDir i := by
    rw [manifestDir_default base nonempty slash, manifestDir_default base' nonempty' slash',
      List.prefix_append_right_inj,
      List.prefix_append_right_inj]
    exact ⟨manifestDirs_apart different i j, manifestDirs_apart (Ne.symm different) j i⟩
  refine ⟨⟨?_, ?_⟩, directories, walDir_apart deep different i j⟩
  · intro nested
    rw [path base i, path base' j, List.prefix_append_right_inj] at nested
    exact different (String.toList_inj.mp (cut_first slash slash' nested))
  · intro nested
    rw [path base i, path base' j, List.prefix_append_right_inj] at nested
    exact different (String.toList_inj.mp (cut_first slash' slash nested)).symm

/-- As strings these prefixes are apart, as directories they are one. -/
example : ¬ (NamespaceConfig.ofDocument "a" .simple 1 (some "flushdb/a")).Separate ["data"]
    (.ofDocument "b" .simple 1 (some "flushdb/b/../a/")) := by decide +kernel

end Paths

end FlushDB
