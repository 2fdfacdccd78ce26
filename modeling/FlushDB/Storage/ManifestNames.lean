import FlushDB.Lib.Numerals
import FlushDB.Manifest.Newest
import FlushDB.Storage.LocalFs

/-!
The names of the manifests in a storage, and the loading of the newest of them. A name has twenty
digits, so that a sorted listing has the manifests in the order of their numbers.
-/

namespace FlushDB
open Lib

namespace ManifestId

theorem digits_toPathString (id : Nat) : ∀ c ∈ (toPathString id).toList, c.isDigit = true :=
  digits_padded 20 id

theorem length_toPathString_word {id : Nat} (word : id < 2 ^ 64) :
    (toPathString id).toList.length = 20 := by
  have short : (toString id).length ≤ 20 :=
    (Nat.length_repr_le_iff (by decide)).mpr (lt_trans word (by decide))
  rw [toPathString, String.toList_append, pushn_toList, List.length_append, List.length_append,
    List.length_replicate]
  simp only [String.length_toList, String.length_empty]
  omega

theorem utf8ByteSize_digits {cs : List Char} (digits : ∀ c ∈ cs, c.isDigit = true) :
    (String.ofList cs).utf8ByteSize = cs.length := by
  induction cs with
  | nil => rfl
  | cons c cs ih =>
    have first := digits c List.mem_cons_self
    have rest := ih fun d member => digits d (List.mem_cons_of_mem _ member)
    have ascii : c.val ≤ 0x7F := by
      rw [Char.isDigit_iff_toNat] at first
      exact UInt32.le_iff_toNat_le.mpr (first.2.trans (by decide))
    have size : c.utf8Size = 1 := if_pos ascii
    rw [String.ofList_cons, String.utf8ByteSize_append, String.utf8ByteSize_singleton, size, rest,
      List.length_cons, Nat.add_comm]

theorem parseU64_digits {cs : List Char} (nonempty : cs ≠ []) (digits : ∀ c ∈ cs, c.isDigit = true)
    (word : Nat.ofDigitChars 10 cs 0 < 2 ^ 64) : parseU64 cs = .ok (Nat.ofDigitChars 10 cs 0) := by
  have unsigned : cs.head? ≠ some '+' := by
    intro plus
    exact absurd (digits _ (List.mem_of_head? plus)) (by decide)
  have all : cs.all Char.isDigit = true := List.all_eq_true.mpr digits
  rw [parseU64, if_neg unsigned,
    if_neg (by simpa using nonempty), all, if_neg (by decide), if_neg (not_le.mpr word)]

theorem fromPathString_toPathString {id : Nat} (word : id < 2 ^ 64) :
    fromPathString (toPathString id) = .ok id := by
  have digits := digits_toPathString id
  have length := length_toPathString_word word
  have bytes : (toPathString id).utf8ByteSize = 20 := by
    rw [← @String.ofList_toList (toPathString id), utf8ByteSize_digits digits, length]
  have value : Nat.ofDigitChars 10 (toPathString id).toList 0 = id := ofDigitChars_padded 20 id
  have nonempty : (toPathString id).toList ≠ [] := by
    intro empty
    rw [empty] at length
    cases length
  rw [fromPathString, if_neg (not_not.mpr bytes),
    parseU64_digits nonempty digits (by rw [value]; exact word), value]

theorem toPathString_lt_iff {a b : Nat} (left : a < 2 ^ 64) (right : b < 2 ^ 64) :
    toPathString a < toPathString b ↔ a < b := by
  have width : (toPathString a).toList.length = (toPathString b).toList.length := by
    rw [length_toPathString_word left, length_toPathString_word right]
  rw [String.lt_iff, ← ofDigitChars_lt_iff width (digits_toPathString a) (digits_toPathString b)]
  have value : ∀ id, Nat.ofDigitChars 10 (toPathString id).toList 0 = id := ofDigitChars_padded 20
  rw [value, value]

end ManifestId

/-- The operations of a storage that loading a manifest uses. -/
structure StorageBackend (σ : Type) where
  get : String → σ → FlushResult (List UInt8)
  conditionalPut : String → List UInt8 → σ → Except Unfinished Unit × σ
  listPrefix : String → σ → Except Unfinished (List String)

namespace StorageBackend
variable {σ : Type} (backend : StorageBackend σ) (codec : ManifestCodec) (base ns : String)

def storeFirst (nowMs : Nat) (s : σ) : Except Unfinished Manifest × σ :=
  let manifest := Manifest.newEmpty ns nowMs
  let path := manifestPath base ns 0
  match codec.serialize manifest with
  | .error e => (.error (some e), s)
  | .ok data =>
    match backend.conditionalPut path data s with
    | (.ok (), s) => (.ok manifest, s)
    | (.error (some (.preconditionFailed _)), s) =>
      (((backend.get path s).bind codec.deserialize).mapError some, s)
    | (.error e, s) => (.error e, s)

def loadManifest (id : Nat) (s : σ) : Except Unfinished Manifest :=
  match (backend.get (manifestPath base ns id) s).bind codec.deserialize with
  | .error e => .error (some e)
  | .ok manifest =>
    if manifest.formatVersion ≠ 1 then
      .error (some (.corruptedData s!"unsupported manifest format_version: {manifest.formatVersion}"))
    else .ok manifest

def loadLatest (nowMs : Nat) (s : σ) : Except Unfinished Manifest × σ :=
  match backend.listPrefix (manifestPrefix base ns) s with
  | .error e => (.error e, s)
  | .ok entries =>
    match entries.getLast? with
    | none => backend.storeFirst codec base ns nowMs s
    | some lastPath =>
      match ManifestId.fromPathString (fileName lastPath) with
      | .error e => (.error (some e), s)
      | .ok highestId => (backend.loadManifest codec base ns highestId s, s)

end StorageBackend

/-- A local directory that no fault befalls. -/
def LocalFsBackend.backend (b : LocalFsBackend) : StorageBackend LocalFiles where
  get := b.get
  conditionalPut := b.conditionalPut none
  listPrefix start t := .ok (b.listPrefix start t)

theorem LocalFsBackend.storeFirst_eq (b : LocalFsBackend) (codec : ManifestCodec) (base ns : String)
    (nowMs : Nat) (t : LocalFiles) :
    b.storeFirst codec base ns nowMs t = b.backend.storeFirst codec base ns nowMs t := by
  have puts : ∀ path data, b.backend.conditionalPut path data t =
      b.conditionalPut none path data t := fun _ _ => rfl
  have reads : ∀ path u, b.backend.get path u = b.get path u := fun _ _ => rfl
  unfold LocalFsBackend.storeFirst StorageBackend.storeFirst
  dsimp only
  cases codec.serialize (Manifest.newEmpty ns nowMs) with
  | error e => rfl
  | ok data =>
    dsimp only
    simp only [puts, reads]
    rcases b.conditionalPut none (manifestPath base ns 0) data t with ⟨result, u⟩
    rcases result with (_ | e) | _
    · rfl
    · cases e <;> rfl
    · rfl

theorem LocalFsBackend.loadLatest_eq (b : LocalFsBackend) (codec : ManifestCodec) (base ns : String)
    (nowMs : Nat) (t : LocalFiles) :
    b.loadLatest codec base ns nowMs t = b.backend.loadLatest codec base ns nowMs t := by
  have listed : b.backend.listPrefix (manifestPrefix base ns) t =
      .ok (b.listPrefix (manifestPrefix base ns) t) := rfl
  have reads : ∀ id, b.backend.get (manifestPath base ns id) t =
      b.get (manifestPath base ns id) t := fun _ => rfl
  rw [LocalFsBackend.loadLatest, StorageBackend.loadLatest, listed]
  dsimp only
  cases (b.listPrefix (manifestPrefix base ns) t).getLast? with
  | none => exact b.storeFirst_eq codec base ns nowMs t
  | some last =>
    dsimp only
    cases ManifestId.fromPathString (fileName last) with
    | error e => rfl
    | ok highest =>
      dsimp only
      unfold StorageBackend.loadManifest
      rw [reads]
      cases (b.get (manifestPath base ns highest) t).bind codec.deserialize with
      | error e => rfl
      | ok manifest =>
        dsimp only
        split <;> rfl

theorem LocalFsBackend.listPrefix_sorted (b : LocalFsBackend) (start : String) (t : LocalFiles) :
    (b.listPrefix start t).Pairwise (· ≤ ·) := List.pairwise_insertionSort _ _

section Listing
variable {base ns : String} {listing : List String}

theorem fileName_manifestPath (base ns : String) (id : Nat) :
    fileName (manifestPath base ns id) = ManifestId.toPathString id := by
  have clean : ∀ c ∈ (ManifestId.toPathString id).toList.reverse, decide (c ≠ '/') = true := by
    intro c member
    refine decide_eq_true fun slash => ?_
    have digit := ManifestId.digits_toPathString id c (List.mem_reverse.mp member)
    rw [slash] at digit
    cases digit
  obtain ⟨front, directory⟩ : ∃ front, (manifestPrefix base ns).toList = front ++ ['/'] :=
    ⟨base.toList ++ '/' :: (ns.toList ++ "/manifests".toList), by
      rw [manifestPrefix_toList, show "/manifests/".toList = "/manifests".toList ++ ['/'] from rfl]
      simp⟩
  rw [fileName, manifestPath, String.toList_append, directory, List.append_assoc,
    List.singleton_append, List.reverse_append,
    List.reverse_cons, List.append_assoc, List.takeWhile_append_of_pos clean, List.singleton_append,
    List.takeWhile_cons_of_neg (by decide), List.append_nil, List.reverse_reverse, String.ofList_toList]

/-- The directory before the names does not change their order. -/
theorem manifestPath_lt_iff (base ns : String) {a b : Nat} (left : a < 2 ^ 64)
    (right : b < 2 ^ 64) :
    manifestPath base ns a < manifestPath base ns b ↔ a < b := by
  rw [← ManifestId.toPathString_lt_iff left right, String.lt_iff, String.lt_iff, manifestPath,
    manifestPath, String.toList_append,
    String.toList_append, append_lt_append_iff]

/-- The last of a sorted listing of manifests has the highest number. -/
theorem last_listed (sorted : listing.Pairwise (· ≤ ·))
    (stored : ∀ path ∈ listing, ∃ id < 2 ^ 64, path = manifestPath base ns id)
    (nonempty : listing ≠ []) :
    ∃ highest < 2 ^ 64, listing.getLast? = some (manifestPath base ns highest) ∧
      ∀ id < 2 ^ 64, manifestPath base ns id ∈ listing → id ≤ highest := by
  obtain ⟨front, last, rfl⟩ := (List.eq_nil_or_concat' listing).resolve_left nonempty
  obtain ⟨highest, word, rfl⟩ := stored last List.mem_concat_self
  refine ⟨highest, word, List.getLast?_concat, ?_⟩
  intro id fits member
  rcases List.mem_append.mp member with before | here
  · have ordered := (List.pairwise_append.mp sorted).2.2 _ before _ (List.mem_singleton_self _)
    exact not_lt.mp fun higher => String.not_le.mpr ((manifestPath_lt_iff base ns word fits).mpr higher) ordered
  · have same := congrArg fileName (List.mem_singleton.mp here)
    have numbers := congrArg ManifestId.fromPathString same
    rw [fileName_manifestPath, fileName_manifestPath, ManifestId.fromPathString_toPathString fits,
      ManifestId.fromPathString_toPathString word] at numbers
    exact (Except.ok.inj numbers).le

theorem loadLatest_last {σ : Type} {backend : StorageBackend σ} {s : σ} {highest : Nat}
    (codec : ManifestCodec) (nowMs : Nat)
    (listed : backend.listPrefix (manifestPrefix base ns) s = .ok listing)
    (last : listing.getLast? = some (manifestPath base ns highest)) (word : highest < 2 ^ 64) :
    backend.loadLatest codec base ns nowMs s = (backend.loadManifest codec base ns highest s, s) := by
  rw [StorageBackend.loadLatest, listed]
  dsimp only
  rw [last]
  dsimp only
  rw [fileName_manifestPath, ManifestId.fromPathString_toPathString word]

/-- Numbers come back from their names, names are in the order of the numbers, and of a sorted
listing of manifests the one with the highest number is loaded. -/
theorem manifestNames_spec (base ns : String) :
    (∀ id < 2 ^ 64, ManifestId.fromPathString (ManifestId.toPathString id) = .ok id) ∧
      (∀ a < 2 ^ 64, ∀ b < 2 ^ 64, (ManifestId.toPathString a < ManifestId.toPathString b ↔ a < b)) ∧
        ∀ (σ : Type) (backend : StorageBackend σ) (s : σ) (listing : List String)
          (codec : ManifestCodec) (nowMs : Nat),
          backend.listPrefix (manifestPrefix base ns) s = .ok listing → listing.Pairwise (· ≤ ·) →
            listing ≠ [] →
          (∀ path ∈ listing, ∃ id < 2 ^ 64, path = manifestPath base ns id) →
            ∃ highest < 2 ^ 64, listing.getLast? = some (manifestPath base ns highest) ∧
              (∀ id < 2 ^ 64, manifestPath base ns id ∈ listing → id ≤ highest) ∧
              backend.loadLatest codec base ns nowMs s =
                (backend.loadManifest codec base ns highest s, s) := by
  refine ⟨fun id word => ManifestId.fromPathString_toPathString word,
    fun a left b right => ManifestId.toPathString_lt_iff left right, ?_⟩
  intro σ backend s listing codec nowMs listed sorted nonempty stored
  obtain ⟨highest, word, last, most⟩ := last_listed sorted stored nonempty
  exact ⟨highest, word, last, most, loadLatest_last codec nowMs listed last word⟩

/-- The storage has the manifests of the bucket under their names, and nothing beside them. -/
structure StorageBackend.Holds {σ : Type} (backend : StorageBackend σ) (codec : ManifestCodec)
    (base ns : String) (s : σ) (bucket : ObjectStore Nat Manifest) : Prop where
  listed : backend.listPrefix (manifestPrefix base ns) s = .ok (bucket.keys.map (manifestPath base ns))
  reads : ∀ id m, bucket.get id = some m → (backend.get (manifestPath base ns id) s).bind
    codec.deserialize = .ok m
  words : ∀ id ∈ bucket.keys, id < 2 ^ 64

/-- The newest manifest of a bucket is what is loaded of the storage that holds it. -/
theorem StorageBackend.Holds.loadLatest {σ : Type} {backend : StorageBackend σ}
    {codec : ManifestCodec} {s : σ} {bucket : ObjectStore Nat Manifest}
    (holds : backend.Holds codec base ns s bucket) {m : Manifest}
    (newest : ManifestBucket.newest bucket = some m) (format : m.formatVersion = 1) (nowMs : Nat) :
    backend.loadLatest codec base ns nowMs s = (.ok m, s) := by
  obtain ⟨id, last, found⟩ := Option.bind_eq_some_iff.mp newest
  have ends : (bucket.keys.map (manifestPath base ns)).getLast? = some (manifestPath base ns id) := by
    rw [List.getLast?_map, last, Option.map_some]
  rw [loadLatest_last codec nowMs holds.listed ends (holds.words id (List.mem_of_getLast? last)),
    StorageBackend.loadManifest,
    holds.reads id m found]
  dsimp only
  rw [if_neg (not_not.mpr format)]

end Listing

section Example

def homeBackend : LocalFsBackend := ⟨["home"]⟩

/-- The manifests nine and ten are stored, the higher one first. -/
def nineAndTen : LocalFiles :=
  (homeBackend.conditionalPut none (manifestPath "flushdb" "n" 9) [123, 125]
    (homeBackend.conditionalPut none (manifestPath "flushdb" "n" 10) [123, 125] {}).2).2

/-- Every file is read as an empty manifest. -/
def emptyCodec : ManifestCodec where
  serialize _ := .ok [123, 125]
  deserialize _ := .ok (Manifest.newEmpty "n" 0)

theorem nineAndTen_loads : ∃ highest, 10 ≤ highest ∧
    homeBackend.backend.loadLatest emptyCodec "flushdb" "n" 0 nineAndTen =
    (homeBackend.backend.loadManifest emptyCodec "flushdb" "n" highest nineAndTen, nineAndTen) := by
  have listed : homeBackend.listPrefix (manifestPrefix "flushdb" "n") nineAndTen =
      [manifestPath "flushdb" "n" 9, manifestPath "flushdb" "n" 10] := by decide +kernel
  have sorted := homeBackend.listPrefix_sorted (manifestPrefix "flushdb" "n") nineAndTen
  rw [listed] at sorted
  have stored : ∀ path ∈ [manifestPath "flushdb" "n" 9, manifestPath "flushdb" "n" 10],
      ∃ id < 2 ^ 64, path = manifestPath "flushdb" "n" id := by
    intro path member
    rcases List.mem_cons.mp member with rfl | later
    · exact ⟨9, by decide, rfl⟩
    · exact ⟨10, by decide, List.mem_singleton.mp later⟩
  obtain ⟨highest, -, -, most, loads⟩ := (manifestNames_spec "flushdb" "n").2.2 LocalFiles
    homeBackend.backend nineAndTen _ emptyCodec 0
    (congrArg Except.ok listed) sorted (by decide) stored
  exact ⟨highest, most 10 (by decide) (by decide), loads⟩

end Example

end FlushDB
