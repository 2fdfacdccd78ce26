import FlushDB.Engine.DeadObjects
import FlushDB.Storage.LocalStore
import FlushDB.Storage.ManifestNames

/-!
The local directory serves the storage trait. Whatever fails or ends a call, but for a conditional
put that has created its file, the call has been done as documented or not at all, and the directory
goes on standing for a store of objects. The keys of an engine are a space of such keys.
-/

namespace FlushDB
open Lib

section Serving
variable {space : KeySpace} {b : LocalFsBackend} {t : LocalFiles} {objects : Objects}
  {names : List String}

theorem PutFault.answer_uncertain (fault : PutFault) (call : String) :
    StorageCall.Uncertain (fault.answer call) := by
  unfold PutFault.answer
  split
  · rintro err ⟨⟩
  · rintro err same
    exact ⟨call, (Option.some.inj same).symm⟩

theorem ReplaceFault.answer_uncertain (fault : ReplaceFault) (call : String) :
    StorageCall.Uncertain (fault.answer call) := by
  unfold ReplaceFault.answer
  split
  · rintro err ⟨⟩
  · rintro err same
    exact ⟨call, (Option.some.inj same).symm⟩

theorem io_uncertain (message : String) : StorageCall.Uncertain (some (.io message)) :=
  fun _ same => ⟨message, (Option.some.inj same).symm⟩

theorem none_uncertain : StorageCall.Uncertain none := by
  rintro err ⟨⟩

theorem createDirAll_uncertain {fault : Option PutFault} {paths : List (List String)}
    {e : Unfinished} (failed : (LocalFsBackend.createDirAll fault paths t).1 = .error e) :
    StorageCall.Uncertain e := by
  induction paths generalizing t with
  | nil => cases failed
  | cons path rest ih =>
    unfold LocalFsBackend.createDirAll at failed
    split at failed
    · exact ih failed
    · cases failed
      exact io_uncertain _
    · split at failed
      · rename_i f _
        cases failed
        exact f.answer_uncertain _
      · exact ih failed

/-- The directories of a key can be made, unless one fails. -/
theorem Mirrors.createDirAll (h : Mirrors space b t objects) (own : space.own names)
    (fault : Option PutFault) :
    ∃ result made, LocalFsBackend.createDirAll fault (parents (resolve b.baseDir ++ names)) t =
      (result, made) ∧
      Mirrors space b made objects ∧ (∀ e, result = .error e → StorageCall.Uncertain e) ∧
        (fault = none → result = .ok ()) := by
  have more := createDirAll_more fault (· ∈ parents (resolve b.baseDir ++ names))
    (fun _ member => member) t
  refine ⟨_, _, (Prod.eta _).symm, h.more own more, fun e => createDirAll_uncertain, ?_⟩
  rintro rfl
  rw [@createDirAll_answer none
    (by rintro f ⟨⟩), ← blocked_eq_any, h.clear names own, if_neg Bool.false_ne_true]

theorem put_promised (h : Mirrors space b t objects) (own : space.own names)
    (fault : Option ReplaceFault) (uuid : String) (value : List UInt8) :
    ∃ after, StorageSpec objects (.put (keyText names) value, fault.isNone)
      ((b.put fault uuid (keyText names) value t).1.map fun _ => .done) after ∧
      Mirrors space b (b.put fault uuid (keyText names) value t).2 after := by
  obtain ⟨result, made, dirs, h, uncertain, sound⟩ :=
    h.createDirAll own (fault.bind ReplaceFault.directory)
  have written := h.write_temp own uuid value
  have replaced := (written.remove_temp own uuid).write own value
  have documented : (StorageCall.put (keyText names) value).documented objects =
      .ok (.done, objects.put (keyText names) value) := rfl
  unfold LocalFsBackend.put
  dsimp only
  rw [fullPath_keyText b (space.nonempty names own) (space.plain names own), dirs]
  cases result with
  | error e =>
    refine ⟨objects, ⟨.undone (uncertain e rfl), fun undisturbed => ?_⟩, h⟩
    cases fault with
    | none => cases sound rfl
    | some f => cases undisturbed
  | ok done =>
    dsimp only
    rw [if_neg (Mirrors.path_ne_nil own), h.temp_free own uuid, if_neg Bool.false_ne_true]
    cases fault with
    | none =>
      unfold LocalFsBackend.renameOver
      dsimp only
      rw [written.target_free own, if_neg Bool.false_ne_true]
      exact ⟨_, .of_answered (.served documented), replaced⟩
    | some f =>
      obtain ⟨step, ended⟩ := f
      have undone : ∀ {e u}, StorageCall.Uncertain e → Mirrors space b u objects → ∃ after,
          StorageSpec objects (.put (keyText names) value, false) (.error e) after ∧
            Mirrors space b u after :=
        fun uncertain left => ⟨objects, ⟨.undone uncertain, nofun⟩, left⟩
      cases step with
      | createDir path =>
        unfold LocalFsBackend.renameOver
        dsimp only
        rw [written.target_free own, if_neg Bool.false_ne_true]
        exact ⟨_, .of_answered (.served documented), replaced⟩
      | create => exact undone (ReplaceFault.answer_uncertain _ _) h
      | write count => exact undone (ReplaceFault.answer_uncertain _ _) (h.write_temp own uuid _)
      | rename removed =>
        refine undone (ReplaceFault.answer_uncertain _ _) ?_
        unfold LocalFsBackend.renameOver
        dsimp only
        split
        · exact written.remove_temp own uuid
        · exact written
      | reply =>
        unfold LocalFsBackend.renameOver
        dsimp only
        rw [written.target_free own, if_neg Bool.false_ne_true]
        exact ⟨_, ⟨.done none_uncertain documented, nofun⟩, replaced⟩

theorem delete_promised (h : Mirrors space b t objects) (own : space.own names)
    (stop : Option RemoveStop) :
    ∃ after, StorageSpec objects (.delete (keyText names), stop.isNone)
      ((b.delete stop (keyText names) t).1.map fun _ => .done) after ∧
      Mirrors space b (b.delete stop (keyText names) t).2 after := by
  have documented : (StorageCall.delete (keyText names)).documented objects =
      .ok (.done, objects.delete (keyText names)) := rfl
  have absent : objects.get (keyText names) = none → objects.delete (keyText names) = objects :=
    ObjectStore.delete_absent
  unfold LocalFsBackend.delete
  rw [fullPath_keyText b (space.nonempty names own) (space.plain names own), h.stored names own,
    h.clear names own]
  cases stop with
  | some stop =>
    cases stop with
    | failed => exact ⟨objects, ⟨.undone (io_uncertain _), nofun⟩, h⟩
    | before => exact ⟨objects, ⟨.undone none_uncertain, nofun⟩, h⟩
    | after =>
      cases found : objects.get (keyText names) with
      | none => exact ⟨objects, ⟨.undone none_uncertain, nofun⟩, h⟩
      | some value => exact ⟨_, ⟨.done none_uncertain documented, nofun⟩, h.remove own⟩
  | none =>
    cases found : objects.get (keyText names) with
    | none => exact ⟨_, .of_answered (.served documented), (absent found).symm ▸ h⟩
    | some value => exact ⟨_, .of_answered (.served documented), h.remove own⟩

theorem conditionalPut_promised (h : Mirrors space b t objects) (own : space.own names)
    {fault : Option PutFault} (early : ∀ f ∈ fault, f.step.late = false) (value : List UInt8) :
    ∃ after, StorageSpec objects (.conditionalPut (keyText names) value, fault.isNone)
      ((b.conditionalPut fault (keyText names) value t).1.map fun _ => .done) after ∧
      Mirrors space b (b.conditionalPut fault (keyText names) value t).2 after := by
  obtain ⟨result, made, dirs, h, uncertain, sound⟩ := h.createDirAll own fault
  rw [← fullPath_keyText b (space.nonempty names own) (space.plain names own)] at dirs
  cases result with
  | error e =>
    have put : b.conditionalPut fault (keyText names) value t = (.error e, made) := by
      unfold LocalFsBackend.conditionalPut
      dsimp only
      rw [dirs]
    rw [put]
    refine ⟨objects, ⟨.undone (uncertain e rfl), fun undisturbed => ?_⟩, h⟩
    cases fault with
    | none => cases sound rfl
    | some f => cases undisturbed
  | ok done =>
    rw [conditionalPut_made dirs, fullPath_keyText b (space.nonempty names own) (space.plain names own)]
    split
    · rename_i f opening
      refine ⟨objects, ⟨.undone (f.answer_uncertain _), fun undisturbed => ?_⟩, h⟩
      rw [Option.isNone_iff_eq_none.mp undisturbed] at opening
      cases opening
    · rw [h.stored names own, Option.isSome_map]
      cases found : objects.get (keyText names) with
      | some old =>
        have documented : (StorageCall.conditionalPut (keyText names) value).documented objects =
            .error .taken := by
          rw [StorageCall.documented, found]
          rfl
        exact ⟨objects, .of_answered (.refused documented ⟨_, rfl⟩), h⟩
      | none =>
        have documented : (StorageCall.conditionalPut (keyText names) value).documented objects =
            .ok (.done, objects.put (keyText names) value) := by
          rw [StorageCall.documented, found]
          rfl
        have created := (h.write own []).write own value
        have whole : LocalFsBackend.writeCreated fault (resolve b.baseDir ++ names) value
            (made.writeFile (resolve b.baseDir ++ names) []) =
              (.ok (), (made.writeFile (resolve b.baseDir ++ names) []).writeFile
                (resolve b.baseDir ++ names) value) := by
          unfold LocalFsBackend.writeCreated
          split
          · exact absurd (early _ rfl) (by simp [PutStep.late])
          · exact absurd (early _ rfl) (by simp [PutStep.late])
          · exact absurd (early _ rfl) (by simp [PutStep.late])
          · rfl
        rw [Option.isSome_none, if_neg Bool.false_ne_true, whole]
        refine ⟨_, .of_answered (.served documented), ?_⟩
        rw [← ObjectStore.put_put objects (keyText names) [] value]
        exact created

theorem get_promised (h : Mirrors space b t objects) (own : space.own names) (fails : Bool) :
    StorageSpec objects (.get (keyText names), !fails)
      (b.serve t (.get (keyText names) fails)).1 objects := by
  cases fails with
  | true => exact ⟨.undone (io_uncertain _), fun undisturbed => by cases undisturbed⟩
  | false =>
    show StorageSpec objects _ (((b.get (keyText names) t).mapError some).map .content) objects
    rw [LocalFsBackend.get, fullPath_keyText b (space.nonempty names own) (space.plain names own),
      h.read_eq own]
    apply StorageSpec.of_answered
    cases found : objects.get (keyText names) with
    | none =>
      have documented : (StorageCall.get (keyText names)).documented objects =
          .error (.missing (keyText names)) := by
        rw [StorageCall.documented, found]
      exact .refused documented rfl
    | some value =>
      have documented : (StorageCall.get (keyText names)).documented objects =
          .ok (.content value, objects) := by
        rw [StorageCall.documented, found]
      exact .served documented

theorem getRange_promised (h : Mirrors space b t objects) (own : space.own names)
    (offset length : Nat) (fails : Bool) :
    StorageSpec objects (.getRange (keyText names) offset length, !fails)
      (b.serve t (.getRange (keyText names) offset length fails)).1 objects := by
  cases fails with
  | true => exact ⟨.undone (io_uncertain _), fun undisturbed => by cases undisturbed⟩
  | false =>
    show StorageSpec objects _
      (((b.getRange (keyText names) offset length t).mapError some).map .content) objects
    rw [LocalFsBackend.getRange, fullPath_keyText b (space.nonempty names own)
      (space.plain names own), h.stored names own,
      h.clear names own]
    apply StorageSpec.of_answered
    cases found : objects.get (keyText names) with
    | none =>
      have documented : (StorageCall.getRange (keyText names) offset length).documented objects =
          .error (.missing (keyText names)) := by
        rw [StorageCall.documented, found]
      exact .refused documented rfl
    | some value =>
      have documented : (StorageCall.getRange (keyText names) offset length).documented objects =
          if length = 0 then .ok (.content [], objects)
          else if value.length ≤ offset then .error .beyond
          else .ok (.content ((value.drop offset).take length), objects) := by
        rw [StorageCall.documented, found]
      dsimp only [Option.map_some]
      by_cases zero : length = 0
      · rw [if_pos zero] at documented ⊢
        exact .served documented
      · rw [if_neg zero] at documented ⊢
        by_cases beyond : value.length ≤ offset
        · rw [if_pos beyond] at documented ⊢
          exact .refused documented (Or.inl ⟨_, rfl⟩)
        · rw [if_neg beyond] at documented ⊢
          -- a read stops at the end of the file in any case
          have whole : (value.drop offset).take (min length (value.length - offset)) =
              (value.drop offset).take length := by
            rw [List.take_eq_take_iff, List.length_drop]
            omega
          rw [whole]
          exact .served documented

end Serving

/-- The keys are of the space, and no conditional put stops after it has created its file. -/
def LocalCall.Within (space : KeySpace) : LocalCall → Prop
  | .put key _ _ _ | .get key _ | .getRange key _ _ _ | .delete key _ => space.Has key
  | .conditionalPut key _ fault => space.Has key ∧ ∀ f ∈ fault, f.step.late = false
  | .listPrefix _ _ => True

section Runs
variable {space : KeySpace} {b : LocalFsBackend} {t : LocalFiles} {objects : Objects}

/-- One call, whatever befalls it. -/
theorem serve_promised (h : Mirrors space b t objects) (call : LocalCall)
    (within : call.Within space) :
    ∃ after, StorageSpec objects (call.call, call.undisturbed) (b.serve t call).1 after ∧
      Mirrors space b (b.serve t call).2 after := by
  cases call with
  | put key value uuid fault =>
    obtain ⟨names, own, rfl⟩ := within
    exact put_promised h own fault uuid value
  | get key fails =>
    obtain ⟨names, own, rfl⟩ := within
    exact ⟨objects, get_promised h own fails, h⟩
  | getRange key offset length fails =>
    obtain ⟨names, own, rfl⟩ := within
    exact ⟨objects, getRange_promised h own offset length fails, h⟩
  | delete key stop =>
    obtain ⟨names, own, rfl⟩ := within
    exact delete_promised h own stop
  | conditionalPut key value fault =>
    obtain ⟨⟨names, own, rfl⟩, early⟩ := within
    exact conditionalPut_promised h own early value
  | listPrefix start fails =>
    refine ⟨objects, ?_, h⟩
    cases fails with
    | true => exact ⟨.undone (io_uncertain _), fun undisturbed => by cases undisturbed⟩
    | false =>
      show StorageSpec objects _ (.ok (.keys (b.listPrefix start t))) objects
      rw [h.listed start]
      exact .of_answered (.served rfl)

theorem Mirrors.empty (space : KeySpace) (b : LocalFsBackend) :
    Mirrors space b {} ObjectStore.empty := by
  have bare : ∀ path : List String, path ≠ [] → FileTree.lookup ({} : LocalFiles) path = none :=
    fun path nonempty => if_neg nonempty
  refine ⟨?_, ?_, ?_, ?_, ?_⟩
  · exact fun names own => bare _ (path_ne_nil own)
  · intro key value found
    cases found
  · intro names own
    rw [blocked_eq_any, List.any_eq_false]
    intro front member file
    rw [FileTree.isFile, bare front (mem_parents.mp member).2.1] at file
    cases file
  · intro path content member
    cases member
  · intro names found
    by_cases root : resolve b.baseDir ++ names = []
    · rw [(List.append_eq_nil_iff.mp root).2]
      exact fun name member => absurd member List.not_mem_nil
    · rw [bare _ root] at found
      cases found

/-- From an empty directory on, calls are answered as the trait documents them. -/
theorem local_store_serves (space : KeySpace) (b : LocalFsBackend) {calls : List LocalCall}
    (within : ∀ call ∈ calls, call.Within space) :
    ∃ after, Allowed StorageSpec ObjectStore.empty
      (calls.map fun call => (call.call, call.undisturbed)) (answers b.serve {} calls).1 after ∧
      Mirrors space b (answers b.serve {} calls).2 after :=
  @answers_allowed _ _ _ _ _ b.serve StorageSpec (fun call => (call.call, call.undisturbed))
    (Mirrors space b) (LocalCall.Within space)
    (fun _ _ call held ok => serve_promised held call ok) {} ObjectStore.empty
      (Mirrors.empty space b) calls within

end Runs

section EngineKeys

/-- A character that is not a dot makes a name plain, as long as no slash comes after it. -/
theorem PlainName.of_first {name : String} {c : Char} {rest : List Char}
    (chars : name.toList = c :: rest) (dot : c ≠ '.') (clean : '/' ∉ name.toList) :
    PlainName name := by
  have other : ∀ text : String, text.toList.head? ≠ some c → name ≠ text := by
    rintro text first rfl
    exact first (by rw [chars, List.head?_cons])
  refine ⟨other "" nofun, clean, other "." ?_, other ".." ?_, ?_⟩
  · exact fun same => dot (Option.some.inj same).symm
  · exact fun same => dot (Option.some.inj same).symm
  · rw [chars, show ".tmp.".toList = '.' :: "tmp.".toList from rfl, List.isPrefixOf_cons_cons,
      beq_eq_false_iff_ne.mpr dot.symm,
      Bool.false_and]

/-- The ids of runs and of single tables are of letters and digits. -/
def PlainId (id : String) : Prop := id ≠ "" ∧ '/' ∉ id.toList ∧ '.' ∉ id.toList

def SstId.Plain : SstId → Prop
  | .single ulid => PlainId ulid
  | .fragment runId _ => PlainId runId

/-- The names that lead to a table. -/
def SstPath.names (ns : String) (path : SstPath) : List String :=
  ["flushdb", ns, "sstables", path.level.asStr] ++
    match path.file with
    | .single ulid => [ulid ++ ".sst"]
    | .fragment runId index => ["run-" ++ runId, "frag-" ++ SstId.pad4 index ++ ".sst"]

theorem SstPath.key_eq (ns : String) (path : SstPath) : path.key ns = keyText (path.names ns) := by
  obtain ⟨level, file⟩ := path
  apply String.toList_inj.mp
  cases file with
  | single ulid =>
    simp [SstPath.key, SstPath.names, keyText, toString, String.toList_append,
      String.intercalate_cons_cons]
  | fragment runId index =>
    simp [SstPath.key, SstPath.names, keyText, toString, String.toList_append,
      String.intercalate_cons_cons]

theorem manifestPath_eq (base ns : String) (id : Nat) :
    manifestPath base ns id = keyText [base, ns, "manifests", ManifestId.toPathString id] := by
  apply String.toList_inj.mp
  simp [manifestPath, manifestPrefix, keyText, String.toList_append, String.intercalate_cons_cons]

theorem PlainName.append {front back : String} {c : Char} (first : front.toList.head? = some c)
    (dot : c ≠ '.') (clean : '/' ∉ front.toList) (clean' : '/' ∉ back.toList) :
    PlainName (front ++ back) := by
  obtain ⟨rest, chars⟩ := List.head?_eq_some_iff.mp first
  refine .of_first (c := c) (by rw [String.toList_append, chars, List.cons_append]) dot ?_
  rw [String.toList_append, List.mem_append]
  exact not_or.mpr ⟨clean, clean'⟩

theorem PlainName.padded (width id : Nat) : PlainName
    ("".pushn '0' (width - (toString id).length) ++ toString id) := by
  have digits := digits_padded width id
  have some : ("".pushn '0' (width - (toString id).length) ++ toString id).toList ≠ [] := by
    rw [String.toList_append, Nat.toString_eq_repr, Nat.toList_repr]
    exact List.append_ne_nil_of_right_ne_nil _ Nat.toDigits_ne_nil
  obtain ⟨c, rest, chars⟩ := List.exists_cons_of_ne_nil some
  refine .of_first chars ?_ (slash_not_mem_padded width id)
  rintro rfl
  exact absurd (digits '.' (chars ▸ List.mem_cons_self)) (by decide)

variable {ns base : String} {path : SstPath}

theorem SstPath.plain_names (plain : path.file.Plain) (here : PlainName ns) :
    ∀ name ∈ path.names ns, PlainName name := by
  obtain ⟨level, file⟩ := path
  have dir : PlainName "flushdb" := .of_first (c := 'f') rfl (by decide) (by decide)
  have tables : PlainName "sstables" := .of_first (c := 's') rfl (by decide) (by decide)
  have depth : PlainName level.asStr := by
    cases level <;> exact .of_first (c := 'L') rfl (by decide) (by decide)
  cases file with
  | single ulid =>
    obtain ⟨some, clean, undotted⟩ := plain
    obtain ⟨c, rest, chars⟩ := List.exists_cons_of_ne_nil fun none => some (String.toList_inj.mp none)
    have last : PlainName (ulid ++ ".sst") := by
      refine .append (by rw [chars, List.head?_cons]) ?_ clean (by decide)
      rintro rfl
      exact undotted (chars ▸ List.mem_cons_self)
    simpa [SstPath.names] using ⟨dir, here, tables, depth, last⟩
  | fragment runId index =>
    obtain ⟨-, clean, -⟩ := plain
    have run : PlainName ("run-" ++ runId) := .append (c := 'r') rfl (by decide) (by decide) clean
    have last : PlainName ("frag-" ++ (SstId.pad4 index ++ ".sst")) := by
      refine .append (c := 'f') rfl (by decide) (by decide) ?_
      rw [String.toList_append, List.mem_append]
      exact not_or.mpr ⟨slash_not_mem_padded 4 index, by decide⟩
    rw [← String.append_assoc] at last
    simpa [SstPath.names] using ⟨dir, here, tables, depth, run, last⟩

theorem SstPath.length_names (path : SstPath) (ns : String) : (path.names ns).length =
    match path.file with
    | .single _ => 5
    | .fragment _ _ => 6 := by
  obtain ⟨level, file⟩ := path
  cases file with
  | single ulid => simp [SstPath.names]
  | fragment runId index => simp [SstPath.names]

/-- The name of a single table is not that of the directory of a run. -/
theorem SstPath.names_apart {other : SstPath} (plain' : other.file.Plain)
    (part : path.names ns <+: other.names ns) :
    path.names ns = other.names ns := by
  have width := path.length_names ns
  have width' := other.length_names ns
  obtain ⟨level, file⟩ := path
  obtain ⟨level', file'⟩ := other
  cases file with
  | single ulid =>
    cases file' with
    | single ulid' => exact part.eq_of_length (width.trans width'.symm)
    | fragment runId index =>
      have same : level.asStr = level'.asStr ∧ ulid ++ ".sst" = "run-" ++ runId := by
        simpa [SstPath.names, List.cons_prefix_cons] using part
      have dotted : '.' ∈ ("run-" ++ runId).toList := by simp [← same.2, String.toList_append]
      rw [String.toList_append, List.mem_append] at dotted
      exact absurd dotted (not_or.mpr ⟨by decide, plain'.2.2⟩)
  | fragment runId index =>
    cases file' with
    | single ulid =>
      have long := part.length_le
      rw [width, width'] at long
      exact absurd long (Nat.not_succ_le_self 5)
    | fragment runId' index' => exact part.eq_of_length (width.trans width'.symm)

theorem manifest_apart {id : Nat} : ¬ [base, ns, "manifests", ManifestId.toPathString id] <+:
    path.names ns ∧
    ¬ path.names ns <+: [base, ns, "manifests", ManifestId.toPathString id] := by
  constructor <;> simp [SstPath.names, List.cons_prefix_cons]

/-- The manifests and the tables of a namespace. -/
def engineKeys (manifests : PlainName base) (here : PlainName ns) : KeySpace where
  own names := (∃ id, names = [base, ns, "manifests", ManifestId.toPathString id]) ∨
    ∃ path : SstPath, path.file.Plain ∧ names = path.names ns
  nonempty := by
    rintro names (⟨id, rfl⟩ | ⟨path, -, rfl⟩)
    · exact List.cons_ne_nil _ _
    · exact List.cons_ne_nil _ _
  plain := by
    rintro names (⟨id, rfl⟩ | ⟨path, plain, rfl⟩)
    · have last : PlainName (ManifestId.toPathString id) := .padded 20 id
      have dir : PlainName "manifests" := .of_first (c := 'm') rfl (by decide) (by decide)
      simpa using ⟨manifests, here, dir, last⟩
    · exact SstPath.plain_names plain here
  apart := by
    rintro names names' (⟨id, rfl⟩ | ⟨path, plain, rfl⟩) (⟨id', rfl⟩ | ⟨path', plain', rfl⟩) part
    · exact part.eq_of_length (by rw [List.length_cons, List.length_cons]; rfl)
    · exact absurd part manifest_apart.1
    · exact absurd part manifest_apart.2
    · exact SstPath.names_apart plain' part

theorem engineKeys_manifest (manifests : PlainName base) (here : PlainName ns) (id : Nat) :
    (engineKeys manifests here).Has (manifestPath base ns id) :=
      ⟨_, Or.inl ⟨id, rfl⟩, manifestPath_eq base ns id⟩

theorem engineKeys_table (manifests : PlainName base) (here : PlainName ns)
    (plain : path.file.Plain) :
    (engineKeys manifests here).Has (path.key ns) := ⟨_, Or.inr ⟨path, plain, rfl⟩, path.key_eq ns⟩

section Sample

theorem plain_flushdb : PlainName "flushdb" := .of_first (c := 'f') rfl (by decide) (by decide)

theorem plain_sample : PlainName "ns" := .of_first (c := 'n') rfl (by decide) (by decide)

/-- A manifest is created, a put of a table ends before its rename, one fails, one succeeds, and a
delete fails. -/
def servedCalls : List LocalCall :=
  [.conditionalPut (manifestPath "flushdb" "ns" 0) [1] none,
    .put (SstPath.key "ns" ⟨.L0, .single "a"⟩) [2, 3] "u"
      (some { step := .rename false, ended := true }),
    .put (SstPath.key "ns" ⟨.L0, .single "a"⟩) [2, 3] "v" (some { step := .write 1 }),
    .put (SstPath.key "ns" ⟨.L0, .single "a"⟩) [2, 3] "w" none,
    .getRange (SstPath.key "ns" ⟨.L0, .single "a"⟩) 1 9 false,
    .delete (SstPath.key "ns" ⟨.L0, .single "a"⟩) (some .failed),
    .conditionalPut (manifestPath "flushdb" "ns" 0) [4] none]

theorem servedCalls_within :
    ∀ call ∈ servedCalls, call.Within (engineKeys plain_flushdb plain_sample) := by
  have manifest := engineKeys_manifest plain_flushdb plain_sample 0
  have table : (engineKeys plain_flushdb plain_sample).Has (SstPath.key "ns" ⟨.L0, .single "a"⟩) :=
    engineKeys_table plain_flushdb plain_sample ⟨by decide, by decide, by decide⟩
  simp only [servedCalls, List.forall_mem_cons, LocalCall.Within]
  simp [manifest, table]

end Sample

end EngineKeys

theorem local_store_serves_engine :
    (∀ call ∈ servedCalls, call.Within (engineKeys plain_flushdb plain_sample)) ∧
    ∃ after, Allowed StorageSpec ObjectStore.empty
      (servedCalls.map fun call => (call.call, call.undisturbed))
        (answers (LocalFsBackend.mk ["data"]).serve {} servedCalls).1 after ∧
      Mirrors (engineKeys plain_flushdb plain_sample) ⟨["data"]⟩
        (answers (LocalFsBackend.mk ["data"]).serve {} servedCalls).2 after :=
  ⟨servedCalls_within, local_store_serves (engineKeys plain_flushdb plain_sample) ⟨["data"]⟩ servedCalls_within⟩

end FlushDB
