import FlushDB.Server.NamespaceManager

/-!
Isolation of namespaces. Beside a run of all namespaces stands the run of the operations on one of
them alone. As long as the configurations are apart, the two cannot be told apart through that
namespace: a partition finds the same manifests and the same log, and under the names it draws the
same tables.
-/

namespace FlushDB
open Lib

namespace ServerEnv

/-- The names of the tables that a partition makes. -/
def Owns (env : ServerEnv) (name : String) (partitionId : Nat) (id : SstId) : Prop :=
  ∃ k, id = .single (env.ulid name partitionId k) ∨
    ∃ fragment, id = .fragment (env.ulid name partitionId k) fragment

/-- No ULID is drawn twice. -/
def UniqueUlids (env : ServerEnv) : Prop :=
  ∀ {name other : String} {i j k l : Nat}, env.ulid name i k = env.ulid other j l → name = other ∧
    i = j ∧ k = l

variable {env : ServerEnv}

theorem draws (env : ServerEnv) (config : NamespaceConfig) (partitionId : Nat) :
    (env.engineEnv config partitionId).Draws (env.Owns config.name partitionId) :=
  fun k => ⟨⟨k, Or.inl rfl⟩, fun fragment => ⟨k, Or.inr ⟨fragment, rfl⟩⟩⟩

theorem owns_apart (unique : env.UniqueUlids) {name other : String} {i j : Nat} {id : SstId}
    (first : env.Owns name i id) (second : env.Owns other j id) : name = other ∧ i = j := by
  obtain ⟨k, rfl | ⟨f, rfl⟩⟩ := first
  · obtain ⟨l, same | ⟨g, same⟩⟩ := second
    · obtain ⟨names, ids, -⟩ := unique (SstId.single.inj same)
      exact ⟨names, ids⟩
    · cases same
  · obtain ⟨l, same | ⟨g, same⟩⟩ := second
    · cases same
    · obtain ⟨names, ids, -⟩ := unique (SstId.fragment.inj same).1
      exact ⟨names, ids⟩

end ServerEnv

namespace World
variable {own : SstId → Prop} {base : Tables} {w v : World}

theorem Beside.disk (h : Beside own base w v) : Stored.Beside own base w.disk v.disk := by
  have engine := h.engine
  unfold World.disk
  cases opened : w.engine with
  | none =>
    rw [opened] at engine
    cases beside : v.engine with
    | none => exact h.stored
    | some t =>
      rw [beside] at engine
      cases engine
  | some s =>
    rw [opened] at engine
    cases beside : v.engine with
    | none =>
      rw [beside] at engine
      cases engine
    | some t =>
      rw [beside] at engine
      cases engine with
      | some related =>
        obtain ⟨tables, rfl, shared, owned⟩ := related.split
        exact ⟨rfl, shared, owned.stored⟩

/-- What is kept in memory tells nothing of the others' tables. -/
theorem Beside.detached (h : Beside own base w v) :
    v.mapStored Stored.detached = w.mapStored Stored.detached := by
  obtain ⟨⟨frame, -, -⟩, engine, writes, acked⟩ := h
  unfold mapStored
  congr 1
  · rw [frame]
    rfl
  · cases opened : w.engine with
    | none =>
      rw [opened] at engine
      cases beside : v.engine with
      | none => rfl
      | some t =>
        rw [beside] at engine
        cases engine
    | some s =>
      rw [opened] at engine
      cases beside : v.engine with
      | none =>
        rw [beside] at engine
        cases engine
      | some t =>
        rw [beside] at engine
        cases engine with
        | some related =>
          obtain ⟨tables, rfl, -, -⟩ := related.split
          rfl

end World

namespace NamespaceManager

section
variable (env : ServerEnv) (configs : NamespaceConfig → Prop)

/-- Manifests lie only where a configuration puts them, and a partition knows of its own tables
only. -/
structure Kept (m : NamespaceManager) : Prop where
  registered : ∀ name c, m.namespaces.get name = some c → configs c ∧ c.name = name
  placed : ∀ object ∈ m.storage.manifests.objects, ∃ d j, configs d ∧ j < d.partitionCount ∧
    object.1.1 = d.manifestsAt j
  owned : ∀ c, configs c → ∀ i < c.partitionCount, ∀ id x,
    (m.storage.manifests.inside (c.manifestsAt i)).get id = some x → x.Owned (env.Owns c.name i)
  engines : ∀ name i s, (m.partitions name i).world.engine = some s → s.Owned (env.Owns name i)

/-- Two managers have the same under one name. -/
structure Same (name : String) (m m' : NamespaceManager) : Prop where
  namespaces : m'.namespaces.get name = m.namespaces.get name
  partitions : m'.partitions name = m.partitions name
  manifests : ∀ c, configs c → c.name = name → ∀ i < c.partitionCount,
    m'.storage.manifests.inside (c.manifestsAt i) = m.storage.manifests.inside (c.manifestsAt i)
  wal : ∀ c, configs c → c.name = name → ∀ i < c.partitionCount,
    m'.storage.wal (walDir env.baseDataDir name i) = m.storage.wal (walDir env.baseDataDir name i)
  tables : ∀ i path, env.Owns name i path.file →
    (m'.storage.tables (partitionNamespace i)).get path =
      (m.storage.tables (partitionNamespace i)).get path

structure Indistinct (name : String) (m m' : NamespaceManager) : Prop where
  left : Kept env configs m
  right : Kept env configs m'
  same : Same env configs name m m'

/-- Configurations of different names are apart. -/
def Apart : Prop := ∀ c d, configs c → configs d → c.name ≠ d.name → c.Separate env.baseDataDir d

end

variable {env : ServerEnv} {configs : NamespaceConfig → Prop} {name : String} {m m' : NamespaceManager}

theorem Same.refl (name : String) (m : NamespaceManager) : Same env configs name m m :=
  ⟨rfl, rfl, fun _ _ _ _ _ => rfl, fun _ _ _ _ _ => rfl, fun _ _ _ => rfl⟩

section Act
variable {c : NamespaceConfig} {i : Nat} (label : World.Label)

/-- What a partition sees of its storage in the two runs. -/
theorem loaded_beside (known : configs c) (bound : i < c.partitionCount)
    (alone : Kept env configs m') (same : Same env configs c.name m m') :
    World.Beside (env.Owns c.name i) (m.storage.tables (partitionNamespace i))
      ((m'.partitions c.name i).world.mapStored (m'.storage.load (env.place c i)))
      ((m.partitions c.name i).world.mapStored (m.storage.load (env.place c i))) := by
  have loads : ∀ s : Stored, Stored.Beside (env.Owns c.name i) (m.storage.tables (partitionNamespace i))
      (m'.storage.load (env.place c i) s) (m.storage.load (env.place c i) s) := by
    intro s
    refine ⟨?_, ⟨fun path mine => (same.tables i path mine).symm, fun _ _ => rfl⟩,
      alone.owned c known i bound⟩
    unfold Storage.load ServerEnv.place
    rw [same.manifests c known rfl i bound, same.wal c known rfl i bound]
  rw [same.partitions]
  refine ⟨loads _, ?_, rfl, rfl⟩
  unfold World.mapStored
  dsimp only
  have engines := alone.engines c.name i
  rw [same.partitions] at engines
  cases opened : (m.partitions c.name i).world.engine with
  | none => exact .none
  | some s =>
    obtain ⟨frame, shared, owned⟩ := loads s.toStored
    have extended := congrArg (fun stored : Stored => ({ s with toStored := stored } : Engine)) frame
    exact .some ⟨extended, shared, ⟨owned, (engines s opened).current⟩, (engines s opened).handles⟩

theorem turned_beside (known : configs c) (bound : i < c.partitionCount)
    (alone : Kept env configs m') (same : Same env configs c.name m m') :
    ∃ a x y, World.turn (env.engineEnv c i) label
      ((m'.partitions c.name i).world.mapStored (m'.storage.load (env.place c i))) = (a, x) ∧
      World.turn (env.engineEnv c i) label ((m.partitions c.name i).world.mapStored
        (m.storage.load (env.place c i))) = (a, y) ∧
      World.Beside (env.Owns c.name i) (m.storage.tables (partitionNamespace i)) x y :=
  World.turn_alike (env.draws c i) label _ _ (loaded_beside known bound alone same)

@[simp]
theorem setPartition_storage (m : NamespaceManager) (name : String) (i : Nat) (p : Partition) :
    (m.setPartition name i p).storage = m.storage := rfl

@[simp]
theorem save_manifests (storage : Storage) (c : NamespaceConfig) (i : Nat) (s : Stored) :
    (storage.save (env.place c i) s).manifests =
      storage.manifests.replace (c.manifestsAt i) s.manifests := rfl

@[simp]
theorem save_tables (storage : Storage) (c : NamespaceConfig) (i : Nat) (s : Stored) :
    (storage.save (env.place c i) s).tables = Function.update storage.tables
      (partitionNamespace i) s.tables := rfl

@[simp]
theorem save_wal (storage : Storage) (c : NamespaceConfig) (i : Nat) (s : Stored) :
    (storage.save (env.place c i) s).wal = Function.update storage.wal
      (walDir env.baseDataDir c.name i) s.wal := rfl

theorem setPartition_self (m : NamespaceManager) (name : String) (i : Nat) (p : Partition) :
    (m.setPartition name i p).partitions name i = p := by
  simp [setPartition]

theorem setPartition_ne (m : NamespaceManager) {name other : String} {i j : Nat} (p : Partition)
    (elsewhere : ¬ (other = name ∧ j = i)) :
    (m.setPartition name i p).partitions other j = m.partitions other j := by
  unfold setPartition
  by_cases here : other = name
  · subst other
    have apart : j ≠ i := fun index => elsewhere ⟨rfl, index⟩
    simp [apart]
  · simp [here]

theorem act_kept (apart : Apart env configs) (known : configs c) (bound : i < c.partitionCount)
    (kept : Kept env configs m) :
    Kept env configs (act env c i label m).2 := by
  obtain ⟨a, x, y, left, right, beside⟩ := turned_beside label known bound kept (Same.refl c.name m)
  obtain rfl : x = y := (Prod.mk.inj (left.symm.trans right)).2
  unfold act
  dsimp only
  rw [right]
  have disk := beside.disk
  refine ⟨kept.registered, ?_, ?_, ?_⟩
  · intro object member
    rcases ObjectStore.mem_replace member with here | old
    · exact ⟨c, i, known, bound, here⟩
    · exact kept.placed object old
  · intro d accepted j inside id manifest found
    have found : ((m.storage.manifests.replace (c.manifestsAt i) x.disk.manifests).inside
        (d.manifestsAt j)).get id = some manifest := found
    by_cases here : d.manifestsAt j = c.manifestsAt i
    · have names : d.name = c.name := by
        by_contra different
        refine (apart d c accepted known different j inside i bound).1.1 ?_
        exact here ▸ List.prefix_rfl
      rw [here, ObjectStore.inside_replace] at found
      rw [names, NamespaceConfig.manifestsAt_index here]
      exact disk.owned id manifest found
    · rw [ObjectStore.inside_replace_ne _ here] at found
      exact kept.owned d accepted j inside id manifest found
  · intro other j s opened
    by_cases here : other = c.name ∧ j = i
    · obtain ⟨rfl, rfl⟩ := here
      rw [setPartition_self] at opened
      obtain ⟨e, active, rfl⟩ := Option.map_eq_some_iff.mp opened
      have engine := beside.engine
      rw [active] at engine
      cases engine with
      | some related =>
        refine ⟨⟨?_, related.owned.current⟩, related.owned.handles⟩
        intro id manifest found
        cases found
    · rw [setPartition_ne _ _ here] at opened
      exact kept.engines other j s opened

/-- A step of another namespace changes nothing under this name. -/
theorem act_unseen (unique : env.UniqueUlids) (apart : Apart env configs) (known : configs c)
    (bound : i < c.partitionCount) (other : name ≠ c.name) :
    Unseen (Indistinct env configs name) (act env c i label) := by
  intro m m' h
  refine ⟨act_kept label apart known bound h.left, h.right, ?_⟩
  obtain ⟨a, x, y, left, right, beside⟩ := turned_beside label known bound h.left (Same.refl c.name m)
  unfold act
  dsimp only
  rw [right]
  obtain ⟨frame, shared, -⟩ := beside.disk
  refine ⟨h.same.namespaces, ?_, ?_, ?_, ?_⟩
  · rw [h.same.partitions]
    funext j
    exact (setPartition_ne _ _ fun here => other here.1).symm
  · intro d accepted named j inside
    have separate := apart d c accepted known (named ▸ other) j inside i bound
    rw [h.same.manifests d accepted named j inside]
    refine (ObjectStore.inside_replace_ne _ ?_ _).symm
    intro here
    have here : d.manifestsAt j = c.manifestsAt i := here
    refine separate.1.1 ?_
    exact here ▸ List.prefix_rfl
  · intro d accepted named j inside
    have separate := apart d c accepted known (named ▸ other) j inside i bound
    rw [h.same.wal d accepted named j inside]
    refine (Function.update_of_ne ?_ _ _).symm
    rw [← named]
    exact separate.2.2
  · intro j path mine
    rw [h.same.tables j path mine, setPartition_storage, save_tables]
    by_cases here : j = i
    · subst j
      rw [Function.update_self]
      refine (shared.others path ?_).symm
      intro also
      exact other (ServerEnv.owns_apart unique mine also).1
    · rw [Function.update_of_ne fun names => here (partitionNamespace_injective names)]

/-- A step of the namespace itself answers and stores the same in both runs. -/
theorem act_alike (apart : Apart env configs) (known : configs c) (bound : i < c.partitionCount) :
    Alike (Indistinct env configs c.name) (act env c i label) := by
  intro m m' h
  obtain ⟨a, x, y, left, right, beside⟩ := turned_beside label known bound h.right h.same
  refine ⟨a, (act env c i label m).2, (act env c i label m').2, ?_, ?_,
    act_kept label apart known bound h.left,
    act_kept label apart known bound h.right, ?_⟩
  · unfold act
    dsimp only
    rw [right]
  · unfold act
    dsimp only
    rw [left]
  unfold act
  dsimp only
  rw [left, right]
  obtain ⟨frame, shared, -⟩ := beside.disk
  refine ⟨h.same.namespaces, ?_, ?_, ?_, ?_⟩
  · funext j
    by_cases here : j = i
    · subst j
      rw [setPartition_self, setPartition_self, beside.detached, h.same.partitions]
    · rw [setPartition_ne _ _ fun also => here also.2, setPartition_ne _ _ fun also => here also.2]
      exact congrFun h.same.partitions j
  · intro d accepted named j inside
    rw [setPartition_storage, setPartition_storage, save_manifests, save_manifests]
    by_cases here : d.manifestsAt j = c.manifestsAt i
    · rw [here, ObjectStore.inside_replace, ObjectStore.inside_replace, frame]
    · rw [ObjectStore.inside_replace_ne _ here, ObjectStore.inside_replace_ne _ here,
        h.same.manifests d accepted named j inside]
  · intro d accepted named j inside
    rw [setPartition_storage, setPartition_storage, save_wal, save_wal]
    by_cases here : walDir env.baseDataDir c.name j = walDir env.baseDataDir c.name i
    · rw [here, Function.update_self, Function.update_self, frame]
    · rw [Function.update_of_ne here, Function.update_of_ne here, h.same.wal d accepted named j inside]
  · intro j path mine
    rw [setPartition_storage, setPartition_storage, save_tables, save_tables]
    by_cases here : j = i
    · subst j
      rw [Function.update_self, Function.update_self, shared.mine path mine]
    · have elsewhere : partitionNamespace j ≠ partitionNamespace i :=
        fun names => here (partitionNamespace_injective names)
      rw [Function.update_of_ne elsewhere, Function.update_of_ne elsewhere, h.same.tables j path mine]

end Act

section Listing
variable {c : NamespaceConfig} {i : Nat}

/-- What is listed for a partition belongs to a configuration of its namespace. -/
theorem listed_same (apart : Apart env configs) (known : configs c) (bound : i < c.partitionCount)
    (kept : Kept env configs m)
    (equal : ∀ d, configs d → d.name = c.name → ∀ j < d.partitionCount,
      m.storage.manifests.inside (d.manifestsAt j) = m'.storage.manifests.inside (d.manifestsAt j))
    {object : (String × Nat) × Manifest} (stored : object ∈ m.storage.manifests.objects)
    (listed : (c.manifestsAt i).toList <+: (object.1.1 ++ ManifestId.toPathString object.1.2).toList) :
    object ∈ m'.storage.manifests.objects := by
  obtain ⟨d, j, accepted, inside, place⟩ := kept.placed object stored
  have nested := NamespaceConfig.listed_inside listed
  rw [place] at nested
  have named : d.name = c.name := by
    by_contra different
    exact (apart c d known accepted (fun same => different same.symm) i bound j inside).1.1 nested
  obtain ⟨⟨directory, id⟩, manifest⟩ := object
  obtain rfl : directory = d.manifestsAt j := place
  exact ObjectStore.mem_inside.mp (equal d accepted named j inside ▸ ObjectStore.mem_inside.mpr stored)

/-- A listing shows a partition the same manifests in both runs. -/
theorem listManifests_same (apart : Apart env configs) (known : configs c)
    (bound : i < c.partitionCount) (h : Indistinct env configs c.name m m') :
    m'.storage.listManifests (c.manifestsAt i) = m.storage.listManifests (c.manifestsAt i) := by
  unfold Storage.listManifests
  have nodup : ∀ s : ObjectStore (String × Nat) Manifest, s.objects.Nodup :=
    fun s => s.unique.of_map
  have objects : (m'.storage.manifests.objects.filter fun object =>
        (c.manifestsAt i).toList.isPrefixOf (object.1.1 ++ ManifestId.toPathString object.1.2).toList).Perm
      (m.storage.manifests.objects.filter fun object =>
        (c.manifestsAt i).toList.isPrefixOf (object.1.1 ++ ManifestId.toPathString object.1.2).toList) := by
    refine (List.perm_ext_iff_of_nodup ((nodup _).filter _) ((nodup _).filter _)).mpr ?_
    intro object
    constructor
    · intro member
      obtain ⟨stored, listed⟩ := List.mem_filter.mp member
      refine List.mem_filter.mpr ⟨?_, listed⟩
      exact listed_same apart known bound h.right h.same.manifests stored
        (List.isPrefixOf_iff_prefix.mp listed)
    · intro member
      obtain ⟨stored, listed⟩ := List.mem_filter.mp member
      refine List.mem_filter.mpr ⟨?_, listed⟩
      exact listed_same apart known bound h.left (fun d accepted named j inside =>
        (h.same.manifests d accepted named j inside).symm) stored
        (List.isPrefixOf_iff_prefix.mp listed)
  refine List.Perm.eq_of_pairwise (fun a b _ _ first second => le_antisymm first second)
    (List.pairwise_insertionSort _ _)
    (List.pairwise_insertionSort _ _) ?_
  exact (List.perm_insertionSort _ _).trans ((objects.map _).trans (List.perm_insertionSort _ _).symm)

end Listing

section Operations
variable {c : NamespaceConfig} {i : Nat}

theorem Kept.setState (kept : Kept env configs m) (other : String) (j : Nat)
    (state : PartitionState) :
    Kept env configs (setState other j state m) := by
  refine ⟨kept.registered, kept.placed, kept.owned, ?_⟩
  intro name i s opened
  refine kept.engines name i s ?_
  rw [← opened]
  unfold NamespaceManager.setState
  by_cases here : name = other ∧ i = j
  · obtain ⟨rfl, rfl⟩ := here
    rw [setPartition_self]
  · rw [setPartition_ne _ _ here]

theorem Indistinct.setState (h : Indistinct env configs name m m') (j : Nat)
    (state : PartitionState) :
    Indistinct env configs name (setState name j state m) (setState name j state m') := by
  refine ⟨h.left.setState name j state, h.right.setState name j state, h.same.namespaces, ?_,
    h.same.manifests, h.same.wal, h.same.tables⟩
  simp only [NamespaceManager.setState, setPartition, Function.update_self, h.same.partitions]

theorem Indistinct.setState_other (h : Indistinct env configs name m m') {other : String}
    (different : name ≠ other) (j : Nat) (state : PartitionState) :
    Indistinct env configs name (NamespaceManager.setState other j state m) m' := by
  refine ⟨h.left.setState other j state, h.right, h.same.namespaces, ?_, h.same.manifests,
    h.same.wal, h.same.tables⟩
  rw [h.same.partitions]
  simp only [NamespaceManager.setState, setPartition, Function.update_of_ne different]

theorem Kept.register (kept : Kept env configs m) (known : configs c) :
    Kept env configs { m with namespaces := m.namespaces.put c.name c } :=
  ⟨ObjectStore.forall_put kept.registered ⟨known, rfl⟩, kept.placed, kept.owned, kept.engines⟩

theorem Kept.unregister (kept : Kept env configs m) (other : String) :
    Kept env configs { m with namespaces := m.namespaces.delete other } :=
  ⟨fun name d found => kept.registered name d (ObjectStore.get_of_delete found), kept.placed,
    kept.owned, kept.engines⟩

theorem eachPartition_alike {R : NamespaceManager → NamespaceManager → Prop}
    {f : Nat → NamespaceManager → Answer × NamespaceManager} {is : List Nat}
    (each : ∀ i ∈ is, Alike R (f i)) : Alike R (eachPartition f is) := by
  induction is with
  | nil => exact Alike.pure _
  | cons i rest ih =>
    intro s t h
    obtain ⟨a, u, v, left, right, next⟩ := each i List.mem_cons_self s t h
    have later := ih fun j member => each j (List.mem_cons_of_mem _ member)
    unfold eachPartition
    rw [left, right]
    match a with
    | some (.error e) => exact ⟨_, _, _, rfl, rfl, next⟩
    | some (.ok r) => exact later u v next
    | none => exact later u v next

theorem eachPartition_unseen {R : NamespaceManager → NamespaceManager → Prop}
    {f : Nat → NamespaceManager → Answer × NamespaceManager} {is : List Nat}
    (each : ∀ i ∈ is, Unseen R (f i)) : Unseen R (eachPartition f is) := by
  induction is with
  | nil => exact Unseen.pure _
  | cons i rest ih =>
    intro s t h
    have next := each i List.mem_cons_self s t h
    have later := ih fun j member => each j (List.mem_cons_of_mem _ member)
    unfold eachPartition
    split
    · rename_i e u taken
      rw [taken] at next
      exact next
    · rename_i u _ taken
      rw [taken] at next
      exact later u t next

theorem openPartition_alike (apart : Apart env configs) (known : configs c) (draw : OpenDraw)
    (bound : i < c.partitionCount) :
    Alike (Indistinct env configs c.name) (openPartition env c draw i) := by
  intro m m' h
  unfold openPartition
  dsimp only
  rw [listManifests_same apart known bound h, h.same.manifests c known rfl i bound]
  split
  · obtain ⟨a, u, v, left, right, next⟩ := act_alike
      (.openEngine draw.nowMs draw.fault) apart known bound m m' h
    rw [left, right]
    exact ⟨_, _, _, rfl, rfl, next.setState i .active⟩
  · split
    · exact ⟨_, _, _, rfl, rfl, h⟩
    · exact ⟨_, _, _, rfl, rfl, h⟩

theorem openPartition_unseen (unique : env.UniqueUlids) (apart : Apart env configs)
    (known : configs c) (draw : OpenDraw) (bound : i < c.partitionCount) (other : name ≠ c.name) :
    Unseen (Indistinct env configs name) (openPartition env c draw i) := by
  intro m m' h
  unfold openPartition
  dsimp only
  split
  · exact (act_unseen _ unique apart known bound other m m' h).setState_other other i .active
  · split
    · exact h
    · exact h

theorem dropPartitions_alike (apart : Apart env configs) (known : configs c)
    (torn : Nat → List MemtableEntry) (h : Indistinct env configs c.name m m') :
    Indistinct env configs c.name (dropPartitions env c torn m) (dropPartitions env c torn m') := by
  refine (eachPartition_alike ?_ |>.answers h).2
  intro i member m m' h
  obtain ⟨a, u, v, left, right, next⟩ := act_alike (.crash (torn i)) apart known
    (List.mem_range.mp member) m m' h
  unfold dropPartition
  rw [left, right]
  exact ⟨_, _, _, rfl, rfl, next⟩

theorem dropPartitions_unseen (unique : env.UniqueUlids) (apart : Apart env configs)
    (known : configs c) (torn : Nat → List MemtableEntry) (other : name ≠ c.name)
    (h : Indistinct env configs name m m') :
    Indistinct env configs name (dropPartitions env c torn m) m' := by
  refine eachPartition_unseen ?_ m m' h
  intro i member m m' h
  exact act_unseen (.crash (torn i)) unique apart known (List.mem_range.mp member) other m m' h

theorem stopPartition_alike (apart : Apart env configs) (known : configs c) (draw : Nat → FlushDraw)
    (bound : i < c.partitionCount) :
    Alike (Indistinct env configs c.name) (stopPartition env c draw i) := by
  intro m m' h
  obtain ⟨a, u, v, left, right, next⟩ := act_alike (.close draw) apart known bound m m' h
  unfold stopPartition
  rw [left, right]
  match a with
  | some (.error e) => exact ⟨_, _, _, rfl, rfl, next⟩
  | some (.ok r) => exact ⟨_, _, _, rfl, rfl, next.setState i .stopped⟩
  | none => exact ⟨_, _, _, rfl, rfl, next.setState i .stopped⟩

theorem stopPartition_unseen (unique : env.UniqueUlids) (apart : Apart env configs)
    (known : configs c) (draw : Nat → FlushDraw) (bound : i < c.partitionCount)
    (other : name ≠ c.name) :
    Unseen (Indistinct env configs name) (stopPartition env c draw i) := by
  intro m m' h
  have next := act_unseen (.close draw) unique apart known bound other m m' h
  unfold stopPartition
  split
  · rename_i e u taken
    rw [taken] at next
    exact next
  · rename_i u _ taken
    rw [taken] at next
    exact next.setState_other other i .stopped

end Operations

section Turns

/-- The configuration that a creation is accepted with. -/
def accepted (m : NamespaceManager) : Label → List NamespaceConfig
  | .createNamespace config _ =>
    if config.validate = .ok () ∧ (m.namespaces.get config.name).isSome = false then [config]
      else []
  | _ => []

section Views
variable {β : Type} {view : NamespaceManager → β}

theorem eachPartition_same {f : Nat → NamespaceManager → Answer × NamespaceManager}
    (each : ∀ i m, view (f i m).2 = view m) (is : List Nat) (m : NamespaceManager) :
    view (eachPartition f is m).2 = view m := by
  induction is generalizing m with
  | nil => rfl
  | cons i rest ih =>
    have here := each i m
    unfold eachPartition
    split
    · rename_i e u taken
      rw [taken] at here
      exact here
    · rename_i u _ taken
      rw [taken] at here
      exact (ih u).trans here

variable (acts : ∀ (c : NamespaceConfig) (i : Nat) (label : World.Label) (m : NamespaceManager),
    view (act env c i label m).2 = view m)
include acts

theorem dropPartitions_same (c : NamespaceConfig) (torn : Nat → List MemtableEntry)
    (m : NamespaceManager) :
    view (dropPartitions env c torn m) = view m := by
  have each : ∀ i m, view (dropPartition env c (torn i) i m).2 = view m :=
    fun i m => acts c i (.crash (torn i)) m
  exact eachPartition_same each _ m

variable (states : ∀ (name : String) (i : Nat) (state : PartitionState) (m : NamespaceManager),
    view (setState name i state m) = view m)
include states

theorem openPartition_same (c : NamespaceConfig) (draw : OpenDraw) (i : Nat)
    (m : NamespaceManager) :
    view (openPartition env c draw i m).2 = view m := by
  unfold openPartition
  dsimp only
  split
  · exact (states _ _ _ _).trans (acts _ _ _ _)
  · split <;> rfl

theorem stopPartition_same (c : NamespaceConfig) (draw : Nat → FlushDraw) (i : Nat)
    (m : NamespaceManager) :
    view (stopPartition env c draw i m).2 = view m := by
  have here := acts c i (.close draw) m
  unfold stopPartition
  split
  · rename_i e u taken
    rw [taken] at here
    exact here
  · rename_i u _ taken
    rw [taken] at here
    exact (states _ _ _ _).trans here

end Views

/-- A request is answered from the configuration and the state of its partition, or it is a step of
the partition's engine. -/
theorem call_cases (env : ServerEnv) (name : String) (i : Nat) (request : World.Label)
    (m : NamespaceManager) :
    (∃ a, ∀ m' : NamespaceManager, m'.namespaces.get name = m.namespaces.get name →
      m'.partitions name = m.partitions name →
      call env name i request m' = (a, m')) ∨
    ∃ config, m.namespaces.get name = some config ∧ i < config.partitionCount ∧
      ∀ m' : NamespaceManager, m'.namespaces.get name = m.namespaces.get name →
        m'.partitions name = m.partitions name →
        call env name i request m' = act env config i request m' := by
  cases found : m.namespaces.get name with
  | none =>
    refine Or.inl ⟨(call env name i request m).1, fun m' same _ => ?_⟩
    simp only [call, same, found]
  | some config =>
    by_cases outside : config.partitionCount ≤ i
    · refine Or.inl ⟨(call env name i request m).1, fun m' same _ => ?_⟩
      simp only [call, same, found, if_pos outside]
    cases request with
    | openEngine nowMs fault | crash torn | close draw =>
      refine Or.inl ⟨none, fun m' same _ => ?_⟩
      simp only [call, same, if_neg outside]
    | maybeFlush draw | runMaintenance aged draw | maybeCompact draw =>
      refine Or.inr ⟨config, rfl, not_le.mp outside, fun m' same _ => ?_⟩
      simp only [call, same, if_neg outside]
    | put recordId itemKey value metadata token draw
    | putBatch recordId items pressured late draws | delete recordId itemKey draw
    | deleteRange recordId startKey endKey draw =>
      by_cases writable : (m.partitions name i).isWritable
      · refine Or.inr ⟨config, rfl, not_le.mp outside, fun m' same partitions => ?_⟩
        simp only [call, same, if_neg outside, partitions, if_pos writable]
      · refine Or.inl ⟨some (.error (notAccepting i "writes" (m.partitions name i).state)),
          fun m' same partitions => ?_⟩
        simp only [call, same, if_neg outside, partitions, if_neg writable]

theorem turn_created (env : ServerEnv) (label : Label) (m : NamespaceManager) :
    (turn env label m).2.created = accepted m label ++ m.created := by
  have acts : ∀ c i label (m : NamespaceManager), (act env c i label m).2.created = m.created :=
    fun _ _ _ _ => rfl
  have states : ∀ name i state (m : NamespaceManager),
      (setState name i state m).created = m.created := fun _ _ _ _ => rfl
  cases label with
  | createNamespace config draws =>
    simp only [turn, createNamespace, accepted]
    split
    · rename_i invalid
      simp [invalid]
    · rename_i valid
      split
      · rename_i taken
        simp [taken]
      · rename_i free
        have opened := eachPartition_same (fun i m => openPartition_same acts states config (draws i) i m)
          (List.range config.partitionCount) { m with created := config :: m.created }
        rw [if_pos ⟨valid, Bool.eq_false_iff.mpr free⟩]
        split
        · rename_i e u result
          rw [result] at opened
          exact (dropPartitions_same acts config _ u).trans opened
        · rename_i u _ result
          rw [result] at opened
          exact opened
  | deleteNamespace name draws =>
    simp only [turn, deleteNamespace, accepted, List.nil_append]
    split
    · rfl
    · rename_i config _
      have stopped := eachPartition_same (fun i m => stopPartition_same acts states config (draws i) i m)
        (List.range config.partitionCount) m
      split
      · rename_i e u result
        rw [result] at stopped
        exact stopped
      · rename_i u _ result
        rw [result] at stopped
        exact (dropPartitions_same acts config _ _).trans stopped
  | call name i request =>
    show (call env name i request m).2.created = m.created
    rcases call_cases env name i request m with ⟨a, refused⟩ | ⟨config, -, -, acts⟩
    · rw [refused m rfl rfl]
    · rw [acts m rfl rfl]
      rfl
  | processEnds name torn =>
    simp only [turn, processEnds, accepted, List.nil_append]
    split
    · rfl
    · exact dropPartitions_same acts _ torn _

theorem createNamespace_alike (apart : Apart env configs) {config : NamespaceConfig}
    (draws : Nat → OpenDraw)
    (accept : config.validate = .ok () → (m.namespaces.get config.name).isSome = false → configs config)
    (h : Indistinct env configs config.name m m') :
    ∃ a u v, createNamespace env config draws m = (a, u) ∧
      createNamespace env config draws m' = (a, v) ∧
      Indistinct env configs config.name u v := by
  unfold createNamespace
  rw [h.same.namespaces]
  split
  · exact ⟨_, _, _, rfl, rfl, h⟩
  · rename_i valid
    split
    · exact ⟨_, _, _, rfl, rfl, h⟩
    · rename_i free
      have known : configs config := accept valid (Bool.eq_false_iff.mpr free)
      have start : Indistinct env configs config.name { m with created := config :: m.created }
          { m' with created := config :: m'.created } :=
        ⟨⟨h.left.registered, h.left.placed, h.left.owned, h.left.engines⟩,
          ⟨h.right.registered, h.right.placed, h.right.owned, h.right.engines⟩,
          ⟨h.same.namespaces, h.same.partitions, h.same.manifests, h.same.wal, h.same.tables⟩⟩
      obtain ⟨a, u, v, left, right, next⟩ := eachPartition_alike
        (fun i member => openPartition_alike apart known (draws i) (List.mem_range.mp member)) _ _ start
      rw [left, right]
      match a with
      | some (.error e) => exact ⟨_, _, _, rfl, rfl, dropPartitions_alike apart known _ next⟩
      | some (.ok _) | none =>
        refine ⟨_, _, _, rfl, rfl, next.left.register known, next.right.register known, ?_,
          next.same.partitions,
          next.same.manifests, next.same.wal, next.same.tables⟩
        rw [ObjectStore.get_put_self, ObjectStore.get_put_self]

theorem Indistinct.unregister (h : Indistinct env configs name m m') :
    Indistinct env configs name { m with namespaces := m.namespaces.delete name }
      { m' with namespaces := m'.namespaces.delete name } := by
  refine ⟨h.left.unregister name, h.right.unregister name, ?_, h.same.partitions, h.same.manifests,
    h.same.wal, h.same.tables⟩
  rw [ObjectStore.get_delete_self, ObjectStore.get_delete_self]

theorem deleteNamespace_alike (apart : Apart env configs) (draws : Nat → Nat → FlushDraw) :
    Alike (Indistinct env configs name) (deleteNamespace env name draws) := by
  intro m m' h
  unfold deleteNamespace
  rw [h.same.namespaces]
  cases found : m.namespaces.get name with
  | none => exact ⟨_, _, _, rfl, rfl, h⟩
  | some config =>
    obtain ⟨known, rfl⟩ := h.left.registered name config found
    obtain ⟨a, u, v, left, right, next⟩ := eachPartition_alike
      (fun i member => stopPartition_alike apart known (draws i) (List.mem_range.mp member)) _ _ h
    dsimp only
    rw [left, right]
    match a with
    | some (.error e) => exact ⟨_, _, _, rfl, rfl, next⟩
    | some (.ok _) | none =>
      exact ⟨_, _, _, rfl, rfl, dropPartitions_alike apart known _ next.unregister⟩

theorem call_alike (apart : Apart env configs) (i : Nat) (request : World.Label) :
    Alike (Indistinct env configs name) (call env name i request) := by
  intro m m' h
  rcases call_cases env name i request m with ⟨a, refused⟩ | ⟨config, found, inside, acts⟩
  · exact ⟨a, m, m', refused m rfl rfl, refused m' h.same.namespaces h.same.partitions, h⟩
  · obtain ⟨known, rfl⟩ := h.left.registered name config found
    rw [acts m rfl rfl, acts m' h.same.namespaces h.same.partitions]
    exact act_alike request apart known inside m m' h

theorem processEnds_alike (apart : Apart env configs) (torn : Nat → List MemtableEntry) :
    Alike (Indistinct env configs name) (processEnds env name torn) := by
  intro m m' h
  unfold processEnds
  rw [h.same.namespaces]
  cases found : m.namespaces.get name with
  | none => exact ⟨_, _, _, rfl, rfl, h⟩
  | some config =>
    obtain ⟨known, rfl⟩ := h.left.registered name config found
    exact ⟨_, _, _, rfl, rfl, dropPartitions_alike apart known torn h.unregister⟩

/-- An operation of the namespace itself answers the same in both runs. -/
theorem turn_alike (apart : Apart env configs) (label : Label)
    (accept : ∀ c ∈ accepted m label, configs c) (h : Indistinct env configs label.name m m') :
    ∃ a u v, turn env label m = (a, u) ∧ turn env label m' = (a, v) ∧
      Indistinct env configs label.name u v := by
  cases label with
  | createNamespace config draws =>
    exact createNamespace_alike apart draws (fun valid free =>
      accept config (by simp [accepted, valid, free])) h
  | deleteNamespace name draws => exact deleteNamespace_alike apart draws m m' h
  | call name i request => exact call_alike apart i request m m' h
  | processEnds name torn => exact processEnds_alike apart torn m m' h

theorem Indistinct.unregister_other (h : Indistinct env configs name m m') {other : String}
    (different : name ≠ other) :
    Indistinct env configs name { m with namespaces := m.namespaces.delete other } m' := by
  refine ⟨h.left.unregister other, h.right, ?_, h.same.partitions, h.same.manifests, h.same.wal,
    h.same.tables⟩
  rw [ObjectStore.get_delete_ne _ different]
  exact h.same.namespaces

theorem createNamespace_unseen (unique : env.UniqueUlids) (apart : Apart env configs)
    {config : NamespaceConfig} (draws : Nat → OpenDraw)
    (accept : config.validate = .ok () → (m.namespaces.get config.name).isSome = false → configs config)
    (other : name ≠ config.name) (h : Indistinct env configs name m m') :
    Indistinct env configs name (createNamespace env config draws m).2 m' := by
  unfold createNamespace
  split
  · exact h
  · rename_i valid
    split
    · exact h
    · rename_i free
      have known : configs config := accept valid (Bool.eq_false_iff.mpr free)
      have start : Indistinct env configs name { m with created := config :: m.created } m' :=
        ⟨⟨h.left.registered, h.left.placed, h.left.owned, h.left.engines⟩, h.right,
          ⟨h.same.namespaces, h.same.partitions, h.same.manifests, h.same.wal, h.same.tables⟩⟩
      have next := eachPartition_unseen
        (fun i member => openPartition_unseen unique apart known (draws i)
          (List.mem_range.mp member) other) _ _ start
      split
      · rename_i e u result
        rw [result] at next
        exact dropPartitions_unseen unique apart known _ other next
      · rename_i u _ result
        rw [result] at next
        refine ⟨next.left.register known, next.right, ?_, next.same.partitions, next.same.manifests,
          next.same.wal, next.same.tables⟩
        rw [ObjectStore.get_put_ne _ _ other]
        exact next.same.namespaces

theorem deleteNamespace_unseen (unique : env.UniqueUlids) (apart : Apart env configs)
    {deleted : String} (draws : Nat → Nat → FlushDraw) (other : name ≠ deleted) :
    Unseen (Indistinct env configs name) (deleteNamespace env deleted draws) := by
  intro m m' h
  unfold deleteNamespace
  split
  · exact h
  · rename_i config found
    obtain ⟨known, rfl⟩ := h.left.registered deleted config found
    have next := eachPartition_unseen
      (fun i member => stopPartition_unseen unique apart known (draws i) (List.mem_range.mp member) other) _ _ h
    split
    · rename_i e u result
      rw [result] at next
      exact next
    · rename_i u _ result
      rw [result] at next
      exact dropPartitions_unseen unique apart known _ other (next.unregister_other other)

theorem call_unseen (unique : env.UniqueUlids) (apart : Apart env configs) {called : String}
    (i : Nat) (request : World.Label) (other : name ≠ called) :
    Unseen (Indistinct env configs name) (call env called i request) := by
  intro m m' h
  rcases call_cases env called i request m with ⟨a, refused⟩ | ⟨config, found, inside, acts⟩
  · rw [refused m rfl rfl]
    exact h
  · obtain ⟨known, rfl⟩ := h.left.registered called config found
    rw [acts m rfl rfl]
    exact act_unseen request unique apart known inside other m m' h

theorem processEnds_unseen (unique : env.UniqueUlids) (apart : Apart env configs) {ended : String}
    (torn : Nat → List MemtableEntry) (other : name ≠ ended) :
    Unseen (Indistinct env configs name) (processEnds env ended torn) := by
  intro m m' h
  unfold processEnds
  split
  · exact h
  · rename_i config found
    obtain ⟨known, rfl⟩ := h.left.registered ended config found
    exact dropPartitions_unseen unique apart known torn other (h.unregister_other other)

/-- An operation of another namespace goes unseen. -/
theorem turn_unseen (unique : env.UniqueUlids) (apart : Apart env configs) (label : Label)
    (accept : ∀ c ∈ accepted m label, configs c) (other : name ≠ label.name)
    (h : Indistinct env configs name m m') :
    Indistinct env configs name (turn env label m).2 m' := by
  cases label with
  | createNamespace config draws =>
    exact createNamespace_unseen unique apart draws
      (fun valid free => accept config (by simp [accepted, valid, free])) other h
  | deleteNamespace deleted draws => exact deleteNamespace_unseen unique apart draws other m m' h
  | call called i request => exact call_unseen unique apart i request other m m' h
  | processEnds ended torn => exact processEnds_unseen unique apart torn other m m' h

end Turns

section Runs

theorem indistinct_empty : Indistinct env configs name {} {} := by
  have kept : Kept env configs {} := by
    refine ⟨?_, ?_, ?_, ?_⟩
    · rintro name c ⟨⟩
    · rintro object ⟨⟩
    · rintro c - i - id x ⟨⟩
    · rintro name i s ⟨⟩
  exact ⟨kept, kept, Same.refl name {}⟩

theorem created_subset (env : ServerEnv) (labels : List Label) (m : NamespaceManager) :
    m.created ⊆ (labels.foldl (fun m label => (turn env label m).2) m).created := by
  induction labels generalizing m with
  | nil => exact fun _ member => member
  | cons label rest ih =>
    intro c member
    refine ih (turn env label m).2 ?_
    rw [turn_created]
    exact List.mem_append_right _ member

/-- The whole run and the run of one namespace cannot be told apart by it. -/
theorem run_indistinct (unique : env.UniqueUlids) (apart : Apart env configs) {labels : List Label}
    (within : ∀ c ∈ (labels.foldl (fun m label => (turn env label m).2) m).created, configs c)
    (h : Indistinct env configs name m m') :
    Indistinct env configs name (labels.foldl (fun m label => (turn env label m).2) m)
      ((labels.filter fun label => label.name = name).foldl (fun m label => (turn env label m).2) m') := by
  induction labels generalizing m m' with
  | nil => exact h
  | cons label rest ih =>
    have accept : ∀ c ∈ accepted m label, configs c := by
      intro c member
      refine within c (created_subset env rest (turn env label m).2 ?_)
      rw [turn_created]
      exact List.mem_append_left _ member
    by_cases mine : label.name = name
    · rw [List.filter_cons, if_pos (decide_eq_true mine), List.foldl_cons, List.foldl_cons]
      subst mine
      obtain ⟨a, u, v, left, right, next⟩ := turn_alike apart label accept h
      rw [List.foldl_cons, left] at within
      rw [left, right]
      exact ih within next
    · rw [List.filter_cons, if_neg (by simpa using mine), List.foldl_cons]
      exact ih within (turn_unseen unique apart label accept (fun same => mine same.symm) h)

theorem read_same {α : Type} {f : Engine → FlushResult α}
    (blind : ∀ {own base s t}, Engine.Beside own base s t → f t = f s)
    (h : Indistinct env configs name m m') (i : Nat) :
    read env f name i m = read env f name i m' := by
  unfold read
  rw [h.same.namespaces]
  cases found : m.namespaces.get name with
  | none => rfl
  | some config =>
    obtain ⟨known, rfl⟩ := h.left.registered name config found
    dsimp only
    split
    · rfl
    · rename_i inside
      have beside := loaded_beside known (not_le.mp inside) h.right h.same
      rw [h.same.partitions] at beside ⊢
      split
      · have engine := beside.engine
        cases alone : ((m.partitions config.name i).world.mapStored
          (m'.storage.load (env.place config i))).engine with
        | none =>
          rw [alone] at engine
          cases shared : ((m.partitions config.name i).world.mapStored
            (m.storage.load (env.place config i))).engine with
          | none => rfl
          | some t =>
            rw [shared] at engine
            cases engine
        | some s =>
          rw [alone] at engine
          cases shared : ((m.partitions config.name i).world.mapStored
            (m.storage.load (env.place config i))).engine with
          | none =>
            rw [shared] at engine
            cases engine
          | some t =>
            rw [shared] at engine
            cases engine with
            | some related => exact blind related
      · rfl

/-- The operations issued to one namespace. -/
def only (name : String) (labels : List Label) : List Label :=
  labels.filter fun label => label.name = name

/-- The configurations accepted in the run are apart where their names differ. -/
def AllApart (env : ServerEnv) (m : NamespaceManager) : Prop :=
  ∀ c ∈ m.created, ∀ d ∈ m.created, c.name ≠ d.name → c.Separate env.baseDataDir d

instance (m : NamespaceManager) : Decidable (AllApart env m) :=
  inferInstanceAs (Decidable (∀ c ∈ m.created, ∀ d ∈ m.created, _))

/-- Every read of the namespace, and the answer to every request to it, is what it would be without
the operations on other namespaces. -/
structure Isolated (env : ServerEnv) (renv : ReadEnv) (draw : ReadDraw) (name : String)
    (labels : List Label) : Prop where
  get : ∀ i recordId itemKey, get env renv draw name i recordId itemKey (run env labels) =
    get env renv draw name i recordId itemKey (run env (only name labels))
  scan : ∀ i recordId startKey endKey options, scan env renv draw name i recordId startKey endKey
    options (run env labels) =
    scan env renv draw name i recordId startKey endKey options (run env (only name labels))
  multiGet : ∀ i recordId keys, multiGet env renv draw name i recordId keys (run env labels) =
    multiGet env renv draw name i recordId keys (run env (only name labels))
  answers : ∀ i request, (call env name i request (run env labels)).1 =
    (call env name i request (run env (only name labels))).1

end Runs

section Samples

def sampleServer : ServerEnv where
  baseDataDir := ["data"]
  ulid name i k := toString i ++ "/" ++ toString k ++ "/" ++ name
  fileSize := List.length
  serializedLen _ := 0

theorem sampleServer_unique : sampleServer.UniqueUlids := by
  intro name other i j k l same
  have slash : ∀ n : Nat, '/' ∉ (toString n).toList := by
    intro n
    have padded := slash_not_mem_padded 0 n
    rw [String.toList_append] at padded
    exact fun member => padded (List.mem_append_right _ member)
  have number : Function.Injective fun n : Nat => (toString n).toList := by
    intro a b chars
    have digits : Nat.toDigits 10 a = Nat.toDigits 10 b := by simpa using chars
    rw [← @Nat.ofDigitChars_ten_toDigits a, ← @Nat.ofDigitChars_ten_toDigits b, digits]
  have chars := congrArg String.toList same
  simp only [sampleServer, String.toList_append, List.append_assoc] at chars
  rw [show "/".toList = ['/'] from rfl] at chars
  simp only [List.singleton_append] at chars
  have first := cut_first (slash i) (slash j) ⟨[], by rw [List.append_nil, chars]⟩
  obtain rfl := number first
  have rest := (List.cons.inj (List.append_cancel_left chars)).2
  have second := cut_first (slash k) (slash l) ⟨[], by rw [List.append_nil, rest]⟩
  obtain rfl := number second
  exact ⟨String.toList_inj.mp (List.cons.inj (List.append_cancel_left rest)).2, rfl, rfl⟩

def sampleReadEnv : ReadEnv := ⟨4096, 10, fun _ _ => true⟩

def creation (name : String) (s3PathPrefix : Option String) : Label :=
  .createNamespace (.ofDocument name .simple 1 s3PathPrefix) fun _ => {}

def flushedPut (name : String) (value : UInt8) : Label :=
  .call name 0 (.put ⟨[114]⟩ ⟨[1]⟩ ⟨[value]⟩ ⟨[]⟩ none { freeze := true })

/-- Two namespaces, a flush of each, and a re-open of the first. -/
def separateRun : List Label :=
  [creation "a" (some "flushdb/a"), creation "b" (some "flushdb/b"), flushedPut "a" 7,
    flushedPut "b" 8, .processEnds "a" fun _ => [],
    creation "a" (some "flushdb/a")]

/-- Two documents that leave the prefix out. -/
def defaultRun : List Label := [creation "a" none, creation "b" none]

end Samples

end NamespaceManager

end FlushDB
