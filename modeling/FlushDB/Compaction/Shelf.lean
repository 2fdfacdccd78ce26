import FlushDB.Compaction.Outputs
import FlushDB.Manifest.Newest

/-!
The objects of a namespace against the lists of its newest manifest. Flushes and compactions
write under new names, copy a table to another level under its own name, change the lists and
delete what is not listed any more; whatever a compaction does, and at whichever step it fails,
no version of a key becomes visible that was not listed before.
-/

namespace FlushDB
open Lib ManifestBucket

abbrev Lists := Level → List SSTableMeta

/-- An entry of a listed table. -/
def Lists.Holds (lists : Lists) (tables : Tables) (c : MergeEntry) : Prop :=
  ∃ level, ∃ t ∈ lists level, c ∈ tables.entries (t.sstPath level)

def Lists.ids (lists : Lists) : List SstId :=
  Level.all.flatMap fun level => (lists level).map SSTableMeta.id

/-- Objects of one name have the same contents at every level. -/
def Tables.Coherent (tables : Tables) : Prop :=
  ∀ a b id xs ys, tables.get ⟨a, id⟩ = some xs → tables.get ⟨b, id⟩ = some ys → xs = ys

/-- Every listed table has its object, and names are listed once. -/
structure Shelf (drawn : SstId → Prop) (lists : Lists) (tables : Tables) : Prop where
  distinct : lists.ids.Nodup
  present : ∀ level, ∀ t ∈ lists level, (tables.get ⟨level, t.id⟩).isSome
  named : ∀ path, (tables.get path).isSome → drawn path.file
  coherent : tables.Coherent

namespace Lists
variable {lists : Lists} {tables : Tables}

theorem mem_ids {id : SstId} : id ∈ lists.ids ↔ ∃ level, ∃ t ∈ lists level, t.id = id := by
  unfold ids
  rw [List.mem_flatMap]
  constructor
  · rintro ⟨level, -, member⟩
    exact ⟨level, List.mem_map.mp member⟩
  · rintro ⟨level, member⟩
    exact ⟨level, level.mem_all, List.mem_map.mpr member⟩

theorem nodup_level (distinct : lists.ids.Nodup) (level : Level) :
    ((lists level).map SSTableMeta.id).Nodup :=
  (List.nodup_flatMap.mp distinct).1 level level.mem_all

theorem level_unique (distinct : lists.ids.Nodup) {a b : Level} {t u : SSTableMeta}
    (first : t ∈ lists a) (second : u ∈ lists b) (same : t.id = u.id) : a = b := by
  by_contra different
  have apart := (List.nodup_flatMap.mp distinct).2
  have : Std.Symm (Function.onFun List.Disjoint fun level => (lists level).map SSTableMeta.id) :=
    ⟨fun _ _ h _ left right => h right left⟩
  have disjoint := apart.forall a.mem_all b.mem_all different
  exact disjoint (List.mem_map_of_mem first) (same ▸ List.mem_map_of_mem second)

theorem holds_of_get {level : Level} {t : SSTableMeta} (listed : t ∈ lists level)
    {xs : List MergeEntry} (found : tables.get ⟨level, t.id⟩ = some xs) {c : MergeEntry}
    (inside : c ∈ xs) : lists.Holds tables c := by
  refine ⟨level, t, listed, ?_⟩
  rw [SSTableMeta.sstPath_eq, Tables.entries, found]
  exact inside

theorem get_of_holds {c : MergeEntry} (h : lists.Holds tables c) :
    ∃ level, ∃ t ∈ lists level, ∃ xs, tables.get ⟨level, t.id⟩ = some xs ∧ c ∈ xs := by
  obtain ⟨level, t, listed, inside⟩ := h
  rw [SSTableMeta.sstPath_eq, Tables.entries] at inside
  cases found : tables.get ⟨level, t.id⟩ with
  | none =>
    rw [found] at inside
    cases inside
  | some xs =>
    rw [found] at inside
    exact ⟨level, t, listed, xs, found, inside⟩

end Lists

namespace Shelf
variable {drawn : SstId → Prop} {lists : Lists} {tables tables' : Tables}

theorem mono (h : Shelf drawn lists tables) {drawn' : SstId → Prop}
    (more : ∀ id, drawn id → drawn' id) :
    Shelf drawn' lists tables :=
  ⟨h.distinct, h.present, fun path found => more _ (h.named path found), h.coherent⟩

theorem holds_extends (h : Shelf drawn lists tables) (extend : ObjectStore.Extends tables tables')
    (c : MergeEntry) :
    lists.Holds tables' c ↔ lists.Holds tables c := by
  constructor
  · intro held
    obtain ⟨level, t, listed, xs, found, inside⟩ := Lists.get_of_holds held
    obtain ⟨ys, before⟩ := Option.isSome_iff_exists.mp (h.present level t listed)
    obtain rfl : ys = xs := Option.some.inj ((extend _ _ before).symm.trans found)
    exact Lists.holds_of_get listed before inside
  · intro held
    obtain ⟨level, t, listed, xs, found, inside⟩ := Lists.get_of_holds held
    exact Lists.holds_of_get listed (extend _ _ found) inside

theorem present_extends (h : Shelf drawn lists tables) (extend : ObjectStore.Extends tables tables')
    (level : Level) (t : SSTableMeta) (listed : t ∈ lists level) :
    (tables'.get ⟨level, t.id⟩).isSome := by
  obtain ⟨ys, before⟩ := Option.isSome_iff_exists.mp (h.present level t listed)
  rw [extend _ _ before]
  rfl

theorem unlisted (h : Shelf drawn lists tables) {id : SstId} (fresh : ¬ drawn id) :
    id ∉ lists.ids := by
  intro known
  obtain ⟨level, t, listed, rfl⟩ := Lists.mem_ids.mp known
  exact fresh (h.named _ (h.present level t listed))

theorem extend (h : Shelf drawn lists tables) {fresh : SstId → Prop}
    (new : ∀ id, fresh id → ¬ drawn id) {level : Level}
    (place : ∀ path, (path.level = level ∧ fresh path.file) ∨ tables'.get path = tables.get path) :
    ObjectStore.Extends tables tables' ∧ (∀ path, (tables'.get path).isSome → drawn path.file ∨
      fresh path.file) ∧
      tables'.Coherent := by
  have taken : ∀ path xs, tables.get path = some xs → drawn path.file := fun path xs found =>
    h.named path (Option.isSome_of_eq_some found)
  refine ⟨?_, ?_, ?_⟩
  · intro path xs before
    rcases place path with ⟨-, named⟩ | same
    · exact absurd (taken path xs before) (new _ named)
    · exact same.trans before
  · intro path found
    rcases place path with ⟨-, named⟩ | same
    · exact Or.inr named
    · exact Or.inl (h.named path (same ▸ found))
  · intro a b id xs ys first second
    rcases place ⟨a, id⟩ with ⟨here, named⟩ | old
    · rcases place ⟨b, id⟩ with ⟨there, -⟩ | old'
      · obtain rfl : a = b := here.trans there.symm
        exact Option.some.inj (first.symm.trans second)
      · exact absurd (taken ⟨b, id⟩ ys (old'.symm.trans second)) (new _ named)
    · rcases place ⟨b, id⟩ with ⟨-, named⟩ | old'
      · exact absurd (taken ⟨a, id⟩ xs (old.symm.trans first)) (new _ named)
      · exact h.coherent a b id xs ys (old.symm.trans first) (old'.symm.trans second)

theorem put (h : Shelf drawn lists tables) {id : SstId} (fresh : ¬ drawn id) (level : Level)
    (xs : List MergeEntry) :
    ObjectStore.Extends tables (tables.put ⟨level, id⟩ xs) ∧
      (∀ path, ((tables.put ⟨level, id⟩ xs).get path).isSome → drawn path.file ∨ path.file = id) ∧
      Tables.Coherent (tables.put ⟨level, id⟩ xs) := by
  have new : ∀ name, name = id → ¬ drawn name := by
    intro name same
    rwa [same]
  apply h.extend new
  intro path
  by_cases here : path = ⟨level, id⟩
  · left
    rw [here]
    exact ⟨rfl, rfl⟩
  · right
    rw [ObjectStore.get_put, if_neg here]

theorem delete (h : Shelf drawn lists tables) {level : Level} {id : SstId}
    (unlisted : ∀ t ∈ lists level, t.id ≠ id) :
    Shelf drawn lists (tables.delete ⟨level, id⟩) ∧
      ∀ c, lists.Holds (tables.delete ⟨level, id⟩) c ↔ lists.Holds tables c := by
  have other : ∀ a, ∀ t ∈ lists a, (tables.delete ⟨level, id⟩).get ⟨a, t.id⟩ =
      tables.get ⟨a, t.id⟩ := by
    intro a t listed
    refine ObjectStore.get_delete_ne _ ?_
    intro same
    obtain ⟨rfl, name⟩ := SstPath.mk.inj same
    exact unlisted t listed name
  have left : ∀ path xs, (tables.delete ⟨level, id⟩).get path = some xs →
      tables.get path = some xs :=
    fun path xs found => ObjectStore.get_of_delete found
  refine ⟨⟨h.distinct, ?_, ?_, ?_⟩, ?_⟩
  · intro a t listed
    rw [other a t listed]
    exact h.present a t listed
  · intro path some_left
    obtain ⟨xs, found⟩ := Option.isSome_iff_exists.mp some_left
    exact h.named path (by rw [left path xs found]; rfl)
  · intro a b name xs ys first second
    exact h.coherent a b name xs ys (left _ _ first) (left _ _ second)
  · intro c
    constructor
    · intro held
      obtain ⟨a, t, listed, xs, found, inside⟩ := Lists.get_of_holds held
      exact Lists.holds_of_get listed (left _ _ found) inside
    · intro held
      obtain ⟨a, t, listed, xs, found, inside⟩ := Lists.get_of_holds held
      exact Lists.holds_of_get listed ((other a t listed).trans found) inside

theorem deleteAll (h : Shelf drawn lists tables) {level : Level} {gone : List SSTableMeta}
    (unlisted : ∀ t ∈ gone, ∀ v ∈ lists level, v.id ≠ t.id) :
    Shelf drawn lists (gone.foldl (fun tables t => tables.delete (t.sstPath level)) tables) ∧
      ∀ c, lists.Holds (gone.foldl (fun tables t => tables.delete (t.sstPath level)) tables) c ↔
        lists.Holds tables c := by
  induction gone generalizing tables with
  | nil => exact ⟨h, fun _ => Iff.rfl⟩
  | cons t rest ih =>
    obtain ⟨first, same⟩ := h.delete (unlisted t List.mem_cons_self)
    obtain ⟨later, same'⟩ := ih first fun u member => unlisted u (List.mem_cons_of_mem _ member)
    rw [List.foldl_cons, SSTableMeta.sstPath_eq]
    exact ⟨later, fun c => (same' c).trans (same c)⟩

/-- The lists after an update: what it adds has its object, under a name that is new or that
the update removes. -/
theorem relist (h : Shelf drawn lists tables) (drawn' : SstId → Prop) {lists' : Lists}
    (extend : ObjectStore.Extends tables tables')
    (named : ∀ path, (tables'.get path).isSome → drawn' path.file) (coherent : tables'.Coherent)
    {removes : List (Level × SstId)} {target : Level} {added : List SSTableMeta}
    (updated : ∀ level, (lists' level).Perm ((lists level).filter
      (fun t => (level, t.id) ∉ removes) ++ if level = target then added else []))
    (names : (added.map SSTableMeta.id).Nodup)
    (new : ∀ t ∈ added, t.id ∉ lists.ids ∨ ∃ level, (level, t.id) ∈ removes ∧
      ∃ u ∈ lists level, u.id = t.id)
    (stored : ∀ t ∈ added, (tables'.get ⟨target, t.id⟩).isSome) :
    Shelf drawn' lists' tables' ∧ ∀ c, lists'.Holds tables' c →
      lists.Holds tables c ∨ ∃ t ∈ added, ∃ xs, tables'.get ⟨target, t.id⟩ = some xs ∧ c ∈ xs := by
  have cases_of : ∀ level t, t ∈ lists' level → (t ∈ lists level ∧ (level, t.id) ∉ removes) ∨
      (level = target ∧ t ∈ added) := by
    intro level t listed
    rcases List.mem_append.mp ((updated level).mem_iff.mp listed) with old | fresh
    · obtain ⟨before, stays⟩ := List.mem_filter.mp old
      exact Or.inl ⟨before, of_decide_eq_true stays⟩
    · split at fresh
      · rename_i here
        exact Or.inr ⟨here, fresh⟩
      · cases fresh
  refine ⟨⟨?_, ?_, named, coherent⟩, ?_⟩
  · have each : ∀ level, ((lists' level).map SSTableMeta.id).Perm
        (((lists level).filter fun t => (level, t.id) ∉ removes).map SSTableMeta.id ++
          if level = target then added.map SSTableMeta.id else []) := by
      intro level
      refine ((updated level).map SSTableMeta.id).trans (List.Perm.of_eq ?_)
      rw [List.map_append]
      split <;> rfl
    have total : Level.all.flatMap (fun level => if level = target then added.map SSTableMeta.id else []) =
        added.map SSTableMeta.id := target.flatMap_at _
    have perm : lists'.ids.Perm (Level.all.flatMap (fun level =>
        ((lists level).filter fun t => (level, t.id) ∉ removes).map SSTableMeta.id) ++ added.map
          SSTableMeta.id) := by
      rw [← total]
      exact (List.Perm.flatMap_left Level.all fun level _ => each level).trans
        (List.flatMap_append_perm _ _ _).symm
    rw [perm.nodup_iff, List.nodup_append]
    refine ⟨?_, names, ?_⟩
    · refine h.distinct.sublist (List.Sublist.flatMap_right Level.all ?_)
      intro level _
      exact List.Sublist.map _ List.filter_sublist
    · intro id old other fresh same
      obtain ⟨level, -, member⟩ := List.mem_flatMap.mp old
      obtain ⟨t, stays, rfl⟩ := List.mem_map.mp member
      obtain ⟨listed, kept⟩ := List.mem_filter.mp stays
      obtain ⟨u, adds, rfl⟩ := List.mem_map.mp fresh
      rcases new u adds with unknown | ⟨place, removed, v, found, name⟩
      · exact unknown (same ▸ Lists.mem_ids.mpr ⟨level, t, listed, rfl⟩)
      · obtain rfl := Lists.level_unique h.distinct found listed (name.trans same.symm)
        rw [← same] at removed
        exact of_decide_eq_true kept removed
  · intro level t listed
    rcases cases_of level t listed with ⟨before, -⟩ | ⟨rfl, fresh⟩
    · exact h.present_extends extend level t before
    · exact stored t fresh
  · intro c held
    obtain ⟨level, t, listed, xs, found, inside⟩ := Lists.get_of_holds held
    rcases cases_of level t listed with ⟨before, -⟩ | ⟨rfl, fresh⟩
    · exact Or.inl ((h.holds_extends extend c).mp (Lists.holds_of_get before found inside))
    · exact Or.inr ⟨t, fresh, xs, found, inside⟩

end Shelf

/-- The names of one execution. -/
def Drawn.names (d : Drawn) (id : SstId) : Prop :=
  id = .single d.ulid ∨ ∃ i, id = .fragment d.runId i

namespace CompactionExecutor

/-- What an execution leaves, whether it fails or not. -/
structure Executed (drawn : SstId → Prop) (s s' : CompactionState) : Prop where
  latest : s'.manifest.Latest
  keyed : Keyed s'.manifest.bucket
  shelf : Shelf drawn (tablesAt s'.manifest.bucket) s'.tables
  watermark : watermark s'.manifest.bucket = watermark s.manifest.bucket
  copies : ∀ c, Lists.Holds (tablesAt s'.manifest.bucket) s'.tables c →
    Lists.Holds (tablesAt s.manifest.bucket) s.tables c

/-- Copies under the same name leave all objects as they are. -/
theorem copyTables_spec {source target : Level} {inputs : List SSTableMeta}
    {tables tables' : Tables} (coherent : tables.Coherent) {r : FlushResult Unit}
    (h : copyTables source target inputs tables = (r, tables')) :
    ObjectStore.Extends tables tables' ∧ tables'.Coherent ∧
      (∀ path, (tables'.get path).isSome → ∃ level, (tables.get ⟨level, path.file⟩).isSome) ∧
      (r = .ok () → ∀ t ∈ inputs, ∃ xs, tables'.get ⟨source, t.id⟩ = some xs ∧
        tables'.get ⟨target, t.id⟩ = some xs) := by
  induction inputs generalizing tables with
  | nil =>
    cases h
    refine ⟨ObjectStore.Extends.refl _, coherent, fun path found => ⟨path.level, found⟩, ?_⟩
    intro _ t member
    cases member
  | cons t rest ih =>
    unfold copyTables at h
    rw [SSTableMeta.sstPath_eq, SSTableMeta.sstPath_eq] at h
    split at h
    · cases h
      exact ⟨ObjectStore.Extends.refl _, coherent, fun path found => ⟨path.level, found⟩, by rintro ⟨⟩⟩
    · rename_i data found
      have first : ObjectStore.Extends tables (tables.put ⟨target, t.id⟩ data) := by
        intro path xs before
        rw [ObjectStore.get_put]
        split
        · rename_i same
          rw [same] at before
          rw [coherent _ _ _ _ _ found before]
        · exact before
      have mid : Tables.Coherent (tables.put ⟨target, t.id⟩ data) := by
        have lift : ∀ a id xs, (tables.put ⟨target, t.id⟩ data).get ⟨a, id⟩ = some xs →
            ∃ b, tables.get ⟨b, id⟩ = some xs := by
          intro a id xs stored
          rw [ObjectStore.get_put] at stored
          split at stored
          · rename_i same
            obtain ⟨-, rfl⟩ := SstPath.mk.inj same
            exact ⟨source, found.trans stored⟩
          · exact ⟨a, stored⟩
        intro a b id xs ys one two
        obtain ⟨a', one⟩ := lift a id xs one
        obtain ⟨b', two⟩ := lift b id ys two
        exact coherent a' b' id xs ys one two
      obtain ⟨later, final, names, copied⟩ := ih mid h
      refine ⟨fun path xs before => later _ _ (first _ _ before), final, ?_, ?_⟩
      · intro path some_left
        obtain ⟨level, there⟩ := names path some_left
        rw [ObjectStore.get_put] at there
        split at there
        · rename_i same
          refine ⟨source, ?_⟩
          rw [show path.file = t.id from (SstPath.mk.inj same).2, found]
          rfl
        · exact ⟨level, there⟩
      · intro done u member
        rcases List.mem_cons.mp member with rfl | inside
        · exact ⟨data, later _ _ (first _ _ found), later _ _ (ObjectStore.get_put_self _ _ _)⟩
        · exact copied done u inside

section Effects
variable {drawn : SstId → Prop} {config : CompactionConfig} {fileSize : List MergeEntry → Nat}
  {serializedLen : Manifest → Nat} {d : Drawn} {task : CompactionTask} {s s' : CompactionState}
  {r : FlushResult CompactionResult}

theorem addedAt_level (added : List SSTableMeta) (target level : Level) :
    ManifestUpdate.addedAt (added.map fun t => (target, t)) level = if level = target then added
      else [] := by
  unfold ManifestUpdate.addedAt
  split
  · rename_i here
    subst here
    rw [List.filter_eq_self.mpr (by simp)]
    simp [Function.comp_def]
  · rename_i other
    rw [List.filter_eq_nil_iff.mpr]
    · rfl
    · intro pair member
      obtain ⟨t, -, rfl⟩ := List.mem_map.mp member
      simpa using fun eq => other eq.symm

theorem Uncommitted.same {m : ManifestState} (kept : Uncommitted serializedLen d s m)
    (latest : s.manifest.Latest) :
    m = s.manifest := by
  rcases kept with same | ⟨update, e, failed⟩
  · exact same
  · exact latest.refused failed

/-- Objects beside the listed ones, before the commit. -/
theorem executed_uncommitted {drawn' : SstId → Prop} {tables : Tables}
    (shelf : Shelf drawn (tablesAt s.manifest.bucket) s.tables) (latest : s.manifest.Latest)
    (keyed : Keyed s.manifest.bucket) (extend : ObjectStore.Extends s.tables tables)
    (named : ∀ path, (tables.get path).isSome → drawn' path.file) (coherent : tables.Coherent) :
    Executed drawn' s ⟨s.manifest, tables⟩ :=
  ⟨latest, keyed, ⟨shelf.distinct, shelf.present_extends extend, named, coherent⟩, rfl,
    fun c held => (shelf.holds_extends extend c).mp held⟩

/-- What a merge has written so far. -/
theorem writeTables_shelf {merged : List MergeEntry} {done : List (SSTableMeta × List MergeEntry)}
    (shelf : Shelf drawn (tablesAt s.manifest.bucket) s.tables)
    (fresh : ∀ id, d.names id → ¬ drawn id)
    (part : done.Sublist (outputs fileSize d config.targetFragmentSize merged)) :
    ObjectStore.Extends s.tables (writeTables task.targetLevel done s.tables) ∧
      (∀ path, ((writeTables task.targetLevel done s.tables).get path).isSome → drawn path.file ∨
        d.names path.file) ∧
      (writeTables task.targetLevel done s.tables).Coherent ∧
      ∀ out ∈ done, (writeTables task.targetLevel done s.tables).get ⟨task.targetLevel, out.1.id⟩ =
        some out.2 := by
  obtain ⟨described, distinct⟩ := outputs_spec fileSize d config.targetFragmentSize merged
  obtain ⟨written, others⟩ := @writeTables_get task.targetLevel done s.tables
    (distinct.sublist (part.map _))
  simp only [SSTableMeta.sstPath_eq] at written others
  have place : ∀ path, (path.level = task.targetLevel ∧ d.names path.file) ∨
      (writeTables task.targetLevel done s.tables).get path = s.tables.get path := by
    intro path
    by_cases new : ∃ out ∈ done, path = ⟨task.targetLevel, out.1.id⟩
    · obtain ⟨out, member, rfl⟩ := new
      exact Or.inl ⟨rfl, (described out (part.subset member)).2⟩
    · exact Or.inr (others path fun out member same => new ⟨out, member, same⟩)
  obtain ⟨extend, names, coherent⟩ := shelf.extend fresh place
  exact ⟨extend, names, coherent, written⟩

theorem moveTrivially_executed (latest : s.manifest.Latest) (keyed : Keyed s.manifest.bucket)
    (shelf : Shelf drawn (tablesAt s.manifest.bucket) s.tables)
    (moves : task.sourceLevel ≠ task.targetLevel)
    (h : moveTrivially serializedLen d task s = (r, s')) : Executed drawn s s' := by
  have copies_kept : ∀ {done : List SSTableMeta} {result : FlushResult Unit} {tables : Tables},
      copyTables task.sourceLevel task.targetLevel done s.tables = (result, tables) →
        ∀ path, (tables.get path).isSome → drawn path.file := by
    intro done result tables copies path found
    obtain ⟨-, -, names, -⟩ := copyTables_spec shelf.coherent copies
    obtain ⟨level, there⟩ := names path found
    exact shelf.named ⟨level, path.file⟩ there
  cases moveTrivially_outcome h with
  | uncommitted part copies kept =>
    obtain ⟨extend, coherent, -, -⟩ := copyTables_spec shelf.coherent copies
    obtain rfl := kept.same latest
    exact executed_uncommitted shelf latest keyed extend (copies_kept copies) coherent
  | @committed _ m tables copies stored =>
    obtain ⟨extend, coherent, -, copied⟩ := copyTables_spec shelf.coherent copies
    have named := copies_kept copies
    have updated := latest.updated keyed (Lists.nodup_level shelf.distinct) stored
    generalize update_eq : compactionUpdate s.manifest.manager
      ((task.inputSSTables.map fun t => { t with createdAtMs := d.nowMs }).map fun t => (task.targetLevel, t))
      (task.inputSSTables.map fun t => (task.sourceLevel, t.id)) = u at updated
    have removes : u.removeSSTables = task.inputSSTables.map fun t => (task.sourceLevel, t.id) := by
      rw [← update_eq]; rfl
    have adds : u.addSSTables = (task.inputSSTables.map fun t => { t with createdAtMs := d.nowMs }).map fun t =>
        (task.targetLevel, t) := by rw [← update_eq]; rfl
    have mark : u.newLastFlushedSequence = none := by rw [← update_eq]; rfl
    -- the removals succeed, so that every input is listed at the source level
    have listed : ∀ t ∈ task.inputSSTables, ∃ v ∈ tablesAt s.manifest.bucket task.sourceLevel,
        v.id = t.id := by
      intro t member
      exact updated.removed (task.sourceLevel, t.id) (removes ▸ List.mem_map_of_mem member)
    have lists := updated.lists
    rw [adds] at lists
    simp only [addedAt_level] at lists
    have ids : (task.inputSSTables.map fun t => { t with createdAtMs := d.nowMs }).map SSTableMeta.id =
        task.inputSSTables.map SSTableMeta.id := by
      rw [List.map_map]
      rfl
    have names : ((task.inputSSTables.map fun t => { t with createdAtMs := d.nowMs }).map
        SSTableMeta.id).Nodup := by
      have once := updated.once
      rw [removes, show (fun t : SSTableMeta => (task.sourceLevel, t.id)) =
        Prod.mk task.sourceLevel ∘ SSTableMeta.id from rfl,
        ← List.map_map] at once
      rw [ids]
      exact List.Nodup.of_map _ once
    obtain ⟨relisted, held⟩ := shelf.relist drawn extend named coherent lists names
      (by
        intro t member
        obtain ⟨input, inside, rfl⟩ := List.mem_map.mp member
        exact Or.inr ⟨task.sourceLevel, removes ▸ List.mem_map.mpr ⟨input, inside, rfl⟩,
          listed input inside⟩)
      (by
        intro t member
        obtain ⟨input, inside, rfl⟩ := List.mem_map.mp member
        obtain ⟨xs, -, there⟩ := copied rfl input inside
        exact Option.isSome_of_eq_some there)
    have unlisted : ∀ t ∈ task.inputSSTables, ∀ v ∈ tablesAt m.bucket task.sourceLevel,
        v.id ≠ t.id := by
      intro t inside v found same
      have place := (lists task.sourceLevel).mem_iff.mp found
      rw [if_neg moves, List.append_nil] at place
      have stays := of_decide_eq_true (List.mem_filter.mp place).2
      rw [removes, same] at stays
      exact stays (List.mem_map_of_mem inside)
    obtain ⟨final, same⟩ := relisted.deleteAll fun t member =>
      unlisted t ((doneBefore_sublist d.deleteStop task.inputSSTables).subset member)
    refine ⟨updated.latest, updated.keyed, final, ?_, ?_⟩
    · rw [updated.watermark, mark]
      rfl
    · intro c inside
      rcases held c ((same c).mp inside) with old | ⟨t, member, xs, found, inside⟩
      · exact old
      · obtain ⟨input, origin, rfl⟩ := List.mem_map.mp member
        obtain ⟨v, place, name⟩ := listed input origin
        obtain ⟨ys, first, second⟩ := copied rfl input origin
        obtain rfl : ys = xs := Option.some.inj (second.symm.trans found)
        rw [← name] at first
        exact (shelf.holds_extends extend c).mp (Lists.holds_of_get place first inside)

/-- What is read is listed, once the update has removed it from the lists. -/
theorem readTables_holds {lists : Lists} {tables : Tables}
    (inputs : ∀ t ∈ task.inputSSTables, ∃ v ∈ lists task.sourceLevel, v.id = t.id)
    (targets : ∀ t ∈ task.targetSSTables, ∃ v ∈ lists task.targetLevel, v.id = t.id)
    {contents : List (List MergeEntry)}
    (h : readTables tables task (task.inputSSTables ++ task.targetSSTables) = .ok contents)
    {c : MergeEntry} (member : c ∈ contents.flatten) : lists.Holds tables c := by
  rw [readTables_ok h] at member
  obtain ⟨entries, listed, inside⟩ := List.mem_flatten.mp member
  obtain ⟨t, read, rfl⟩ := List.mem_map.mp listed
  have place : ∀ level, (∃ v ∈ lists level, v.id = t.id) → c ∈ Levels.tableEntries tables level t →
      lists.Holds tables c := by
    rintro level ⟨v, found, name⟩ held
    refine ⟨level, v, found, ?_⟩
    rw [Levels.tableEntries, SSTableMeta.sstPath_eq] at held
    rwa [SSTableMeta.sstPath_eq, name]
  split at inside
  · rename_i input
    obtain ⟨u, one, same⟩ := List.any_eq_true.mp input
    obtain ⟨v, found, name⟩ := inputs u one
    exact place _ ⟨v, found, name.trans (of_decide_eq_true same)⟩ inside
  · rename_i other
    rcases List.mem_append.mp read with input | target
    · exact absurd (List.any_eq_true.mpr ⟨t, input, decide_eq_true rfl⟩) other
    · exact place _ (targets t target) inside

theorem mergeInputs_executed (latest : s.manifest.Latest) (keyed : Keyed s.manifest.bucket)
    (shelf : Shelf drawn (tablesAt s.manifest.bucket) s.tables)
    (fresh : ∀ id, d.names id → ¬ drawn id)
    (h : mergeInputs config fileSize serializedLen d task s = (r, s')) :
    Executed (fun id => drawn id ∨ d.names id) s s' := by
  cases mergeInputs_outcome h with
  | unread => exact ⟨latest, keyed, shelf.mono fun _ => Or.inl, rfl, fun _ held => held⟩
  | uncommitted read kept =>
    obtain ⟨extend, named, coherent, -⟩ := @writeTables_shelf drawn config fileSize d task s _ _
      shelf fresh (doneBefore_sublist _ _)
    obtain rfl := kept.same latest
    exact executed_uncommitted shelf latest keyed extend named coherent
  | @committed contents outs result m read cut reads writes reached stored =>
    obtain ⟨extend, named, coherent, written⟩ :=
      @writeTables_shelf drawn config fileSize d task s _ _ shelf fresh (List.Sublist.refl _)
    have spec := outputs_spec fileSize d config.targetFragmentSize
      (merge task.targetLevel.isBottom contents)
    rw [cut] at extend named coherent written spec
    obtain ⟨described, distinct⟩ := spec
    have updated := latest.updated keyed (Lists.nodup_level shelf.distinct) stored
    generalize update_eq : compactionUpdate s.manifest.manager
      (outs.map fun out => (task.targetLevel, out.1))
      ((task.inputSSTables.map fun t => (task.sourceLevel, t.id)) ++
        task.targetSSTables.map fun t => (task.targetLevel, t.id)) = u at updated
    have removes : u.removeSSTables = (task.inputSSTables.map fun t => (task.sourceLevel, t.id)) ++
        task.targetSSTables.map fun t => (task.targetLevel, t.id) := by rw [← update_eq]; rfl
    have adds : u.addSSTables = (outs.map Prod.fst).map fun t => (task.targetLevel, t) := by
      rw [← update_eq, List.map_map]
      rfl
    have mark : u.newLastFlushedSequence = none := by rw [← update_eq]; rfl
    have lists := updated.lists
    rw [adds] at lists
    simp only [addedAt_level] at lists
    obtain ⟨relisted, held⟩ := shelf.relist (fun id => drawn id ∨ d.names id) extend named coherent
      lists
      (by rw [List.map_map]; exact distinct)
      (by
        intro t member
        obtain ⟨out, inside, rfl⟩ := List.mem_map.mp member
        exact Or.inl (shelf.unlisted (fresh _ (described out inside).2)))
      (by
        intro t member
        obtain ⟨out, inside, rfl⟩ := List.mem_map.mp member
        exact Option.isSome_of_eq_some (written out inside))
    refine ⟨updated.latest, updated.keyed, relisted, ?_, ?_⟩
    · rw [updated.watermark, mark]
      rfl
    · intro c inside
      rcases held c inside with old | ⟨t, member, xs, found, inside⟩
      · exact old
      · obtain ⟨out, origin, rfl⟩ := List.mem_map.mp member
        obtain rfl : out.2 = xs := Option.some.inj ((written out origin).symm.trans found)
        have whole : c ∈ merge task.targetLevel.isBottom contents := by
          rw [← outputs_flatten fileSize d config.targetFragmentSize
            (merge task.targetLevel.isBottom contents), cut]
          exact List.mem_flatMap.mpr ⟨out, origin, inside⟩
        have pending := MergeIterator.collectDeduped_subset (List.mem_filter.mp whole).1
        rw [pending_mergeSources] at pending
        refine readTables_holds ?_ ?_ read pending
        · intro t input
          exact updated.removed (task.sourceLevel, t.id)
            (removes ▸ List.mem_append_left _ (List.mem_map_of_mem input))
        · intro t target
          exact updated.removed (task.targetLevel, t.id)
            (removes ▸ List.mem_append_right _ (List.mem_map_of_mem target))

/-- Whatever a compaction does, and at whichever step it fails, no version becomes visible that
was not listed before. -/
theorem execute_executed (latest : s.manifest.Latest) (keyed : Keyed s.manifest.bucket)
    (shelf : Shelf drawn (tablesAt s.manifest.bucket) s.tables)
    (fresh : ∀ id, d.names id → ¬ drawn id) (moves : task.sourceLevel ≠ task.targetLevel)
    (h : execute config fileSize serializedLen d task s = (r, s')) :
    Executed (fun id => drawn id ∨ d.names id) s s' := by
  unfold execute at h
  split at h
  · obtain ⟨latest', keyed', shelf', mark, copies⟩ :=
      moveTrivially_executed latest keyed shelf moves h
    exact ⟨latest', keyed', shelf'.mono fun _ => Or.inl, mark, copies⟩
  · exact mergeInputs_executed latest keyed shelf fresh h

end Effects

end CompactionExecutor

end FlushDB
