import FlushDB.Compaction.Levels

/-!
Replacing tables of two adjacent levels by tables of the lower one. `Replacement` says what has
to be true of the removed and the added tables; it is enough for the level invariants and for
what readers see.
-/

namespace FlushDB.Levels
open Lib

section Tables
variable (m : Manifest) (tables : Tables) (removes : List (Level × SstId))

def kept (level : Level) : List SSTableMeta :=
  (m.sstablesAtLevel level).filter fun t => (level, t.id) ∉ removes

def gone (level : Level) : List SSTableMeta :=
  (m.sstablesAtLevel level).filter fun t => (level, t.id) ∈ removes

def keptEntries : List MergeEntry :=
  Level.all.flatMap fun level => (kept m removes level).flatMap (tableEntries tables level)

def goneEntries : List MergeEntry :=
  Level.all.flatMap fun level => (gone m removes level).flatMap (tableEntries tables level)

theorem allEntries_perm :
    (allEntries m tables).Perm (keptEntries m tables removes ++ goneEntries m tables removes) := by
  have split : ∀ level, (levelEntries m tables level).Perm
      ((kept m removes level).flatMap (tableEntries tables level) ++
        (gone m removes level).flatMap (tableEntries tables level)) := by
    intro level
    rw [← List.flatMap_append]
    refine List.Perm.flatMap_right _ ?_
    have parts := List.filter_append_perm (fun t => decide ((level, t.id) ∉ removes))
      (m.sstablesAtLevel level)
    simpa [kept, gone] using parts.symm
  refine (List.Perm.flatMap_left Level.all fun level _ => split level).trans ?_
  exact (List.flatMap_append_perm _ _ _).symm

end Tables

theorem mem_gone {m : Manifest} {removes : List (Level × SstId)} {level : Level} {t : SSTableMeta} :
    t ∈ gone m removes level ↔ t ∈ m.sstablesAtLevel level ∧ (level, t.id) ∈ removes := by
  simp [gone]

theorem mem_kept {m : Manifest} {removes : List (Level × SstId)} {level : Level} {t : SSTableMeta} :
    t ∈ kept m removes level ↔ t ∈ m.sstablesAtLevel level ∧ (level, t.id) ∉ removes := by
  simp [kept]

theorem mem_keptEntries {m : Manifest} {tables : Tables} {removes : List (Level × SstId)}
    {e : MergeEntry} :
    e ∈ keptEntries m tables removes ↔ ∃ level, ∃ t ∈ kept m removes level,
      e ∈ tableEntries tables level t := by
  unfold keptEntries
  rw [List.mem_flatMap]
  constructor
  · rintro ⟨level, -, member⟩
    exact ⟨level, List.mem_flatMap.mp member⟩
  · rintro ⟨level, member⟩
    exact ⟨level, level.mem_all, List.mem_flatMap.mpr member⟩

theorem mem_goneEntries {m : Manifest} {tables : Tables} {removes : List (Level × SstId)}
    {e : MergeEntry} :
    e ∈ goneEntries m tables removes ↔ ∃ level, ∃ t ∈ gone m removes level,
      e ∈ tableEntries tables level t := by
  unfold goneEntries
  rw [List.mem_flatMap]
  constructor
  · rintro ⟨level, -, member⟩
    exact ⟨level, List.mem_flatMap.mp member⟩
  · rintro ⟨level, member⟩
    exact ⟨level, level.mem_all, List.mem_flatMap.mpr member⟩

/-- Pairwise disjoint ranges, in whatever order. -/
def Apart (a b : SSTableMeta) : Prop := a.maxKey < b.minKey ∨ b.maxKey < a.minKey

/-- `outs` take the place of the removed tables of `source` and `target`, with entries of these. -/
structure Exchange (m m' : Manifest) (tables tables' : Tables) (source target : Level)
    (removes : List (Level × SstId)) (outs : List (SSTableMeta × List MergeEntry)) : Prop where
  adjacent : source.next = some target
  removed : ∀ entry ∈ removes, entry.1 = source ∨ entry.1 = target
  levels : ∀ level, (m'.sstablesAtLevel level).Perm
    (kept m removes level ++ if level = target then outs.map Prod.fst else [])
  sorted : ∀ level, level ≠ .L0 → (m'.sstablesAtLevel level).Pairwise fun a b => a.minKey ≤ b.minKey
  untouched : ∀ level, ∀ t ∈ kept m removes level,
    tables'.get (t.sstPath level) = tables.get (t.sstPath level)
  written : ∀ out ∈ outs, tables'.get (out.1.sstPath target) = some out.2 ∧ TableSorted out.1 out.2
  named : (outs.map fun out => out.1.id).Nodup
  fresh : ∀ out ∈ outs, ∀ level, ∀ t ∈ kept m removes level, t.id ≠ out.1.id
  ascending : outs.Pairwise fun a b => a.1.maxKey < b.1.minKey
  subset : ∀ e ∈ outs.flatMap Prod.snd, e ∈ goneEntries m tables removes
  /-- A table of the target level that stays lies on one side of all that was removed. -/
  outside : ∀ t ∈ kept m removes target,
    (∀ x ∈ goneEntries m tables removes, t.maxKey < x.compositeKey.bytes) ∨
      ∀ x ∈ goneEntries m tables removes, x.compositeKey.bytes < t.minKey
  /-- A removed version gives way to itself or a newer one only, which may be a dropped
  tombstone. -/
  succeeded : ∀ x ∈ goneEntries m tables removes, ∃ y ∈ goneEntries m tables removes,
    y.compositeKey = x.compositeKey ∧ x.sequenceNumber ≤ y.sequenceNumber ∧
      (y ∈ outs.flatMap Prod.snd ∨ y.isTombstone = true)

theorem ids_eq (m : Manifest) : (m.allSSTables.map fun listed => listed.2.id) =
    Level.all.flatMap fun level => (m.sstablesAtLevel level).map SSTableMeta.id := by
  simp [Manifest.allSSTables, List.map_flatMap, Function.comp_def]

namespace Exchange
variable {m m' : Manifest} {tables tables' : Tables} {source target : Level}
  {removes : List (Level × SstId)}
  {outs : List (SSTableMeta × List MergeEntry)}

theorem mem_levelEntries_iff (h : Exchange m m' tables tables' source target removes outs)
    {level : Level} {e : MergeEntry} : e ∈ levelEntries m' tables' level ↔
      (∃ t ∈ kept m removes level, e ∈ tableEntries tables level t) ∨
        (level = target ∧ e ∈ outs.flatMap Prod.snd) := by
  have same : ∀ t ∈ kept m removes level, tableEntries tables' level t =
      tableEntries tables level t := by
    intro t member
    simp only [tableEntries, Tables.entries, h.untouched level t member]
  have out : ∀ o ∈ outs, tableEntries tables' target o.1 = o.2 := by
    intro o member
    simp only [tableEntries, Tables.entries, (h.written o member).1, Option.getD_some]
  rw [mem_levelEntries]
  constructor
  · rintro ⟨t, listed, member⟩
    rcases List.mem_append.mp ((h.levels level).mem_iff.mp listed) with old | new
    · exact Or.inl ⟨t, old, same t old ▸ member⟩
    · split at new
      · rename_i here
        subst level
        obtain ⟨o, inside, rfl⟩ := List.mem_map.mp new
        exact Or.inr ⟨rfl, List.mem_flatMap.mpr ⟨o, inside, out o inside ▸ member⟩⟩
      · cases new
  · rintro (⟨t, old, member⟩ | ⟨rfl, member⟩)
    · exact ⟨t, (h.levels level).mem_iff.mpr (List.mem_append_left _ old), same t old ▸ member⟩
    · obtain ⟨o, inside, member⟩ := List.mem_flatMap.mp member
      refine ⟨o.1, (h.levels level).mem_iff.mpr (List.mem_append_right _ ?_),
        (out o inside).symm ▸ member⟩
      rw [if_pos rfl]
      exact List.mem_map_of_mem inside

theorem allEntries_perm (h : Exchange m m' tables tables' source target removes outs) :
    (allEntries m' tables').Perm (keptEntries m tables removes ++ outs.flatMap Prod.snd) := by
  have each : ∀ level, (levelEntries m' tables' level).Perm
      ((kept m removes level).flatMap (tableEntries tables level) ++
        if level = target then outs.flatMap Prod.snd else []) := by
    intro level
    refine (List.Perm.flatMap_right _ (h.levels level)).trans ?_
    rw [List.flatMap_append]
    refine List.Perm.append ?_ ?_
    · refine List.Perm.of_eq (List.flatMap_congr ?_)
      intro t member
      simp only [tableEntries, Tables.entries, h.untouched level t member]
    · split
      · rename_i here
        subst level
        rw [List.flatMap_map]
        refine List.Perm.of_eq (List.flatMap_congr ?_)
        intro out member
        simp only [tableEntries, Tables.entries, (h.written out member).1, Option.getD_some]
      · exact .refl _
  have total : Level.all.flatMap (fun level => if level = target then outs.flatMap Prod.snd else []) =
      outs.flatMap Prod.snd := target.flatMap_at _
  refine (List.Perm.flatMap_left Level.all fun level _ => each level).trans ?_
  refine (List.flatMap_append_perm _ _ _).symm.trans ?_
  rw [total]
  exact .refl _

theorem stored (h : Exchange m m' tables tables' source target removes outs)
    (arranged : Arranged m tables) :
    ∀ level, ∀ t ∈ m'.sstablesAtLevel level, ∃ entries,
      tables'.get (t.sstPath level) = some entries ∧ TableSorted t entries := by
  intro level t listed
  rcases List.mem_append.mp ((h.levels level).mem_iff.mp listed) with old | new
  · obtain ⟨entries, found, good⟩ := arranged.stored level t (mem_kept.mp old).1
    exact ⟨entries, (h.untouched level t old).trans found, good⟩
  · split at new
    · rename_i here
      subst level
      obtain ⟨out, member, rfl⟩ := List.mem_map.mp new
      exact ⟨out.2, h.written out member⟩
    · cases new

theorem disjoint (h : Exchange m m' tables tables' source target removes outs)
    (arranged : Arranged m tables) (level : Level) (below : level ≠ .L0) :
    (m'.sstablesAtLevel level).Pairwise fun a b => a.maxKey < b.minKey := by
  have old : (kept m removes level).Pairwise Apart :=
    ((arranged.disjoint level below).sublist List.filter_sublist).imp Or.inl
  have together : (kept m removes level ++ if level = target then outs.map Prod.fst
      else []).Pairwise Apart := by
    rw [List.pairwise_append]
    refine ⟨old, ?_, ?_⟩
    · split
      · rw [List.pairwise_map]
        exact h.ascending.imp Or.inl
      · exact .nil
    · intro t stays other new
      split at new
      · rename_i here
        subst level
        obtain ⟨out, member, rfl⟩ := List.mem_map.mp new
        obtain ⟨⟨first, inside, low⟩, last, inside', high⟩ := (h.written out member).2.attained
        have removed : ∀ {e}, e ∈ out.2 → e ∈ goneEntries m tables removes := fun inside =>
          h.subset _ (List.mem_flatMap.mpr ⟨out, member, inside⟩)
        rcases h.outside t stays with left | right
        · exact Or.inl (low ▸ left first (removed inside))
        · exact Or.inr (high ▸ right last (removed inside'))
      · cases new
  have apart : (m'.sstablesAtLevel level).Pairwise Apart :=
    (h.levels level).symm.pairwise_iff (R := Apart) (fun pair => pair.symm) |>.mp together
  have valid : ∀ t ∈ m'.sstablesAtLevel level, t.minKey ≤ t.maxKey := by
    intro t listed
    obtain ⟨entries, -, good⟩ := h.stored arranged level t listed
    exact good.min_le_max
  refine ((apart.and (h.sorted level below)).imp_of_mem ?_)
  rintro a b first second ⟨left | right, order⟩
  · exact left
  · -- sorted by the first key, so the second cannot lie before the first
    have := valid b second
    exact absurd (this.trans_lt right) (not_lt.mpr order)

theorem distinct (h : Exchange m m' tables tables' source target removes outs)
    (arranged : Arranged m tables) :
    (m'.allSSTables.map fun listed => listed.2.id).Nodup := by
  have each : ∀ level, ((m'.sstablesAtLevel level).map SSTableMeta.id).Perm
      ((kept m removes level).map SSTableMeta.id ++ if level = target then
        outs.map (fun out => out.1.id) else []) := by
    intro level
    refine ((h.levels level).map SSTableMeta.id).trans (List.Perm.of_eq ?_)
    rw [List.map_append]
    split <;> simp [Function.comp_def]
  have total : Level.all.flatMap (fun level => if level = target then outs.map (fun out => out.1.id) else []) =
      outs.map fun out => out.1.id := target.flatMap_at _
  have perm : (m'.allSSTables.map fun listed => listed.2.id).Perm
      (Level.all.flatMap (fun level => (kept m removes level).map SSTableMeta.id) ++ outs.map
        fun out => out.1.id) := by
    rw [ids_eq, ← total]
    exact (List.Perm.flatMap_left Level.all fun level _ => each level).trans
      (List.flatMap_append_perm _ _ _).symm
  rw [perm.nodup_iff, List.nodup_append]
  refine ⟨?_, h.named, ?_⟩
  · have before := arranged.distinct
    rw [ids_eq] at before
    refine before.sublist ?_
    refine List.Sublist.flatMap_right Level.all ?_
    intro level _
    exact List.Sublist.map _ List.filter_sublist
  · intro id old other new same
    obtain ⟨level, -, member⟩ := List.mem_flatMap.mp old
    obtain ⟨t, stays, rfl⟩ := List.mem_map.mp member
    obtain ⟨out, inside, rfl⟩ := List.mem_map.mp new
    exact h.fresh out inside level t stays same

end Exchange

/-- An exchange that keeps the level invariants and what readers see. -/
structure Replacement (m m' : Manifest) (tables tables' : Tables) (source target : Level)
    (removes : List (Level × SstId)) (outs : List (SSTableMeta × List MergeEntry)) : Prop
    extends Exchange m m' tables tables' source target removes outs where
  noRangeDelete : ∀ e ∈ outs.flatMap Prod.snd, e.entryType ≠ .rangeDelete
  entries : (outs.flatMap Prod.snd).Subperm (goneEntries m tables removes)
  /-- A table of the source level that stays shares no key with one that was removed. -/
  apart : ∀ t ∈ kept m removes source, ∀ a ∈ tableEntries tables source t,
    ∀ g ∈ gone m removes source,
    ∀ b ∈ tableEntries tables source g, a.compositeKey ≠ b.compositeKey
  /-- The newest version of a key stays, or it is a tombstone dropped at the bottom. -/
  newest : ∀ x ∈ goneEntries m tables removes,
    (∀ y ∈ goneEntries m tables removes, y.compositeKey = x.compositeKey →
      y.sequenceNumber ≤ x.sequenceNumber) →
      x ∈ outs.flatMap Prod.snd ∨ (x.isTombstone = true ∧ target = .L3 ∧
        ∀ y ∈ outs.flatMap Prod.snd, y.compositeKey ≠ x.compositeKey)

namespace Replacement
variable {m m' : Manifest} {tables tables' : Tables} {source target : Level}
  {removes : List (Level × SstId)}
  {outs : List (SSTableMeta × List MergeEntry)}

theorem levels_order (h : Replacement m m' tables tables' source target removes outs) :
    target.asU8 = source.asU8 + 1 ∧ target ≠ .L0 := by
  have adjacent := h.adjacent
  cases source <;> simp only [Level.next, Option.some.injEq, reduceCtorEq] at adjacent <;> subst
    adjacent <;>
    simp [Level.asU8]

/-- A removed entry came from the source or from the target level. -/
theorem gone_level (h : Replacement m m' tables tables' source target removes outs) {e : MergeEntry}
    (member : e ∈ goneEntries m tables removes) :
    ∃ level, (level = source ∨ level = target) ∧
      ∃ t ∈ gone m removes level, e ∈ tableEntries tables level t := by
  obtain ⟨level, t, removed, inside⟩ := mem_goneEntries.mp member
  exact ⟨level, h.removed _ (mem_gone.mp removed).2, t, removed, inside⟩

theorem mem_levelEntries_of_gone {level : Level} {t : SSTableMeta} {e : MergeEntry}
    (removed : t ∈ gone m removes level) (inside : e ∈ tableEntries tables level t) :
    e ∈ levelEntries m tables level :=
  mem_levelEntries.mpr ⟨t, (mem_gone.mp removed).1, inside⟩

theorem mem_levelEntries_of_kept {level : Level} {t : SSTableMeta} {e : MergeEntry}
    (stays : t ∈ kept m removes level) (inside : e ∈ tableEntries tables level t) :
    e ∈ levelEntries m tables level :=
  mem_levelEntries.mpr ⟨t, (mem_kept.mp stays).1, inside⟩

theorem sequences (h : Replacement m m' tables tables' source target removes outs)
    (ok : Ok m tables) :
    (allEntries m' tables').Pairwise Distinguished := by
  have before := (Levels.allEntries_perm m tables removes).pairwise_iff (R := Distinguished)
    (fun pair => Std.Symm.symm _ _ pair) |>.mp ok.sequences
  have fewer : (allEntries m' tables').Subperm (keptEntries m tables removes ++ goneEntries m tables removes) :=
    h.allEntries_perm.subperm.trans ((List.subperm_append_left _).mpr h.entries)
  obtain ⟨selected, perm, sublist⟩ := fewer
  exact perm.pairwise_iff (R := Distinguished) (fun pair => Std.Symm.symm _ _ pair) |>.mp
    (before.sublist sublist)

theorem newer (h : Replacement m m' tables tables' source target removes outs) (ok : Ok m tables)
    (lower higher : Level) (order : lower.asU8 < higher.asU8) (a : MergeEntry)
    (first : a ∈ levelEntries m' tables' lower) (b : MergeEntry)
    (second : b ∈ levelEntries m' tables' higher) (key : a.compositeKey = b.compositeKey) :
    b.sequenceNumber < a.sequenceNumber := by
  have next := h.levels_order.1
  rcases h.mem_levelEntries_iff.mp first with ⟨t, stays, inside⟩ | ⟨rfl, out⟩
  · have here := mem_levelEntries_of_kept stays inside
    rcases h.mem_levelEntries_iff.mp second with ⟨t', stays', inside'⟩ | ⟨rfl, out'⟩
    · exact ok.newer lower higher order a here b (mem_levelEntries_of_kept stays' inside') key
    · obtain ⟨level, origin, g, removed, inside'⟩ := h.gone_level (h.subset _ out')
      have there := mem_levelEntries_of_gone removed inside'
      by_cases same : lower = level
      · subst lower
        rcases origin with rfl | rfl
        · exact absurd key (h.apart t stays a inside g removed b inside')
        · omega
      · have above : lower.asU8 < level.asU8 := by
          rcases origin with rfl | rfl
          · have : lower.asU8 ≠ level.asU8 := by
              intro eq
              apply same
              revert eq
              cases lower <;> cases level <;> decide
            omega
          · exact order
        exact ok.newer lower level above a here b there key
  · obtain ⟨level, origin, g, removed, inside⟩ := h.gone_level (h.subset _ out)
    have here := mem_levelEntries_of_gone removed inside
    rcases h.mem_levelEntries_iff.mp second with ⟨t', stays', inside'⟩ | ⟨rfl, -⟩
    · have below : level.asU8 < higher.asU8 := by
        rcases origin with rfl | rfl <;> omega
      exact ok.newer level higher below a here b (mem_levelEntries_of_kept stays' inside') key
    · omega

theorem stored (h : Replacement m m' tables tables' source target removes outs) (ok : Ok m tables) :
    ∀ level, ∀ t ∈ m'.sstablesAtLevel level, ∃ entries,
      tables'.get (t.sstPath level) = some entries ∧ TableOk t entries := by
  intro level t listed
  rcases List.mem_append.mp ((h.levels level).mem_iff.mp listed) with old | new
  · obtain ⟨entries, found, good⟩ := ok.stored level t (mem_kept.mp old).1
    exact ⟨entries, (h.untouched level t old).trans found, good⟩
  · split at new
    · rename_i here
      subst level
      obtain ⟨out, member, rfl⟩ := List.mem_map.mp new
      obtain ⟨found, sorted, first, last⟩ := h.written out member
      refine ⟨out.2, found, sorted, first, last, ?_⟩
      intro e inside
      exact h.noRangeDelete e (List.mem_flatMap.mpr ⟨out, member, inside⟩)
    · cases new

/-- The level invariants hold after the replacement. -/
theorem levels_ok (h : Replacement m m' tables tables' source target removes outs)
    (ok : Ok m tables) :
    Ok m' tables' :=
  ⟨h.distinct ok.arranged, h.stored ok, h.disjoint ok.arranged, h.newer ok, h.sequences ok⟩

/-- Where the newest version of a key is a removed tombstone of the bottom compaction, no table
that stays has the key. -/
theorem no_kept_version (h : Replacement m m' tables tables' source target removes outs)
    (ok : Ok m tables) (bottom : target = .L3) {x a : MergeEntry}
    (removed : x ∈ goneEntries m tables removes) (stays : a ∈ keptEntries m tables removes)
    (key : a.compositeKey = x.compositeKey) :
    x.sequenceNumber < a.sequenceNumber := by
  have next := h.levels_order
  obtain ⟨level, origin, g, goes, inside⟩ := h.gone_level removed
  obtain ⟨level', t, remains, inside'⟩ := mem_keptEntries.mp stays
  have here := mem_levelEntries_of_gone goes inside
  have there := mem_levelEntries_of_kept remains inside'
  obtain ⟨entries, found, good⟩ := ok.stored level' t (mem_kept.mp remains).1
  have contents : tableEntries tables level' t = entries := by
    simp [tableEntries, Tables.entries, found]
  have bounds := good.tableSorted.bounds (contents ▸ inside')
  by_cases at_target : level' = target
  · -- a table that stays at the bottom lies outside of all that was removed
    subst level'
    rw [key] at bounds
    rcases h.outside t remains with left | right
    · exact absurd (left x removed) (not_lt.mpr bounds.2)
    · exact absurd (right x removed) (not_lt.mpr bounds.1)
  · by_cases same : level' = level
    · subst level'
      rcases origin with rfl | rfl
      · exact absurd key (h.apart t remains a inside' g goes x inside)
      · exact absurd rfl at_target
    · have above : level'.asU8 < level.asU8 := by
        rcases origin with rfl | rfl
        · revert next at_target same
          rw [bottom]
          cases level' <;> cases level <;> simp [Level.asU8]
        · revert next at_target
          rw [bottom]
          cases level' <;> simp [Level.asU8]
      exact ok.newer level' level above a there x here key

theorem visible_eq (h : Replacement m m' tables tables' source target removes outs)
    (ok : Ok m tables) (key : CompositeKey) : visible m' tables' key = visible m tables key := by
  have before {e} := (Levels.allEntries_perm m tables removes).mem_iff (a := e)
  have after {e} := h.allEntries_perm.mem_iff (a := e)
  have sub : ∀ {e}, e ∈ allEntries m' tables' → e ∈ allEntries m tables := by
    intro e member
    rcases List.mem_append.mp (after.mp member) with stays | out
    · exact before.mpr (List.mem_append_left _ stays)
    · exact before.mpr (List.mem_append_right _ (h.subset _ out))
  unfold visible
  cases top : Levels.newest (allEntries m tables) key with
  | none =>
    have absent : Levels.newest (allEntries m' tables') key = none :=
      newest_eq_none.mpr fun x member => newest_eq_none.mp top x (sub member)
    rw [absent]
  | some e =>
    obtain ⟨member, same, best⟩ := (newest_eq_some ok.sequences).mp top
    have stays_newest : e ∈ allEntries m' tables' →
        Levels.newest (allEntries m' tables') key = some e := fun present =>
      (newest_eq_some (h.sequences ok)).mpr ⟨present, same, fun x inside => best x (sub inside)⟩
    rcases List.mem_append.mp (before.mp member) with stays | removed
    · rw [stays_newest (after.mpr (List.mem_append_left _ stays))]
    · have best_removed : ∀ y ∈ goneEntries m tables removes, y.compositeKey = e.compositeKey →
          y.sequenceNumber ≤ e.sequenceNumber := fun y inside equal =>
        best y (before.mpr (List.mem_append_right _ inside)) (equal.trans same)
      rcases h.newest e removed best_removed with out | ⟨tombstone, bottom, dropped⟩
      · rw [stays_newest (after.mpr (List.mem_append_right _ out))]
      · have absent : Levels.newest (allEntries m' tables') key = none := by
          refine newest_eq_none.mpr ?_
          intro x present equal
          rcases List.mem_append.mp (after.mp present) with stays | out
          · have larger := h.no_kept_version ok bottom removed stays (equal.trans same.symm)
            have := best x (sub present) equal
            omega
          · exact dropped x out (equal.trans same.symm)
        rw [absent]
        simp [tombstone]

end Replacement

end FlushDB.Levels
