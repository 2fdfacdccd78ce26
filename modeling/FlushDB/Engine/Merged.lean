import FlushDB.Engine.PointSearch

/-!
What a merge gives for one key: the version with the highest number of all that the sources hold,
of equals the one of the first source. It depends on the versions of that key only, so two reads
that see the same versions of a key give the same answer for it.
-/

namespace FlushDB
open Lib

/-- The versions of one key. -/
def versionsOf (key : CompositeKey) (versions : List MergeEntry) : List MergeEntry :=
  versions.filter fun e => e.compositeKey = key

section Newest
variable {key : CompositeKey}

theorem newestInBlock_versionsOf (versions : List MergeEntry) :
    SSTableHandle.newestInBlock key (versionsOf key versions) =
      SSTableHandle.newestInBlock key versions := by
  induction versions with
  | nil => rfl
  | cons e rest ih =>
    rw [← List.singleton_append, newestInBlock_append, versionsOf, List.filter_append,
      newestInBlock_append]
    congr 1
    by_cases same : e.compositeKey = key
    · rw [List.filter_cons_of_pos (by simpa using same)]
      rfl
    · rw [List.filter_cons_of_neg (by simpa using same)]
      exact (if_neg same).symm

/-- A version that beats those before it and is not beaten by those behind it. -/
theorem newestInBlock_between {before after : List MergeEntry} {e : MergeEntry}
    (here : e.compositeKey = key)
    (older : ∀ x ∈ before, x.compositeKey = key → x.sequenceNumber < e.sequenceNumber)
    (rest : ∀ x ∈ after, x.compositeKey = key → x.sequenceNumber ≤ e.sequenceNumber) :
    SSTableHandle.newestInBlock key (before ++ e :: after) = some e := by
  have single : SSTableHandle.newestInBlock key [e] = some e := if_pos here
  have first := @newestInBlock_findsNewest key before
  have last := @newestInBlock_findsNewest key after
  rw [newestInBlock_append, ← List.singleton_append, newestInBlock_append, single, ← newerOf_assoc]
  have taken : newerOf (SSTableHandle.newestInBlock key before) (some e) = some e := by
    cases found : SSTableHandle.newestInBlock key before with
    | none => rfl
    | some b =>
      rw [found] at first
      have lower := older b first.member first.same
      exact if_neg (by omega)
  rw [taken]
  cases found : SSTableHandle.newestInBlock key after with
  | none => rfl
  | some b =>
    rw [found] at last
    exact if_pos (rest b last.member last.same)

end Newest

namespace MergeIterator
variable {sources rest : List VecSource} {e : MergeEntry}

/-- The ids of the sources follow their order. -/
def InOrder (sources : List VecSource) : Prop := (sources.map VecSource.sourceId).Pairwise (· < ·)

theorem inOrder_set {i : Nat} {source : VecSource} (inOrder : InOrder sources)
    (found : sources[i]? = some source) :
    InOrder (sources.set i source.advance) := by
  have same : (sources.set i source.advance).map VecSource.sourceId =
      sources.map VecSource.sourceId := by
    rw [List.map_set]
    refine List.ext_getElem? ?_
    intro j
    rw [List.getElem?_set]
    split
    · rename_i equal
      subst equal
      obtain ⟨bound, here⟩ := List.getElem?_eq_some_iff.mp found
      simp [bound, here, VecSource.advance]
    · rfl
  rw [InOrder, same]
  exact inOrder

theorem nextEntry_versionsOf {key : CompositeKey} (h : nextEntry sources = some (e, rest))
    (other : key ≠ e.compositeKey) :
    versionsOf key (pending rest) = versionsOf key (pending sources) := by
  cases top : maxBy HeapItem.beats (heap sources) with
  | none => simp [nextEntry, top] at h
  | some item =>
    obtain ⟨source, head, listed, entries, -, -, next⟩ := nextEntry_of_top top
    rw [next] at h
    obtain ⟨rfl, rfl⟩ := Prod.mk.inj (Option.some.inj h)
    obtain ⟨bound, here⟩ := List.getElem?_eq_some_iff.mp listed
    have changed : sources.set item.sourceIdx source.advance =
        sources.take item.sourceIdx ++ source.advance :: sources.drop (item.sourceIdx + 1) := by
      rw [List.set_eq_take_append_cons_drop, if_pos bound]
    have gone : versionsOf key source.entries = versionsOf key source.advance.entries := by
      rw [entries, versionsOf, List.filter_cons_of_neg (by simpa using other.symm)]
      rfl
    rw [changed]
    conv_rhs => rw [eq_take_cons_drop listed]
    simp only [pending, List.map_append, List.map_cons, List.flatten_append, List.flatten_cons]
    simp only [versionsOf, List.filter_append] at gone ⊢
    rw [gone]

theorem skipKey_versionsOf {key skipped : CompositeKey} (other : key ≠ skipped) (fuel : Nat) :
    versionsOf key (pending (skipKey skipped fuel sources)) = versionsOf key (pending sources) := by
  induction fuel generalizing sources with
  | zero => rfl
  | succ fuel ih =>
    unfold skipKey
    cases top : maxBy HeapItem.beats (heap sources) with
    | none => rfl
    | some item =>
      obtain ⟨source, head, -, -, same, -, next⟩ := nextEntry_of_top top
      dsimp only
      split
      · rename_i equal
        simp only [next]
        rw [ih, nextEntry_versionsOf next (by rw [same, equal]; exact other)]
      · rfl

theorem skipKey_inOrder (inOrder : InOrder sources) (key : CompositeKey) (fuel : Nat) :
    InOrder (skipKey key fuel sources) := by
  induction fuel generalizing sources with
  | zero => exact inOrder
  | succ fuel ih =>
    unfold skipKey
    cases top : maxBy HeapItem.beats (heap sources) with
    | none => exact inOrder
    | some item =>
      obtain ⟨source, head, listed, -, -, -, next⟩ := nextEntry_of_top top
      dsimp only
      split
      · simp only [next]
        exact ih (inOrder_set inOrder listed)
      · exact inOrder

/-- The entry that is taken is the newest of its key, of equals that of the first source. -/
theorem nextEntry_newest (sorted : Sorted sources) (inOrder : InOrder sources)
    (h : nextEntry sources = some (e, rest)) :
    SSTableHandle.newestInBlock e.compositeKey (pending sources) = some e ∧ InOrder rest := by
  obtain ⟨-, -, before⟩ := nextEntry_spec sorted h
  cases top : maxBy HeapItem.beats (heap sources) with
  | none => simp [nextEntry, top] at h
  | some item =>
    obtain ⟨source, head, listed, entries, key, seq, next⟩ := nextEntry_of_top top
    rw [next] at h
    obtain ⟨rfl, rfl⟩ := Prod.mk.inj (Option.some.inj h)
    refine ⟨?_, inOrder_set inOrder listed⟩
    obtain ⟨bound, here⟩ := List.getElem?_eq_some_iff.mp listed
    have flat : pending sources = (pending (sources.take item.sourceIdx)) ++
        head :: (source.entries.tail ++ pending (sources.drop (item.sourceIdx + 1))) := by
      conv_lhs => rw [eq_take_cons_drop listed]
      simp only [pending, List.map_append, List.map_cons, List.flatten_append, List.flatten_cons]
      rw [entries]
      rfl
    have highest : ∀ x ∈ pending sources, x.compositeKey = head.compositeKey →
        x.sequenceNumber ≤ head.sequenceNumber := by
      intro x member same
      rcases before x member with less | ⟨-, newer⟩
      · exact absurd same less.ne'
      · exact newer
    rw [flat]
    refine newestInBlock_between rfl ?_ ?_
    · intro x member same
      have inside : x ∈ pending sources := by
        rw [flat]
        exact List.mem_append_left _ member
      refine lt_of_le_of_ne (highest x inside same) ?_
      intro tied
      -- the head of that earlier source has the same key and number, and would have been taken
      obtain ⟨list, listed', within⟩ := List.mem_flatten.mp member
      obtain ⟨source', taken, rfl⟩ := List.mem_map.mp listed'
      obtain ⟨j, less, at_j⟩ := List.mem_take_iff_getElem.mp taken
      have bound' : j < sources.length := by omega
      have member' : source' ∈ sources := at_j ▸ List.getElem_mem bound'
      obtain ⟨first, more, whole⟩ := List.exists_cons_of_ne_nil (List.ne_nil_of_mem within)
      have leads : first.Precedes x ∨ first = x := by
        have order := sorted source' member'
        rw [whole] at order within
        rcases List.mem_cons.mp within with equal | later
        · exact Or.inr equal.symm
        · exact Or.inl ((List.pairwise_cons.mp order).1 x later)
      have first_in : first ∈ pending sources :=
        List.mem_flatten.mpr ⟨_, List.mem_map_of_mem member', by rw [whole]; exact List.mem_cons_self⟩
      have first_key : first.compositeKey = head.compositeKey := by
        refine le_antisymm ?_ (before first first_in).key_le
        rcases leads with precedes | equal
        · exact precedes.key_le.trans same.le
        · rw [equal]
          exact same.le
      have first_seq : first.sequenceNumber = head.sequenceNumber := by
        refine le_antisymm (highest first first_in first_key) ?_
        rcases leads with precedes | equal
        · rcases precedes with apart | ⟨-, newer⟩
          · exact absurd (first_key.trans same.symm) apart.ne
          · omega
        · rw [equal]
          exact tied.ge
      have item' : (⟨first.compositeKey, first.sequenceNumber, j, source'.sourceId⟩ : HeapItem) ∈
          heap sources := by
        refine mem_heap.mpr ⟨source', first, ?_, by rw [whole]; rfl, rfl, rfl, rfl⟩
        rw [List.getElem?_eq_getElem bound', at_j]
      have unbeaten := maxBy_unbeaten HeapItem.beats_asymm HeapItem.beats_false_trans top _ item'
      obtain ⟨source'', head'', found'', -, -, -, id⟩ := mem_heap.mp (maxBy_mem top)
      obtain rfl := Option.some.inj (listed.symm.trans found'')
      have ids : source'.sourceId < source.sourceId := by
        have ordered := List.pairwise_iff_getElem.mp inOrder j
          item.sourceIdx (by simpa using bound') (by simpa using bound)
          (by omega)
        simpa [at_j, here] using ordered
      rw [Bool.eq_false_iff, Ne, HeapItem.beats_iff] at unbeaten
      apply unbeaten
      refine Or.inr ⟨first_key.trans key, Or.inr ⟨first_seq.trans seq, ?_⟩⟩
      rw [id]
      exact ids
    · intro x member same
      refine highest x ?_ same
      rw [flat]
      exact List.mem_append_right _ (List.mem_cons_of_mem _ member)

theorem nextDeduped_newest (sorted : Sorted sources) (inOrder : InOrder sources)
    (h : nextDeduped sources = some (e, rest)) :
    SSTableHandle.newestInBlock e.compositeKey (pending sources) = some e ∧ InOrder rest ∧
      ∀ key, key ≠ e.compositeKey → versionsOf key (pending rest) =
        versionsOf key (pending sources) := by
  obtain ⟨⟨entry, middle⟩, next, same⟩ := Option.map_eq_some_iff.mp h
  obtain ⟨rfl, rfl⟩ := Prod.mk.inj same
  obtain ⟨newest, inOrder'⟩ := nextEntry_newest sorted inOrder next
  refine ⟨newest, skipKey_inOrder inOrder' _ _, ?_⟩
  intro key other
  rw [skipKey_versionsOf other, nextEntry_versionsOf next other]

theorem collectFrom_newest (fuel : Nat) (sorted : Sorted sources) (inOrder : InOrder sources) :
    ∀ x ∈ collectFrom fuel sources, SSTableHandle.newestInBlock x.compositeKey (pending sources) =
      some x := by
  induction fuel generalizing sources with
  | zero =>
    intro x member
    cases member
  | succ fuel ih =>
    intro x member
    unfold collectFrom at member
    split at member
    · cases member
    · rename_i entry rest next
      obtain ⟨newest, inOrder', others⟩ := nextDeduped_newest sorted inOrder next
      obtain ⟨-, -, -, sorted', above⟩ := nextDeduped_spec sorted next
      rcases List.mem_cons.mp member with rfl | later
      · exact newest
      · have here := ih sorted' inOrder' x later
        have inside : x ∈ pending rest := by
          have found := @newestInBlock_findsNewest x.compositeKey (pending rest)
          rw [here] at found
          exact found.member
        rw [← newestInBlock_versionsOf, ← others _ (above x inside).ne', newestInBlock_versionsOf]
        exact here

theorem nextDeduped_fewer (sorted : Sorted sources) (h : nextDeduped sources = some (e, rest)) :
    remaining rest < remaining sources := by
  obtain ⟨member, -, perm, -, -⟩ := nextDeduped_spec sorted h
  have fewer : ((pending sources).filter fun x => x.compositeKey ≠ e.compositeKey).length <
      (pending sources).length :=
    List.length_filter_lt_length_iff_exists.mpr ⟨e, member, by simp⟩
  have length := perm.length_eq
  rw [remaining_eq, remaining_eq]
  omega

theorem collectFrom_enough {fuel fuel' : Nat} (sorted : Sorted sources)
    (enough : remaining sources ≤ fuel) (enough' : remaining sources ≤ fuel') :
    collectFrom fuel sources = collectFrom fuel' sources := by
  induction fuel generalizing sources fuel' with
  | zero =>
    cases fuel' with
    | zero => rfl
    | succ fuel' =>
      unfold collectFrom
      cases next : nextDeduped sources with
      | none => rfl
      | some pair =>
        have := nextDeduped_fewer sorted next
        omega
  | succ fuel ih =>
    cases next : nextDeduped sources with
    | none =>
      cases fuel' with
      | zero => simp [collectFrom, next]
      | succ fuel' => simp [collectFrom, next]
    | some pair =>
      have fewer := nextDeduped_fewer sorted next
      obtain ⟨-, -, -, sorted', -⟩ := nextDeduped_spec sorted next
      cases fuel' with
      | zero => omega
      | succ fuel' =>
        simp only [collectFrom, next]
        rw [@ih pair.2 fuel' sorted' (by omega) (by omega)]

theorem collectDeduped_cons (sorted : Sorted sources) (h : nextDeduped sources = some (e, rest)) :
    collectDeduped sources = e :: collectDeduped rest := by
  have fewer := nextDeduped_fewer sorted h
  obtain ⟨-, -, -, sorted', -⟩ := nextDeduped_spec sorted h
  rw [collectDeduped, collectFrom_enough sorted (le_refl _)
    (show remaining sources ≤ remaining rest + (remaining sources - remaining rest - 1) + 1 by omega)]
  simp only [collectFrom, h]
  rw [collectDeduped, @collectFrom_enough rest _ (remaining rest) sorted' (by omega) (le_refl _)]

theorem collectDeduped_nil (h : nextDeduped sources = none) : collectDeduped sources = [] := by
  unfold collectDeduped
  cases remaining sources with
  | zero => rfl
  | succ fuel => simp [collectFrom, h]

theorem collectDeduped_eq_nil (sorted : Sorted sources) :
    collectDeduped sources = [] ↔ pending sources = [] := by
  obtain ⟨-, newest, complete⟩ := collectDeduped_spec sorted
  constructor
  · intro none
    rw [List.eq_nil_iff_forall_not_mem]
    intro y present
    obtain ⟨x, member, -⟩ := complete y present
    rw [none] at member
    cases member
  · intro none
    rw [List.eq_nil_iff_forall_not_mem]
    intro x member
    have present := (newest x member).1
    rw [none] at present
    cases present

theorem heap_isEmpty (sources : List VecSource) :
    (heap sources).isEmpty = true ↔ pending sources = [] := by
  rw [List.isEmpty_iff]
  constructor
  · intro none
    refine pending_of_no_top ?_
    rw [none]
    rfl
  · intro none
    rw [List.eq_nil_iff_forall_not_mem]
    intro item member
    obtain ⟨source, head, listed, first, -⟩ := mem_heap.mp member
    have inside : head ∈ pending sources :=
      List.mem_flatten.mpr ⟨_, List.mem_map_of_mem (List.mem_of_getElem? listed),
        List.mem_of_head? first⟩
    rw [none] at inside
    cases inside

/-- The merge gives the newest version of every key. -/
theorem mem_collectDeduped (sorted : Sorted sources) (inOrder : InOrder sources) :
    e ∈ collectDeduped sources ↔ SSTableHandle.newestInBlock e.compositeKey (pending sources) =
      some e := by
  have newest := @collectFrom_newest sources (remaining sources) sorted inOrder
  refine ⟨newest e, ?_⟩
  intro here
  have found := @newestInBlock_findsNewest e.compositeKey (pending sources)
  rw [here] at found
  obtain ⟨x, member, same⟩ := (collectDeduped_spec sorted).complete e found.member
  have there := newest x member
  rw [same, here] at there
  obtain rfl := Option.some.inj there
  exact member

/-- Two merges agree on the keys from which on their sources have the same versions. -/
theorem collectDeduped_agree {other : List VecSource} (sorted : Sorted sources)
    (inOrder : InOrder sources) (sorted' : Sorted other) (inOrder' : InOrder other)
    (p : CompositeKey → Bool)
    (versions : ∀ key, p key = true → versionsOf key (pending sources) = versionsOf key (pending other)) :
    (collectDeduped sources).filter (fun x => p x.compositeKey) =
      (collectDeduped other).filter fun x => p x.compositeKey := by
  have ascends := (collectDeduped_spec sorted).ascends.filter fun x => p x.compositeKey
  have ascends' := (collectDeduped_spec sorted').ascends.filter fun x => p x.compositeKey
  have distinct : ∀ {xs : List MergeEntry}, xs.Pairwise
      (fun a b => a.compositeKey < b.compositeKey) → xs.Nodup := by
    intro xs order
    exact order.imp fun less equal => less.ne (congrArg _ equal)
  have members : ∀ x, x ∈ (collectDeduped sources).filter (fun x => p x.compositeKey) ↔
      x ∈ (collectDeduped other).filter fun x => p x.compositeKey := by
    intro x
    rw [List.mem_filter, List.mem_filter, mem_collectDeduped sorted inOrder,
      mem_collectDeduped sorted' inOrder']
    constructor
    · rintro ⟨newest, taken⟩
      rw [← newestInBlock_versionsOf, versions _ taken, newestInBlock_versionsOf] at newest
      exact ⟨newest, taken⟩
    · rintro ⟨newest, taken⟩
      rw [← newestInBlock_versionsOf, ← versions _ taken, newestInBlock_versionsOf] at newest
      exact ⟨newest, taken⟩
  refine List.Perm.eq_of_pairwise ?_ ascends ascends'
    ((List.perm_ext_iff_of_nodup (distinct ascends) (distinct ascends')).mpr members)
  intro a b _ _ less greater
  exact absurd greater less.not_gt

end MergeIterator

end FlushDB
