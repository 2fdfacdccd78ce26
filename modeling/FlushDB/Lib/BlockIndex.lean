import FlushDB.Lib.BinarySearch
import Mathlib.Data.List.Forall2
import Mathlib.Data.List.TakeWhile
import Mathlib.Data.Nat.Basic
import Mathlib.Order.Basic

/-!
A sorted list that is cut into blocks, with an index of the first key of each. A search takes the
last block that starts at or before the key; a range is read from there on.
-/

namespace FlushDB.Lib

theorem partitionPoint_le {α : Type*} (below : α → Bool) (xs : List α)
    (divided : xs.Pairwise fun a b => below b → below a) :
    partitionPoint below xs = (xs.takeWhile below).length := by
  have order : Divided (fun x => if below x then .lt else .gt) xs := by
    refine divided.imp ?_
    intro a b implied
    cases first : below a
    all_goals cases second : below b
    all_goals simp_all
  unfold partitionPoint
  split
  · rename_i i found
    obtain ⟨x, -, equal⟩ := binarySearchBy_ok found
    split at equal
    all_goals cases equal
  · rename_i i missed
    obtain ⟨before, after, inside⟩ := binarySearchBy_error order missed
    have front : ∀ x ∈ xs.take i, below x = true := by
      intro x member
      obtain ⟨j, bound, rfl⟩ := List.mem_take_iff_getElem.mp member
      have lt := before j _ (by omega) (List.getElem?_eq_getElem (by omega))
      split at lt
      · assumption
      · cases lt
    have back : (xs.drop i).takeWhile below = [] := by
      cases rest : xs.drop i with
      | nil => rfl
      | cons x more =>
        have at_i : xs[i]? = some x := by
          rw [← List.head?_drop, rest]
          rfl
        have gt := after i x (le_refl i) at_i
        rw [List.takeWhile_cons_of_neg]
        intro holds
        rw [if_pos holds] at gt
        cases gt
    have whole : xs.takeWhile below = xs.take i := by
      conv_lhs => rw [← List.take_append_drop i xs]
      rw [List.takeWhile_append_of_pos front, back, List.append_nil]
    rw [whole, List.length_take]
    omega

/-- In a list of disjoint ranges a binary search for the one that holds a point finds what a linear
search does: `below` says that a range ends before the point, `holds` that it contains it. -/
theorem find_at_partitionPoint {α : Type*} {below holds : α → Bool} {xs : List α}
    (divided : xs.Pairwise fun a b => below b → below a)
    (apart : xs.Pairwise fun a b => holds b → below a)
    (reaches : ∀ x ∈ xs, holds x → below x = false) :
    (match xs[partitionPoint below xs]? with
      | some x => if holds x then some x else none
      | none => none) = xs.find? holds := by
  rw [partitionPoint_le below xs divided]
  clear divided
  induction xs with
  | nil => rfl
  | cons x rest ih =>
    obtain ⟨before, apart⟩ := List.pairwise_cons.mp apart
    cases early : below x with
    | true =>
      have other : holds x = false := by
        by_contra here
        have late := reaches x List.mem_cons_self (by simpa using here)
        rw [early] at late
        cases late
      rw [List.takeWhile_cons_of_pos early, List.length_cons, List.getElem?_cons_succ,
        List.find?_cons_of_neg (by rw [other]; exact Bool.false_ne_true)]
      exact ih apart fun y member => reaches y (List.mem_cons_of_mem _ member)
    | false =>
      rw [List.takeWhile_cons_of_neg
        (by rw [early]; exact Bool.false_ne_true), List.length_nil, List.getElem?_cons_zero]
      cases here : holds x with
      | true =>
        rw [List.find?_cons_of_pos here]
        exact if_pos here
      | false =>
        rw [List.find?_cons_of_neg (by rw [here]; exact Bool.false_ne_true)]
        refine (if_neg (by rw [here]; exact Bool.false_ne_true)).trans (List.find?_eq_none.mpr ?_).symm
        intro y member holds_y
        have early' := before y member holds_y
        rw [early] at early'
        cases early'

/-- At most one of the ranges holds a point. -/
theorem filter_eq_find {α : Type*} {holds : α → Bool} {xs : List α}
    (single : xs.Pairwise fun a b => holds b → holds a = false) :
    xs.filter holds = (xs.find? holds).toList := by
  induction xs with
  | nil => rfl
  | cons x rest ih =>
    obtain ⟨alone, single⟩ := List.pairwise_cons.mp single
    cases here : holds x with
    | true =>
      have nothing : rest.filter holds = [] := by
        refine List.filter_eq_nil_iff.mpr ?_
        intro y member holds_y
        have other := alone y member holds_y
        rw [here] at other
        cases other
      rw [List.filter_cons_of_pos here, List.find?_cons_of_pos here, nothing]
      rfl
    | false =>
      rw [List.filter_cons_of_neg (by rw [here]; exact Bool.false_ne_true),
        List.find?_cons_of_neg (by rw [here]; exact Bool.false_ne_true)]
      exact ih single

/-- The list at the length of what is taken. -/
theorem takeWhile_split {α : Type*} (p : α → Bool) (xs : List α) {i : Nat}
    (h : (xs.takeWhile p).length = i + 1) :
    ∃ before x after, xs = before ++ x :: after ∧ before.length = i ∧ p x = true ∧
      ∀ y ∈ after.head?, p y = false := by
  have nonempty : xs.takeWhile p ≠ [] := by
    intro empty
    rw [empty] at h
    cases h
  refine ⟨(xs.takeWhile p).dropLast, (xs.takeWhile p).getLast nonempty, xs.dropWhile p, ?_, ?_, ?_, ?_⟩
  · conv_lhs => rw [← @List.takeWhile_append_dropWhile _ p xs, ← List.dropLast_concat_getLast nonempty]
    simp
  · rw [List.length_dropLast, h]
    rfl
  · exact List.all_eq_true.mp List.all_takeWhile _ (List.getLast_mem nonempty)
  · intro y first
    have := List.head?_dropWhile_not p xs
    rw [Option.mem_def.mp first] at this
    simpa using this

section Blocks
variable {α κ : Type*} [LinearOrder κ] (key : α → κ)

/-- Blocks that are not empty and ascend by key. -/
structure Cut (blocks : List (List α)) : Prop where
  nonempty : ∀ b ∈ blocks, b ≠ []
  ascends : blocks.flatten.Pairwise fun a b => key a ≤ key b

/-- The last block that starts at or before `k`, with what is before it and after it. -/
structure Covers (k : κ) (before : List (List α)) (block : List α) (after : List (List α)) :
    Prop where
  starts : ∃ head rest, block = head :: rest ∧ key head ≤ k ∧ (∀ e ∈ block, key head ≤ key e) ∧
    ∀ e ∈ before.flatten, key e ≤ key head
  above : ∀ e ∈ after.flatten, k < key e

variable {key} {blocks before after : List (List α)} {block : List α} {k : κ}

theorem Cut.of_append (h : Cut key (before ++ after)) : Cut key before ∧ Cut key after := by
  have ascends := h.ascends
  rw [List.flatten_append] at ascends
  obtain ⟨front, back, -⟩ := List.pairwise_append.mp ascends
  exact ⟨⟨fun b member => h.nonempty b (List.mem_append_left _ member), front⟩,
    ⟨fun b member => h.nonempty b (List.mem_append_right _ member), back⟩⟩

/-- Where the first block starts above `k`, all is above. -/
theorem Cut.above (h : Cut key blocks) (starts : ∀ b ∈ blocks.head?, ∀ e ∈ b.head?, k < key e) :
    ∀ e ∈ blocks.flatten, k < key e := by
  cases blocks with
  | nil =>
    intro e member
    cases member
  | cons b rest =>
    obtain ⟨head, more, rfl⟩ := List.exists_cons_of_ne_nil (h.nonempty b List.mem_cons_self)
    have least := starts _ rfl head rfl
    have ascends := h.ascends
    intro e member
    rw [List.flatten_cons, List.cons_append] at ascends member
    rcases List.mem_cons.mp member with rfl | later
    · exact least
    · exact least.trans_le ((List.pairwise_cons.mp ascends).1 e later)

theorem Cut.covers (h : Cut key (before ++ block :: after)) (starts : ∀ e ∈ block.head?, key e ≤ k)
    (ends : ∀ b ∈ after.head?, ∀ e ∈ b.head?, k < key e) : Covers key k before block after := by
  have rest : Cut key after := (@Cut.of_append _ _ _ _ [block] _ h.of_append.2).2
  refine ⟨?_, rest.above ends⟩
  obtain ⟨head, more, rfl⟩ := List.exists_cons_of_ne_nil
    (h.nonempty block (List.mem_append_right _ List.mem_cons_self))
  have ascends := h.ascends
  rw [List.flatten_append, List.flatten_cons, List.cons_append] at ascends
  obtain ⟨-, back, across⟩ := List.pairwise_append.mp ascends
  refine ⟨head, more, rfl, starts head rfl, ?_, fun e member => across e member head List.mem_cons_self⟩
  intro e member
  rcases List.mem_cons.mp member with rfl | later
  · exact le_refl _
  · exact (List.pairwise_cons.mp back).1 e (List.mem_append_left _ later)

section Index
variable {ι : Type*} {first : ι → κ} {index : List ι}

/-- The index names the first key of every block. -/
def Indexes (first : ι → κ) (key : α → κ) (index : List ι) (blocks : List (List α)) : Prop :=
  List.Forall₂ (fun i b => b.head?.map key = some (first i)) index blocks

theorem Indexes.cut_sorted (h : Indexes first key index blocks) (cut : Cut key blocks) :
    index.Pairwise fun a b => first a ≤ first b := by
  induction h with
  | nil => exact .nil
  | @cons i b index blocks starts _ ih =>
    refine List.pairwise_cons.mpr ⟨?_, ih (@Cut.of_append _ _ _ _ [b] _ cut).2⟩
    intro j member
    rename_i rest
    obtain ⟨b', listed, starts'⟩ : ∃ b' ∈ blocks, b'.head?.map key = some (first j) := by
      clear ih cut starts
      induction rest with
      | nil => cases member
      | @cons i' b'' index' blocks' here _ ih =>
        rcases List.mem_cons.mp member with rfl | later
        · exact ⟨b'', List.mem_cons_self, here⟩
        · obtain ⟨b', listed, found⟩ := ih later
          exact ⟨b', List.mem_cons_of_mem _ listed, found⟩
    obtain ⟨e, head, same⟩ := Option.map_eq_some_iff.mp starts
    obtain ⟨e', head', same'⟩ := Option.map_eq_some_iff.mp starts'
    rw [← same, ← same']
    have ascends := cut.ascends
    rw [List.flatten_cons] at ascends
    exact (List.pairwise_append.mp ascends).2.2 e (List.mem_of_head? head) e'
      (List.mem_flatten.mpr ⟨b', listed, List.mem_of_head? head'⟩)

theorem partitionPoint_index (h : Indexes first key index blocks) (cut : Cut key blocks) (k : κ) :
    partitionPoint (fun i => decide (first i ≤ k)) index =
      (index.takeWhile fun i => decide (first i ≤ k)).length := by
  refine partitionPoint_le _ _ ((h.cut_sorted cut).imp ?_)
  intro a b le below
  exact decide_eq_true (le.trans (of_decide_eq_true below))

/-- Where no block starts at or before the key, every key is above it. -/
theorem Indexes.none_below (h : Indexes first key index blocks) (cut : Cut key blocks)
    (missed : partitionPoint (fun i => decide (first i ≤ k)) index = 0) :
    ∀ e ∈ blocks.flatten, k < key e := by
  rw [partitionPoint_index h cut, List.length_eq_zero_iff] at missed
  refine cut.above ?_
  intro b starts e head
  cases h with
  | nil => cases starts
  | @cons i b' index blocks same rest =>
    obtain rfl := Option.some.inj starts
    rw [head] at same
    have same : key e = first i := Option.some.inj same
    by_contra reached
    have reached : decide (first i ≤ k) = true := decide_eq_true (same ▸ not_lt.mp reached)
    rw [List.takeWhile_cons, if_pos reached] at missed
    cases missed

/-- No key is below the first of the index. -/
theorem Indexes.first_le (h : Indexes first key index blocks) (cut : Cut key blocks) {i : ι}
    (head : index.head? = some i) {e : α} (member : e ∈ blocks.flatten) : first i ≤ key e := by
  cases h with
  | nil => cases head
  | @cons j b index blocks starts rest =>
    obtain rfl := Option.some.inj head
    obtain ⟨x, at_head, same⟩ := Option.map_eq_some_iff.mp starts
    obtain ⟨more, rfl⟩ := List.head?_eq_some_iff.mp at_head
    have ascends := cut.ascends
    rw [List.flatten_cons, List.cons_append] at ascends member
    rw [← same]
    rcases List.mem_cons.mp member with rfl | later
    · exact le_refl _
    · exact (List.pairwise_cons.mp ascends).1 e later

omit [LinearOrder κ] in
theorem Indexes.last_block (h : Indexes first key index blocks) {i : ι}
    (last : index.getLast? = some i) :
    ∃ before block, blocks = before ++ [block] ∧ block.head?.map key = some (first i) := by
  obtain ⟨front, rfl⟩ := List.getLast?_eq_some_iff.mp last
  have back := List.forall₂_drop front.length h
  rw [List.drop_left] at back
  obtain ⟨block, after, starts, none, rest⟩ := List.forall₂_cons_left_iff.mp back
  obtain rfl := List.forall₂_nil_left_iff.mp none
  refine ⟨blocks.take front.length, block, ?_, starts⟩
  rw [← rest, List.take_append_drop]

/-- No key is above the last of the index exactly where the last block holds its first key only. -/
theorem Indexes.le_last_iff (h : Indexes first key index blocks) (cut : Cut key blocks) {i : ι}
    (last : index.getLast? = some i) :
    (∀ e ∈ blocks.flatten, key e ≤ first i) ↔ ∀ block ∈ blocks.getLast?, ∀ e ∈ block,
      key e = first i := by
  obtain ⟨before, block, rfl, starts⟩ := h.last_block last
  obtain ⟨x, at_head, same⟩ := Option.map_eq_some_iff.mp starts
  have ascends := cut.ascends
  rw [List.flatten_append, List.flatten_singleton] at ascends ⊢
  obtain ⟨-, inside, across⟩ := List.pairwise_append.mp ascends
  obtain ⟨more, rfl⟩ := List.head?_eq_some_iff.mp at_head
  simp only [List.getLast?_append, List.getLast?_singleton, Option.some_or, Option.mem_def,
    Option.some.injEq, forall_eq']
  constructor
  · intro below e member
    refine le_antisymm (below e (List.mem_append_right _ member)) ?_
    rw [← same]
    rcases List.mem_cons.mp member with rfl | later
    · exact le_refl _
    · exact (List.pairwise_cons.mp inside).1 e later
  · intro equal e member
    rcases List.mem_append.mp member with early | final
    · exact (across e early x List.mem_cons_self).trans same.le
    · exact (equal e final).le

/-- The block that the index gives covers the key. -/
theorem Indexes.covers (h : Indexes first key index blocks) (cut : Cut key blocks) {i : Nat}
    (found : partitionPoint (fun i => decide (first i ≤ k)) index = i + 1) :
    ∃ before block after, blocks = before ++ block :: after ∧ before.length = i ∧
      Covers key k before block after ∧
      ∃ entry, index[i]? = some entry ∧ block.head?.map key = some (first entry) := by
  rw [partitionPoint_index h cut] at found
  obtain ⟨earlier, entry, later, rfl, length, reached, ends⟩ := takeWhile_split _ _ found
  obtain ⟨before, rest, front, back, rfl⟩ : ∃ before rest, Indexes first key earlier before ∧
      Indexes first key (entry :: later) rest ∧ blocks = before ++ rest := by
    refine ⟨blocks.take earlier.length, blocks.drop earlier.length, ?_, ?_,
      (List.take_append_drop _ _).symm⟩
    · have front := List.forall₂_take earlier.length h
      rwa [List.take_left] at front
    · have back := List.forall₂_drop earlier.length h
      rwa [List.drop_left] at back
  cases back with
  | @cons _ block _ after starts behind =>
    refine ⟨before, block, after, rfl, (List.Forall₂.length_eq front).symm.trans length,
      cut.covers ?_ ?_, entry, ?_, starts⟩
    · intro e head
      rw [head] at starts
      obtain same := Option.some.inj starts
      rw [same]
      exact of_decide_eq_true reached
    · intro b starts' e head
      cases behind with
      | nil => cases starts'
      | @cons i' b' _ _ same _ =>
        obtain rfl := Option.some.inj starts'
        rw [head] at same
        obtain same := Option.some.inj same
        rw [same]
        exact not_le.mp (of_decide_eq_false (ends i' rfl))
    · rw [← length, List.getElem?_append_right (le_refl _), Nat.sub_self]
      rfl

end Index

section Newest
variable (key) (rank : α → Nat)

/-- By key ascending, then by rank descending. -/
def Ranked (entries : List α) : Prop :=
  entries.Pairwise fun a b => key a < key b ∨ (key a = key b ∧ rank b ≤ rank a)

/-- An element with the key and the highest rank. -/
structure IsNewest (k : κ) (entries : List α) (e : α) : Prop where
  member : e ∈ entries
  same : key e = k
  highest : ∀ x ∈ entries, key x = k → rank x ≤ rank e

/-- What a search has to give: an element of the highest rank, or nothing where no element has the
key. -/
def FindsNewest (k : κ) (entries : List α) : Option α → Prop
  | some e => IsNewest key rank k entries e
  | none => ∀ x ∈ entries, key x ≠ k

/-- A block that starts with the key starts with its highest rank. -/
def Whole (k : κ) (blocks : List (List α)) : Prop :=
  ∀ b ∈ blocks, ∀ head ∈ b.head?, key head = k → ∀ x ∈ blocks.flatten, key x = k →
    rank x ≤ rank head

variable {key rank}

theorem Ranked.cut (h : Ranked key rank blocks.flatten) (nonempty : ∀ b ∈ blocks, b ≠ []) :
    Cut key blocks := by
  refine ⟨nonempty, h.imp ?_⟩
  rintro a b (less | ⟨same, -⟩)
  · exact less.le
  · exact same.le

/-- A search of the covering block finds the newest version of the key exactly when every block
that starts with the key starts with its newest version. -/
theorem findsNewest_iff (ranked : Ranked key rank (before ++ block :: after).flatten)
    (covers : Covers key k before block after) {found : Option α}
    (here : FindsNewest key rank k block found) :
    FindsNewest key rank k (before ++ block :: after).flatten found ↔
      Whole key rank k (before ++ block :: after) := by
  obtain ⟨head, rest, block_eq, reached, least, below⟩ := covers.starts
  have flat : (before ++ block :: after).flatten = before.flatten ++ (block ++ after.flatten) := by
    simp
  have ranks := ranked
  rw [Ranked, flat] at ranks
  obtain ⟨-, back, across⟩ := List.pairwise_append.mp ranks
  have inBlock : ∀ e ∈ block, e ∈ (before ++ block :: after).flatten := fun e member => by
    rw [flat]
    exact List.mem_append_right _ (List.mem_append_left _ member)
  have headIn : head ∈ block := by
    rw [block_eq]
    exact List.mem_cons_self
  constructor
  · intro finds b listed first starts same x member same'
    have present : first ∈ (before ++ block :: after).flatten :=
      List.mem_flatten.mpr ⟨b, listed, List.mem_of_head? starts⟩
    cases found with
    | none => exact absurd same (finds first present)
    | some e =>
      have inside : e ∈ block := here.member
      refine (finds.highest x member same').trans ?_
      rcases List.mem_append.mp listed with early | late
      · have precedes := across first (List.mem_flatten.mpr ⟨b, early, List.mem_of_head? starts⟩) e
          (List.mem_append_left _ inside)
        rcases precedes with less | ⟨-, newer⟩
        · exact absurd (same.trans finds.same.symm) less.ne
        · exact newer
      · rcases List.mem_cons.mp late with rfl | later
        · rw [block_eq] at starts back inside
          obtain rfl : head = first := by simpa using starts
          rcases List.mem_cons.mp inside with rfl | behind
          · exact le_refl _
          · rcases (List.pairwise_cons.mp back).1 e (List.mem_append_left _ behind) with less | ⟨-,
              newer⟩
            · exact absurd (same.trans finds.same.symm) less.ne
            · exact newer
        · exact absurd same (covers.above first (List.mem_flatten.mpr ⟨b, later, List.mem_of_head? starts⟩)).ne'
  · intro whole
    have elsewhere : ∀ x ∈ (before ++ block :: after).flatten, key x = k → x ∈ block ∨
        rank x ≤ rank head ∧ key head = k := by
      intro x member same
      rw [flat] at member
      rcases List.mem_append.mp member with early | later
      · have atHead : key head = k := le_antisymm reached (same ▸ below x early)
        exact Or.inr ⟨whole block (List.mem_append_right _ List.mem_cons_self)
          head (by simp [block_eq]) atHead x
          (flat ▸ member) same, atHead⟩
      · rcases List.mem_append.mp later with inside | behind
        · exact Or.inl inside
        · exact absurd same (covers.above x behind).ne'
    cases found with
    | none =>
      intro x member same
      rcases elsewhere x member same with inside | ⟨-, atHead⟩
      · exact here x inside same
      · exact here head headIn atHead
    | some e =>
      refine ⟨inBlock e here.member, here.same, ?_⟩
      intro x member same
      rcases elsewhere x member same with inside | ⟨lower, atHead⟩
      · exact here.highest x inside same
      · exact lower.trans (here.highest head headIn atHead)

omit [LinearOrder κ] in
/-- Where no element has the key, nothing is what a search has to give. -/
theorem findsNewest_absent (absent : ∀ x ∈ blocks.flatten, key x ≠ k) :
    FindsNewest key rank k blocks.flatten none ↔ Whole key rank k blocks := by
  refine ⟨?_, fun _ => absent⟩
  intro _ b listed head starts same
  exact absurd same (absent head (List.mem_flatten.mpr ⟨b, listed, List.mem_of_head? starts⟩))

section
variable {ι : Type*} {first : ι → κ} {index : List ι}

/-- A search through the index: nothing where no block starts at or before the key, else what a
search of the last such block gives. -/
theorem indexed_findsNewest_iff (indexes : Indexes first key index blocks)
    (ranked : Ranked key rank blocks.flatten) (nonempty : ∀ b ∈ blocks, b ≠ []) {found : Option α}
    (below : partitionPoint (fun i => decide (first i ≤ k)) index = 0 → found = none)
    (inside : ∀ i b, partitionPoint (fun i => decide (first i ≤ k)) index = i + 1 →
      blocks[i]? = some b → FindsNewest key rank k b found) :
    FindsNewest key rank k blocks.flatten found ↔ Whole key rank k blocks := by
  have cut := ranked.cut nonempty
  cases point : partitionPoint (fun i => decide (first i ≤ k)) index with
  | zero =>
    rw [below point]
    exact findsNewest_absent fun x member => (indexes.none_below cut point x member).ne'
  | succ i =>
    obtain ⟨before, block, after, rfl, length, covers, -⟩ := indexes.covers cut point
    refine findsNewest_iff ranked covers (inside i block point ?_)
    rw [← length, List.getElem?_append_right (le_refl _), Nat.sub_self]
    rfl

end

/-- In a ranked list the first element of a key is its newest. -/
theorem findsNewest_find {p : α → Bool} (named : ∀ e, p e = true ↔ key e = k) {entries : List α}
    (ranked : Ranked key rank entries) : FindsNewest key rank k entries (entries.find? p) := by
  induction entries with
  | nil =>
    intro x member
    cases member
  | cons e rest ih =>
    obtain ⟨after, ranked⟩ := List.pairwise_cons.mp ranked
    by_cases same : key e = k
    · rw [List.find?_cons_of_pos ((named e).mpr same)]
      refine ⟨List.mem_cons_self, same, ?_⟩
      intro x member same'
      rcases List.mem_cons.mp member with rfl | later
      · exact le_refl _
      · rcases after x later with less | ⟨-, lower⟩
        · exact absurd (same.trans same'.symm) less.ne
        · exact lower
    · rw [List.find?_cons_of_neg fun holds => same ((named e).mp holds)]
      have here := ih ranked
      cases found : rest.find? p with
      | none =>
        rw [found] at here
        intro x member
        rcases List.mem_cons.mp member with rfl | later
        · exact same
        · exact here x later
      | some newest =>
        rw [found] at here
        refine ⟨List.mem_cons_of_mem _ here.member, here.same, ?_⟩
        intro x member same'
        rcases List.mem_cons.mp member with rfl | later
        · exact absurd same' same
        · exact here.highest x later same'

variable (rank) in
/-- The element of the higher rank; the first of equals. -/
def keepHighest (best : Option α) (e : α) : Option α :=
  match best with
  | some b => if rank b ≥ rank e then some b else some e
  | none => some e

omit [LinearOrder κ] in
theorem findsNewest_keepHighest {entries : List α} {best : Option α} {e : α} (same : key e = k)
    (h : FindsNewest key rank k entries best) :
    FindsNewest key rank k (entries ++ [e]) (keepHighest rank best e) := by
  cases best with
  | none =>
    refine ⟨by simp, same, ?_⟩
    intro x member same'
    rcases List.mem_append.mp member with old | new
    · exact absurd same' (h x old)
    · rw [List.mem_singleton.mp new]
  | some b =>
    have upper : ∀ newest, rank b ≤ rank newest → rank e ≤ rank newest →
        ∀ x ∈ entries ++ [e], key x = k → rank x ≤ rank newest := by
      intro newest first second x member same'
      rcases List.mem_append.mp member with old | new
      · exact (h.highest x old same').trans first
      · rw [List.mem_singleton.mp new]
        exact second
    unfold keepHighest
    dsimp only
    split
    · rename_i higher
      exact ⟨List.mem_append_left _ h.member, h.same, upper b (le_refl _) higher⟩
    · rename_i lower
      exact ⟨by simp, same, upper e (by omega) (le_refl _)⟩

omit [LinearOrder κ] in
theorem findsNewest_other {entries : List α} {best : Option α} {e : α} (other : key e ≠ k)
    (h : FindsNewest key rank k entries best) : FindsNewest key rank k (entries ++ [e]) best := by
  cases best with
  | none =>
    intro x member
    rcases List.mem_append.mp member with old | new
    · exact h x old
    · rw [List.mem_singleton.mp new]
      exact other
  | some b =>
    refine ⟨List.mem_append_left _ h.member, h.same, ?_⟩
    intro x member same
    rcases List.mem_append.mp member with old | new
    · exact h.highest x old same
    · exact absurd (List.mem_singleton.mp new ▸ same) other

omit [LinearOrder κ] in
/-- A pass over all elements finds the newest of a key, in whatever order they stand. -/
theorem findsNewest_foldl [DecidablePred fun e => key e = k] (entries : List α) :
    FindsNewest key rank k entries
      (entries.foldl (fun best e => if key e = k then keepHighest rank best e else best) none) := by
  have pass : ∀ seen best, FindsNewest key rank k seen best →
      FindsNewest key rank k (seen ++ entries)
      (entries.foldl (fun best e => if key e = k then keepHighest rank best e else best) best) := by
    induction entries with
    | nil =>
      intro seen best h
      rw [List.append_nil]
      exact h
    | cons e rest ih =>
      intro seen best h
      rw [List.foldl_cons, List.append_cons]
      apply ih
      split
      · exact findsNewest_keepHighest ‹_› h
      · exact findsNewest_other ‹_› h
  exact pass [] none fun x member => nomatch member

omit [LinearOrder κ] in
theorem whole_map {β : Type*} (f : β → α) (blocks : List (List β)) :
    Whole key rank k (blocks.map (List.map f)) ↔ Whole (key ∘ f) (rank ∘ f) k blocks := by
  rw [Whole, ← List.map_flatten]
  simp only [Whole, List.mem_map, List.head?_map, Option.mem_def, Option.map_eq_some_iff,
    Function.comp_apply,
    forall_exists_index, and_imp, forall_apply_eq_imp_iff₂]

end Newest

section Range
variable (key)

/-- The elements of one block from `start` on, and whether one at or after `stop` ends the scan. -/
def scanBlock (start : κ) (stop : Option κ) : List α → List α × Bool
  | [] => ([], false)
  | e :: rest =>
    if key e < start then scanBlock start stop rest
    else if stop.any fun s => s ≤ key e then ([], true)
    else
      let (kept, ended) := scanBlock start stop rest
      (e :: kept, ended)

/-- The blocks in turn; one after the first that starts at or after `stop` ends the scan. -/
def scanBlocks (start : κ) (stop : Option κ) : Bool → List (List α) → List α
  | _, [] => []
  | first, b :: rest =>
    if !first && stop.any fun s => b.head?.any fun e => s ≤ key e then []
    else
      match scanBlock key start stop b with
      | (kept, true) => kept
      | (kept, false) => kept ++ scanBlocks start stop false rest

def InRange (start : κ) (stop : Option κ) (e : α) : Bool :=
  start ≤ key e ∧ ¬ stop.any fun s => s ≤ key e

variable {key} {start : κ} {stop : Option κ}

theorem inRange_false (above : ∃ s ∈ stop, s ≤ key e) : InRange key start stop e = false := by
  obtain ⟨s, rfl, le⟩ := above
  simp [InRange, le]

theorem filter_above {entries : List α} (above : ∃ s ∈ stop, ∀ e ∈ entries, s ≤ key e) :
    entries.filter (InRange key start stop) = [] := by
  obtain ⟨s, given, le⟩ := above
  refine List.filter_eq_nil_iff.mpr ?_
  intro e member
  simp [inRange_false ⟨s, given, le e member⟩]

/-- A block gives its elements in the range, and what ended it is at or after `stop`. -/
theorem scanBlock_spec {entries : List α} (ascends : entries.Pairwise fun a b => key a ≤ key b) :
    (scanBlock key start stop entries).1 = entries.filter (InRange key start stop) ∧
      ((scanBlock key start stop entries).2 = true → ∃ e ∈ entries, ∃ s ∈ stop, s ≤ key e) := by
  induction entries with
  | nil => exact ⟨rfl, by simp [scanBlock]⟩
  | cons e rest ih =>
    obtain ⟨after, ascends⟩ := List.pairwise_cons.mp ascends
    obtain ⟨kept, ended⟩ := ih ascends
    unfold scanBlock
    split
    · rename_i early
      rw [List.filter_cons_of_neg (by simp [InRange, not_le.mpr early])]
      exact ⟨kept, fun stops => by
        obtain ⟨x, member, s, given, le⟩ := ended stops
        exact ⟨x, List.mem_cons_of_mem _ member, s, given, le⟩⟩
    split
    · rename_i stops
      obtain ⟨s, given, le⟩ := (Option.any_eq_true _ _).mp stops
      have le := of_decide_eq_true le
      refine ⟨?_, fun _ => ⟨e, List.mem_cons_self, s, given, le⟩⟩
      refine (filter_above ⟨s, given, ?_⟩).symm
      intro x member
      rcases List.mem_cons.mp member with rfl | later
      · exact le
      · exact le.trans (after x later)
    · rename_i reached goesOn
      rw [List.filter_cons_of_pos (by simp [InRange, not_lt.mp reached, goesOn])]
      refine ⟨congrArg (e :: ·) kept, ?_⟩
      intro stops
      obtain ⟨x, member, s, given, le⟩ := ended stops
      exact ⟨x, List.mem_cons_of_mem _ member, s, given, le⟩

/-- A scan of any blocks keeps to the range. -/
theorem mem_scanBlocks {first : Bool} {e : α} (h : e ∈ scanBlocks key start stop first blocks) :
    InRange key start stop e := by
  have block : ∀ {entries : List α}, e ∈ (scanBlock key start stop entries).1 →
      InRange key start stop e := by
    intro entries member
    induction entries with
    | nil => cases member
    | cons x rest ih =>
      unfold scanBlock at member
      split at member
      · exact ih member
      · rename_i reached
        split at member
        · cases member
        · rename_i before
          rcases List.mem_cons.mp member with rfl | later
          · exact decide_eq_true ⟨not_lt.mp reached, before⟩
          · exact ih later
  induction blocks generalizing first with
  | nil => cases h
  | cons b rest ih =>
    unfold scanBlocks at h
    split at h
    · cases h
    · cases scanned : scanBlock key start stop b with
      | mk kept ended =>
        have here := @block b
        rw [scanned] at h here
        cases ended with
        | true => exact here h
        | false =>
          rcases List.mem_append.mp h with now | later
          · exact here now
          · exact ih later

/-- A scan of ascending blocks gives their elements in the range. -/
theorem scanBlocks_eq (cut : Cut key blocks) (first : Bool) :
    scanBlocks key start stop first blocks = blocks.flatten.filter (InRange key start stop) := by
  induction blocks generalizing first with
  | nil => rfl
  | cons b rest ih =>
    have ascends := cut.ascends
    rw [List.flatten_cons] at ascends
    obtain ⟨inside, -, across⟩ := List.pairwise_append.mp ascends
    have later := ih (@Cut.of_append _ _ _ _ [b] _ cut).2 false
    rw [List.flatten_cons, List.filter_append]
    unfold scanBlocks
    split
    · rename_i ended
      obtain ⟨s, given, le⟩ := (Option.any_eq_true _ _).mp (Bool.and_eq_true_iff.mp ended).2
      obtain ⟨head, starts, le⟩ := (Option.any_eq_true _ _).mp le
      have le := of_decide_eq_true le
      obtain ⟨more, block_eq⟩ := List.head?_eq_some_iff.mp starts
      have above : ∀ e ∈ (b :: rest).flatten, s ≤ key e := by
        intro e member
        rw [List.flatten_cons, block_eq, List.cons_append] at member
        rw [block_eq, List.cons_append] at ascends
        rcases List.mem_cons.mp member with rfl | behind
        · exact le
        · exact le.trans ((List.pairwise_cons.mp ascends).1 e behind)
      rw [← List.filter_append, ← List.flatten_cons]
      exact (filter_above ⟨s, given, above⟩).symm
    · obtain ⟨kept, ended⟩ := @scanBlock_spec _ _ _ _ start stop _ inside
      split
      · rename_i part scanned
        rw [scanned] at kept ended
        obtain ⟨e, member, s, given, le⟩ := ended rfl
        have none_left : rest.flatten.filter (InRange key start stop) = [] :=
          filter_above ⟨s, given, fun x behind => le.trans (across e member x behind)⟩
        rw [none_left, List.append_nil]
        exact kept
      · rename_i part scanned
        rw [scanned] at kept
        rw [later]
        exact congrArg (· ++ _) kept

/-- A block that starts with the key has no element of the key before it. -/
def Unbroken (k : κ) (key : α → κ) (blocks : List (List α)) : Prop :=
  ∀ before b after, blocks = before ++ b :: after → b.head?.map key = some k →
    ∀ e ∈ before.flatten, key e ≠ k

/-- A range read from the covering block on is whole exactly when it is empty or no element of its
first key stands in an earlier block. -/
theorem filter_covers_iff (covers : Covers key start before block after) :
    (block :: after).flatten.filter (InRange key start stop) =
        (before ++ block :: after).flatten.filter (InRange key start stop) ↔
      (∃ s ∈ stop, s ≤ start) ∨ Unbroken start key (before ++ block :: after) := by
  obtain ⟨head, rest, block_eq, reached, least, below⟩ := covers.starts
  rw [List.flatten_append, List.filter_append]
  constructor
  · intro same
    have nothing : before.flatten.filter (InRange key start stop) = [] := by
      have lengths := congrArg List.length same
      rw [List.length_append] at lengths
      exact List.length_eq_zero_iff.mp (by omega)
    by_cases empty : ∃ s ∈ stop, s ≤ start
    · exact Or.inl empty
    · refine Or.inr ?_
      intro before' b after' whole starts e member equal
      -- an element of the key before the block that starts with it would be in the range
      have inside : InRange key start stop e = true := by
        simp only [InRange, equal, le_refl, true_and, decide_eq_true_eq, Option.any_eq_true,
          not_exists, not_and]
        intro s given le
        exact empty ⟨s, given, le⟩
      obtain ⟨first, starts', same'⟩ := Option.map_eq_some_iff.mp starts
      rcases List.append_eq_append_iff.mp whole with ⟨middle, front, back⟩ | ⟨middle, front, back⟩
      · -- the covering block stands at or before `b`
        cases middle with
        | nil =>
          rw [List.append_nil] at front
          rw [front] at member
          exact List.filter_eq_nil_iff.mp nothing e member inside
        | cons first' more =>
          obtain ⟨rfl, behind⟩ := List.cons.inj back
          have above := covers.above first (by
            rw [behind]
            show first ∈ (more ++ b :: after').flatten
            rw [List.flatten_append, List.flatten_cons]
            exact List.mem_append_right _ (List.mem_append_left _ (List.mem_of_head? starts')))
          exact absurd same' above.ne'
      · have early : e ∈ before.flatten := by
          rw [front, List.flatten_append]
          exact List.mem_append_left _ member
        exact List.filter_eq_nil_iff.mp nothing e early inside
  · intro condition
    have nothing : before.flatten.filter (InRange key start stop) = [] := by
      refine List.filter_eq_nil_iff.mpr ?_
      intro e member inside
      simp only [InRange, decide_eq_true_eq, Option.any_eq_true, not_exists, not_and] at inside
      obtain ⟨from_start, open_end⟩ := inside
      have atStart : key e = start := le_antisymm ((below e member).trans reached) from_start
      rcases condition with ⟨s, given, le⟩ | unbroken
      · exact open_end s given (le.trans atStart.ge)
      · refine unbroken before block after rfl ?_ e member atStart
        rw [block_eq]
        exact congrArg some (le_antisymm reached (atStart ▸ below e member))
    rw [nothing, List.nil_append]

theorem unbroken_of_above (above : ∀ e ∈ blocks.flatten, k < key e) : Unbroken k key blocks := by
  intro before b after whole starts e member same
  have inside : e ∈ blocks.flatten := by
    rw [whole, List.flatten_append]
    exact List.mem_append_left _ member
  exact (above e inside).ne' same

omit [LinearOrder κ] in
theorem unbroken_map {β : Type*} (f : β → α) (blocks : List (List β)) :
    Unbroken k key (blocks.map (List.map f)) ↔ Unbroken k (key ∘ f) blocks := by
  constructor
  · intro h before b after whole starts e member
    refine h (before.map (List.map f)) (b.map f) (after.map (List.map f)) ?_ ?_ (f e) ?_
    · rw [whole, List.map_append, List.map_cons]
    · rw [List.head?_map, Option.map_map]
      exact starts
    · rw [← List.map_flatten]
      exact List.mem_map_of_mem member
  · intro h before b after whole starts e member same
    obtain ⟨before, rest, rfl, rfl, split⟩ := List.map_eq_append_iff.mp whole
    obtain ⟨b, after, rfl, rfl, -⟩ := List.map_eq_cons_iff.mp split
    rw [← List.map_flatten] at member
    obtain ⟨e, inside, rfl⟩ := List.mem_map.mp member
    rw [List.head?_map, Option.map_map] at starts
    exact h before b after rfl starts e inside same

section
variable {ι : Type*} {first : ι → κ} {index : List ι}

/-- A range read from the block that the index gives, or from the first where it gives none. -/
theorem indexed_scan_iff (indexes : Indexes first key index blocks) (cut : Cut key blocks) {i : Nat}
    (chosen : i = partitionPoint (fun j => decide (first j ≤ start)) index - 1) :
    scanBlocks key start stop true (blocks.drop i) = blocks.flatten.filter (InRange key start stop) ↔
      (∃ s ∈ stop, s ≤ start) ∨ Unbroken start key blocks := by
  cases point : partitionPoint (fun j => decide (first j ≤ start)) index with
  | zero =>
    rw [point] at chosen
    subst chosen
    rw [List.drop_zero, scanBlocks_eq cut]
    exact iff_of_true rfl (Or.inr (unbroken_of_above (indexes.none_below cut point)))
  | succ j =>
    rw [point, Nat.add_sub_cancel] at chosen
    subst chosen
    obtain ⟨before, block, after, rfl, length, covers, -⟩ := indexes.covers cut point
    rw [List.drop_left' length, scanBlocks_eq cut.of_append.2]
    exact filter_covers_iff covers

/-- Whatever the range read leaves out of the blocks before the one it starts at is not above its
first key. -/
theorem indexed_scan_split (indexes : Indexes first key index blocks) (cut : Cut key blocks)
    {i : Nat} (chosen : i = partitionPoint (fun j => decide (first j ≤ start)) index - 1) :
    ∃ before after, blocks = before ++ after ∧ (∀ e ∈ before.flatten, key e ≤ start) ∧
      scanBlocks key start stop true (blocks.drop i) =
        after.flatten.filter (InRange key start stop) := by
  cases point : partitionPoint (fun j => decide (first j ≤ start)) index with
  | zero =>
    rw [point] at chosen
    subst chosen
    exact ⟨[], blocks, rfl, by simp, scanBlocks_eq cut true⟩
  | succ j =>
    rw [point, Nat.add_sub_cancel] at chosen
    subst chosen
    obtain ⟨before, block, after, rfl, length, covers, -⟩ := indexes.covers cut point
    refine ⟨before, block :: after, rfl, ?_, ?_⟩
    · obtain ⟨head, rest, -, reached, -, below⟩ := covers.starts
      intro e member
      exact (below e member).trans reached
    · rw [List.drop_left' length]
      exact scanBlocks_eq cut.of_append.2 true

end

end Range

end Blocks

end FlushDB.Lib
