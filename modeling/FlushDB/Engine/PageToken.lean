import FlushDB.Engine.Paging
import FlushDB.Lib.Codec

/-!
The bytes of a page token, which a client hands back, and what a read gives that resumes from any
token a client may hand in.
-/

namespace FlushDB
open Lib

namespace PageToken

def encode (token : PageToken) : Bytes :=
  let keyBytes := token.lastCompositeKey.bytes
  ⟨leBytes 4 keyBytes.len ++ keyBytes.data ++ leBytes 8 token.lastSequenceNumber ++
    match token.avgItemSizeBytes with
    | some avg => 1 :: leBytes 4 avg
    | none => [0]⟩

/-- The average is read only where it is announced and whole; bytes behind it are not looked at. -/
def decode (data : Bytes) : FlushResult PageToken :=
  if data.len < 12 then .error (.invalidArgument "page token too short")
  else
    let keyLen := fromLeBytes (data.data.take 4)
    if data.len < 4 + keyLen + 8 then .error (.invalidArgument "page token truncated")
    else
      match CompositeKey.fromBytes ⟨(data.data.drop 4).take keyLen⟩ with
      | .error e => .error e
      | .ok key =>
        let avgPos := 4 + keyLen + 8
        .ok { lastCompositeKey := key
              lastSequenceNumber := fromLeBytes ((data.data.drop (4 + keyLen)).take 8)
              avgItemSizeBytes :=
                if data.data[avgPos]? = some 1 ∧ avgPos + 5 ≤ data.len then
                  some (fromLeBytes ((data.data.drop (avgPos + 1)).take 4))
                else none }

/-- The fields of a token fit into theirs of the encoding. -/
structure Fits (token : PageToken) : Prop where
  key : token.lastCompositeKey.bytes.len < 2 ^ 32
  sequence : token.lastSequenceNumber < 2 ^ 64
  average : ∀ avg ∈ token.avgItemSizeBytes, avg < 2 ^ 32

theorem decode_encode {token : PageToken} (fits : token.Fits) :
    decode token.encode = .ok token := by
  obtain ⟨key, sequence, avg⟩ := token
  obtain ⟨short, low, small⟩ := fits
  dsimp only at short low small
  generalize tail_eq : (match avg with
    | some avg => 1 :: leBytes 4 avg
    | none => [0]) = tail
  have whole : encode ⟨key, sequence, avg⟩ =
      ⟨leBytes 4 key.bytes.len ++ (key.bytes.data ++ (leBytes 8 sequence ++ tail))⟩ := by
    rw [← tail_eq]
    simp only [encode, List.append_assoc]
  have len : fromLeBytes ((leBytes 4 key.bytes.len ++
      (key.bytes.data ++ (leBytes 8 sequence ++ tail))).take 4) = key.bytes.len := by
    rw [List.take_left' (length_leBytes _ _)]
    exact fromLeBytes_leBytes short
  have nonempty : 0 < key.bytes.data.length := List.length_pos_of_mem key.separated
  have size : (leBytes 4 key.bytes.len ++ (key.bytes.data ++ (leBytes 8 sequence ++ tail))).length =
      4 + key.bytes.len + 8 + tail.length := by
    simp only [List.length_append, length_leBytes, Bytes.len]
    omega
  have head : (leBytes 4 key.bytes.len ++ (key.bytes.data ++ (leBytes 8 sequence ++ tail))).drop 4 =
      key.bytes.data ++ (leBytes 8 sequence ++ tail) := List.drop_left' (length_leBytes _ _)
  have middle : (leBytes 4 key.bytes.len ++ (key.bytes.data ++ (leBytes 8 sequence ++ tail))).drop
      (4 + key.bytes.len) =
      leBytes 8 sequence ++ tail := by
    rw [← List.drop_drop, head]
    exact List.drop_left' rfl
  have back : (leBytes 4 key.bytes.len ++ (key.bytes.data ++ (leBytes 8 sequence ++ tail))).drop
      (4 + key.bytes.len + 8) = tail := by
    rw [← List.drop_drop, middle]
    exact List.drop_left' (length_leBytes _ _)
  have tail_length : 1 ≤ tail.length := by
    rw [← tail_eq]
    cases avg <;> simp
  generalize leBytes 4 key.bytes.len ++ (key.bytes.data ++ (leBytes 8 sequence ++ tail)) =
    bytes at whole len size head middle back
  have keyed : key.bytes.data.length = key.bytes.len := rfl
  have length : Bytes.len ⟨bytes⟩ = bytes.length := rfl
  have enough : ¬ Bytes.len ⟨bytes⟩ < 12 := by omega
  have untruncated : ¬ Bytes.len ⟨bytes⟩ < 4 + key.bytes.len + 8 := by omega
  rw [whole, decode]
  dsimp only
  rw [if_neg enough, len, if_neg untruncated, head, List.take_left' keyed, middle,
    List.take_left' (length_leBytes _ _),
    fromLeBytes_leBytes low, ← List.drop_drop, back, ← List.head?_drop, back]
  have made : CompositeKey.fromBytes ⟨key.bytes.data⟩ = .ok key := dif_pos key.separated
  rw [made]
  cases avg with
  | none =>
    rw [← tail_eq]
    simp
  | some n =>
    rw [← tail_eq] at size ⊢
    have width : (leBytes 4 n).length = 4 := length_leBytes 4 n
    simp only [List.length_cons, width] at size
    rw [if_pos ⟨rfl, by omega⟩]
    simp only [List.drop_succ_cons, List.drop_zero]
    rw [take_leBytes (le_refl _), fromLeBytes_leBytes (small n rfl)]

end PageToken

namespace ReadPath
variable {renv : ReadEnv} {draw : ReadDraw} {recordId : Bytes} {startKey endKey : Option Bytes}
  {options : RangeReadOptions}
  {l : MemtableList} {tables : Tables} {levels : List LevelState} {r : RangeReadResult}

/-- What a page takes comes from its sources, is behind the token and of the record. -/
theorem collect_taken {fuel : Nat} {p : Page} {x : MergeEntry}
    (h : x ∈ (collect recordId options fuel p).entries) :
    x ∈ p.entries ∨ (x ∈ MergeIterator.pending p.sources ∧ pastToken options.resumeFrom x = true ∧
      x.compositeKey.recordId = recordId) := by
  have visited : ∀ {e : MergeEntry} {p : Page}, x ∈ (visit recordId options e p).entries →
      x ∈ p.entries ∨ (x = e ∧ pastToken options.resumeFrom x = true ∧
        x.compositeKey.recordId = recordId) := by
    intro e p member
    unfold visit at member
    split at member
    · exact Or.inl member
    rename_i reached
    split at member
    · exact Or.inl member
    rename_i same
    split at member
    · exact Or.inl member
    split at member
    · exact Or.inl member
    split at member
    · exact Or.inl member
    rcases List.mem_append.mp member with old | new
    · exact Or.inl old
    · obtain rfl := List.mem_singleton.mp new
      exact Or.inr ⟨rfl, by simpa [pastToken] using reached, not_not.mp same⟩
  induction fuel generalizing p with
  | zero => exact Or.inl h
  | succ fuel ih =>
    unfold collect at h
    split at h
    · exact Or.inl h
    rename_i e sources next
    obtain ⟨inside, fewer⟩ := MergeIterator.nextDeduped_subset next
    have here : x ∈ (visit recordId options e { p with sources }).entries → x ∈ p.entries ∨
        (x ∈ MergeIterator.pending p.sources ∧ pastToken options.resumeFrom x = true ∧
          x.compositeKey.recordId = recordId) := by
      intro member
      rcases visited member with old | ⟨rfl, taken⟩
      · exact Or.inl old
      · exact Or.inr ⟨inside, taken⟩
    dsimp only at h
    split at h
    · exact here h
    · rcases ih h with now | ⟨later, taken⟩
      · exact here now
      · rw [visit_sources] at later
        exact Or.inr ⟨fewer x later, taken⟩

/-- Every entry lies between the bounds of the read, behind the token, and the token that is given
out is the key of an entry. -/
theorem rangeRead_taken
    (read : rangeRead renv draw recordId startKey endKey options l tables levels = .ok r) :
    ∃ start stop, startBound recordId startKey options = .ok start ∧
      endBound recordId endKey = .ok stop ∧
      (∀ e ∈ r.entries, start ≤ e.compositeKey ∧ e.compositeKey < stop ∧
        pastToken options.resumeFrom e = true ∧
        e.compositeKey.recordId = recordId) ∧
      ∀ token, r.nextPageToken = some token → ∃ e ∈ r.entries,
        token.lastCompositeKey = e.compositeKey := by
  obtain ⟨start, stop, sources, first, last, sourced, entries, -, token⟩ := rangeRead_eq read
  refine ⟨start, stop, first, last, ?_, ?_⟩
  · intro e member
    rw [entries] at member
    rcases collect_taken member with none | ⟨inside, past, same⟩
    · cases none
    · obtain ⟨low, high⟩ := readSources_bounds sourced inside
      exact ⟨low, high, past, same⟩
  · intro t given
    rw [token, pageToken] at given
    split at given
    · cases given
    · obtain ⟨final, ends, rfl⟩ := Option.map_eq_some_iff.mp given
      rw [← entries] at ends
      exact ⟨final, List.mem_of_getLast? ends, rfl⟩

theorem itemKey_lt_end {stop key : CompositeKey} (last : endBound recordId endKey = .ok stop)
    (same : key.recordId = recordId) (less : key < stop) :
    ∀ given ∈ endKey, key.itemKey < given := by
  intro given named
  simp only [endBound, Option.mem_def.mp named] at last
  rw [(CompositeKey.new_ok last).2, ← CompositeKey.encode_parts key, same,
    CompositeKey.encode_lt_encode] at less
  exact less

/-- Whatever token a client hands in, a read gives entries of the record, before the end and behind
the token; where the token is not before the first key of the range, none of them is. -/
theorem resumed_within {data : Bytes}
    (decoded : (PageToken.decode data).map some = .ok options.resumeFrom)
    (read : rangeRead renv draw recordId startKey endKey options l tables levels = .ok r) :
    ∃ token, PageToken.decode data = .ok token ∧
      (∀ e ∈ r.entries, e.compositeKey.recordId = recordId ∧ token.lastCompositeKey < e.compositeKey ∧
        (∀ last ∈ endKey, e.compositeKey.itemKey < last) ∧
        ∀ first ∈ startKey, CompositeKey.encode recordId first.data ≤ token.lastCompositeKey →
          first ≤ e.compositeKey.itemKey) ∧
      ∀ next, r.nextPageToken = some next → token.lastCompositeKey < next.lastCompositeKey := by
  cases parsed : PageToken.decode data with
  | error e =>
    rw [parsed] at decoded
    cases decoded
  | ok token =>
    rw [parsed] at decoded
    have resumes : some token = options.resumeFrom := Except.ok.inj decoded
    obtain ⟨start, stop, -, last, inside, next⟩ := rangeRead_taken read
    rw [← resumes, pastToken_some] at inside
    refine ⟨token, rfl, ?_, ?_⟩
    · intro e member
      obtain ⟨-, high, past, same⟩ := inside e member
      have past := of_decide_eq_true past
      refine ⟨same, past, itemKey_lt_end last same high, ?_⟩
      intro first given reached
      have above : CompositeKey.encode recordId first.data <
          CompositeKey.encode recordId e.compositeKey.itemKey.data := by
        rw [← same, CompositeKey.encode_parts, same]
        exact reached.trans_lt past
      exact (CompositeKey.encode_lt_encode.mp above).le
    · intro t given
      obtain ⟨e, member, key⟩ := next t given
      rw [key]
      exact of_decide_eq_true (inside e member).2.2.1

section Example

/-- One record with the item 5. -/
def oneItem : FlushResult MemtableList := do
  let (_, l) ← (MemtableList.new {} 1).insertPrechecked (versionOf 5 7 1)
  return l

/-- The bytes of a token for an item of the record. -/
def tokenFor (item : UInt8) : Bytes :=
  PageToken.encode ⟨CompositeKey.encode ⟨[114]⟩ [item], 0, none⟩

/-- A token for a key before the range gives an item before the range. -/
theorem resumed_before_start :
    ∃ l token r, oneItem = .ok l ∧ PageToken.decode (tokenFor 1) = .ok token ∧
      rangeRead (bloomReads Sst.plainCodec 10 4096 8) {} ⟨[114]⟩ (some ⟨[9]⟩) none
        { resumeFrom := some token } l
        ObjectStore.empty [] = .ok r ∧
      ∃ e ∈ r.entries, e.compositeKey.itemKey < ⟨[9]⟩ := by
  refine ⟨_, _, _, rfl, rfl, rfl, ?_⟩
  decide +kernel

theorem resumed_within_sample :
    ∃ l r, oneItem = .ok l ∧
      rangeRead (bloomReads Sst.plainCodec 10 4096 8) {} ⟨[114]⟩ (some ⟨[2]⟩) (some ⟨[8]⟩)
        { resumeFrom := some ⟨CompositeKey.encode ⟨[114]⟩ [3], 0, none⟩ } l ObjectStore.empty [] =
          .ok r ∧
      r.entries.length = 1 ∧ ∀ e ∈ r.entries, e.compositeKey.recordId = ⟨[114]⟩ ∧
        e.compositeKey.itemKey < ⟨[8]⟩ ∧
        ⟨[2]⟩ ≤ e.compositeKey.itemKey := by
  refine ⟨_, _, rfl, rfl, ?_, ?_⟩
  · decide +kernel
  · obtain ⟨token, decoded, within, -⟩ := @resumed_within (bloomReads Sst.plainCodec 10 4096 8) {}
      ⟨[114]⟩ (some ⟨[2]⟩)
      (some ⟨[8]⟩) { resumeFrom := some ⟨CompositeKey.encode ⟨[114]⟩ [3], 0, none⟩ } _
        ObjectStore.empty [] _ (tokenFor 3) rfl rfl
    have same : token.lastCompositeKey = CompositeKey.encode ⟨[114]⟩ [3] := by
      rw [← Except.ok.inj ((show PageToken.decode (tokenFor 3) =
        .ok ⟨CompositeKey.encode ⟨[114]⟩ [3], 0, none⟩ from rfl).symm.trans
        decoded)]
    intro e member
    obtain ⟨record, -, before, behind⟩ := within e member
    refine ⟨record, before _ rfl, behind _ rfl ?_⟩
    rw [same]
    decide

end Example

end ReadPath

end FlushDB
