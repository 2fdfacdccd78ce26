import FlushDB.Engine.Moves
import FlushDB.Engine.RangeDeletes

/-!
Idempotency tokens. A memtable knows the tokens of its entries, through inserts, freezes and
replays; the tables have theirs in a block that no write asks. A write that is sent again changes
nothing as long as the first one is in a memtable.
-/

namespace FlushDB
open Lib

/-- The tokens of the entries are known. -/
def Memtable.Remembers (m : Memtable) : Prop :=
  ∀ x ∈ m.skiplist.nodes, x.idempotencyKey.isNone = false → x.idempotencyKey ∈ m.dedupSet

namespace Memtable
variable {m m' : Memtable} {entry : MemtableEntry} {n : Nat}

theorem Remembers.insertInner (h : m.Remembers) (entry : MemtableEntry) :
    (m.insertInner entry).Remembers := by
  intro x member token
  unfold Memtable.insertInner
  rcases SkipList.mem_insertNode member with rfl | old
  · simp only [token, Bool.false_eq_true, if_false]
    exact List.mem_insert_self
  · have known := h x old token
    dsimp only
    split
    · exact known
    · exact List.mem_insert_of_mem known

theorem Remembers.insertPrechecked (h : m.Remembers)
    (taken : m.insertPrechecked entry = .ok (n, m')) : m'.Remembers := by
  unfold Memtable.insertPrechecked at taken
  split at taken
  · cases taken
  · obtain ⟨-, rfl⟩ := Prod.mk.inj (Except.ok.inj taken)
    refine Remembers.insertInner ?_ _
    exact h

theorem Remembers.insert (h : m.Remembers) (taken : m.insert entry = .ok (n, m')) :
    m'.Remembers := by
  unfold Memtable.insert at taken
  split at taken
  · cases taken
  split at taken
  · cases taken
  · exact h.insertPrechecked taken

theorem Remembers.insertWithAssignedSequence (h : m.Remembers)
    (taken : m.insertWithAssignedSequence entry = .ok (n, m')) :
    m'.Remembers := by
  unfold Memtable.insertWithAssignedSequence at taken
  split at taken
  · cases taken
  · obtain ⟨-, rfl⟩ := Prod.mk.inj (Except.ok.inj taken)
    refine Remembers.insertInner ?_ _
    exact h

end Memtable

namespace MemtableList

def Remembers (l : MemtableList) : Prop := ∀ m ∈ l.memtables, m.Remembers

/-- An entry with the token is in the active or in a frozen memtable. -/
def Buffers (l : MemtableList) (token : IdempotencyToken) : Prop :=
  ∃ m ∈ l.memtables, ∃ x ∈ m.skiplist.nodes, x.idempotencyKey = token

instance (l : MemtableList) (token : IdempotencyToken) : Decidable (l.Buffers token) :=
  inferInstanceAs (Decidable (∃ m ∈ l.memtables, ∃ x ∈ m.skiplist.nodes, x.idempotencyKey = token))

variable {l l' : MemtableList} {entry : MemtableEntry} {n : Nat} {token : IdempotencyToken}

theorem knows_iff :
    l.knows token = true ↔ token.isNone = false ∧ ∃ m ∈ l.memtables, token ∈ m.dedupSet := by
  have one : ∀ m : Memtable, m.checkDedup token = true ↔ token.isNone = false ∧
      token ∈ m.dedupSet := by
    intro m
    simp [Memtable.checkDedup]
  simp only [knows, Bool.or_eq_true, List.any_eq_true, one, memtables, List.mem_cons, List.mem_map,
    exists_eq_or_imp]
  constructor
  · rintro (⟨some, known⟩ | ⟨m, frozen, some, known⟩)
    · exact ⟨some, Or.inl known⟩
    · exact ⟨some, Or.inr ⟨m.2, ⟨m, frozen, rfl⟩, known⟩⟩
  · rintro ⟨some, known | ⟨-, ⟨m, frozen, rfl⟩, known⟩⟩
    · exact Or.inl ⟨some, known⟩
    · exact Or.inr ⟨m, frozen, some, known⟩

/-- A token that is in a memtable is known. -/
theorem Remembers.knows (h : l.Remembers) (some : token.isNone = false)
    (buffered : l.Buffers token) : l.knows token = true := by
  obtain ⟨m, member, x, node, rfl⟩ := buffered
  exact knows_iff.mpr ⟨some, m, member, h m member x node some⟩

theorem Remembers.new (config : MemtableConfig) (first : Nat) :
    (MemtableList.new config first).Remembers := by
  intro m member x node
  obtain rfl := List.mem_singleton.mp member
  cases node

theorem Remembers.insertBy (h : l.Remembers) {insert : Memtable → FlushResult (Nat × Memtable)}
    (keeps : ∀ m', insert l.active = .ok (n, m') → m'.Remembers)
    (taken : l.insertBy insert = .ok (n, l')) : l'.Remembers := by
  unfold MemtableList.insertBy at taken
  split at taken
  · cases taken
  · rename_i seq active done
    obtain ⟨rfl, rfl⟩ := Prod.mk.inj (Except.ok.inj taken)
    intro m member
    rcases List.mem_cons.mp member with rfl | frozen
    · exact keeps _ done
    · exact h m (List.mem_cons_of_mem _ frozen)

theorem Remembers.insert (h : l.Remembers) (taken : l.insert entry = .ok (n, l')) :
    l'.Remembers := by
  unfold MemtableList.insert at taken
  split at taken
  · cases taken
  · exact h.insertBy (fun m' done => (h l.active List.mem_cons_self).insert done) taken

theorem Remembers.insertPrechecked (h : l.Remembers)
    (taken : l.insertPrechecked entry = .ok (n, l')) : l'.Remembers :=
  h.insertBy (fun _ done => (h l.active List.mem_cons_self).insertWithAssignedSequence done) taken

theorem Remembers.freeze (h : l.Remembers) {generation : Nat}
    (frozen : l.freezeActiveWithGeneration generation = .ok l') :
    l'.Remembers := by
  unfold MemtableList.freezeActiveWithGeneration at frozen
  split at frozen
  · cases frozen
  · obtain rfl := Except.ok.inj frozen
    intro m member
    rcases List.mem_cons.mp member with rfl | member
    · intro x node
      cases node
    · rcases List.mem_cons.mp member with rfl | older
      · exact h l.active List.mem_cons_self
      · exact h m (List.mem_cons_of_mem _ older)

theorem Remembers.pop (h : l.Remembers) {oldest : Nat × Memtable}
    (popped : l.popOldestFrozenWithGeneration = some (oldest, l')) :
    l'.Remembers := by
  obtain ⟨last, -, same⟩ := Option.map_eq_some_iff.mp popped
  obtain ⟨-, rfl⟩ := Prod.mk.inj same
  intro m member
  rcases List.mem_cons.mp member with rfl | frozen
  · exact h _ List.mem_cons_self
  · obtain ⟨pair, kept, rfl⟩ := List.mem_map.mp frozen
    exact h _ (List.mem_cons_of_mem _ (List.mem_map.mpr ⟨pair, List.dropLast_subset _ kept, rfl⟩))

theorem Remembers.replay {log : List WalEntry} {highest highest' : Nat} (h : l.Remembers)
    (replayed : FlushDB.replay log highest l = .ok (highest', l')) : l'.Remembers := by
  induction log generalizing highest l with
  | nil =>
    obtain ⟨-, rfl⟩ := Prod.mk.inj (Except.ok.inj replayed)
    exact h
  | cons e rest ih =>
    unfold FlushDB.replay at replayed
    split at replayed
    · cases replayed
    rename_i entry made
    split at replayed
    · rename_i seq l₁ taken
      exact ih (h.insert taken) replayed
    · exact ih h replayed
    · cases replayed

end MemtableList

namespace Engine
variable {env : Env}

theorem settle_memtableList (generation : Nat) (table : SSTableMeta) (draw : FlushDraw)
    (s : Engine) :
    (settle generation table draw s).2.memtableList = s.memtableList := by
  unfold settle
  dsimp only
  generalize cleaned : cleanupSegments draw.failing _ _ = result
  have same : result.2.memtableList = s.memtableList := by
    rw [← cleaned]
    rfl
  obtain ⟨r, t⟩ := result
  cases r with
  | error e => exact same
  | ok u =>
    dsimp only
    split
    · exact same
    · split
      · exact same
      · exact same

/-- A recovered memtable knows the tokens it has replayed. -/
theorem openStored_remembers {nowMs : Nat} {fault : Option OpenFault} {st st' : Stored} {s : Engine}
    (opened : openStored env nowMs fault st = (.ok s, st')) : s.memtableList.Remembers := by
  obtain ⟨recovered, mid, _, _, _, recovers, -, -, rfl⟩ := openStored_opened opened
  obtain ⟨m, levels, highest, l, -, -, replayed, rfl⟩ := recover_recovered recovers
  exact (MemtableList.Remembers.new _ _).replay replayed

theorem Move.remembers {d : Draws} {s t : Engine} (move : Move env d s t)
    (h : s.memtableList.Remembers) : t.memtableList.Remembers := by
  cases move with
  | logged appended =>
    rw [(appendWal_frame appended).2]
    exact h
  | numbered count => exact h
  | inserted taken => exact h.insert taken
  | assigned taken => exact h.insertPrechecked taken
  | froze frozen =>
    unfold freezeActive at frozen
    split at frozen
    · cases frozen
    · rename_i l taken
      obtain ⟨-, rfl⟩ := Prod.mk.inj frozen
      exact h.freeze taken
  | @dropped generation frozen l draw e t popped flushed =>
    have same := flush_memtableList env frozen draw { s with memtableList := l }
    rw [flushed] at same
    change t.memtableList.Remembers
    rw [show t.memtableList = l from same]
    exact h.pop popped
  | @settled generation frozen l draw table mid u r _ popped flushed settles =>
    have same := flush_memtableList env frozen draw { s with memtableList := l }
    rw [flushed] at same
    have kept := settle_memtableList generation table draw mid
    rw [settles] at kept
    rw [show t.memtableList = l from kept.trans same]
    exact h.pop popped
  | @compacted draw task r t _ asked done =>
    have same := compact_memtableList env draw task s
    rw [done] at same
    rw [show t.memtableList = s.memtableList from same]
    exact h

end Engine

namespace World
variable {env : Env}

/-- In every run the memtables know the tokens of their entries. -/
theorem exec_remembers {labels : List Label} {w : World} {s : Engine}
    (run : exec (step env) {} labels = some w) (active : w.engine = some s) :
    s.memtableList.Remembers := by
  refine @exec_engine env (fun s => s.memtableList.Remembers) ?_ ?_ w labels run s active
  · intro nowMs fault st s st' opened
    exact Engine.openStored_remembers opened
  · intro s t move
    exact move.remembers

/-- A token of an acknowledged write. -/
def Used (w : World) (token : IdempotencyToken) : Prop :=
  token.isNone = false ∧ ∃ a ∈ w.acked, a.entry.idempotencyKey = token

instance (w : World) (token : IdempotencyToken) : Decidable (w.Used token) :=
  inferInstanceAs (Decidable (_ ∧ ∃ a ∈ w.acked, _))

/-- A used token that a put or an item of a batch carries is in a memtable, unless the call is
refused before it looks at tokens. -/
def Retained (env : Env) (w : World) : Label → Prop
  | .put recordId itemKey _ _ token draw => ∀ s ∈ w.engine,
    (Engine.checkWriteStall env draw.pressured s).toBool = false ∨
      (CompositeKey.new recordId itemKey).toBool = false ∨
      (w.Used (token.getD .none) → s.memtableList.Buffers (token.getD .none))
  | .putBatch _ items pressured _ _ => ∀ s ∈ w.engine,
    (Engine.checkWriteStall env pressured s).toBool = false ∨
      ∀ item ∈ items, w.Used item.idempotencyToken → s.memtableList.Buffers item.idempotencyToken
  | _ => True

instance (env : Env) (w : World) : (a : Label) → Decidable (Retained env w a)
  | .put .. => inferInstanceAs (Decidable (∀ s ∈ w.engine, _ ∨ _ ∨ (_ → _)))
  | .putBatch _ items _ _ _ =>
    inferInstanceAs (Decidable (∀ s ∈ w.engine, _ ∨ ∀ item ∈ items, _ → _))
  | .openEngine ..
  | .delete .. | .deleteRange .. | .maybeFlush _ | .runMaintenance .. | .maybeCompact _ | .close _
  | .crash _ => isTrue trivial

/-- What `get` answers for a key. -/
def read (renv : ReadEnv) (draw : ReadDraw) (w : World) (recordId itemKey : Bytes) :
    Option (FlushResult (Option GetResult)) :=
  w.engine.map fun s => s.get renv draw recordId itemKey

/-- The items whose tokens are not used yet. -/
def unsent (w : World) (items : List PutBatchItem) : List PutBatchItem :=
  items.filter fun item => !decide (w.Used item.idempotencyToken)

section Retry
variable {w : World} {s : Engine}

theorem preparePut_refused {origin : Nat} {recordId itemKey value metadata : Bytes}
    {token : Option IdempotencyToken} {pressured : Bool}
    (refused : (Engine.checkWriteStall env pressured s).toBool = false ∨
      (CompositeKey.new recordId itemKey).toBool = false ∨
        s.memtableList.knows (token.getD .none) = true) :
    ∃ e, Engine.preparePut env origin recordId itemKey value metadata token pressured s = .error e := by
  cases made : Engine.preparePut env origin recordId itemKey value metadata token pressured s with
  | error e => exact ⟨e, rfl⟩
  | ok entry =>
    obtain ⟨key, new, unknown, -⟩ := preparePut_ok made
    rcases refused with stalled | invalid | known
    · unfold Engine.preparePut at made
      cases stall : Engine.checkWriteStall env pressured s with
      | error e => simp [stall, bind, Except.bind] at made
      | ok u =>
        rw [stall] at stalled
        cases stalled
    · rw [new] at invalid
      cases invalid
    · rw [known] at unknown
      cases unknown

/-- A put with a known token leaves everything as it was. -/
theorem put_again (active : w.engine = some s) {recordId itemKey value metadata : Bytes}
    {token : Option IdempotencyToken} {draw : WriteDraw}
    (refused : (Engine.checkWriteStall env draw.pressured s).toBool = false ∨
      (CompositeKey.new recordId itemKey).toBool = false ∨
        s.memtableList.knows (token.getD .none) = true) :
    step env w (.put recordId itemKey value metadata token draw) = some w := by
  obtain ⟨e, error⟩ := @preparePut_refused env s w.writes recordId itemKey value metadata token
    draw.pressured refused
  simp only [step, active, Option.map_some, Engine.put, prepared, error, Engine.writePrepared]
  exact congrArg some (wrote_nothing active _)

/-- Known tokens make no entries, whether they are in the batch or not. -/
theorem batchEntries_known {l : MemtableList} {recordId : Bytes} {used : IdempotencyToken → Bool}
    {items : List PutBatchItem}
    (known : ∀ item ∈ items, used item.idempotencyToken = true → l.knows item.idempotencyToken = true)
    {seen seen' : List IdempotencyToken}
    (agree : ∀ t, t ∈ seen ∨ l.knows t = true ↔ t ∈ seen' ∨ l.knows t = true) {origin next : Nat} :
    Engine.batchEntries l recordId seen origin next items =
      Engine.batchEntries l recordId seen' origin
        next (items.filter fun item => !used item.idempotencyToken) := by
  induction items generalizing seen seen' origin next with
  | nil => rfl
  | cons item rest ih =>
    have later := fun item member => known item (List.mem_cons_of_mem _ member)
    have inserted : ∀ t, t ∈ seen.insert item.idempotencyToken ∨ l.knows t = true ↔
        t ∈ seen'.insert item.idempotencyToken ∨ l.knows t = true := by
      intro t
      rw [List.mem_insert_iff, List.mem_insert_iff, or_assoc, or_assoc, agree t]
    by_cases again : used item.idempotencyToken = true
    · have hit := known item List.mem_cons_self again
      have skipped : ∀ t, t ∈ seen.insert item.idempotencyToken ∨ l.knows t = true ↔ t ∈ seen' ∨
          l.knows t = true := by
        intro t
        rw [List.mem_insert_iff, or_assoc, agree t]
        constructor
        · rintro (rfl | other)
          · exact Or.inr hit
          · exact other
        · exact Or.inr
      rw [List.filter_cons_of_neg (by simp [again]), Engine.batchEntries,
        if_pos (by simp [hit, (MemtableList.knows_iff.mp hit).1])]
      exact ih later skipped
    · rw [List.filter_cons_of_pos (by simp [again]), Engine.batchEntries, Engine.batchEntries]
      have same : (!item.idempotencyToken.isNone &&
          (seen.contains item.idempotencyToken || l.knows item.idempotencyToken)) =
          (!item.idempotencyToken.isNone && (seen'.contains item.idempotencyToken ||
            l.knows item.idempotencyToken)) := by
        congr 1
        rw [Bool.eq_iff_iff]
        simpa using agree item.idempotencyToken
      rw [same]
      split
      · exact ih later inserted
      · split
        · rfl
        · dsimp only
          have grown : ∀ t, (t ∈ (if item.idempotencyToken.isNone = true then seen
              else seen.insert item.idempotencyToken) ∨
              l.knows t = true) ↔ (t ∈ (if item.idempotencyToken.isNone = true then seen' else
                seen'.insert item.idempotencyToken) ∨ l.knows t = true) := by
            split
            · exact agree
            · exact inserted
          rw [ih later grown]

theorem prepareBatch_writing {origin : Nat} {recordId : Bytes} {items : List PutBatchItem}
    {pressured : Bool} (writing : Engine.checkWriteStall env pressured s = .ok ()) :
    Engine.prepareBatch env origin recordId items pressured s =
      Engine.batchEntries s.memtableList recordId [] origin s.nextSequence items := by
  cases items with
  | nil => rfl
  | cons item rest =>
    unfold Engine.prepareBatch
    rw [writing]
    rfl

theorem putBatch_stalled (active : w.engine = some s) {recordId : Bytes} {items : List PutBatchItem}
    {pressured late : Bool} {draws : Nat → Engine.ItemDraw} {e : FlushError}
    (stalled : Engine.checkWriteStall env pressured s = .error e) :
    step env w (.putBatch recordId items pressured late draws) = some w := by
  have nothing : Engine.prepareBatch env w.writes recordId items pressured s = .ok [] ∨
      Engine.prepareBatch env w.writes recordId items pressured s = .error e := by
    unfold Engine.prepareBatch
    rw [stalled]
    split
    · exact Or.inl rfl
    · exact Or.inr rfl
  rcases nothing with made | made
  · simp only [step, active, Option.map_some, Engine.putBatch, prepared, made]
    exact congrArg some (wrote_nothing active _)
  · simp only [step, active, Option.map_some, Engine.putBatch, prepared, made]
    exact congrArg some (wrote_nothing active _)

/-- A batch does what it would do without the items whose tokens are known. -/
theorem putBatch_again (active : w.engine = some s) {recordId : Bytes} {items : List PutBatchItem}
    {pressured late : Bool} {draws : Nat → Engine.ItemDraw}
    (known : (Engine.checkWriteStall env pressured s).toBool = false ∨
      ∀ item ∈ items, w.Used item.idempotencyToken →
        s.memtableList.knows item.idempotencyToken = true) :
    step env w (.putBatch recordId items pressured late draws) =
      step env w (.putBatch recordId (w.unsent items) pressured late draws) := by
  cases stall : Engine.checkWriteStall env pressured s with
  | error e => rw [putBatch_stalled active stall, putBatch_stalled active stall]
  | ok u =>
    have hits := known.resolve_left (by rw [stall]; exact Bool.noConfusion)
    have same : Engine.prepareBatch env w.writes recordId items pressured s =
        Engine.prepareBatch env w.writes recordId (w.unsent items) pressured s := by
      rw [prepareBatch_writing stall, prepareBatch_writing stall]
      exact @batchEntries_known _ _ (fun token => decide (w.Used token)) _
        (fun item member used => hits item member (of_decide_eq_true used)) _ _ (fun _ => Iff.rfl) _ _
    simp only [step, active, Option.map_some, Engine.putBatch, prepared, same]

end Retry

/-- In every run, a put with the token of an acknowledged write that a memtable still has leaves
every key as it was, and a batch leaves what it leaves without its items of that kind. -/
theorem retries_change_nothing {env : Env} {labels : List Label} {w w' : World} {a : Label}
    (run : exec (step env) {} labels = some w) (retained : Retained env w a)
    (taken : step env w a = some w') :
    (∀ recordId itemKey value metadata token draw,
      a = .put recordId itemKey value metadata (some token) draw → w.Used token →
      ∀ renv rdraw record item, w'.read renv rdraw record item = w.read renv rdraw record item) ∧
    (∀ recordId items pressured late draws, a = .putBatch recordId items pressured late draws →
      ∃ without, step env w (.putBatch recordId (w.unsent items) pressured late draws) = some without ∧
        ∀ renv rdraw record item, w'.read renv rdraw record item =
          without.read renv rdraw record item) := by
  constructor
  · rintro recordId itemKey value metadata token draw rfl used renv rdraw record item
    obtain ⟨s, active, -⟩ := Option.map_eq_some_iff.mp taken
    have remembers := exec_remembers run active
    have refused := (retained s active).imp id (Or.imp id fun kept => remembers.knows used.1 (kept used))
    obtain rfl := Option.some.inj (taken.symm.trans (put_again active refused))
    rfl
  · rintro recordId items pressured late draws rfl
    obtain ⟨s, active, -⟩ := Option.map_eq_some_iff.mp taken
    have remembers := exec_remembers run active
    have known := (retained s active).imp id fun kept item member used =>
      remembers.knows used.1 (kept item member used)
    exact ⟨w', (putBatch_again active known).symm.trans taken, fun _ _ _ _ => rfl⟩

section Example

def sampleToken : IdempotencyToken := ⟨Vector.replicate 24 7⟩

/-- A write with a token; it may be followed by a flush. -/
def tokenPut (value : UInt8) (freeze : Bool) : Label :=
  .put ⟨[114]⟩ ⟨[1]⟩ ⟨[value]⟩ ⟨[]⟩ (some sampleToken) { freeze }

/-- The first write is in the log only when the engine is opened again. -/
def replayedToken : List Label :=
  [.openEngine 0 none, tokenPut 1 false, samplePut 1 2 false, .crash [], .openEngine 0 none]

theorem retries_change_nothing_replayed :
    ∃ w w', exec (step (sampleEnv 1000)) {} replayedToken = some w ∧
      step (sampleEnv 1000) w (tokenPut 1 false) = some w' ∧
      w.Used sampleToken ∧ w'.read sampleReads {} ⟨[114]⟩ ⟨[1]⟩ =
        w.read sampleReads {} ⟨[114]⟩ ⟨[1]⟩ := by
  have ends : (exec (step (sampleEnv 1000)) {} replayedToken).map
      (fun w => (decide (w.Used sampleToken),
      decide (Retained (sampleEnv 1000) w (tokenPut 1 false)),
        (step (sampleEnv 1000) w (tokenPut 1 false)).isSome)) =
        some (true, true, true) := by decide +kernel
  obtain ⟨w, run, summary⟩ := Option.map_eq_some_iff.mp ends
  obtain ⟨used, summary⟩ := Prod.mk.inj summary
  obtain ⟨retained, stepped⟩ := Prod.mk.inj summary
  obtain ⟨w', taken⟩ := Option.isSome_iff_exists.mp stepped
  have used := of_decide_eq_true used
  have kept := retries_change_nothing run (of_decide_eq_true retained) taken
  exact ⟨w, w', run, taken, used, kept.1 _ _ _ _ _ _ rfl used sampleReads {} ⟨[114]⟩ ⟨[1]⟩⟩

/-- The first write has been flushed, and its key has been written again. -/
def flushedToken : List Label := [.openEngine 0 none, tokenPut 1 true, samplePut 1 2 false]

/-- The write that is sent again is taken for a new one, and its old value is read. -/
theorem flushedToken_accepted :
    ∃ w w', exec (step (sampleEnv 1000)) {} flushedToken = some w ∧
      step (sampleEnv 1000) w (tokenPut 1 false) = some w' ∧
      w.Used sampleToken ∧ w'.read sampleReads {} ⟨[114]⟩ ⟨[1]⟩ ≠
        w.read sampleReads {} ⟨[114]⟩ ⟨[1]⟩ := by
  have ends : (exec (step (sampleEnv 1000)) {} flushedToken).map (fun w => (decide (w.Used sampleToken),
      (w.read sampleReads {} ⟨[114]⟩ ⟨[1]⟩).bind fun r =>
        r.toOption.bind fun found => found.map GetResult.value,
      (step (sampleEnv 1000) w (tokenPut 1 false)).map fun w' =>
        (w'.read sampleReads {} ⟨[114]⟩ ⟨[1]⟩).bind fun r =>
          r.toOption.bind fun found => found.map GetResult.value)) =
        some (true, some ⟨[2]⟩, some (some ⟨[1]⟩)) := by decide +kernel
  obtain ⟨w, run, summary⟩ := Option.map_eq_some_iff.mp ends
  obtain ⟨used, summary⟩ := Prod.mk.inj summary
  obtain ⟨before, after⟩ := Prod.mk.inj summary
  obtain ⟨w', taken, after⟩ := Option.map_eq_some_iff.mp after
  refine ⟨w, w', run, taken, of_decide_eq_true used, ?_⟩
  intro same
  rw [same, before] at after
  cases after

end Example

end World

end FlushDB
