import FlushDB.Engine.Steps

/-!
The three counters: the log's, the engine's and the memtable's. A session that starts with them
equal keeps them equal. Recovery sets them from different quantities, and they agree exactly when
the log holds, from the watermark on, the entries after it and not the entry of the watermark.
-/

namespace FlushDB.World
open Lib ManifestBucket

/-- The write `o` stands under the number `n`: in what its caller was told, in the log, or in a
table or a memtable. -/
inductive Record (w : World) (o n : Nat) : Prop
  | acked {a : Acked} : a ∈ w.acked → a.entry.origin = o → a.walSequence = n → Record w o n
  | reported {a : Acked} : a ∈ w.acked → a.entry.origin = o → a.reported = some n → Record w o n
  | logged {e : WalEntry} : w.disk.wal.Holds e → e.origin = o → e.sequenceNumber = n → Record w o n
  | stored {c : MergeEntry} : w.Stores c → c.origin = o → c.sequenceNumber = n → Record w o n

/-- An opening finds the entries that follow the watermark and no other, or nothing was ever
flushed. -/
def Aligned (w : World) : Label → Prop
  | .openEngine _ _ =>
    w.stored.replayLog.map WalEntry.sequenceNumber =
        List.range' (watermark w.stored.manifests + 1) w.stored.replayLog.length ∧
      (w.stored.replayLog = [] → watermark w.stored.manifests = 0)
  | _ => True

instance (w : World) : (a : Label) → Decidable (Aligned w a)
  | .openEngine _ _ => inferInstanceAs (Decidable (_ ∧ _))
  | .put ..
  | .putBatch ..
  | .delete .. | .deleteRange .. | .maybeFlush _ | .runMaintenance .. | .maybeCompact _ | .close _
  | .crash _ => isTrue trivial

structure Synced (env : Env) (w : World) : Prop where
  ready : Ready env w
  known : ∀ o n, Record w o n → o < w.writes
  agree : ∀ o n m, Record w o n → Record w o m → n = m
  counters : ∀ s, w.engine = some s → s.memtableNext = s.walNext ∧ s.nextSequence = s.walNext

section Preserved
variable {env : Env} {w w' : World}

/-- New writes take the numbers from `first` on, and no other number changes. -/
theorem Synced.extend (h : Synced env w) (ready : Ready env w') (first : Nat)
    (more : w.writes ≤ w'.writes)
    (records : ∀ o n, Record w' o n → Record w o n ∨
      (w.writes ≤ o ∧ o < w'.writes ∧ n = first + (o - w.writes)))
    (counters : ∀ s, w'.engine = some s → s.memtableNext = s.walNext ∧ s.nextSequence = s.walNext) :
    Synced env w' := by
  refine ⟨ready, ?_, ?_, counters⟩
  · intro o n record
    rcases records o n record with old | ⟨-, bound, -⟩
    · have := h.known o n old
      omega
    · exact bound
  · intro o n m one two
    rcases records o n one with old | ⟨new, -, number⟩
    · rcases records o m two with old' | ⟨new', -, -⟩
      · exact h.agree o n m old old'
      · have := h.known o n old
        omega
    · rcases records o m two with old' | ⟨-, -, number'⟩
      · have := h.known o m old'
        omega
      · omega

theorem Synced.shrink (h : Synced env w) (ready : Ready env w') (same : w'.writes = w.writes)
    (records : ∀ o n, Record w' o n → Record w o n)
    (counters : ∀ s, w'.engine = some s → s.memtableNext = s.walNext ∧ s.nextSequence = s.walNext) :
    Synced env w' :=
  h.extend ready 0 same.ge (fun o n record => Or.inl (records o n record)) counters

theorem Replays.origin {e : WalEntry} {x : MemtableEntry} (h : e.Replays x) :
    x.origin = e.origin := by
  unfold WalEntry.Replays WalEntry.toMemtableEntry at h
  split at h
  · cases h
  · have same := Except.ok.inj h
    exact (congrArg MemtableEntry.origin same).symm

/-- The numbers a write of this state is logged under. -/
theorem Written.origin {a : Label} {s t : Engine} {entries : List MemtableEntry} {first : Nat}
    (h : Written env a w s entries first t) {i : Nat} {e : MemtableEntry}
    (found : entries[i]? = some e) :
    e.origin = w.writes + i ∧ i < entries.length := by
  obtain ⟨bound, same⟩ := List.getElem?_eq_some_iff.mp found
  have origins := congrArg (fun l => l[i]?) h.origins
  simp only [List.getElem?_map, found, Option.map_some, List.getElem?_range' bound, Nat.one_mul,
    Option.some.injEq] at origins
  exact ⟨origins, bound⟩

theorem logged_getElem {entries : List MemtableEntry} {first : Nat} {x : WalEntry}
    (h : x ∈ WalWriter.assign first (Engine.logged env entries)) :
    ∃ (i : Nat) (e : MemtableEntry), entries[i]? = some e ∧ x.origin = e.origin ∧
      x.sequenceNumber = first + i := by
  rw [WalWriter.assign_eq, Engine.logged] at h
  obtain ⟨i, bound, same⟩ := List.mem_mapIdx.mp h
  rw [List.length_map] at bound
  refine ⟨i, entries[i], List.getElem?_eq_getElem bound, ?_, ?_⟩
  · rw [← same]
    simp [WalEntry.fromMemtableEntry]
  · rw [← same]

theorem mem_logged {entries : List MemtableEntry} {i : Nat} {e : MemtableEntry}
    (found : entries[i]? = some e) (first : Nat) :
    { WalEntry.fromMemtableEntry e (Bytes.ofString env.config.ns) with sequenceNumber := first + i } ∈
      WalWriter.assign first (Engine.logged env entries) := by
  obtain ⟨bound, rfl⟩ := List.getElem?_eq_some_iff.mp found
  rw [WalWriter.assign_eq, Engine.logged]
  refine List.mem_mapIdx.mpr ⟨i, by rw [List.length_map]; exact bound, ?_⟩
  rw [List.getElem_map]

theorem mem_renumber {entries : List MemtableEntry} {first : Nat} {x : MemtableEntry}
    (h : x ∈ renumber first entries) :
    ∃ (i : Nat) (e : MemtableEntry), entries[i]? = some e ∧
      x = { e with sequenceNumber := first + i } := by
  obtain ⟨i, bound, same⟩ := List.mem_mapIdx.mp h
  exact ⟨i, entries[i], List.getElem?_eq_getElem bound, same.symm⟩

theorem renumber_mem {entries : List MemtableEntry} {i : Nat} {e : MemtableEntry}
    (found : entries[i]? = some e) (first : Nat) :
    { e with sequenceNumber := first + i } ∈ renumber first entries := by
  obtain ⟨bound, rfl⟩ := List.getElem?_eq_some_iff.mp found
  exact List.mem_mapIdx.mpr ⟨i, bound, rfl⟩

theorem disk_of_engine {s : Engine} (active : w.engine = some s) : w.disk = s.toStored := by
  unfold disk
  rw [active]

theorem stores_of_engine {s : Engine} (active : w.engine = some s) (c : MergeEntry) :
    w.Stores c ↔ s.Stores c := by
  unfold Stores
  rw [active]

theorem disk_closed (closed : w.engine = none) : w.disk = w.stored := by
  unfold disk
  rw [closed]

theorem stores_closed (closed : w.engine = none) (c : MergeEntry) :
    w.Stores c ↔ w.stored.Copy c := by
  unfold Stores
  rw [closed]

/-- The counters of an engine that has been opened over an aligned log. -/
theorem opened_counters {st : Stored} {s : Engine} (sound : st.Sound env) (opened : s.Opened env st)
    (numbers : st.replayLog.map WalEntry.sequenceNumber =
      List.range' (watermark st.manifests + 1) st.replayLog.length)
    (flushed : st.replayLog = [] → watermark st.manifests = 0) :
    s.memtableNext = s.walNext ∧ s.nextSequence = s.walNext := by
  have number : ∀ n, n ∈ st.replayLog.map WalEntry.sequenceNumber ↔
      watermark st.manifests + 1 ≤ n ∧ n < watermark st.manifests + 1 + st.replayLog.length := by
    intro n
    rw [numbers, List.mem_range'_1]
  have held : ∀ e, st.wal.Holds e → watermark st.manifests ≤ e.sequenceNumber →
      e.sequenceNumber < watermark st.manifests + 1 + st.replayLog.length := by
    intro e inside above
    have replayed := (WalReader.mem_replayFrom sound.ordered).mpr ⟨inside, above⟩
    exact ((number _).mp (List.mem_map_of_mem replayed)).2
  have next : s.walNext = watermark st.manifests + 1 + st.replayLog.length := by
    cases length : st.replayLog.length with
    | zero =>
      have empty := List.length_eq_zero_iff.mp length
      have mark := flushed empty
      rcases opened.walNext with ⟨one, -⟩ | ⟨e, inside, -⟩
      · omega
      · have := held e inside (by omega)
        have replayed := (WalReader.mem_replayFrom sound.ordered).mpr
          ⟨inside, show watermark st.manifests ≤ _ by omega⟩
        rw [show WalReader.replayFrom st.wal (watermark st.manifests) = [] from empty] at replayed
        cases replayed
    | succ count =>
      obtain ⟨last, replayed, top⟩ := List.mem_map.mp
        ((number (watermark st.manifests + 1 + count)).mpr (by omega))
      obtain ⟨inside, -⟩ := (WalReader.mem_replayFrom sound.ordered).mp replayed
      have below : last.sequenceNumber < s.walNext :=
        opened.ready.opened.above last ((opened.holds last).mpr inside)
      rcases opened.walNext with ⟨-, none_held⟩ | ⟨e, inside', next⟩
      · exact absurd inside (none_held last)
      · have := held e inside' (by omega)
        omega
  have counted := opened.replayed.next
  obtain ⟨lower, all, attained⟩ := Engine.foldl_max_spec (st.replayLog.map WalEntry.sequenceNumber)
    (watermark st.manifests)
  have assigned := opened.nextSequence
  refine ⟨counted.trans next.symm, ?_⟩
  rw [next, assigned]
  cases length : st.replayLog.length with
  | zero =>
    rw [List.length_eq_zero_iff.mp length]
    rfl
  | succ count =>
    have top := all _ ((number (watermark st.manifests + 1 + count)).mpr (by omega))
    rcases attained with same | member
    · omega
    · have := ((number _).mp member).2
      omega

theorem synced_opened {s : Engine} {st : Stored} (h : Synced env w) (closed : w.engine = none)
    (opened : s.Opened env w.stored)
    (numbers : w.stored.replayLog.map WalEntry.sequenceNumber =
      List.range' (watermark w.stored.manifests + 1) w.stored.replayLog.length)
    (flushed : w.stored.replayLog = [] → watermark w.stored.manifests = 0) :
    Synced env { w with stored := st, engine := some s } := by
  have sound := h.ready.stored closed
  refine h.shrink (ready_of_engine rfl opened.ready) rfl ?_ ?_
  · intro o n record
    cases record with
    | acked member origin number => exact .acked member origin number
    | reported member origin number => exact .reported member origin number
    | @logged e held origin number =>
      refine .logged ?_ origin number
      rw [disk_closed closed]
      exact (opened.holds e).mp held
    | @stored c held origin number =>
      rcases opened.ready.stores_iff.mp held with copy | ⟨x, member, rfl⟩
      · exact .stored ((stores_closed closed c).mpr ((opened.copies c).mp copy)) origin number
      · -- an entry of the memtable has the number of its log entry
        obtain ⟨i, e, found, replays, place⟩ := opened.replayed.only x member
        obtain ⟨bound, same⟩ := List.getElem?_eq_some_iff.mp found
        have listed : e ∈ w.stored.replayLog := same ▸ List.getElem_mem bound
        obtain ⟨inside, -⟩ := (WalReader.mem_replayFrom sound.ordered).mp listed
        have at_i := congrArg (fun l => l[i]?) numbers
        simp only [List.getElem?_map, found, Option.map_some, List.getElem?_range' bound, Nat.one_mul,
          Option.some.injEq] at at_i
        refine .logged (e := e) ?_ ?_ ?_
        · rw [disk_closed closed]
          exact inside
        · exact (Replays.origin replays).symm.trans origin
        · rw [at_i, ← place]
          exact number
  · rintro _ ⟨⟩
    exact opened_counters sound opened numbers flushed

theorem synced_rolled {s s' : Engine} {commits : Bool} {r : FlushResult Unit} (h : Synced env w)
    (active : w.engine = some s) (rolled : Engine.Rolled commits r s s') (ready : s'.Ready env) :
    Synced env { w with engine := some s' } := by
  have before := h.ready.engine s active
  refine h.shrink (ready_of_engine rfl ready) rfl ?_ ?_
  · intro o n record
    cases record with
    | acked member origin number => exact .acked member origin number
    | reported member origin number => exact .reported member origin number
    | @logged e held origin number =>
      refine .logged ?_ origin number
      rw [disk_of_engine active]
      exact rolled.holds held
    | @stored c held origin number =>
      exact .stored ((stores_of_engine active c).mpr (rolled.stores before ready held)) origin number
  · rintro _ ⟨⟩
    obtain ⟨wal, memtable, engine⟩ := rolled.counters
    rw [wal, memtable, engine]
    exact h.counters s active

theorem synced_crashed {s : Engine} {wal : WalDir} {torn : List MemtableEntry} (h : Synced env w)
    (active : w.engine = some s)
    (holds : ∀ e, wal.Holds e ↔ s.wal.Holds e ∨ e ∈
      WalWriter.assign s.walNext (Engine.logged env (named w.writes torn)))
    (ready : Ready env { w with engine := none, stored := { s.toStored with wal },
                                writes := w.writes + torn.length }) :
    Synced env { w with engine := none, stored := { s.toStored with wal },
                        writes := w.writes + torn.length } := by
  refine h.extend ready s.walNext (Nat.le_add_right _ _) ?_ (by rintro t ⟨⟩)
  intro o n record
  cases record with
  | acked member origin number => exact Or.inl (.acked member origin number)
  | reported member origin number => exact Or.inl (.reported member origin number)
  | @logged e held origin number =>
    rcases (holds e).mp held with old | new
    · refine Or.inl (.logged ?_ origin number)
      rw [disk_of_engine active]
      exact old
    · obtain ⟨i, entry, found, same, place⟩ := logged_getElem new
      rw [named_eq, List.getElem?_mapIdx] at found
      obtain ⟨original, there, rfl⟩ := Option.map_eq_some_iff.mp found
      have bound := (List.getElem?_eq_some_iff.mp there).1
      have made : e.origin = w.writes + i := same
      refine Or.inr ⟨?_, ?_, ?_⟩
      · omega
      · show o < w.writes + torn.length
        omega
      · omega
  | @stored c held origin number =>
    refine Or.inl (.stored ((stores_of_engine active c).mpr ?_) origin number)
    exact Or.inl held

/-- In a session whose counters agree a write has one number. -/
theorem synced_wrote {a : Label} {s t s' : Engine} {entries : List MemtableEntry} {first : Nat}
    {rolled : FlushResult Unit} {reported : Option Nat} (h : Synced env w)
    (active : w.engine = some s) (written : Written env a w s entries first t)
    (rolls : Engine.Rolled a.commits rolled t s')
    (told : reported = none ∨ (entries.length = 1 ∧ reported = some s.nextSequence))
    (ready : s'.Ready env) :
    Synced env (w.wrote s entries (rolled.map fun _ => reported) s') := by
  have before := h.ready.engine s active
  obtain ⟨memtable, engine⟩ := h.counters s active
  have start : first = s.walNext := by
    rcases written.place with same | ⟨-, same⟩
    · exact same.trans memtable
    · exact same.trans engine
  have ready_t := written.wrote.ready before
  refine h.extend (ready_of_engine rfl ready) s.walNext (Nat.le_add_right _ _) ?_ ?_
  · -- the entry at place `i` is recorded as the write `w.writes + i`, under the number `s.walNext + i`
    have new : ∀ (i : Nat) (e : MemtableEntry) (o n : Nat), entries[i]? = some e → e.origin = o →
        n = s.walNext + i →
        w.writes ≤ o ∧ o < w.writes + entries.length ∧ n = s.walNext + (o - w.writes) := by
      intro i e o n found origin number
      obtain ⟨place, bound⟩ := written.origin found
      omega
    have acks : ∀ b ∈ (w.wrote s entries (rolled.map fun _ => reported) s').acked,
        b ∈ w.acked ∨ ∃ (i : Nat) (e : MemtableEntry), entries[i]? = some e ∧
          b = ⟨e, s.walNext + i, reported⟩ := by
      intro b member
      cases rolled with
      | error e => exact Or.inl member
      | ok done =>
        rcases List.mem_append.mp member with old | made
        · exact Or.inl old
        · rw [ackedFrom_eq] at made
          obtain ⟨i, bound, same⟩ := List.mem_mapIdx.mp made
          exact Or.inr ⟨i, _, List.getElem?_eq_getElem bound, same.symm⟩
    intro o n record
    cases record with
    | @acked b member origin number =>
      rcases acks b member with old | ⟨i, e, found, rfl⟩
      · exact Or.inl (.acked old origin number)
      · exact Or.inr (new i e o n found origin number.symm)
    | @reported b member origin number =>
      rcases acks b member with old | ⟨i, e, found, rfl⟩
      · exact Or.inl (.reported old origin number)
      · rcases told with none_told | ⟨single, same⟩
        · rw [none_told] at number
          cases number
        · have bound := (List.getElem?_eq_some_iff.mp found).1
          have value : s.nextSequence = n := Option.some.inj (same.symm.trans number)
          exact Or.inr (new i e o n found origin (by omega))
    | @logged e held origin number =>
      rcases (written.wrote.holds e).mp (rolls.holds held) with old | made
      · refine Or.inl (.logged ?_ origin number)
        rw [disk_of_engine active]
        exact old
      · obtain ⟨i, entry, found, same, place⟩ := logged_getElem made
        exact Or.inr (new i entry o n found (same.symm.trans origin) (number.symm.trans place))
    | @stored c held origin number =>
      rcases written.wrote.stores before (rolls.stores ready_t ready held) with old | ⟨x, kept, rfl⟩
      · exact Or.inl (.stored ((stores_of_engine active c).mpr old) origin number)
      · obtain ⟨i, e, found, rfl⟩ := mem_renumber kept
        refine Or.inr (new i e o n found origin ?_)
        rw [← number, ← start]
        rfl
  · rintro _ ⟨⟩
    obtain ⟨wal, memtable', engine'⟩ := rolls.counters
    have nextWal := written.wrote.walNext
    have nextEngine := written.wrote.nextSequence
    have nextMemtable := written.memtableNext
    omega

theorem synced_step (unique : Function.Injective env.ulid) {a : Label} (h : Synced env w)
    (plain : Plain w a) (aligned : Aligned w a) (taken : step env w a = some w') :
    Synced env w' := by
  obtain ⟨effect, ready⟩ := step_effect unique h.ready plain taken
  cases effect with
  | idle => exact h
  | @reloaded st closed reloads =>
    refine h.shrink ready rfl ?_ (fun s active => h.counters s active)
    intro o n record
    cases record with
    | acked member origin number => exact .acked member origin number
    | reported member origin number => exact .reported member origin number
    | @logged e held origin number =>
      refine .logged ?_ origin number
      rw [disk_closed (show ({ w with stored := st } : World).engine = none from closed),
        reloads.frame] at held
      rw [disk_closed closed]
      exact held
    | @stored c held origin number =>
      rw [stores_closed (show ({ w with stored := st } : World).engine = none from closed)] at held
      exact .stored ((stores_closed closed c).mpr ((reloads.copy_iff c).mp held)) origin number
  | opened label closed opens =>
    subst label
    exact synced_opened h closed opens aligned.1 aligned.2
  | crashed active holds => exact synced_crashed h active holds ready
  | rolled active _ rolls => exact synced_rolled h active rolls (ready.engine _ rfl)
  | @compacted s s' active compacts =>
    obtain ⟨wal, walNext, memtable, engine, -⟩ := compacts.unchanged
    refine h.shrink ready rfl ?_ ?_
    · intro o n record
      cases record with
      | acked member origin number => exact .acked member origin number
      | reported member origin number => exact .reported member origin number
      | @logged e held origin number =>
        refine .logged ?_ origin number
        rw [disk_of_engine active, ← wal]
        exact held
      | @stored c held origin number =>
        exact .stored ((stores_of_engine active c).mpr (compacts.stores held)) origin number
    · rintro _ ⟨⟩
      rw [walNext, memtable, engine]
      exact h.counters s active
  | wrote active written rolls told =>
    exact synced_wrote h active written rolls told (ready.engine _ rfl)

end Preserved

/-- In every run whose openings find an aligned log, the number that a caller is told, the
number in the log and the number in the tables and the memtables are one. -/
theorem counters_agree {env : Env} (unique : Function.Injective env.ulid) {labels : List Label}
    {w : World}
    (admitted : Admits (step env) (fun w a => (Plain w a ∧ Fits env w a) ∧ Aligned w a) {} labels)
    (run : exec (step env) {} labels = some w) : ∀ a ∈ w.acked,
      (∀ n, a.reported = some n → n = a.walSequence) ∧
      (∀ e, w.disk.wal.Holds e → e.origin = a.entry.origin → e.sequenceNumber = a.walSequence) ∧
      ∀ c, w.Stores c → c.origin = a.entry.origin → c.sequenceNumber = a.walSequence := by
  have start : Synced env {} := by
    have nothing : ∀ o n, ¬ Record {} o n := by
      intro o n record
      cases record with
      | acked member => cases member
      | reported member => cases member
      | logged held =>
        obtain ⟨k, segment, found, -⟩ := held
        cases found
      | stored held =>
        obtain ⟨level, t, listed, -⟩ := held
        cases listed
    exact ⟨ready_empty env, fun o n record => absurd record (nothing o n),
      fun o n m record => absurd record (nothing o n),
      by rintro s ⟨⟩⟩
  have synced := exec_invariant (fun _ _ _ kept ok taken =>
    synced_step unique kept ok.1.1 ok.2 taken) start admitted run
  intro a member
  have number : Record w a.entry.origin a.walSequence := .acked member rfl rfl
  refine ⟨?_, ?_, ?_⟩
  · intro n told
    exact synced.agree _ _ _ (.reported member rfl told) number
  · intro e held origin
    exact synced.agree _ _ _ (.logged held origin rfl) number
  · intro c held origin
    exact synced.agree _ _ _ (.stored held origin rfl) number

section Example

/-- Two writes are flushed and their segments go; a third is replayed by the next session. -/
def alignedRun : List Label :=
  [.openEngine 0 none, samplePut 1 1 false, samplePut 2 1 true, samplePut 1 2 false, .crash [],
    .openEngine 0 none,
    sampleBatch [3, 4], .delete ⟨[114]⟩ ⟨[3]⟩ {}]

theorem counters_agree_aligned :
    ∃ w, exec (step (sampleEnv 1)) {} alignedRun = some w ∧
      w.acked.map (fun a => (a.reported, a.walSequence)) =
        [(some 1, 1), (some 2, 2), (some 3, 3), (none, 4), (none, 5), (some 6, 6)] ∧
      ∀ a ∈ w.acked, (∀ n, a.reported = some n → n = a.walSequence) ∧
        (∀ e, w.disk.wal.Holds e → e.origin = a.entry.origin → e.sequenceNumber = a.walSequence) ∧
        ∀ c, w.Stores c → c.origin = a.entry.origin → c.sequenceNumber = a.walSequence := by
  have summary : (exec (step (sampleEnv 1)) {} alignedRun).map
      (fun w => w.acked.map fun a => (a.reported, a.walSequence)) =
      some [(some 1, 1), (some 2, 2), (some 3, 3), (none, 4), (none, 5),
        (some 6, 6)] := by decide +kernel
  obtain ⟨w, run, numbers⟩ := Option.map_eq_some_iff.mp summary
  have admitted : Admits (step (sampleEnv 1)) (fun w a => (Plain w a ∧ Fits (sampleEnv 1) w a) ∧
      Aligned w a) {} alignedRun := by
    decide +kernel
  exact ⟨w, run, numbers, counters_agree (sampleEnv_unique 1) admitted run⟩

/-- One write, a close and a second session, which stores the entry of the watermark again. -/
def reopenedRun : List Label :=
  [.openEngine 0 none, samplePut 1 1 false, .close fun _ => {}, .crash [], .openEngine 0 none]

theorem reopenedRun_renumbers :
    ∃ w, exec (step (sampleEnv 1000)) {} reopenedRun = some w ∧
      ¬ ∀ a ∈ w.acked, (∀ n, a.reported = some n → n = a.walSequence) ∧
        (∀ e, w.disk.wal.Holds e → e.origin = a.entry.origin → e.sequenceNumber = a.walSequence) ∧
        ∀ c, w.Stores c → c.origin = a.entry.origin → c.sequenceNumber = a.walSequence := by
  have summary : ((exec (step (sampleEnv 1000)) {} reopenedRun).bind fun w => w.engine.map fun s =>
      (w.acked.map fun a => (a.entry.origin, a.walSequence),
        s.nodes.map fun x => (x.origin, x.sequenceNumber))) =
        some ([(0, 1)], [(0, 2)]) := by decide +kernel
  obtain ⟨w, run, rest⟩ := Option.bind_eq_some_iff.mp summary
  obtain ⟨s, active, same⟩ := Option.map_eq_some_iff.mp rest
  obtain ⟨acks, entries⟩ := Prod.mk.inj same
  obtain ⟨a, acked, number⟩ := List.mem_map.mp (acks ▸ List.mem_singleton_self (0, 1))
  obtain ⟨x, member, place⟩ := List.mem_map.mp (entries ▸ List.mem_singleton_self (0, 2))
  refine ⟨w, run, ?_⟩
  intro agree
  have stored : w.Stores (MergeEntry.fromMemtableEntry x) :=
    (stores_of_engine active _).mpr (Or.inr ⟨s.memtableList.active, List.mem_cons_self, x, member, rfl⟩)
  obtain ⟨origin, wal⟩ := Prod.mk.inj number
  obtain ⟨origin', memtable⟩ := Prod.mk.inj place
  have equal : x.sequenceNumber = a.walSequence :=
    (agree a acked).2.2 _ stored (origin'.trans origin.symm)
  omega

end Example

end FlushDB.World
