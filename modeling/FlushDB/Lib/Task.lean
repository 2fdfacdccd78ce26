import FlushDB.Lib.Run
import Mathlib.Data.List.TakeDrop

/-!
Tasks that run up to an await point and go on later. Between two await points a task has the
shared state for itself. The tasks of a pool take turns in any order; what every segment of a
task guarantees is proved along the code of the task, and holds for its steps in every run.
-/

namespace FlushDB.Lib

/-- A task is done, or goes on once it is ready. -/
inductive Task (σ α : Type) where
  | done (a : α)
  | await (ready : σ → Bool) (effect : σ → σ) (next : σ → Task σ α)

namespace Task

variable {σ τ α β : Type}

def result : Task σ α → Option α
  | done a => some a
  | await .. => none

/-- Runs up to the next await point. -/
def resume : Task σ α → σ → Option (σ × Task σ α)
  | done _, _ => none
  | await ready effect next, s => if ready s then some (effect s, next s) else none

theorem resume_result {t t' : Task σ α} {s s' : σ} (h : t.resume s = some (s', t')) :
    t.result = none := by
  cases t with
  | done a => cases h
  | await ready effect next => rfl

/-- The first turn of a task; it may have to wait where it stands. -/
def start (t : Task σ α) (s : σ) : σ × Task σ α := (t.resume s).getD (s, t)

/-- The continuation goes on in the segment that ends the task. -/
def bind (k : α → Task σ β) : Task σ α → Task σ β
  | done a => k a
  | await ready effect next =>
    await ready
      (fun s => match next s with
        | done a => ((k a).start (effect s)).1
        | await .. => effect s)
      (fun s => match next s with
        | done a => ((k a).start (effect s)).2
        | await .. => (next s).bind k)

theorem result_bind (k : α → Task σ β) (t : Task σ α) :
    (t.bind k).result = t.result.bind fun a => (k a).result := by
  cases t <;> rfl

/-- A segment that is always ready. -/
def atomically (f : σ → α × σ) : Task σ α :=
  await (fun _ => true) (fun s => (f s).2) fun s => done (f s).1

/-- The continuation takes its first turn at once. -/
theorem start_atomically_bind (f : σ → α × σ) (k : α → Task σ β) (s : σ) :
    ((atomically f).bind k).start s = (k (f s).1).start (f s).2 := rfl

/-- A task on a part of the state. -/
def focus (get : τ → σ) (set : σ → τ → τ) : Task σ α → Task τ α
  | done a => done a
  | await ready effect next =>
    await (fun t => ready (get t)) (fun t => set (effect (get t)) t) fun t =>
      (next (get t)).focus get set

/-- What every segment does: the state before and after it, and the result if the task ends with
it. -/
def Obeys (guarantee : σ → σ → Option α → Prop) : Task σ α → Prop
  | done _ => True
  | await ready effect next =>
    ∀ s, ready s → guarantee s (effect s) (next s).result ∧ (next s).Obeys guarantee

section Rules
variable {guarantee : σ → σ → Option α → Prop}

theorem Obeys.resume {t t' : Task σ α} {s s' : σ} (obeys : t.Obeys guarantee)
    (h : t.resume s = some (s', t')) :
    guarantee s s' t'.result ∧ t'.Obeys guarantee := by
  cases t with
  | done a => cases h
  | await ready effect next =>
    by_cases go : ready s
    · obtain ⟨rfl, rfl⟩ := Prod.mk.inj (Option.some.inj ((if_pos go).symm.trans h))
      exact obeys s go
    · cases (if_neg go).symm.trans h

/-- A first turn is a turn, or the task stays as it is. -/
theorem start_cases (t : Task σ α) (s : σ) :
    t.resume s = some (t.start s) ∨ t.start s = (s, t) := by
  cases taken : t.resume s with
  | none => exact Or.inr (by rw [start, taken]; rfl)
  | some after => exact Or.inl (by rw [start, taken]; rfl)

/-- The segment that ends the first task is followed by the first turn of the second. -/
theorem Obeys.bind {whole : σ → σ → Option β → Prop} {k : α → Task σ β} {t : Task σ α}
    (first : t.Obeys guarantee) (second : ∀ a, (k a).Obeys whole)
    (pass : ∀ s s', guarantee s s' none → whole s s' none)
    (ends : ∀ s s' a, guarantee s s' (some a) → whole s s' (k a).result)
    (joins : ∀ s s' s'' a r, guarantee s s' (some a) → whole s' s'' r → whole s s'' r) :
    (t.bind k).Obeys whole := by
  induction t with
  | done a => exact second a
  | await ready effect next ih =>
    intro s go
    obtain ⟨kept, later⟩ := first s go
    cases step : next s with
    | done a =>
      rw [step] at kept
      simp only [step]
      rcases start_cases (k a) (effect s) with turn | waits
      · obtain ⟨moved, obeys⟩ := (second a).resume turn
        exact ⟨joins _ _ _ a _ kept moved, obeys⟩
      · rw [waits]
        exact ⟨ends _ _ a kept, second a⟩
    | await ready' effect' next' =>
      rw [step] at kept
      simp only [step]
      refine ⟨pass _ _ kept, ?_⟩
      have tail := ih s later
      rw [step] at tail
      exact tail

/-- A relation between the states around a segment that composes holds over both tasks. -/
theorem Obeys.seq {moves : σ → σ → Prop} (trans : ∀ a b c, moves a b → moves b c → moves a c)
    {k : α → Task σ β} {t : Task σ α} (first : t.Obeys fun s s' _ => moves s s')
    (second : ∀ a, (k a).Obeys fun s s' _ => moves s s') :
    (t.bind k).Obeys fun s s' _ => moves s s' :=
  first.bind second (fun _ _ moved => moved) (fun _ _ _ moved => moved) fun _ _ _ _ _ => trans _ _ _

/-- The same with what is known of the result of the second task. -/
theorem Obeys.returns {moves : σ → σ → Prop} (trans : ∀ a b c, moves a b → moves b c → moves a c)
    {holds : β → Prop} {k : α → Task σ β} {t : Task σ α} (first : t.Obeys fun s s' _ => moves s s')
    (second : ∀ a, (k a).Obeys fun s s' r => moves s s' ∧ ∀ b ∈ r, holds b)
    (now : ∀ a, ∀ b ∈ (k a).result, holds b) :
    (t.bind k).Obeys fun s s' r => moves s s' ∧ ∀ b ∈ r, holds b :=
  first.bind second (fun _ _ moved => ⟨moved, fun _ none => by cases none⟩) (fun _ _ a moved => ⟨moved, now a⟩)
    fun _ _ _ _ _ moved after => ⟨trans _ _ _ moved after.1, after.2⟩

theorem obeys_atomically {f : σ → α × σ} (kept : ∀ s, guarantee s (f s).2 (some (f s).1)) :
    (atomically f).Obeys guarantee :=
  fun s _ => ⟨kept s, trivial⟩

theorem Obeys.focus {get : τ → σ} {set : σ → τ → τ} {wide : τ → τ → Option α → Prop}
    (kept : ∀ u s r, wide u (set s u) r) (t : Task σ α) : (t.focus get set).Obeys wide := by
  induction t with
  | done a => trivial
  | await ready effect next ih => exact fun u _ => ⟨kept u _ _, ih (get u)⟩

end Rules

end Task

/-- The calls made so far, each with its request. -/
structure Pool (σ ι α : Type) where
  shared : σ
  calls : List (ι × Task σ α) := []

namespace Pool

variable {σ ι α : Type}

/-- A call takes its first turn when it is made. -/
inductive Turn (ι : Type) where
  | call (request : ι)
  | resume (call : Nat)

def step (body : ι → Task σ α) (p : Pool σ ι α) : Turn ι → Option (Pool σ ι α)
  | .call request =>
    let (shared, task) := (body request).start p.shared
    some { shared, calls := p.calls ++ [(request, task)] }
  | .resume i => do
    let (request, task) ← p.calls[i]?
    let (shared, task) ← task.resume p.shared
    return { shared, calls := p.calls.set i (request, task) }

/-- A turn is the first one of a new call, or one of an earlier call that runs on. -/
theorem step_cases {body : ι → Task σ α} {p q : Pool σ ι α} {turn : Turn ι}
    (h : step body p turn = some q) :
    (∃ request task, turn = .call request ∧ (body request).start p.shared = (q.shared, task) ∧
      q.calls = p.calls ++ [(request, task)]) ∨
    (∃ before request old task after, turn = .resume before.length ∧
      p.calls = before ++ (request, old) :: after ∧
      old.resume p.shared = some (q.shared, task) ∧
        q.calls = before ++ (request, task) :: after) := by
  cases turn with
  | call request =>
    obtain rfl := Option.some.inj h
    exact Or.inl ⟨request, _, rfl, rfl, rfl⟩
  | resume i =>
    obtain ⟨⟨request, old⟩, found, h⟩ := Option.bind_eq_some_iff.mp h
    obtain ⟨⟨shared, task⟩, taken, h⟩ := Option.bind_eq_some_iff.mp h
    obtain rfl := Option.some.inj h
    obtain ⟨inside, same⟩ := List.getElem?_eq_some_iff.mp found
    refine Or.inr ⟨p.calls.take i, request, old, task, p.calls.drop (i + 1), ?_, ?_, taken, ?_⟩
    · rw [List.length_take, Nat.min_eq_left (by omega)]
    · rw [← same, List.getElem_cons_drop, List.take_append_drop]
    · exact List.set_eq_take_append_cons_drop.trans (if_pos inside)

end Pool

end FlushDB.Lib
