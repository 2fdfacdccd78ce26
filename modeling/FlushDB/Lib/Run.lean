import Mathlib.Data.List.Basic

/-!
Runs of a partial step function: the state a list of labels leads to, and the rule that
an invariant kept by every admitted step holds at the end of every admitted run.
-/

namespace FlushDB.Lib

variable {σ ι : Type*}

/-- The state after a list of labels, or `none` when one of them is not enabled. -/
def exec (step : σ → ι → Option σ) : σ → List ι → Option σ
  | s, [] => some s
  | s, a :: rest => (step s a).bind fun t => exec step t rest

/-- Every label of the run meets `ok` in the state it is taken from. -/
def Admits (step : σ → ι → Option σ) (ok : σ → ι → Prop) : σ → List ι → Prop
  | _, [] => True
  | s, a :: rest => ok s a ∧ ∀ t ∈ step s a, Admits step ok t rest

instance Admits.decidable (step : σ → ι → Option σ) (ok : σ → ι → Prop)
    [∀ s a, Decidable (ok s a)] : ∀ s labels, Decidable (Admits step ok s labels)
  | _, [] => isTrue trivial
  | s, a :: rest =>
    have (t : σ) : Decidable (Admits step ok t rest) := Admits.decidable step ok t rest
    inferInstanceAs (Decidable (ok s a ∧ ∀ t ∈ step s a, Admits step ok t rest))

variable {step : σ → ι → Option σ} {ok : σ → ι → Prop} {inv : σ → Prop}

theorem exec_cons {s t : σ} {a : ι} {rest : List ι} (h : exec step s (a :: rest) = some t) :
    ∃ mid, step s a = some mid ∧ exec step mid rest = some t :=
  Option.bind_eq_some_iff.mp h

theorem admits_and {other : σ → ι → Prop} {s : σ} {labels : List ι}
    (first : Admits step ok s labels) (second : Admits step other s labels) :
    Admits step (fun s a => ok s a ∧ other s a) s labels := by
  induction labels generalizing s with
  | nil => trivial
  | cons a rest ih =>
    exact ⟨⟨first.1, second.1⟩, fun t taken => ih (first.2 t taken) (second.2 t taken)⟩

/-- An invariant that every admitted step keeps holds after every admitted run. -/
theorem exec_invariant (keep : ∀ s a t, inv s → ok s a → step s a = some t → inv t)
    {s t : σ} {labels : List ι} (start : inv s) (admitted : Admits step ok s labels)
    (run : exec step s labels = some t) : inv t := by
  induction labels generalizing s with
  | nil =>
    cases run
    exact start
  | cons a rest ih =>
    obtain ⟨mid, taken, run⟩ := exec_cons run
    exact ih (keep s a mid start admitted.1 taken) (admitted.2 mid taken) run

/-- An invariant that every step under an allowed label keeps holds after every run of such
labels. -/
theorem exec_within {allowed : ι → Prop}
    (keep : ∀ s a t, inv s → allowed a → step s a = some t → inv t) {s t : σ} {labels : List ι}
    (start : inv s) (within : ∀ a ∈ labels, allowed a) (run : exec step s labels = some t) :
    inv t := by
  induction labels generalizing s with
  | nil =>
    cases run
    exact start
  | cons a rest ih =>
    obtain ⟨mid, taken, run⟩ := exec_cons run
    exact ih (keep s a mid start (within a List.mem_cons_self) taken)
      (fun b member => within b (List.mem_cons_of_mem _ member)) run

theorem exec_keeps (keep : ∀ s a t, inv s → step s a = some t → inv t) {s t : σ} {labels : List ι}
    (start : inv s) (run : exec step s labels = some t) : inv t :=
  @exec_within σ ι step inv (fun _ => True) (fun s a t kept _ taken => keep s a t kept taken) s t
    labels start (fun _ _ => trivial) run

/-- Where every admitted step is matched by a step of another system, every admitted run is. -/
theorem exec_simulates {τ : Type*} {step' : τ → ι → Option τ} {related : σ → τ → Prop}
    (sim : ∀ s t a s', related s t → ok s a → step s a = some s' → ∃ t', step' t a = some t' ∧
      related s' t')
    {s s' : σ} {t : τ} {labels : List ι} (start : related s t) (admitted : Admits step ok s labels)
    (run : exec step s labels = some s') : ∃ t', exec step' t labels = some t' ∧ related s' t' := by
  induction labels generalizing s t with
  | nil =>
    cases run
    exact ⟨t, rfl, start⟩
  | cons a rest ih =>
    obtain ⟨mid, taken, run⟩ := exec_cons run
    obtain ⟨mid', taken', kept⟩ := sim s t a mid start admitted.1 taken
    obtain ⟨t', run', kept'⟩ := ih kept (admitted.2 mid taken) run
    exact ⟨t', Option.bind_eq_some_iff.mpr ⟨mid', taken', run'⟩, kept'⟩

theorem exec_append {s t u : σ} {first later : List ι} (before : exec step s first = some t)
    (after : exec step t later = some u) :
    exec step s (first ++ later) = some u := by
  induction first generalizing s with
  | nil =>
    cases before
    exact after
  | cons a rest ih =>
    obtain ⟨mid, taken, before⟩ := exec_cons before
    exact Option.bind_eq_some_iff.mpr ⟨mid, taken, ih before⟩

/-- Where every step is seen as a run of another system, every run is. -/
theorem exec_refines {τ κ : Type*} {step' : τ → κ → Option τ} {view : σ → τ}
    (sim : ∀ s a t, inv s → step s a = some t → inv t ∧
      ∃ seen, exec step' (view s) seen = some (view t))
    {s t : σ} {labels : List ι} (start : inv s) (run : exec step s labels = some t) :
    ∃ seen, exec step' (view s) seen = some (view t) := by
  induction labels generalizing s with
  | nil =>
    cases run
    exact ⟨[], rfl⟩
  | cons a rest ih =>
    obtain ⟨mid, taken, run⟩ := exec_cons run
    obtain ⟨kept, first, before⟩ := sim s a mid start taken
    obtain ⟨later, after⟩ := ih kept run
    exact ⟨first ++ later, exec_append before after⟩

/-- A run goes on from the state after each of its prefixes. -/
theorem exec_split {s t : σ} {labels : List ι} (run : exec step s labels = some t) (i : Nat) :
    ∃ u, exec step s (labels.take i) = some u ∧ exec step u (labels.drop i) = some t := by
  induction labels generalizing s i with
  | nil =>
    cases run
    exact ⟨t, by simp [exec], by simp [exec]⟩
  | cons a rest ih =>
    cases i with
    | zero => exact ⟨s, rfl, run⟩
    | succ i =>
      obtain ⟨mid, taken, run⟩ := exec_cons run
      obtain ⟨u, first, last⟩ := ih run i
      exact ⟨u, Option.bind_eq_some_iff.mpr ⟨mid, taken, first⟩, last⟩

theorem exec_later {s t u : σ} {first later : List ι} (run : exec step s (first ++ later) = some u)
    (before : exec step s first = some t) : exec step t later = some u := by
  obtain ⟨mid, reached, goesOn⟩ := exec_split run first.length
  rw [List.take_left] at reached
  rw [List.drop_left] at goesOn
  obtain rfl := Option.some.inj (before.symm.trans reached)
  exact goesOn

theorem admits_take {s : σ} {labels : List ι} (admitted : Admits step ok s labels) (i : Nat) :
    Admits step ok s (labels.take i) := by
  induction labels generalizing s i with
  | nil =>
    rw [List.take_nil]
    trivial
  | cons a rest ih =>
    cases i with
    | zero => trivial
    | succ i => exact ⟨admitted.1, fun t taken => ih (admitted.2 t taken) i⟩

theorem admits_drop {s u : σ} {labels : List ι} (admitted : Admits step ok s labels) {i : Nat}
    (before : exec step s (labels.take i) = some u) : Admits step ok u (labels.drop i) := by
  induction labels generalizing s i with
  | nil =>
    rw [List.drop_nil]
    trivial
  | cons a rest ih =>
    cases i with
    | zero =>
      cases before
      exact admitted
    | succ i =>
      obtain ⟨mid, taken, before⟩ := exec_cons before
      exact ih (admitted.2 mid taken) before

/-- What the invariant of an admitted run implies is admitted too. -/
theorem admits_under {weaker : σ → ι → Prop}
    (keep : ∀ s a t, inv s → ok s a → step s a = some t → inv t)
    (implied : ∀ s a, inv s → ok s a → weaker s a) {s : σ} {labels : List ι} (start : inv s)
    (h : Admits step ok s labels) : Admits step weaker s labels := by
  induction labels generalizing s with
  | nil => trivial
  | cons a rest ih =>
    exact ⟨implied s a start h.1, fun t taken => ih (keep s a t start h.1 taken) (h.2 t taken)⟩

/-- A step that is not admitted leaves something that no later step repairs. -/
theorem admits_of_end {lost : σ → Prop} (keep : ∀ s a t, inv s → step s a = some t → inv t)
    (falls : ∀ s a t, inv s → ¬ ok s a → step s a = some t → lost t)
    (stays : ∀ s a t, lost s → step s a = some t → lost t) {s t : σ} {labels : List ι}
    (start : inv s) (run : exec step s labels = some t) (safe : ¬ lost t) :
    Admits step ok s labels := by
  induction labels generalizing s with
  | nil => trivial
  | cons a rest ih =>
    obtain ⟨mid, taken, run⟩ := exec_cons run
    refine ⟨?_, fun next found => ?_⟩
    · by_contra refused
      exact safe (exec_keeps stays (falls s a mid start refused taken) run)
    · rw [taken] at found
      obtain rfl := Option.some.inj found
      exact ih (keep s a mid start taken) run

/-- Where exactly the admitted steps keep a property, the admitted runs are those that have it in
every state they reach. -/
theorem reached_iff_admits {good : σ → Prop} (total : ∀ s a, ∃ t, step s a = some t)
    (keep : ∀ s a t, inv s → step s a = some t → inv t)
    (kept : ∀ s a t, inv s → good s → step s a = some t → (good t ↔ ok s a)) {s : σ} (start : inv s)
    (fine : good s) (labels : List ι) :
    (∀ i t, exec step s (labels.take i) = some t → good t) ↔ Admits step ok s labels := by
  constructor
  · intro reached
    induction labels generalizing s with
    | nil => trivial
    | cons a rest ih =>
      have next : ∀ t, step s a = some t → good t := by
        intro t taken
        refine reached 1 t ?_
        simp only [List.take_succ_cons, List.take_zero, exec, taken, Option.bind_some]
      obtain ⟨mid, moved⟩ := total s a
      refine ⟨(kept s a mid start fine moved).mp (next mid moved), ?_⟩
      intro t taken
      refine ih (keep s a t start taken) (next t taken) ?_
      intro i u run
      refine reached (i + 1) u ?_
      simp only [List.take_succ_cons, exec, Option.bind_eq_some_iff]
      exact ⟨t, taken, run⟩
  · intro admitted i t run
    have both : ∀ s a t, inv s ∧ good s → ok s a → step s a = some t → inv t ∧ good t := by
      rintro s a t ⟨held, fine⟩ allowed taken
      exact ⟨keep s a t held taken, (kept s a t held fine taken).mpr allowed⟩
    exact (exec_invariant both ⟨start, fine⟩ (admits_take admitted i) run).2

/-- Where every step from an unsettled state lowers a measure, and none that starts settled
unsettles, a run of as many steps as the measure says is settled. -/
theorem exec_settles {allowed : ι → Prop} {measure : σ → Nat} {settled : σ → Prop}
    (keep : ∀ s a t, inv s → allowed a → step s a = some t → inv t)
    (falls : ∀ s a t, inv s → allowed a → step s a = some t → ¬ settled s → measure t < measure s)
    (stays : ∀ s a t, inv s → allowed a → step s a = some t → settled s → settled t)
    (least : ∀ s, inv s → measure s = 0 → settled s) {s t : σ} {labels : List ι} (start : inv s)
    (within : ∀ a ∈ labels, allowed a) (run : exec step s labels = some t)
    (enough : measure s ≤ labels.length) : settled t := by
  induction labels generalizing s with
  | nil =>
    cases run
    exact least _ start (Nat.le_zero.mp enough)
  | cons a rest ih =>
    obtain ⟨mid, taken, run⟩ := exec_cons run
    have first := within a List.mem_cons_self
    have within' := fun b member => within b (List.mem_cons_of_mem _ member)
    have start' := keep s a mid start first taken
    by_cases done : settled s
    · have both : ∀ s a t, inv s ∧ settled s → allowed a → step s a = some t → inv t ∧ settled t :=
        fun s a t held ok moved => ⟨keep s a t held.1 ok moved, stays s a t held.1 ok moved held.2⟩
      exact (exec_within both ⟨start', stays s a mid start first taken done⟩ within' run).2
    · have less := falls s a mid start first taken done
      rw [List.length_cons] at enough
      exact ih start' within' run (by omega)

section Recorded
variable {β : Type*}

/-- What is observed of the steps of a run, in their order. -/
def recorded (step : σ → ι → Option σ) (observe : σ → ι → List β) : σ → List ι → List β
  | _, [] => []
  | s, a :: rest =>
    observe s a ++
      match step s a with
      | none => []
      | some t => recorded step observe t rest

/-- An invariant of the state and of what has been observed on the way to it. -/
theorem exec_recorded {observe : σ → ι → List β} {inv : σ → List β → Prop}
    (keep : ∀ s a t seen, inv s seen → ok s a → step s a = some t → inv t (seen ++ observe s a))
    {s t : σ} {labels : List ι} {seen : List β} (start : inv s seen)
    (admitted : Admits step ok s labels) (run : exec step s labels = some t) :
    inv t (seen ++ recorded step observe s labels) := by
  induction labels generalizing s seen with
  | nil =>
    cases run
    rw [recorded, List.append_nil]
    exact start
  | cons a rest ih =>
    obtain ⟨mid, taken, run⟩ := exec_cons run
    have later := ih (keep s a mid seen start admitted.1 taken) (admitted.2 mid taken) run
    rw [recorded, taken]
    rwa [List.append_assoc] at later

end Recorded

section Serving
variable {ω κ τ : Type*}

/-- The answers to calls that are made one after the other, and the last state. -/
def answers (serve : σ → ι → ω × σ) : σ → List ι → List ω × σ
  | s, [] => ([], s)
  | s, a :: rest =>
    ((serve s a).1 :: (answers serve (serve s a).2 rest).1, (answers serve (serve s a).2 rest).2)

/-- The runs that a specification allows, with their answers. -/
inductive Allowed (spec : τ → κ → ω → τ → Prop) : τ → List κ → List ω → τ → Prop
  | nil {t : τ} : Allowed spec t [] [] t
  | cons {t u v : τ} {call : κ} {answer : ω} {rest : List κ} {later : List ω}
      (first : spec t call answer u)
      (more : Allowed spec u rest later v) : Allowed spec t (call :: rest) (answer :: later) v

/-- Where every call answers and leaves what the specification allows, so does every run. -/
theorem answers_allowed {serve : σ → ι → ω × σ} {spec : τ → κ → ω → τ → Prop} {view : ι → κ}
    {related : σ → τ → Prop} {ok : ι → Prop}
    (keep : ∀ s t a, related s t → ok a → ∃ u, spec t (view a) (serve s a).1 u ∧
      related (serve s a).2 u)
    {s : σ} {t : τ} (start : related s t) {calls : List ι} (all : ∀ a ∈ calls, ok a) :
    ∃ u, Allowed spec t (calls.map view) (answers serve s calls).1 u ∧
      related (answers serve s calls).2 u := by
  induction calls generalizing s t with
  | nil => exact ⟨t, .nil, start⟩
  | cons a rest ih =>
    obtain ⟨u, first, next⟩ := keep s t a start (all a List.mem_cons_self)
    obtain ⟨v, more, last⟩ := ih next fun b member => all b (List.mem_cons_of_mem _ member)
    exact ⟨v, .cons first more, last⟩

end Serving

/-- All that `next` gives until it gives nothing; `none` when it has not ended after `fuel`
calls. -/
def drain {α : Type*} (next : σ → Option (α × σ)) : Nat → σ → Option (List α)
  | 0, _ => none
  | fuel + 1, s =>
    match next s with
    | none => some []
    | some (a, t) => (drain next fuel t).map (a :: ·)

section Drain
variable {α τ : Type*} {next : σ → Option (α × σ)} {next' : τ → Option (α × τ)}

theorem drain_cons {s t : σ} {a : α} {fuel : Nat} (h : next s = some (a, t)) :
    drain next (fuel + 1) s = (drain next fuel t).map (a :: ·) := by
  simp only [drain, h]

/-- Two iterators that go along with each other give the same. -/
theorem drain_sim {related : σ → τ → Prop}
    (sim : ∀ s t, related s t → (next s = none ∧ next' t = none) ∨
      ∃ a s' t', next s = some (a, s') ∧ next' t = some (a, t') ∧ related s' t')
    {s : σ} {t : τ} (start : related s t) (fuel : Nat) :
    drain next fuel s = drain next' fuel t := by
  induction fuel generalizing s t with
  | zero => rfl
  | succ fuel ih =>
    rcases sim s t start with ⟨ended, ended'⟩ | ⟨a, s', t', given, given', again⟩
    · simp only [drain, ended, ended']
    · rw [drain_cons given, drain_cons given', ih again]

end Drain

end FlushDB.Lib
