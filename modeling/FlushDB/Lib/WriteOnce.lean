import FlushDB.Lib.ObjectStore

/-!
Stores whose objects lie at several places under one name and are written once: what a step adds is
a copy or has a name that was never used, and what it removes has a copy that stays. A name then
keeps its content for ever, although its object moves, and what has been read of it stays right.
-/

namespace FlushDB.Lib

variable {π ν β γ ε : Type*} [DecidableEq π] {name : π → ν} {used used' used'' : ν → Prop}
  {s t u : ObjectStore π β}

/-- Objects have names that are used, and one name has one content. -/
structure WriteOnce (name : π → ν) (used : ν → Prop) (s : ObjectStore π β) : Prop where
  named : ∀ p, (s.get p).isSome → used (name p)
  same : ∀ p q b c, s.get p = some b → s.get q = some c → name p = name q → b = c

/-- What is stored afterwards was stored before under its name, or has a name of its own that is
new, and what was stored before is still stored. -/
structure Inherits (name : π → ν) (used used' : ν → Prop) (s t : ObjectStore π β) : Prop where
  more : ∀ n, used n → used' n
  named : ∀ p, (t.get p).isSome → used' (name p)
  from_before : ∀ p b, t.get p = some b → (∃ q, name q = name p ∧ s.get q = some b) ∨
    ¬ used (name p) ∧ ∀ q c, t.get q = some c → name q = name p → c = b
  kept : ∀ p b, s.get p = some b → ∃ q, name q = name p ∧ t.get q = some b

namespace Inherits

theorem refl (h : WriteOnce name used s) : Inherits name used used s s :=
  ⟨fun _ old => old, h.named, fun p _ found => Or.inl ⟨p, rfl, found⟩, fun p _ found => ⟨p, rfl, found⟩⟩

theorem writeOnce (h : WriteOnce name used s) (step : Inherits name used used' s t) :
    WriteOnce name used' t := by
  refine ⟨step.named, ?_⟩
  intro p q b c first second same
  rcases step.from_before p b first with ⟨p', place, before⟩ | ⟨-, only⟩
  · rcases step.from_before q c second with ⟨q', place', before'⟩ | ⟨-, only⟩
    · exact h.same p' q' b c before before' (by rw [place, place', same])
    · exact only p b first same
  · exact (only q c second same.symm).symm

theorem trans (h : WriteOnce name used s) (first : Inherits name used used' s t)
    (second : Inherits name used' used'' t u) :
    Inherits name used used'' s u := by
  have last := second.writeOnce (first.writeOnce h)
  refine ⟨fun n old => second.more n (first.more n old), second.named, ?_, ?_⟩
  · intro p b found
    have alone : ∀ q c, u.get q = some c → name q = name p → c = b :=
      fun q c found' same => last.same q p c b found' found same
    rcases second.from_before p b found with ⟨q, place, before⟩ | ⟨new, -⟩
    · rcases first.from_before q b before with ⟨q', place', before'⟩ | ⟨new, -⟩
      · exact Or.inl ⟨q', place'.trans place, before'⟩
      · rw [place] at new
        exact Or.inr ⟨new, alone⟩
    · exact Or.inr ⟨fun old => new (first.more _ old), alone⟩
  · intro p b found
    obtain ⟨q, place, mid⟩ := first.kept p b found
    obtain ⟨r, place', after⟩ := second.kept q b mid
    exact ⟨r, place'.trans place, after⟩

theorem mono (h : Inherits name used used' s t) (more : ∀ n, used' n → used'' n) :
    Inherits name used used'' s t :=
  ⟨fun n old => more n (h.more n old), fun p found => more _ (h.named p found), h.from_before, h.kept⟩

/-- What is removed has a copy. -/
theorem delete (h : WriteOnce name used s) {p q : π} (apart : q ≠ p) (same : name q = name p)
    (copied : (s.get q).isSome) :
    Inherits name used used s (s.delete p) := by
  obtain ⟨c, copied⟩ := Option.isSome_iff_exists.mp copied
  refine ⟨fun _ old => old, ?_, ?_, ?_⟩
  · intro r present
    obtain ⟨b, found⟩ := Option.isSome_iff_exists.mp present
    exact h.named r (Option.isSome_of_eq_some (ObjectStore.get_of_delete found))
  · intro r b found
    exact Or.inl ⟨r, rfl, ObjectStore.get_of_delete found⟩
  · intro r b found
    by_cases here : r = p
    · subst here
      obtain rfl := h.same q r c b copied found same
      exact ⟨q, same, (ObjectStore.get_delete_ne s apart).trans copied⟩
    · exact ⟨r, rfl, (ObjectStore.get_delete_ne s here).trans found⟩

theorem copy (h : WriteOnce name used s) {p q : π} {b : β} (found : s.get p = some b)
    (same : name q = name p) :
    Inherits name used used s (s.put q b) := by
  have known : used (name q) := same ▸ h.named p (Option.isSome_of_eq_some found)
  refine ⟨fun _ old => old, ?_, ?_, ?_⟩
  · intro r present
    by_cases here : r = q
    · rwa [here]
    · rw [ObjectStore.get_put_ne _ _ here] at present
      exact h.named r present
  · intro r c present
    by_cases here : r = q
    · rw [here, ObjectStore.get_put_self] at present
      rw [here, ← Option.some.inj present]
      exact Or.inl ⟨p, same.symm, found⟩
    · rw [ObjectStore.get_put_ne _ _ here] at present
      exact Or.inl ⟨r, rfl, present⟩
  · intro r c before
    by_cases here : r = q
    · subst here
      obtain rfl := h.same r p c b before found same
      exact ⟨r, rfl, ObjectStore.get_put_self _ _ _⟩
    · exact ⟨r, rfl, (ObjectStore.get_put_ne _ _ here).trans before⟩

/-- What is written at places of its own, under new names. -/
theorem extend (h : WriteOnce name used s) {place : π → Prop} {new : ν → Prop}
    (fresh : ∀ n, new n → ¬ used n) (apart : ∀ p q, place p → place q → name p = name q → p = q)
    (writes : ∀ p, (place p ∧ new (name p)) ∨ t.get p = s.get p) :
    Inherits name used (fun n => used n ∨ new n) s t := by
  refine ⟨fun _ old => Or.inl old, ?_, ?_, ?_⟩
  · intro p found
    rcases writes p with ⟨-, named⟩ | same
    · exact Or.inr named
    · rw [same] at found
      exact Or.inl (h.named p found)
  · intro p b found
    rcases writes p with ⟨here, named⟩ | same
    · refine Or.inr ⟨fresh _ named, ?_⟩
      intro q c found' shared
      rcases writes q with ⟨there, -⟩ | old
      · obtain rfl := apart q p there here shared
        exact Option.some.inj (found'.symm.trans found)
      · rw [old] at found'
        exact absurd (shared ▸ h.named q (Option.isSome_of_eq_some found')) (fresh _ named)
    · exact Or.inl ⟨p, rfl, same ▸ found⟩
  · intro p b found
    rcases writes p with ⟨-, named⟩ | same
    · exact absurd (h.named p (Option.isSome_of_eq_some found)) (fresh _ named)
    · exact ⟨p, rfl, same.trans found⟩

theorem put (h : WriteOnce name used s) {p : π} (new : ¬ used (name p)) (b : β) :
    Inherits name used (fun n => used n ∨ n = name p) s (s.put p b) := by
  have fresh : ∀ n, n = name p → ¬ used n := by
    rintro n rfl
    exact new
  have apart : ∀ q r, q = p → r = p → name q = name r → q = r :=
    fun q r here there _ => here.trans there.symm
  refine extend h fresh apart ?_
  intro q
  by_cases here : q = p
  · exact Or.inl ⟨here, congrArg name here⟩
  · exact Or.inr (ObjectStore.get_put_ne _ _ here)

/-- Before and after, objects under one name are the same. -/
theorem same (h : WriteOnce name used s) (step : Inherits name used used' s t) {p q : π} {b c : β}
    (before : s.get p = some b) (after : t.get q = some c) (named : name q = name p) : c = b := by
  rcases step.from_before q c after with ⟨r, place, found⟩ | ⟨new, -⟩
  · exact h.same r p c b found before (place.trans named)
  · exact absurd (named ▸ h.named p (Option.isSome_of_eq_some before)) new

end Inherits

/-- What is remembered of names is what reading their objects gives. -/
def Remembers (name : π → ν) (read : β → Except ε γ) (used : ν → Prop) (s : ObjectStore π β)
    (known : ν → Option γ) : Prop :=
  ∀ n c, known n = some c → used n ∧ ∀ p b, name p = n → s.get p = some b → read b = .ok c

namespace Remembers
variable {read : β → Except ε γ} {known known' : ν → Option γ}

theorem nothing : Remembers name read used s fun _ => none := by
  rintro n c ⟨⟩

theorem step (h : Remembers name read used s known) (step : Inherits name used used' s t) :
    Remembers name read used' t known := by
  intro n c remembered
  obtain ⟨old, right⟩ := h n c remembered
  refine ⟨step.more n old, ?_⟩
  intro p b place found
  rcases step.from_before p b found with ⟨q, same, before⟩ | ⟨new, -⟩
  · exact right q b (same.trans place) before
  · exact absurd (place ▸ old) new

/-- What has just been read may be remembered. -/
theorem learn (h : Remembers name read used s known) (once : WriteOnce name used s) {p : π} {b : β}
    {c : γ} (found : s.get p = some b) (answer : read b = .ok c)
    (more : ∀ n d, known' n = some d → known n = some d ∨ n = name p ∧ d = c) :
    Remembers name read used s known' := by
  intro n d remembered
  rcases more n d remembered with old | ⟨rfl, rfl⟩
  · exact h n d old
  · refine ⟨once.named p (Option.isSome_of_eq_some found), ?_⟩
    intro q b' place found'
    rwa [once.same q p b' b found' found place]

theorem forget (h : Remembers name read used s known)
    (fewer : ∀ n c, known' n = some c → known n = some c) :
    Remembers name read used s known' := fun n c remembered => h n c (fewer n c remembered)

end Remembers

end FlushDB.Lib
