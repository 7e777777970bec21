import DesignTokens.Proofs.Workspace.Operations

/-!
One job run twice, from related workspaces on: both runs end the same way and leave related
workspaces. How much of an error has to be the same is up to a view of it.
-/

namespace DesignTokens.Job

variable {ε α β γ : Type}

/-- From related workspaces on, both runs of a job fail with errors that look the same, or both give
the same value, one with a property; and they leave related workspaces. -/
def Lockstep (view : ε → γ) (R : Workspace → Workspace → Prop) (Q : α → Prop) (job : Job ε α) :
    Prop :=
  ∀ x y, R x y →
    (exec job x).1.mapError view = (exec job y).1.mapError view ∧
      (∀ a, (exec job x).1 = .ok a → Q a) ∧ R (exec job x).2 (exec job y).2

namespace Lockstep

variable {view : ε → γ} {R : Workspace → Workspace → Prop} {P : α → Prop} {Q : β → Prop}

theorem pure {a : α} (ha : P a) : Lockstep view R P (pure a : Job ε α) := by
  intro x y h
  refine ⟨rfl, ?_, h⟩
  intro b hb
  exact Except.ok.inj hb ▸ ha

theorem bind {job : Job ε α} {next : α → Job ε β} (hjob : Lockstep view R P job)
    (hnext : ∀ a, P a → Lockstep view R Q (next a)) : Lockstep view R Q (job >>= next) := by
  intro x y h
  obtain ⟨hsame, hvalue, hrelated⟩ := hjob x y h
  rw [exec_bind, exec_bind]
  generalize exec job x = left at *
  generalize exec job y = right at *
  obtain ⟨_ | a, x'⟩ := left
  · obtain ⟨_ | b, y'⟩ := right
    · exact ⟨congrArg Except.error (Except.error.inj hsame), nofun, hrelated⟩
    · cases hsame
  · obtain ⟨_ | b, y'⟩ := right
    · cases hsame
    · obtain rfl := Except.ok.inj hsame
      exact hnext a (hvalue a rfl) x' y' hrelated

/-- What follows a query may depend on less than the whole result. -/
theorem bind_query {δ : Type} {refuse : FileError → ε} {f : Place → Except FileError α}
    (look : α → δ) (next : δ → Job ε β)
    (hf : ∀ x y, R x y → ((f x.place).map look).mapError (view ∘ refuse) =
      ((f y.place).map look).mapError (view ∘ refuse))
    (hnext : ∀ d, Lockstep view R Q (next d)) :
    Lockstep view R Q (query refuse f >>= fun a => next (look a)) := by
  intro x y h
  have hsame := hf x y h
  rw [exec_bind, exec_bind, exec_query, exec_query]
  generalize f x.place = left at *
  generalize f y.place = right at *
  obtain e | a := left
  · obtain e' | b := right
    · exact ⟨congrArg Except.error (Except.error.inj hsame), nofun, h⟩
    · cases hsame
  · obtain e' | b := right
    · cases hsame
    · have hab : look a = look b := Except.ok.inj hsame
      change _ = (exec (next (look b)) y).1.mapError view ∧ _ ∧ R _ (exec (next (look b)) y).2
      rw [← hab]
      exact hnext (look a) x y h

/-- Where errors have to be the same, so do the outcomes. -/
theorem outcome_eq {job : Job ε α} (h : Lockstep id R P job) {x y : Workspace} (hxy : R x y) :
    (exec job x).1 = (exec job y).1 := by
  have hid : ∀ outcome : Except ε α, outcome.mapError id = outcome := by
    intro outcome
    cases outcome <;> rfl
  obtain ⟨hsame, -, -⟩ := h x y hxy
  rwa [hid, hid] at hsame

theorem effect_eq {job : Job ε α} (h : Lockstep view R P job) {x y : Workspace} (hxy : R x y) :
    (effect job x).1 = (effect job y).1 ∧ (∀ a, (effect job x).1 = some a → P a) ∧
      R (effect job x).2 (effect job y).2 := by
  obtain ⟨hsame, hvalue, hrelated⟩ := h x y hxy
  rw [effect, effect]
  generalize exec job x = left at *
  generalize exec job y = right at *
  obtain ⟨_ | a, x'⟩ := left
  · obtain ⟨_ | b, y'⟩ := right
    · refine ⟨rfl, ?_, hrelated⟩
      intro c hc
      cases hc
    · cases hsame
  · obtain ⟨_ | b, y'⟩ := right
    · cases hsame
    · refine ⟨congrArg some (Except.ok.inj hsame), ?_, hrelated⟩
      intro c hc
      exact hvalue c (congrArg Except.ok (Option.some.inj hc))

end Lockstep

end DesignTokens.Job
