import DesignTokens.Workspace.Job

/-!
What the steps of a job do to a workspace.
-/

namespace DesignTokens.Job

variable {ε α β : Type}

/-- The outcome of a job and the workspace it leaves. -/
def exec (job : Job ε α) (w : Workspace) : Except ε α × Workspace :=
  StateT.run (ExceptT.run job) w

/-- The workspace with another tree. -/
def withTree (w : Workspace) (tree : FileTree) : Workspace :=
  { w with place := { w.place with tree := tree } }

@[simp] theorem withTree_place (w : Workspace) (tree : FileTree) :
    (withTree w tree).place = ⟨tree, w.place.current⟩ := rfl

@[simp] theorem exec_pure (a : α) (w : Workspace) :
    exec (pure a : Job ε α) w = (.ok a, w) := rfl

@[simp] theorem exec_throw (e : ε) (w : Workspace) :
    exec (throw e : Job ε α) w = (.error e, w) := rfl

theorem exec_bind (job : Job ε α) (next : α → Job ε β) (w : Workspace) :
    exec (job >>= next) w =
      match exec job w with
      | (.ok a, after) => exec (next a) after
      | (.error e, after) => (.error e, after) := by
  simp only [exec, ExceptT.run_bind, StateT.run_bind]
  generalize StateT.run (ExceptT.run job) w = result
  rcases result with ⟨_ | a, after⟩ <;> rfl

theorem exec_bind_eq_ok {job : Job ε α} {next : α → Job ε β} {w after : Workspace} {b : β} :
    exec (job >>= next) w = (.ok b, after) ↔
      ∃ a between, exec job w = (.ok a, between) ∧ exec (next a) between = (.ok b, after) := by
  rw [exec_bind]
  rcases exec job w with ⟨_ | a, between⟩
  · simp
  · constructor
    · exact fun h => ⟨a, between, rfl, h⟩
    · rintro ⟨_, _, ⟨⟩, h⟩
      exact h

@[simp] theorem exec_place (w : Workspace) : exec (place : Job ε Place) w = (.ok w.place, w) := rfl

@[simp] theorem exec_get (w : Workspace) : exec (get : Job ε Workspace) w = (.ok w, w) := rfl

@[simp] theorem exec_setTree (tree : FileTree) (w : Workspace) :
    exec (setTree tree : Job ε Unit) w = (.ok (), withTree w tree) := rfl

@[simp] theorem exec_report (notices : List Notice) (w : Workspace) :
    exec (report notices : Job ε Unit) w =
      (.ok (), { w with notices := w.notices ++ notices }) := rfl

@[simp] theorem exec_query (refuse : FileError → ε) (f : Place → Except FileError α)
    (w : Workspace) : exec (query refuse f) w = ((f w.place).mapError refuse, w) := by
  rw [query, exec_bind, exec_place]
  dsimp only
  cases f w.place <;> rfl

@[simp] theorem exec_steps (refuse : FileError → ε)
    (f : Place → FileTree × Except FileError Unit) (w : Workspace) :
    exec (steps refuse f) w = ((f w.place).2.mapError refuse, withTree w (f w.place).1) := by
  rw [steps, exec_bind, exec_place]
  dsimp only
  rw [exec_bind, exec_setTree]
  cases (f w.place).2 <;> rfl

theorem exec_change (refuse : FileError → ε) (f : Place → Except FileError FileTree)
    (w : Workspace) :
    exec (change refuse f) w =
      match f w.place with
      | .ok tree => (.ok (), withTree w tree)
      | .error e => (.error (refuse e), w) := by
  rw [change, exec_bind, exec_query]
  cases f w.place <;> rfl

theorem exec_writeFile (refuse : FileError → ε) (p : Path) (content : ByteArray) (w : Workspace) :
    exec (writeFile refuse p content) w =
      match w.place.write p content w.stamp with
      | .ok tree => (.ok (), withTree w tree)
      | .error e => (.error (refuse e), w) := by
  rw [writeFile, exec_bind, exec_get]
  exact exec_change refuse (fun place => place.write p content w.stamp) w

theorem exec_adapt {δ : Type} (wrap : ε → δ) (job : Job ε α) (w : Workspace) :
    exec (ExceptT.adapt wrap job) w = ((exec job w).1.mapError wrap, (exec job w).2) := rfl

/-- The value of a job, none if it fails, and the workspace it leaves. -/
def effect (job : Job ε α) (w : Workspace) : Option α × Workspace :=
  ((exec job w).1.toOption, (exec job w).2)

theorem effect_bind (job : Job ε α) (next : α → Job ε β) (w : Workspace) :
    effect (job >>= next) w =
      match effect job w with
      | (some a, after) => effect (next a) after
      | (none, after) => (none, after) := by
  rw [effect, effect, exec_bind]
  rcases exec job w with ⟨_ | a, after⟩ <;> rfl

theorem effect_steps (refuse : FileError → ε) (f : Place → FileTree × Except FileError Unit)
    (w : Workspace) :
    effect (steps refuse f) w = ((f w.place).2.toOption, withTree w (f w.place).1) := by
  rw [effect, exec_steps]
  cases (f w.place).2 <;> rfl

end DesignTokens.Job
