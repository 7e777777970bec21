import DesignTokens.CommandLine.Run
import DesignTokens.Proofs.Build.Settings

/-!
What `status` tells about a project, and what `build` then does. The plan is made before the first
layer is built, so nothing that building and caching change on the way takes part in it.
-/

namespace DesignTokens

namespace Command

open Job

/-- The workspace in which a project's layers were found. -/
def found (project : Config) (x : Workspace) : Workspace :=
  let notices := Layer.discoverNotices x.place project.tokensPath project.selectors.defaultFlavor
  { x with notices := x.notices ++ notices }

/-- The workspace in which a project's layers and its cache were found. -/
def opened (project : Config) (x : Workspace) : Workspace :=
  let notices := CacheStore.loadNotices x.place project.cachePath
  { found project x with notices := (found project x).notices ++ notices }

theorem exec_orFail {ε α : Type} (wrap : ε → CommandError) (result : Except ε α) (x : Workspace) :
    exec (orFail wrap result) x = (result.mapError wrap, x) := by
  cases result <;> rfl

/-- Reading a project: its configuration first, then its layers. -/
theorem exec_projectAt_eq (config : Path) (x : Workspace) :
    exec (projectAt config) x =
      match Config.load x.place config with
      | .error e => (.error (.config e), x)
      | .ok project =>
        match Layer.discover x.place project.tokensPath project.selectors.defaultFlavor with
        | .error e => (.error (.discovery e), found project x)
        | .ok layers => (.ok (project, layers), found project x) := by
  rw [projectAt, configAt, exec_bind, exec_bind, exec_place]
  dsimp only
  rw [exec_orFail]
  cases Config.load x.place config with
  | error e => rfl
  | ok project =>
      simp only [Except.mapError, exec_bind, exec_place, exec_report, exec_orFail]
      cases Layer.discover x.place project.tokensPath project.selectors.defaultFlavor <;> rfl

end Command

end DesignTokens
