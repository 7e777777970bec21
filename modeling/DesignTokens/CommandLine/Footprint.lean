import DesignTokens.CommandLine.Run

/-!
Which files a command works on. How far that is known depends on what is known of the files: the
configuration tells where the tokens are, and so on.
-/

namespace DesignTokens

/-- A path that a command works on. -/
structure Footprint where
  path : Path
  /-- Whether everything below the path counts. -/
  deep : Bool
deriving DecidableEq, Repr

namespace Footprint

def of (p : Path) : Footprint := ⟨p, false⟩

def below (p : Path) : Footprint := ⟨p, true⟩

/-- The output directories of a build. -/
def ofOutputs (c : BuildContext) : List Footprint :=
  [ingredientsName, flavorsName, recipesName].flatMap fun layer =>
    [below (c.cssDir layer), below (c.tsDir layer)]

/-- What a command works on in a project. -/
def inProject (w : Place) (c : Config) : Command → List Footprint
  | .clean =>
    match c.removableOutput w with
    | .ok output => [of c.tokensPath, of c.root, below output, of c.cachePath]
    | .error _ => [of c.tokensPath, of c.root, of c.outputPath]
  | _ => [below c.tokensPath, of c.cachePath] ++ ofOutputs (c.buildContext "")

/-- What an invocation works on, as far as the files tell. -/
def ofInvocation (w : Place) (i : Invocation) : List Footprint :=
  match i.command with
  | .init dir name => of dir :: (Scaffold.files dir (name.getD "")).map fun file => of file.1
  | command =>
    [of i.config, of (i.config.join configFileName)] ++
      match Config.load w i.config with
      | .ok c => inProject w c command
      | .error _ => []

end Footprint

end DesignTokens
