import DesignTokens.Generated
import DesignTokens.Token.Tree
import DesignTokens.TypedModule.Render

/-!
Writing the typed modules of a list of tokens into a directory.
-/

namespace DesignTokens.TypedModule

/-- The file name of the index. -/
def indexName : String := "index.ts"

/-- The categories of tokens in ascending order. -/
def sortedCategories (tokens : List Token) : List String :=
  (categoriesOf tokens).mergeSort fun a b => !(b < a)

/-- The module of one category. -/
def moduleText (tokens : List Token) (leaf : Token → Json.Value) (name : ModuleName) : String :=
  name.render (TokenTree.build tokens (some name.category) leaf)

/-- Writes the modules of some categories one after the other. -/
def writeModules (dir : Path) (tokens : List Token) (leaf : Token → Json.Value) (stamp : String) :
    List ModuleName → Job TokenError (List Path)
  | [] => pure []
  | name :: rest => do
    Job.report (TokenTree.notices tokens (some name.category) leaf)
    let p ← Generated.write (dir.join (name.category ++ ".ts")) stamp (moduleText tokens leaf name)
    return p :: (← writeModules dir tokens leaf stamp rest)

/-- Writes one module per category and the index of them; no tokens make no files. -/
def write (dir : Path) (tokens : List Token) (style : LeafStyle) (stem stamp : String) :
    Job TokenError (List Path) := do
  let categories := sortedCategories tokens
  let names := ModuleName.ofCategories categories
  Job.report (ModuleName.notices categories)
  let modules ← writeModules dir tokens (style.leaf stem) stamp names
  if names.isEmpty then return modules
  let index ← Generated.write (dir.join indexName) stamp (ModuleName.renderIndex names)
  return modules ++ [index]

end DesignTokens.TypedModule
