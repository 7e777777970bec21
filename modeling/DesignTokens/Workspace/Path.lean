import DesignTokens.Text.Basic

/-!
File paths, kept as they are written and compared by their components.

A path is absolute if it starts with a slash; a relative one may start with a dot of its own. After
that come parts between slashes, of which empty ones and single dots say nothing.
-/

namespace DesignTokens

/-- A path as text. -/
structure Path where
  text : String
deriving DecidableEq, Repr, Inhabited

namespace Path

/-- A step of a path. -/
inductive Component where
  | root
  | here
  | up
  | name (text : String)
deriving DecidableEq, Repr

/-- Whether a path starts at the root. -/
def isAbsolute (p : Path) : Bool :=
  p.text.toList.head? == some '/'

/-- What a path starts with in front of its parts: the root, the current directory or nothing. -/
def start? (p : Path) : Option Component :=
  match p.text.toList with
  | '/' :: _ => some .root
  | ['.'] => some .here
  | '.' :: '/' :: _ => some .here
  | _ => none

/-- The parts of a path behind its start. -/
def parts (p : Path) : List (List Char) :=
  Text.splitAt '/' (p.text.toList.drop (if p.start?.isSome then 1 else 0))

/-- Whether a part says nothing. -/
def isFiller (part : List Char) : Bool :=
  part = [] || part = ['.']

/-- The component that a part stands for. -/
def component? (part : List Char) : Option Component :=
  if isFiller part then none
  else if part = ['.', '.'] then some .up
  else some (.name (String.ofList part))

def components (p : Path) : List Component :=
  p.start?.toList ++ p.parts.filterMap component?

/-- The path with a start and parts. -/
def ofParts (start : Option Component) (parts : List (List Char)) : Path :=
  let lead := match start with
    | some .root => ['/']
    | some .here => ['.']
    | _ => []
  ⟨String.ofList (lead ++ ['/'].intercalate parts)⟩

/-- Parts without those at the end that say nothing. -/
def dropFillerEnd (parts : List (List Char)) : List (List Char) :=
  (parts.reverse.dropWhile isFiller).reverse

/-- The path without its last component, and without what says nothing in front of that; none for
the root and for the empty path. -/
def parent (p : Path) : Option Path :=
  match dropFillerEnd p.parts with
  | [] => if p.start? = some .here then some ⟨""⟩ else none
  | parts => some (ofParts p.start? (dropFillerEnd parts.dropLast))

/-- The path `child` seen from `p`: an absolute child replaces `p`, and a slash goes between them
unless `p` is empty or ends in one. -/
def join (p : Path) (child : String) : Path :=
  if child.toList.head? = some '/' then ⟨child⟩
  else match p.text.toList.getLast? with
    | none => ⟨child⟩
    | some '/' => ⟨p.text ++ child⟩
    | some _ => ⟨p.text ++ "/" ++ child⟩

/-- Whether the components of `p` begin with those of `q`. -/
def startsWith (p q : Path) : Bool :=
  q.components.isPrefixOf p.components

/-- Whether two paths have the same components. -/
def same (p q : Path) : Bool :=
  p.components == q.components

/-- Parts without the first `n` components and what says nothing in front of the next one. -/
def dropComponents : Nat → List (List Char) → List (List Char)
  | _, [] => []
  | 0, part :: parts => if isFiller part then dropComponents 0 parts else part :: parts
  | n + 1, part :: parts =>
    if isFiller part then dropComponents (n + 1) parts else dropComponents n parts

/-- The path below a directory, or the path itself if it does not lie below it. -/
def relativeTo (p base : Path) : Path :=
  let given := base.components.length
  if given = 0 ∨ ¬ p.startsWith base then p
  else
    let rest := dropComponents (given - p.start?.toList.length) p.parts
    ofParts none (dropFillerEnd rest)

/-- The path with the components of a list. -/
def ofComponents (components : List Component) : Path :=
  let names := components.filterMap fun
    | .root => none
    | .here => some ['.']
    | .up => some ['.', '.']
    | .name text => some text.toList
  ofParts (if components.head? = some .root then some .root else none) names

/-- A path without the dots that stand for the current directory. -/
def withoutHere (p : Path) : Path :=
  ofComponents (p.components.filter (· ≠ .here))

/-- The extension of a file name: what follows its last dot, if something stands in front of it. -/
def extension? (name : String) : Option String :=
  let reversed := name.toList.reverse
  let after := reversed.takeWhile (· ≠ '.')
  match reversed.dropWhile (· ≠ '.') with
  | [] => none
  | _ :: front =>
    if front.isEmpty || name == ".." then none else some (String.ofList after.reverse)

end Path

end DesignTokens
