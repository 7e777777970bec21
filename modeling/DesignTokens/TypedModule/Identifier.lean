import DesignTokens.Notice
import DesignTokens.Text.Basic
import DesignTokens.Text.UpperCase

/-!
Names that the modules of a project export, one constant and one type per category.

A category turns into a constant by camel case. Where two categories would get the same constant,
the later one gets a number, and so does its type.
-/

namespace DesignTokens

/-- Characters that separate the words of a category. -/
def isWordBreak (c : Char) : Bool :=
  c = '-' || c = '_' || c = '.' || c = ' '

def isAsciiDigit (c : Char) : Bool :=
  '0' ≤ c && c ≤ '9'

def isAsciiLetter (c : Char) : Bool :=
  ('a' ≤ c && c ≤ 'z') || ('A' ≤ c && c ≤ 'Z')

/-- The words of a category run together, given what is written already and whether the next
character starts a word. -/
def camelCase (done : List Char) (startsWord : Bool) : List Char → List Char
  | [] => done
  | c :: cs =>
    if isWordBreak c then camelCase done (!done.isEmpty) cs
    else camelCase (done ++ (if startsWord then Text.upper c else [c])) false cs

/-- A text with an underscore in front if it starts with a digit. -/
def guardDigit (cs : List Char) : List Char :=
  match cs with
  | c :: _ => if isAsciiDigit c then '_' :: cs else cs
  | [] => []

/-- The natural constant of a category. -/
def constantName (category : String) : String :=
  match camelCase [] false category.toList with
  | [] => "_"
  | cs => String.ofList (guardDigit cs)

/-- The end of every type name. -/
def typeSuffix : List Char := "Tokens".toList

/-- The natural type of a category: its constant with an upper-case start. -/
def typeName (category : String) : String :=
  let stem := (constantName category).toList.dropWhile (· = '_')
  let capital := match stem with
    | c :: rest => Text.upper c ++ rest
    | [] => []
  String.ofList (guardDigit capital ++ typeSuffix)

/-- The names exported for a category. -/
structure ModuleName where
  category : String
  constant : String
  type : String
deriving DecidableEq, Repr

namespace ModuleName

/-- The names of a category that collides with no other. -/
def natural (category : String) : ModuleName :=
  ⟨category, constantName category, typeName category⟩

/-- A text without the endings `Tokens` at its end, for a text given backwards. -/
def dropSuffixes : Nat → List Char → List Char
  | 0, cs => cs
  | n + 1, cs =>
    match Text.stripStart typeSuffix.reverse cs with
    | some rest => dropSuffixes n rest
    | none => cs

/-- A type name without its endings `Tokens`. -/
def typeStem (type : String) : String :=
  String.ofList (dropSuffixes type.length type.toList.reverse).reverse

/-- The first number from two on that gives a constant no one has. -/
def freeNumber (taken : List String) (constant : String) : Nat :=
  ((List.range' 2 (taken.length + 1)).find? fun n => constant ++ n.repr ∉ taken).getD 2

/-- The names of a category with a number added. -/
def numbered (name : ModuleName) (n : Nat) : ModuleName :=
  ⟨name.category, name.constant ++ n.repr, typeStem name.type ++ n.repr ++ "Tokens"⟩

/-- The names of a category, given the constants that are taken. -/
def choose (taken : List String) (category : String) : ModuleName :=
  let name := natural category
  if name.constant ∈ taken then name.numbered (freeNumber taken name.constant) else name

/-- The names of several categories, given the constants that are taken. -/
def chooseEach (taken : List String) : List String → List ModuleName
  | [] => []
  | category :: rest =>
    let name := choose taken category
    name :: chooseEach (taken ++ [name.constant]) rest

/-- The names of categories, the earlier ones having the first choice. -/
def ofCategories (categories : List String) : List ModuleName :=
  chooseEach [] categories

/-- The notices of choosing names: one for each that got a number. -/
def notices (categories : List String) : List Notice :=
  (ofCategories categories).filterMap fun name =>
    let constant := constantName name.category
    if name.constant = constant then none
    else some (.identifierTaken name.category constant name.constant)

end ModuleName

end DesignTokens
