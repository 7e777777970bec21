import DesignTokens.Keyed

/-!
TOML documents, and how statements build them up.

Besides its members a table knows how it came about: whether a header or an inline table defined it,
or it only lies on the way to another one, and whether dotted keys made it. That decides which later
statements may still add to it.
-/

namespace DesignTokens.Toml

inductive Value where
  | string (text : String)
  | integer (value : Int)
  | float (text : String)
  | boolean (value : Bool)
  | dateTime (text : String)
  | array (items : List Value)
  /-- A table written in braces, or a part of one that dotted keys made. -/
  | inline (defined : Bool) (members : List (String × Value))
  /-- A table of the document. -/
  | table (defined dotted : Bool) (members : List (String × Value))
  /-- Tables under a repeated header. -/
  | tables (elements : List (List (String × Value)))
deriving Repr, Inhabited

abbrev Members := List (String × Value)

/-- Adds a member under a new key. -/
def addNew (key : String) (v : Value) (members : Members) : Option Members :=
  match Keyed.get? key members with
  | some _ => none
  | none => some (members ++ [(key, v)])

namespace Inline

/-- Adds a value under a dotted key to a table in braces. Tables on the way have to be made by
dotted keys of the same braces. -/
def assign (key : String) (v : Value) : List String → Members → Option Members
  | [], members => addNew key v members
  | k :: path, members =>
    match Keyed.get? k members with
    | none => (assign key v path []).map fun inner => members ++ [(k, .inline false inner)]
    | some (.inline false inner) =>
      (assign key v path inner).map fun inner => Keyed.put k (.inline false inner) members
    | some _ => none

end Inline

/-- Changes the table at a path, making the tables on the way. The change is told whether dotted
keys made the table. Dotted keys do not lead into a table that a header defined; of tables under a
repeated header the last one is meant. -/
def descend (dotted : Bool) (change : Bool → Members → Option Members) (here : Bool) :
    List String → Members → Option Members
  | [], members => change here members
  | k :: path, members =>
    match Keyed.get? k members with
    | none =>
      (descend dotted change dotted path []).map fun inner =>
        members ++ [(k, .table false dotted inner)]
    | some (.table defined byDots inner) =>
      if dotted && defined then none
      else (descend dotted change byDots path inner).map fun inner =>
        Keyed.put k (.table defined byDots inner) members
    | some (.tables elements) =>
      match elements.getLast? with
      | none => none
      | some last =>
        (descend dotted change false path last).map fun inner =>
          Keyed.put k (.tables (elements.dropLast ++ [inner])) members
    | some _ => none

/-- A statement of a document. The last key of a path stands apart. -/
inductive Statement where
  | header (path : List String) (key : String)
  | repeatedHeader (path : List String) (key : String)
  | assign (path : List String) (key : String) (value : Value)
deriving Repr

/-- Defines a table by a header. -/
def defineTable (key : String) (members : Members) : Option Members :=
  match Keyed.get? key members with
  | none => some (members ++ [(key, .table true false [])])
  | some (.table false false inner) => some (Keyed.put key (.table true false inner) members)
  | some _ => none

/-- Starts another table under a repeated header. -/
def repeatTable (key : String) (members : Members) : Option Members :=
  match Keyed.get? key members with
  | none => some (members ++ [(key, .tables [[]])])
  | some (.tables elements) => some (Keyed.put key (.tables (elements ++ [[]])) members)
  | some _ => none

/-- Adds a value to a table; behind dots the table has to be made by dotted keys. -/
def assignIn (path : List String) (key : String) (v : Value) (members : Members) :
    Option Members :=
  descend true
    (fun byDots inner => if path.isEmpty || byDots then addNew key v inner else none)
    false path members

/-- A document being built: its members, and the path of the table that statements add to. -/
structure Draft where
  members : Members
  current : List String
deriving Repr

/-- Applies a statement. -/
def Draft.apply (d : Draft) : Statement → Option Draft
  | .header path key =>
    (descend false (fun _ => defineTable key) false path d.members).map fun members =>
      ⟨members, path ++ [key]⟩
  | .repeatedHeader path key =>
    (descend false (fun _ => repeatTable key) false path d.members).map fun members =>
      ⟨members, path ++ [key]⟩
  | .assign path key v =>
    (descend false (fun _ => assignIn path key v) false d.current d.members).map fun members =>
      { d with members := members }

/-- The members of a document with some statements. -/
def assemble (statements : List Statement) : Option Members :=
  (statements.foldlM Draft.apply ⟨[], []⟩).map Draft.members

end DesignTokens.Toml
