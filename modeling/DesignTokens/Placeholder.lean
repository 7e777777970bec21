import DesignTokens.CustomProperty
import DesignTokens.Notice
import DesignTokens.Text.Blank

/-!
Placeholders `{dotted.path.value}` in the text of a token.

A text splits into literals, references and malformed brace runs; writing the pieces one after the
other gives the text back. A brace that is never closed makes the rest of the text malformed, and a
brace inside an open placeholder makes the part in front of it malformed.
-/

namespace DesignTokens.Placeholder

/-- A piece of a text. A reference holds the dotted path without the final `.value`. -/
inductive Segment where
  | literal (text : String)
  | reference (path : String)
  | malformed (text : String)
deriving DecidableEq, Repr

/-- The end of every reference inside its braces. -/
def valueSuffix : List Char := ".value".toList

namespace Segment

/-- The text that a piece was read from. -/
def source : Segment → String
  | literal text => text
  | reference path => "\x7b" ++ path ++ ".value\x7d"
  | malformed text => text

/-- The path of a reference. -/
def path? : Segment → Option String
  | reference path => some path
  | _ => none

/-- The text of a malformed piece. -/
def malformed? : Segment → Option String
  | malformed text => some text
  | _ => none

end Segment

/-- The piece for text outside braces; no piece for no text. -/
def literalOf (cs : List Char) : List Segment :=
  if cs.isEmpty then [] else [.literal (String.ofList cs)]

/-- The piece for closed braces around some text: a reference if it names a path that is not blank
and ends in `.value`. -/
def closed (body : List Char) : Segment :=
  match Text.stripEnd valueSuffix body with
  | some path =>
    if Text.isAllBlank path then .malformed (String.ofList ('\x7b' :: body ++ ['\x7d']))
    else .reference (String.ofList path)
  | none => .malformed (String.ofList ('\x7b' :: body ++ ['\x7d']))

/-- The piece for an open brace and the text behind it. -/
def unclosed (body : List Char) : Segment :=
  .malformed (String.ofList ('\x7b' :: body))

mutual

/-- Splits text outside braces, given the literal read so far. -/
def outside (done : List Char) : List Char → List Segment
  | [] => literalOf done
  | c :: cs => if c = '\x7b' then literalOf done ++ inside [] cs else outside (done ++ [c]) cs

/-- Splits text behind an open brace, given what was read since the brace. -/
def inside (done : List Char) : List Char → List Segment
  | [] => [unclosed done]
  | c :: cs =>
    if c = '\x7d' then closed done :: outside [] cs
    else if c = '\x7b' then
      if '\x7d' ∈ cs then unclosed done :: inside [] cs else [unclosed (done ++ c :: cs)]
    else inside (done ++ [c]) cs

end

/-- The pieces of a text. -/
def scan (text : String) : List Segment :=
  outside [] text.toList

/-- The paths of the references in a text, from left to right. -/
def references (text : String) : List String :=
  if '\x7b' ∈ text.toList then (scan text).filterMap Segment.path? else []

/-- Whether a text holds a reference. Only a text that mentions `.value` is split. -/
def hasReference (text : String) : Bool :=
  Text.occurs valueSuffix text.toList && (scan text).any fun s => s.path?.isSome

/-- What a reference becomes in the output. -/
inductive Target where
  | cssReference
  | propertyName
deriving DecidableEq, Repr

/-- The output for a dotted path. -/
def Target.render (target : Target) (stem path : String) : String :=
  match target with
  | cssReference => CustomProperty.reference (CustomProperty.nameOfDotted stem path)
  | propertyName => CustomProperty.nameOfDotted stem path

/-- The output for a piece: a reference is rendered, all else stays. -/
def Segment.render (target : Target) (stem : String) : Segment → String
  | literal text => text
  | reference path => target.render stem path
  | malformed text => text

/-- A text with every reference rendered; a text without a brace is not split. -/
def render (target : Target) (stem text : String) : String :=
  if '\x7b' ∈ text.toList then
    (scan text).foldl (fun out s => out ++ s.render target stem) ""
  else text

/-- A text with every reference as a `var()` expression. -/
def renderCss (stem text : String) : String :=
  render .cssReference stem text

/-- The notices of rendering a text: one per malformed piece. -/
def renderNotices (text : String) : List Notice :=
  if '\x7b' ∈ text.toList then
    (scan text).filterMap fun s => s.malformed?.map fun part => .malformedReference part text
  else []

end DesignTokens.Placeholder
