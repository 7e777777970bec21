import DesignTokens.Notice
import DesignTokens.Text.Basic
import DesignTokens.Text.Shown

/-!
Modes of a flavor, and how their declarations are switched on.

A project knows five modes; a configuration can replace them by name or add more. A name without a
mode counts as the flavor's base.
-/

namespace DesignTokens

/-- What a mode varies. Motion is independent of the color modes. -/
inductive ModeType where
  | color
  | motion
deriving DecidableEq, Repr

def ModeType.text : ModeType → String
  | color => "color"
  | motion => "motion"

/-- The type with a name. -/
def ModeType.ofText? (s : String) : Option ModeType :=
  if s = "color" then some .color else if s = "motion" then some .motion else none

structure Mode where
  name : String
  type : ModeType
  /-- The media feature, without parentheses. -/
  mediaQuery : Option String
  /-- The value of the mode attribute; the name of the mode if there is none. -/
  attributeValue : Option String
  allowManual : Bool
  manualOnly : Bool
  independent : Bool
deriving DecidableEq, Repr

/-- How declarations are switched on. -/
inductive Activation where
  /-- Always, with the flavor. -/
  | base
  /-- By a media query. -/
  | media (query : String)
  /-- By a media query, and by hand. -/
  | mediaOrManual (query pin : String)
  /-- By hand only. -/
  | manual (pin : String)
  /-- By a media query, whatever the other modes are. -/
  | motion (query : String)
deriving DecidableEq, Repr

namespace Activation

def mediaQuery? : Activation → Option String
  | media query => some query
  | mediaOrManual query _ => some query
  | motion query => some query
  | base => none
  | manual _ => none

def pin? : Activation → Option String
  | mediaOrManual _ pin => some pin
  | manual pin => some pin
  | base => none
  | media _ => none
  | motion _ => none

/-- The name of a kind of activation. -/
def kindName : Activation → String
  | base => "Base"
  | media _ => "AutoOnly"
  | mediaOrManual .. => "AutoPlusManual"
  | manual _ => "ManualOnly"
  | motion _ => "Motion"

/-- An activation with its kind and its texts, for people to read. -/
def describe (a : Activation) : String :=
  let fields :=
    (a.mediaQuery?.map fun q => "media_query: " ++ Text.shown q).toList ++
      (a.pin?.map fun v => "attribute: " ++ Text.shown v).toList
  match fields with
  | [] => a.kindName
  | fields => a.kindName ++ " \x7b " ++ Text.join ", " fields ++ " \x7d"

end Activation

/-- The media query of a motion mode that has none of its own. -/
def reducedMotionQuery : String := "prefers-reduced-motion: reduce"

namespace Mode

/-- The value of the mode attribute that chooses the mode by hand. -/
def pin (m : Mode) : String :=
  m.attributeValue.getD m.name

/-- How the declarations of a mode are switched on. A motion mode is never switched on by hand. -/
def activation (m : Mode) : Activation :=
  if m.independent ∨ m.type = .motion then .motion (m.mediaQuery.getD reducedMotionQuery)
  else if m.manualOnly then .manual m.pin
  else match m.mediaQuery, m.allowManual with
    | some query, true => .mediaOrManual query m.pin
    | some query, false => .media query
    | none, true => .manual m.pin
    | none, false => .base

/-- The notices of a mode that nothing switches on. -/
def notices (m : Mode) : List Notice :=
  if m.activation = .base then [.modeWithoutTrigger m.name] else []

end Mode

/-- The modes that every project knows. -/
def builtinModes : List Mode := [
  ⟨"light", .color, none, some "light", true, true, false⟩,
  ⟨"dark", .color, some "prefers-color-scheme: dark", some "dark", true, false, false⟩,
  ⟨"high-contrast", .color, some "prefers-contrast: more", some "high-contrast", true, false,
    false⟩,
  ⟨"forced-colors", .color, some "forced-colors: active", none, false, false, false⟩,
  ⟨"motion-reduce", .motion, some reducedMotionQuery, none, false, false, true⟩]

/-- The name that always means the base of a flavor. -/
def baseModeName : String := "base"

/-- Modes with distinct names. -/
structure ModeRegistry where
  modes : List Mode
deriving DecidableEq, Repr

namespace ModeRegistry

def builtin : ModeRegistry := ⟨builtinModes⟩

def empty : ModeRegistry := ⟨[]⟩

/-- Puts a mode in the place of the first one with its name, or at the end. -/
def replaceIn (mode : Mode) : List Mode → List Mode
  | [] => [mode]
  | m :: rest => if m.name = mode.name then mode :: rest else m :: replaceIn mode rest

/-- Replaces the mode of a name, or adds one. -/
def insert (r : ModeRegistry) (mode : Mode) : ModeRegistry :=
  ⟨replaceIn mode r.modes⟩

/-- Inserts modes one after the other. -/
def withOverrides (r : ModeRegistry) (overrides : List Mode) : ModeRegistry :=
  overrides.foldl insert r

def get? (r : ModeRegistry) (name : String) : Option Mode :=
  r.modes.find? fun m => m.name == name

/-- How the declarations in a flavor's mode file are switched on; those of its base file have no
mode name. -/
def resolve (r : ModeRegistry) : Option String → Activation
  | none => .base
  | some name =>
    if name = baseModeName then .base
    else match r.get? name with
      | some mode => mode.activation
      | none => .base

/-- The notices of resolving a name. -/
def resolveNotices (r : ModeRegistry) : Option String → List Notice
  | none => []
  | some name =>
    if name = baseModeName then []
    else match r.get? name with
      | some mode => mode.notices
      | none => [.unknownMode name]

end ModeRegistry

end DesignTokens
