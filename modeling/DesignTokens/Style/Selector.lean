import DesignTokens.Text.Basic

/-!
Selectors of a stylesheet: which elements get the declarations of a flavor, or of a mode that was
chosen by hand.
-/

namespace DesignTokens

/-- The flavor that applies where none is chosen. -/
def defaultFlavorName : String := "original"

structure Selectors where
  /-- The selector of the document root. -/
  root : String
  /-- The attribute that chooses a flavor. -/
  flavorAttribute : String
  /-- The attribute that chooses a mode by hand. -/
  modeAttribute : String
  /-- The flavor that also applies where none is chosen. -/
  defaultFlavor : String
deriving DecidableEq, Repr

namespace Selectors

def standard : Selectors := ⟨":root", "flavor", "flavor-mode", defaultFlavorName⟩

def isDefaultFlavor (s : Selectors) (flavor : String) : Bool :=
  flavor == s.defaultFlavor

/-- The selector of elements whose attribute has a value. -/
def attributeIs (name value : String) : String :=
  "[" ++ name ++ "=\"" ++ value ++ "\"]"

/-- The selector of elements with a flavor of their own. -/
def explicit (s : Selectors) (flavor : String) : String :=
  attributeIs s.flavorAttribute flavor

/-- The selector of elements with a mode chosen by hand. -/
def pinned (s : Selectors) (mode : String) : String :=
  attributeIs s.modeAttribute mode

/-- The condition that an element chooses no flavor. -/
def unflavored (s : Selectors) : String :=
  ":not([" ++ s.flavorAttribute ++ "])"

/-- The elements that get a flavor's declarations. -/
def forFlavor (s : Selectors) (flavor : String) : List String :=
  if s.isDefaultFlavor flavor then [s.root ++ s.unflavored, s.explicit flavor]
  else [s.explicit flavor]

/-- The elements that get a flavor's declarations for a mode chosen by hand. For the default flavor
the choice may also be made on an element around them. -/
def forMode (s : Selectors) (flavor mode : String) : List String :=
  if s.isDefaultFlavor flavor then
    [s.root ++ s.pinned mode ++ s.unflavored,
     s.explicit flavor ++ s.pinned mode,
     s.pinned mode ++ " " ++ s.explicit flavor]
  else [s.explicit flavor ++ s.pinned mode]

end Selectors

end DesignTokens
