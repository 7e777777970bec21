import DesignTokens.Keyed
import DesignTokens.Number.Binary64

/-!
JSON documents. The members of an object stand in the order in which they were first written.
-/

namespace DesignTokens.Json

/-- A number: an integer of 64 bits, or a binary64 number. -/
inductive Number where
  | integer (value : Int)
  | real (value : Binary64)
deriving DecidableEq, Repr, Inhabited

inductive Value where
  | null
  | boolean (value : Bool)
  | number (value : Number)
  | string (text : String)
  | array (items : List Value)
  | object (members : List (String × Value))
deriving Repr, Inhabited

namespace Value

def isObject : Value → Bool
  | object _ => true
  | _ => false

end Value

end DesignTokens.Json
