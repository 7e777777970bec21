import DesignTokens.Json.Fault
import DesignTokens.Text.Basic
import DesignTokens.Workspace.FileTree

/-!
What can go wrong between token files and their output.
-/

namespace DesignTokens

/-- Why a JSON document holds no tokens. -/
inductive DocumentError where
  | notAnObject
  | neitherTokenNorGroup (dotted : String)
deriving DecidableEq, Repr

def DocumentError.message : DocumentError → String
  | notAnObject => "top level must be an object"
  | neitherTokenNorGroup dotted => "`" ++ dotted ++ "` is neither a token nor a group of tokens"

/-- Why references cannot be resolved. -/
inductive ReferenceError where
  | unknown (token reference : String)
  | circular (chain : List String)
deriving DecidableEq, Repr

def ReferenceError.message : ReferenceError → String
  | unknown token reference =>
    "Token `" ++ token ++ "` references unknown token `" ++ reference ++ "`"
  | circular chain => "Circular token reference: " ++ Text.join " -> " chain

/-- Why a layer cannot be found, read or written. -/
inductive TokenError where
  | file (path : Path) (cause : FileError)
  | json (path : Path) (cause : Json.ReadError)
  | document (path : Path) (cause : DocumentError)
  | reference (cause : ReferenceError)
  | noTokenDirectory (path : Path)
deriving DecidableEq, Repr

def TokenError.message : TokenError → String
  | file path cause => "I/O error on " ++ path.text ++ ": " ++ cause.message
  | json path cause => "Failed to parse " ++ path.text ++ ": " ++ cause.message
  | document path cause => "Invalid token document " ++ path.text ++ ": " ++ cause.message
  | reference cause => cause.message
  | noTokenDirectory path =>
    "Source discovery failed: token directory " ++ path.text ++ " does not exist"

end DesignTokens
