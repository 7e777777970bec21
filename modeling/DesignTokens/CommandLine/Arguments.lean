import DesignTokens.Text.Basic
import DesignTokens.Workspace.Path

/-!
The arguments of the command line.

Options are long, `--config x` or `--config=x`, or short, `-c x`, `-cx` or `-c=x`; short ones
without a value can be put together. Some options may stand on both sides of the command, where the
one behind the command counts. An option may stand only once on a side. Behind `--` nothing is an
option.
-/

namespace DesignTokens

inductive Command where
  | build (force : Bool) (layer : Option String)
  | status
  | list
  | clean
  | init (path : Path) (name : Option String)
deriving DecidableEq, Repr

/-- What a command line asks for. -/
structure Invocation where
  command : Command
  /-- Where the project's configuration is. -/
  config : Path
  verbose : Bool
  quiet : Bool
deriving DecidableEq, Repr

/-- Why arguments ask for no command. -/
inductive UsageError where
  /-- An option or a word that has no place here. -/
  | unknownArgument
  /-- A word that should be a command and is none. -/
  | unknownCommand
  /-- An option without its value, or with an empty one where that says nothing. -/
  | invalidValue
  /-- A value for an option that takes none. -/
  | needlessValue
  /-- An option that is repeated or does not go with another one. -/
  | conflict
  | noCommand
  | noArguments
  | helpWanted
  | versionWanted
deriving DecidableEq, Repr

namespace CommandLine

/-- What arguments can give. -/
inductive Item where
  | config
  | verbose
  | quiet
  | help
  | version
  | force
  | layer
  | name
  | path
deriving DecidableEq, Repr

namespace Item

/-- Whether an item comes with a value. -/
def takesValue : Item → Bool
  | config | layer | name | path => true
  | _ => false

/-- Whether the value of an item is a path, which is never empty. -/
def isPath : Item → Bool
  | config | path => true
  | _ => false

/-- The long name of an option. -/
def longName? : Item → Option String
  | config => some "config"
  | verbose => some "verbose"
  | quiet => some "quiet"
  | help => some "help"
  | version => some "version"
  | force => some "force"
  | layer => some "layer"
  | name => some "name"
  | path => none

/-- The letter of an option. -/
def letter? : Item → Option Char
  | config => some 'c'
  | verbose => some 'v'
  | quiet => some 'q'
  | help => some 'h'
  | version => some 'V'
  | force => some 'f'
  | _ => none

end Item

/-- The words that are commands. -/
inductive CommandName where
  | build
  | status
  | list
  | clean
  | init
deriving DecidableEq, Repr

def CommandName.ofText? (word : String) : Option CommandName :=
  match word with
  | "build" => some .build
  | "status" => some .status
  | "list" => some .list
  | "clean" => some .clean
  | "init" => some .init
  | _ => none

/-- The word that asks for help like a command. -/
def helpWord : String := "help"

/-- Options that may stand on both sides of the command. -/
def sharedItems : List Item := [.config, .verbose, .quiet, .help]

/-- What may stand in front of the command. -/
def leadingItems : List Item := sharedItems ++ [.version]

/-- What may stand behind a command. -/
def CommandName.items : CommandName → List Item
  | build => sharedItems ++ [.force, .layer]
  | init => sharedItems ++ [.name, .path]
  | _ => sharedItems

/-- What an argument looks like. -/
inductive Shape where
  /-- Two dashes: what follows is no option. -/
  | separator
  | long (body : List Char)
  | short (letters : List Char)
  | word
deriving DecidableEq, Repr

/-- The shape of an argument. A single dash is a word. -/
def Shape.of (argument : String) : Shape :=
  match argument.toList with
  | ['-', '-'] => .separator
  | '-' :: '-' :: body => .long body
  | ['-'] => .word
  | '-' :: letters => .short letters
  | _ => .word

/-- What one side of the command has given: complete items with their values, and the last item with
a value, which is checked when the next one comes. -/
structure Side where
  given : List (Item × String)
  pending : Option (Item × Option String)
deriving DecidableEq, Repr

namespace Side

def empty : Side := ⟨[], none⟩

def has (s : Side) (item : Item) : Bool :=
  s.given.any fun entry => entry.1 = item

def value? (s : Side) (item : Item) : Option String :=
  (s.given.find? fun entry => entry.1 = item).map Prod.snd

/-- Adds an item. -/
def add (s : Side) (item : Item) (value : String) : Except UsageError Side :=
  if s.has item then .error .conflict
  else if item.isPath && value.isEmpty then .error .invalidValue
  else .ok { s with given := s.given ++ [(item, value)] }

/-- Checks the pending item. -/
def settle (s : Side) : Except UsageError Side :=
  match s.pending with
  | none => .ok s
  | some (_, none) => .error .invalidValue
  | some (item, some value) => { s with pending := none }.add item value

/-- Whether the next word is the value of an option. -/
def awaitsValue (s : Side) : Bool :=
  match s.pending with
  | some (_, none) => true
  | _ => false

/-- Gives the pending option its value. -/
def giveValue (s : Side) (value : String) : Side :=
  { s with pending := s.pending.map fun entry => (entry.1, some value) }

/-- Adds an option that takes no value. -/
def addFlag (s : Side) (item : Item) : Except UsageError Side := do
  let s ← s.settle
  match item with
  | .help => throw .helpWanted
  | .version => throw .versionWanted
  | item => s.add item ""

/-- Adds an option with a value that is part of the same argument, or one that awaits its value. -/
def addOption (s : Side) (item : Item) (value : Option (List Char)) : Except UsageError Side := do
  let s ← s.settle
  match value with
  | some cs => s.add item (String.ofList cs)
  | none => pure { s with pending := some (item, none) }

/-- Reads a long option behind its dashes. -/
def long (items : List Item) (s : Side) (body : List Char) : Except UsageError Side :=
  let name := String.ofList (body.takeWhile (· ≠ '='))
  let value := match body.dropWhile (· ≠ '=') with
    | [] => none
    | _ :: value => some value
  match items.find? fun item => item.longName? = some name with
  | none => .error .unknownArgument
  | some item =>
    if item.takesValue then s.addOption item value
    else if value.isSome then .error .needlessValue
    else s.addFlag item

/-- Reads short options behind their dash. The first one with a value takes all that follows. -/
def short (items : List Item) (s : Side) : List Char → Except UsageError Side
  | [] => .ok s
  | c :: cs =>
    match items.find? fun item => item.letter? = some c with
    | none => .error .unknownArgument
    | some item =>
      if item.takesValue then
        s.addOption item (match cs with
          | [] => none
          | '=' :: value => some value
          | value => some value)
      else do short items (← s.addFlag item) cs

/-- Reads a word that is no option's value. -/
def positional (items : List Item) (s : Side) (word : String) : Except UsageError Side :=
  let taken := s.has .path || s.pending.any fun entry => entry.1 = .path
  if .path ∈ items ∧ !taken then do
    let s ← s.settle
    pure { s with pending := some (.path, some word) }
  else .error .unknownArgument

/-- Options that do not go together. -/
def check (s : Side) : Except UsageError Unit :=
  if s.has .verbose && s.has .quiet then .error .conflict else .ok ()

end Side

/-- Reads the arguments behind a command. -/
def behindCommand (items : List Item) : Side → List String → Except UsageError Side
  | s, [] => s.settle
  | s, argument :: rest =>
    match Shape.of argument with
    | .separator => do (← rest.foldlM (Side.positional items) s).settle
    | .long body => do behindCommand items (← s.long items body) rest
    | .short letters => do behindCommand items (← s.short items letters) rest
    | .word => do
      if s.awaitsValue then behindCommand items (s.giveValue argument) rest
      else behindCommand items (← s.positional items argument) rest

/-- Why a word in front of any command is refused, if it stands behind `--` or is no command. -/
def refuseWord (behindSeparator : Bool) (word : String) : UsageError :=
  if behindSeparator && ((CommandName.ofText? word).isSome || word = helpWord) then .unknownArgument
  else .unknownCommand

/-- What asking for help on some words gives: help on all commands or on one. -/
def helpOn : List String → UsageError
  | [] => .helpWanted
  | [word] =>
    if (CommandName.ofText? word).isSome || word = helpWord then .helpWanted else .unknownCommand
  | _ => .unknownCommand

/-- Reads the arguments in front of the command. Gives them with the command, if there is one, and
the arguments behind it. -/
def beforeCommand : Side → List String →
    Except UsageError (Side × Option (CommandName × List String))
  | s, [] => .ok (s, none)
  | s, argument :: rest =>
    match Shape.of argument with
    | .separator =>
      match rest with
      | [] => .ok (s, none)
      | word :: _ => .error (refuseWord true word)
    | .long body => do beforeCommand (← s.long leadingItems body) rest
    | .short letters => do beforeCommand (← s.short leadingItems letters) rest
    | .word =>
      if s.awaitsValue then beforeCommand (s.giveValue argument) rest
      else if argument = helpWord then .error (helpOn rest)
      else match CommandName.ofText? argument with
        | some name => .ok (s, some (name, rest))
        | none => .error (refuseWord false argument)

/-- The command with a name and what was given behind it. -/
def commandOf (s : Side) : CommandName → Command
  | .build => .build (s.has .force) (s.value? .layer)
  | .status => .status
  | .list => .list
  | .clean => .clean
  | .init => .init ⟨(s.value? .path).getD "."⟩ (s.value? .name)

/-- Reads the arguments of a command line. -/
def parse (arguments : List String) : Except UsageError Invocation := do
  match ← beforeCommand Side.empty arguments with
  | (before, none) =>
    let before ← before.settle
    throw (if before.given.isEmpty then .noArguments else .noCommand)
  | (before, some (name, rest)) =>
    let behind ← behindCommand name.items Side.empty rest
    behind.check
    let before ← before.settle
    before.check
    return {
      command := commandOf behind name
      config := ⟨((behind.value? .config).or (before.value? .config)).getD "."⟩
      verbose := behind.has .verbose || before.has .verbose
      quiet := behind.has .quiet || before.has .quiet }

end CommandLine

end DesignTokens
