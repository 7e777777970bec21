import DesignTokens.Token.Document

/-!
Following references between tokens.

A string that is one placeholder and nothing else takes the value it refers to as it is; in any
other string each placeholder becomes the CSS text of its value. Values that were found once are
kept. A reference to a token that is still being resolved is an error, so the resolution stops after
at most as many nested steps as there are tokens.
-/

namespace DesignTokens

section Substitute

variable {m : Type → Type} [Monad m]

/-- The text of pieces, with each reference replaced by the CSS text of what it refers to. -/
def substitutePieces (follow : String → m Json.Value) : List Placeholder.Segment → m String
  | [] => pure ""
  | .literal text :: rest => do
    return text ++ (← substitutePieces follow rest)
  | .malformed text :: rest => do
    return text ++ (← substitutePieces follow rest)
  | .reference path :: rest => do
    let value ← follow path
    return value.cssText ++ (← substitutePieces follow rest)

/-- A string with its references followed. -/
def substituteText (follow : String → m Json.Value) (text : String) : m Json.Value :=
  if Placeholder.hasReference text then
    match Placeholder.scan text with
    | [.reference path] => follow path
    | pieces => do return .string (← substitutePieces follow pieces)
  else pure (.string text)

mutual

/-- A value with the references in its strings followed, from the first to the last. -/
def substitute (follow : String → m Json.Value) : Json.Value → m Json.Value
  | .string text => substituteText follow text
  | .array items => do return .array (← substituteItems follow items)
  | .object members => do return .object (← substituteMembers follow members)
  | other => pure other

def substituteItems (follow : String → m Json.Value) : List Json.Value → m (List Json.Value)
  | [] => pure []
  | v :: rest => do
    let v ← substitute follow v
    return v :: (← substituteItems follow rest)

def substituteMembers (follow : String → m Json.Value) :
    List (String × Json.Value) → m (List (String × Json.Value))
  | [] => pure []
  | (key, v) :: rest => do
    let v ← substitute follow v
    return (key, v) :: (← substituteMembers follow rest)

end

end Substitute

/-- The values found so far by dotted path. -/
abbrev Memo := List (String × Json.Value)

/-- A computation that may add to the values found so far. -/
abbrev Resolving (α : Type) := StateT Memo (Except ReferenceError) α

/-- The number of tokens that are not being resolved. -/
def freeCount (tokens : RawTokens) (stack : List String) : Nat :=
  tokens.countP fun entry => !(stack.contains entry.1)

theorem get?_mem_keys {tokens : RawTokens} {key : String} {raw : RawToken}
    (h : Keyed.get? key tokens = some raw) : (key, raw) ∈ tokens := by
  induction tokens with
  | nil => simp [Keyed.get?] at h
  | cons entry rest ih =>
    obtain ⟨k, r⟩ := entry
    by_cases hk : k = key
    · simp [Keyed.get?, hk] at h
      simp [hk, h]
    · simp [Keyed.get?, hk] at h
      exact List.mem_cons_of_mem _ (ih h)

theorem freeCount_push_lt {tokens : RawTokens} {stack : List String} {key : String}
    {raw : RawToken} (h : Keyed.get? key tokens = some raw) (hs : key ∉ stack) :
    freeCount tokens (stack ++ [key]) < freeCount tokens stack := by
  have hmem := get?_mem_keys h
  clear h
  induction tokens with
  | nil => simp at hmem
  | cons entry rest ih =>
    have mono : freeCount rest (stack ++ [key]) ≤ freeCount rest stack := by
      apply List.countP_mono_left
      intro e _ he
      have hne : e.1 ∉ stack ∧ e.1 ≠ key := by simpa using he
      simp [hne.1]
    by_cases hk : entry.1 = key
    · have h1 : freeCount (entry :: rest) (stack ++ [key]) = freeCount rest (stack ++ [key]) := by
        simp [freeCount, hk]
      have h2 : freeCount (entry :: rest) stack = freeCount rest stack + 1 := by
        simp [freeCount, hk, hs]
      omega
    · have hrest : (key, raw) ∈ rest := by
        rcases List.mem_cons.1 hmem with heq | hmem
        · exact absurd (by rw [← heq]) hk
        · exact hmem
      have := ih hrest
      simp only [freeCount, List.countP_cons] at this ⊢
      simp [hk] at this ⊢
      omega

/-- The value of the token at a path, asked for by the token `owner` while the tokens of `stack`
are being resolved. -/
def resolvePath (tokens : RawTokens) (stack : List String) (owner path : String) :
    Resolving Json.Value := do
  match Keyed.get? path (← get) with
  | some value => pure value
  | none =>
    if _hs : path ∈ stack then
      throw (.circular (stack.dropWhile (· ≠ path) ++ [path]))
    else
      match _h : Keyed.get? path tokens with
      | none => throw (.unknown owner path)
      | some raw =>
        let value ← substitute (fun target => resolvePath tokens (stack ++ [path]) path target)
          raw.value
        modify (Keyed.put path value)
        pure value
termination_by freeCount tokens stack
decreasing_by exact freeCount_push_lt _h _hs

/-- The tokens with their values, from the first to the last. -/
def resolveEach (tokens : RawTokens) : RawTokens → Resolving (List Token)
  | [] => pure []
  | (key, raw) :: rest => do
    let value ← resolvePath tokens [] key key
    return ⟨raw.path, value, raw.value.sourceText, raw.file, raw.isSource⟩ ::
      (← resolveEach tokens rest)

/-- The dictionary of collected tokens. -/
def RawTokens.resolve (tokens : RawTokens) : Except ReferenceError Dictionary :=
  ((resolveEach tokens tokens).run' []).map Dictionary.mk

end DesignTokens
