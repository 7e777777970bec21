import DesignTokens.Style.Selector
import DesignTokens.TypedModule.Identifier
import Mathlib.Data.List.TakeWhile

/-!
How the text of a selector is read: a row of compounds with blanks between them, each one a row of
simple selectors. Of these, conditions on attributes and their negations are read closely; all others
stand for themselves. Lists of selectors, comments and combinators other than the blank are refused.
-/

namespace DesignTokens.Css

def isLineBreak (c : Char) : Bool :=
  c = '\n' || c = '\r' || c = '\x0c'

def isBlank (c : Char) : Bool :=
  c = ' ' || c = '\t' || isLineBreak c

/-- How far a backslash reaches: to one character, or to at most six hexadecimal digits. -/
inductive Escape
  | off
  | backslash
  | digits (n : Nat)
deriving DecidableEq

/-- What is left of an escape after a character that belongs to it. A blank may end the digits. -/
def Escape.next : Escape → Char → Option Escape
  | .off, _ => none
  | .backslash, c => some (if (Text.hexDigit? c).isSome then .digits 1 else .off)
  | .digits n, c =>
    if (Text.hexDigit? c).isSome && n < 6 then some (.digits (n + 1))
    else if isBlank c then some .off
    else none

/-- What was read so far: the compounds before this one, the last of them first, the simple selectors
of this compound, the last one not finished, and the brackets, quotes or escapes that are open in it. -/
structure Reader where
  around : List (List (List Char))
  parts : List (List Char)
  part : List Char
  closers : List Char
  quote : Option Char
  escape : Escape
deriving DecidableEq

/-- Starts of simple selectors that something must follow. -/
def isUnfinished (part : List Char) : Bool :=
  part ∈ [['.'], ['#'], [':'], [':', ':']]

def isCloser (c : Char) : Bool :=
  c = ')' || c = ']' || c = '}'

def closerOf : Char → Option Char
  | '(' => some ')'
  | '[' => some ']'
  | '{' => some '}'
  | _ => none

def isQuote (c : Char) : Bool :=
  c = '"' || c = '\''

def startsPart (c : Char) : Bool :=
  c = '.' || c = '#' || c = '[' || c = ':'

/-- Characters that do not stand in a compound outside of brackets. -/
def isRefused (c : Char) : Bool :=
  isCloser c || isQuote c || c ∈ [',', '>', '+', '~', '{', ';', '/']

namespace Reader

def start : Reader := ⟨[], [], [], [], none, .off⟩

/-- The simple selectors of the compound that is being read. -/
def texts (r : Reader) : List (List Char) :=
  if r.part = [] then r.parts else r.parts ++ [r.part]

/-- All compounds so far, the last one first. -/
def compounds (r : Reader) : List (List (List Char)) :=
  if r.texts = [] then r.around else r.texts :: r.around

def push (r : Reader) (c : Char) : Reader :=
  { r with part := r.part ++ [c], escape := if c = '\\' then .backslash else .off }

/-- A character between quotes. -/
def quoted (r : Reader) (q c : Char) : Option Reader :=
  if isLineBreak c then none
  else some { r.push c with quote := if c = q then none else some q }

/-- A character between brackets, the innermost of which `k` closes. -/
def bracketed (r : Reader) (k : Char) (ks : List Char) (c : Char) : Option Reader :=
  if c = k then some { r.push c with closers := ks }
  else if isCloser c || c = '/' then none
  else if isQuote c then some { r.push c with quote := some c }
  else some { r.push c with closers := (closerOf c).toList ++ k :: ks }

/-- A character outside of brackets and quotes. -/
def plain (r : Reader) (c : Char) : Option Reader :=
  if isBlank c then
    if isUnfinished r.part then none else some ⟨r.compounds, [], [], [], none, .off⟩
  else if startsPart c then
    if r.part = [':'] ∧ c = ':' then some (r.push c)
    else if isUnfinished r.part then none
    else some ⟨r.around, r.texts, [c], (closerOf c).toList, none, .off⟩
  else if isRefused c then none
  else some { r.push c with closers := (closerOf c).toList }

def step (r : Reader) (c : Char) : Option Reader :=
  match r.escape.next c with
  | some e =>
    if r.escape = .backslash ∧ isLineBreak c ∧ r.quote = none then none
    else some { r.push c with escape := e }
  | none =>
    match r.quote, r.closers with
    | some q, _ => r.quoted q c
    | none, k :: ks => r.bracketed k ks c
    | none, [] => r.plain c

def scan (r : Reader) (cs : List Char) : Option Reader :=
  cs.foldlM step r

/-- Whether a compound may end here. -/
def isClosed (r : Reader) : Bool :=
  r.closers.isEmpty && r.quote.isNone && r.escape ≠ .backslash && !isUnfinished r.part

end Reader

def isNameStart (c : Char) : Bool :=
  isAsciiLetter c || c = '_' || 0x80 ≤ c.toNat

def isNameChar (c : Char) : Bool :=
  isNameStart c || isAsciiDigit c || c = '-'

/-- Whether a text without escapes is an identifier. -/
def isIdentifier (cs : List Char) : Bool :=
  cs.all isNameChar &&
    match cs with
    | '-' :: c :: _ => isNameStart c || c = '-'
    | c :: _ => isNameStart c
    | [] => false

/-- Characters that stand for themselves between double quotes, if they are no line breaks. -/
def isValueChar (c : Char) : Bool :=
  c ≠ '"' && c ≠ '\\'

/-- Conditions on the attributes of an element. -/
inductive Condition
  | has (name : String)
  | is (name value : String)
deriving DecidableEq, Repr

inductive Simple
  | attribute (condition : Condition)
  | lacks (condition : Condition)
  | other (text : String)
deriving DecidableEq, Repr

/-- A selector: what an element must be, and what elements around it, the innermost first. -/
structure Selector where
  subject : List Simple
  around : List (List Simple)
deriving DecidableEq, Repr

/-- The text between a given start and a given end. -/
def between (opening closing text : List Char) : Option (List Char) :=
  Text.stripStart opening text >>= Text.stripEnd closing

def conditionOf (text : List Char) : Option Condition := do
  let inner ← between ['['] [']'] text
  let name := inner.takeWhile isNameChar
  if isIdentifier name then
    match inner.dropWhile isNameChar with
    | [] => some (.has (String.ofList name))
    | rest =>
      let value ← between ['=', '"'] ['"'] rest
      if value.all isValueChar then some (.is (String.ofList name) (String.ofList value)) else none
  else none

def simpleOf (text : List Char) : Simple :=
  match conditionOf text with
  | some condition => .attribute condition
  | none =>
    match between [':', 'n', 'o', 't', '('] [')'] text >>= conditionOf with
    | some condition => .lacks condition
    | none => .other (String.ofList text)

def compoundOf (texts : List (List Char)) : List Simple :=
  texts.map simpleOf

/-- The selector that a text stands for. -/
def read (text : String) : Option Selector := do
  let r ← Reader.start.scan text.toList
  match r.isClosed, r.compounds with
  | true, subject :: around => some ⟨compoundOf subject, around.map compoundOf⟩
  | _, _ => none

/-- The compound that a text stands for, if it is one and no blank follows it. -/
def readCompound (text : String) : Option (List Simple) := do
  let r ← Reader.start.scan text.toList
  if r.isClosed ∧ r.around = [] ∧ r.part ≠ [] then some (compoundOf r.texts) else none

/-- The text of a condition that an attribute has a value. -/
def attributeText (name value : List Char) : List Char :=
  '[' :: (name ++ '=' :: '"' :: (value ++ ['"', ']']))

/-- The text of the condition that an attribute is missing. -/
def lacksText (name : List Char) : List Char :=
  ':' :: 'n' :: 'o' :: 't' :: '(' :: '[' :: (name ++ [']', ')'])

theorem ne_of_isNameChar {c d : Char} (hc : isNameChar c) (hd : isNameChar d = false) : c ≠ d := by
  rintro rfl
  rw [hc] at hd
  exact absurd hd.symm Bool.false_ne_true

namespace Reader

variable {around : List (List (List Char))} {parts : List (List Char)}
  {part closers name value : List Char} {k : Char} {r : Reader}

theorem scan_append (r : Reader) (cs ds : List Char) :
    r.scan (cs ++ ds) = (r.scan cs).bind fun r' => r'.scan ds :=
  List.foldlM_append

theorem scan_cons (r : Reader) (c : Char) (cs : List Char) :
    r.scan (c :: cs) = (r.step c).bind fun r' => r'.scan cs :=
  List.foldlM_cons

theorem scan_cons_of_step {r r' : Reader} {c : Char} (h : r.step c = some r') (cs : List Char) :
    r.scan (c :: cs) = r'.scan cs := by
  rw [scan_cons, h, Option.bind_some]

/-- Characters of names stand for themselves between brackets. -/
theorem step_of_isNameChar {c : Char} (hc : isNameChar c) (hk : isCloser k) :
    step ⟨around, parts, part, k :: closers, none, .off⟩ c =
      some ⟨around, parts, part ++ [c], k :: closers, none, .off⟩ := by
  have hne : ∀ d, isNameChar d = false → c ≠ d := fun d => ne_of_isNameChar hc
  have hcloser : closerOf c = none := by
    rw [closerOf] <;> exact hne _ (by decide)
  have hck : c ≠ k := by
    rintro rfl
    simp only [isCloser, Bool.or_eq_true, decide_eq_true_eq] at hk
    rcases hk with (h | h) | h <;> exact hne _ (by decide) h
  simp [step, Escape.next, bracketed, push, isCloser, isQuote, hcloser, hck, hne ')' rfl, hne ']' rfl, hne '}' rfl,
    hne '/' rfl, hne '"' rfl, hne '\'' rfl, hne '\\' rfl]

theorem scan_name (hname : name.all isNameChar) (hk : isCloser k) (cs : List Char) :
    scan ⟨around, parts, part, k :: closers, none, .off⟩ (name ++ cs) =
      scan ⟨around, parts, part ++ name, k :: closers, none, .off⟩ cs := by
  induction name generalizing part with
  | nil => rw [List.nil_append, List.append_nil]
  | cons c name ih =>
      rw [List.all_cons, Bool.and_eq_true] at hname
      rw [List.cons_append, scan_cons_of_step (step_of_isNameChar hname.1 hk), ih hname.2,
        List.append_assoc, List.singleton_append]

/-- A value stands for itself between its quotes if it is on one line. -/
theorem scan_value (hvalue : value.all isValueChar) (cs : List Char) :
    scan ⟨around, parts, part, closers, some '"', .off⟩ (value ++ cs) =
      if value.any isLineBreak then none
      else scan ⟨around, parts, part ++ value, closers, some '"', .off⟩ cs := by
  -- The quotes stay open and no escape begins all along the value.
  induction value generalizing part with
  | nil =>
      rw [List.nil_append, List.append_nil]
      rfl
  | cons c value ih =>
      rw [List.all_cons, Bool.and_eq_true, isValueChar, Bool.and_eq_true, decide_eq_true_eq,
        decide_eq_true_eq] at hvalue
      obtain ⟨⟨hquote, hbackslash⟩, hvalue⟩ := hvalue
      have hstep : step ⟨around, parts, part, closers, some '"', .off⟩ c =
          if isLineBreak c then none
          else some ⟨around, parts, part ++ [c], closers, some '"', .off⟩ := by
        simp [step, Escape.next, quoted, push, hquote, hbackslash]
      rw [List.cons_append, scan_cons, hstep, List.any_cons]
      cases isLineBreak c
      · rw [if_neg Bool.false_ne_true, Option.bind_some, ih hvalue, List.append_assoc,
          Bool.false_or, List.singleton_append]
      · rfl

/-- A finished simple selector after what was read. -/
def withPart (r : Reader) (part : List Char) : Reader :=
  ⟨r.around, r.texts, part, [], none, .off⟩

theorem step_of_startsPart {c : Char} (hr : r.isClosed) (hc : startsPart c) :
    r.step c = some ⟨r.around, r.texts, [c], (closerOf c).toList, none, .off⟩ := by
  simp only [isClosed, Bool.and_eq_true, List.isEmpty_iff, Option.isNone_iff_eq_none,
    decide_eq_true_eq, Bool.not_eq_true'] at hr
  obtain ⟨⟨⟨hclosers, hquote⟩, hescape⟩, hpart⟩ := hr
  have hother : isBlank c = false ∧ Text.hexDigit? c = none := by
    simp only [startsPart, Bool.or_eq_true, decide_eq_true_eq] at hc
    rcases hc with ((rfl | rfl) | rfl) | rfl <;> decide
  -- No start of a simple selector goes on with the digits of an escape.
  have hnext : r.escape.next c = none := by
    cases hr : r.escape with
    | off => rfl
    | backslash => exact absurd hr hescape
    | digits n => simp [Escape.next, hother]
  have hcolon : r.part ≠ [':'] := by
    intro heq
    rw [heq] at hpart
    exact absurd hpart (by decide)
  simp [step, hnext, hquote, hclosers, plain, hother, hc, hcolon, hpart]

theorem scan_attributeText (hr : r.isClosed) (hname : name.all isNameChar)
    (hvalue : value.all isValueChar) (cs : List Char) :
    r.scan (attributeText name value ++ cs) =
      if value.any isLineBreak then none
      else (r.withPart (attributeText name value)).scan cs := by
  have hequals : ∀ part, step ⟨r.around, r.texts, part, [']'], none, .off⟩ '=' =
      some ⟨r.around, r.texts, part ++ ['='], [']'], none, .off⟩ := fun _ => rfl
  have hquote : ∀ part, step ⟨r.around, r.texts, part, [']'], none, .off⟩ '"' =
      some ⟨r.around, r.texts, part ++ ['"'], [']'], some '"', .off⟩ := fun _ => rfl
  have hunquote : ∀ part, step ⟨r.around, r.texts, part, [']'], some '"', .off⟩ '"' =
      some ⟨r.around, r.texts, part ++ ['"'], [']'], none, .off⟩ := fun _ => rfl
  have hclose : ∀ part, step ⟨r.around, r.texts, part, [']'], none, .off⟩ ']' =
      some (r.withPart (part ++ [']'])) := fun _ => rfl
  have htext : attributeText name value ++ cs =
      '[' :: (name ++ '=' :: '"' :: (value ++ '"' :: ']' :: cs)) := by
    simp [attributeText]
  have hpart : ['['] ++ name ++ ['='] ++ ['"'] ++ value ++ ['"'] ++ [']'] =
      attributeText name value := by
    simp [attributeText]
  rw [htext, scan_cons_of_step (step_of_startsPart hr (by decide)), closerOf, Option.toList_some,
    scan_name hname (by decide), scan_cons_of_step (hequals _), scan_cons_of_step (hquote _),
    scan_value hvalue, scan_cons_of_step (hunquote _), scan_cons_of_step (hclose _), hpart]

theorem scan_lacksText (hr : r.isClosed) (hname : name.all isNameChar) (cs : List Char) :
    r.scan (lacksText name ++ cs) = (r.withPart (lacksText name)).scan cs := by
  have hopen : scan ⟨r.around, r.texts, [':'], [], none, .off⟩
      ('n' :: 'o' :: 't' :: '(' :: '[' :: (name ++ ']' :: ')' :: cs)) =
      scan ⟨r.around, r.texts, [':', 'n', 'o', 't', '(', '['], [']', ')'], none, .off⟩
        (name ++ ']' :: ')' :: cs) := rfl
  have hclose : ∀ part, step ⟨r.around, r.texts, part, [']', ')'], none, .off⟩ ']' =
      some ⟨r.around, r.texts, part ++ [']'], [')'], none, .off⟩ := fun _ => rfl
  have hend : ∀ part, step ⟨r.around, r.texts, part, [')'], none, .off⟩ ')' =
      some (r.withPart (part ++ [')'])) := fun _ => rfl
  have htext : lacksText name ++ cs =
      ':' :: 'n' :: 'o' :: 't' :: '(' :: '[' :: (name ++ ']' :: ')' :: cs) := by
    simp [lacksText]
  have hpart : [':', 'n', 'o', 't', '(', '['] ++ name ++ [']'] ++ [')'] = lacksText name := by
    simp [lacksText]
  rw [htext, scan_cons_of_step (step_of_startsPart hr (by decide)), closerOf, Option.toList_none,
    hopen, scan_name hname (by decide), scan_cons_of_step (hclose _), scan_cons_of_step (hend _),
    hpart]
  all_goals decide

theorem isClosed_withPart (h : isUnfinished part = false) : (r.withPart part).isClosed := by
  simp [isClosed, withPart, h]

theorem texts_withPart (h : part ≠ []) : (r.withPart part).texts = r.texts ++ [part] :=
  if_neg h

theorem compounds_withPart (h : part ≠ []) :
    (r.withPart part).compounds = (r.texts ++ [part]) :: r.around := by
  rw [compounds, texts_withPart h,
    if_neg (List.append_ne_nil_of_right_ne_nil _ (List.cons_ne_nil part []))]
  rfl

/-- A blank ends a compound. -/
theorem scan_blank (hpart : isUnfinished part = false) (cs : List Char) :
    (r.withPart part).scan (' ' :: cs) =
      scan ⟨(r.withPart part).compounds, [], [], [], none, .off⟩ cs := by
  refine scan_cons_of_step ?_ cs
  simp [step, Escape.next, withPart, plain, isBlank, hpart]

end Reader

section Texts

variable {name value : List Char}

theorem attributeText_ne_nil : attributeText name value ≠ [] :=
  List.cons_ne_nil _ _

theorem lacksText_ne_nil : lacksText name ≠ [] :=
  List.cons_ne_nil _ _

theorem isUnfinished_attributeText : isUnfinished (attributeText name value) = false := by
  simp [isUnfinished, attributeText]

theorem isUnfinished_lacksText : isUnfinished (lacksText name) = false := by
  simp [isUnfinished, lacksText]

theorem all_isNameChar_of_isIdentifier (h : isIdentifier name) : name.all isNameChar :=
  (Bool.and_eq_true_iff.mp h).1

theorem between_append (opening closing inner : List Char) :
    between opening closing (opening ++ (inner ++ closing)) = some inner := by
  rw [between, Text.stripStart_append]
  exact Text.stripEnd_append inner closing

theorem conditionOf_has (h : isIdentifier name) :
    conditionOf (['['] ++ (name ++ [']'])) = some (.has (String.ofList name)) := by
  have hall := List.all_eq_true.mp (all_isNameChar_of_isIdentifier h)
  rw [conditionOf, between_append, Option.bind_eq_bind, Option.bind_some]
  dsimp only
  rw [List.takeWhile_eq_self_iff.mpr hall, List.dropWhile_eq_nil_iff.mpr hall, if_pos h]

theorem conditionOf_attributeText (h : isIdentifier name) (hvalue : value.all isValueChar) :
    conditionOf (attributeText name value) =
      some (.is (String.ofList name) (String.ofList value)) := by
  have hall := List.all_eq_true.mp (all_isNameChar_of_isIdentifier h)
  have hequals : ¬ isNameChar '=' := by decide
  have htext : attributeText name value =
      ['['] ++ ((name ++ '=' :: '"' :: (value ++ ['"'])) ++ [']']) := by
    simp [attributeText]
  have htake : (name ++ '=' :: '"' :: (value ++ ['"'])).takeWhile isNameChar = name := by
    rw [List.takeWhile_append_of_pos hall, List.takeWhile_cons_of_neg hequals, List.append_nil]
  have hdrop : (name ++ '=' :: '"' :: (value ++ ['"'])).dropWhile isNameChar =
      '=' :: '"' :: (value ++ ['"']) := by
    rw [List.dropWhile_append_of_pos hall, List.dropWhile_cons_of_neg hequals]
  have hbetween : between ['=', '"'] ['"'] ('=' :: '"' :: (value ++ ['"'])) = some value :=
    between_append ['=', '"'] ['"'] value
  rw [conditionOf, htext, between_append, Option.bind_eq_bind, Option.bind_some]
  dsimp only
  rw [htake, hdrop, if_pos h]
  dsimp only
  rw [hbetween, Option.bind_some, if_pos hvalue]

theorem simpleOf_attributeText (h : isIdentifier name) (hvalue : value.all isValueChar) :
    simpleOf (attributeText name value) =
      .attribute (.is (String.ofList name) (String.ofList value)) := by
  rw [simpleOf, conditionOf_attributeText h hvalue]

theorem simpleOf_lacksText (h : isIdentifier name) :
    simpleOf (lacksText name) = .lacks (.has (String.ofList name)) := by
  have htext : lacksText name =
      [':', 'n', 'o', 't', '('] ++ ((['['] ++ (name ++ [']'])) ++ [')']) := by
    simp [lacksText]
  have hcondition : conditionOf (lacksText name) = none := rfl
  rw [simpleOf, hcondition, htext, between_append, Option.bind_eq_bind, Option.bind_some,
    conditionOf_has h]

end Texts

section Reads

variable {text : String} {r : Reader} {subject : List (List Char)}
  {around : List (List (List Char))}

theorem read_of_scan (hscan : Reader.start.scan text.toList = some r) (hr : r.isClosed)
    (h : r.compounds = subject :: around) :
    read text = some ⟨compoundOf subject, around.map compoundOf⟩ := by
  rw [read, hscan, Option.bind_eq_bind, Option.bind_some, hr, h]

theorem compoundOf_texts_withPart {part : List Char} (h : part ≠ []) :
    compoundOf (r.withPart part).texts = compoundOf r.texts ++ [simpleOf part] := by
  rw [Reader.texts_withPart h, compoundOf, List.map_append]
  rfl

theorem read_of_scan_withPart {part : List Char}
    (hscan : Reader.start.scan text.toList = some (r.withPart part)) (hne : part ≠ [])
    (hpart : isUnfinished part = false) :
    read text = some ⟨compoundOf r.texts ++ [simpleOf part], r.around.map compoundOf⟩ := by
  rw [read_of_scan hscan (Reader.isClosed_withPart hpart) (Reader.compounds_withPart hne),
    ← Reader.texts_withPart hne, compoundOf_texts_withPart hne]

theorem exists_scan_of_read {selector : Selector} (h : read text = some selector) :
    ∃ r, Reader.start.scan text.toList = some r := by
  obtain ⟨r, hscan, -⟩ := Option.bind_eq_some_iff.mp h
  exact ⟨r, hscan⟩

theorem exists_scan_of_readCompound {compound : List Simple} (h : readCompound text = some compound) :
    ∃ r, Reader.start.scan text.toList = some r ∧ r.isClosed ∧ r.around = [] ∧
      compound = compoundOf r.texts := by
  rw [readCompound] at h
  obtain ⟨r, hscan, hr⟩ := Option.bind_eq_some_iff.mp h
  split at hr
  · rename_i hclosed
    exact ⟨r, hscan, hclosed.1, hclosed.2.1, (Option.some.inj hr).symm⟩
  · exact absurd hr nofun

end Reads

end DesignTokens.Css
