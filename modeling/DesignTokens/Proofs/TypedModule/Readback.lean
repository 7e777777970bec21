import DesignTokens.Proofs.Json.Readback
import DesignTokens.Proofs.Number.Numeral
import DesignTokens.Proofs.Text.Shown
import DesignTokens.Proofs.TypedModule.Bindings

/-!
Typed modules can be read back. A reader that skips the blanks in front of keys and of closing braces
finds every value in its expression, at whatever depth it was written, and stops where the expression
does. So modules with different trees have different texts.
-/

namespace DesignTokens

open Json

namespace Expression

section Reader

/-- Reads one of the words `null`, `true` and `false`. -/
def readWord : List Char → Option (Value × List Char)
  | 'n' :: 'u' :: 'l' :: 'l' :: rest => some (.null, rest)
  | 't' :: 'r' :: 'u' :: 'e' :: rest => some (.boolean true, rest)
  | 'f' :: 'a' :: 'l' :: 's' :: 'e' :: rest => some (.boolean false, rest)
  | _ => none

/-- Reads a text in quotes behind the first quote. -/
def readQuoted (cs : List Char) : Option (String × List Char) :=
  (Json.string cs).toOption

/-- Reads a key, in quotes or as a name. -/
def readKey : List Char → Option (String × List Char)
  | [] => none
  | c :: cs =>
    if c = '"' then readQuoted cs
    else some (String.ofList ((c :: cs).takeWhile isNamePart), (c :: cs).dropWhile isNamePart)

mutual

/-- Reads a value; the number bounds the steps. -/
def readValue : Nat → List Char → Option (Value × List Char)
  | 0, _ => none
  | _ + 1, [] => none
  | steps + 1, c :: cs =>
    if c = '\x7b' then (readMembers steps cs).map fun r => (.object r.1, r.2)
    else if c = '[' then
      if cs.head? = some ']' then some (.array [], cs.tail)
      else (readItems steps cs).map fun r => (.array r.1, r.2)
    else if c = '"' then (readQuoted cs).map fun r => (.string r.1, r.2)
    else if isAsciiLetter c then readWord (c :: cs)
    else (Number.read (c :: cs)).map fun r => (.number r.1, r.2)

/-- Reads the values of a list up to the closing bracket. -/
def readItems : Nat → List Char → Option (List Value × List Char)
  | 0, _ => none
  | steps + 1, cs => do
    let (v, rest) ← readValue steps cs
    if rest.head? = some ']' then return ([v], rest.tail)
    let (more, rest) ← readItems steps (← Text.stripStart [',', ' '] rest)
    return (v :: more, rest)

/-- Reads the members of an object, each with a comma behind it, up to the closing brace. -/
def readMembers : Nat → List Char → Option (List (String × Value) × List Char)
  | 0, _ => none
  | steps + 1, cs => do
    let cs := skipSpace cs
    if cs.head? = some '\x7d' then return ([], cs.tail)
    let (key, rest) ← readKey cs
    let (v, rest) ← readValue steps (← Text.stripStart [':', ' '] rest)
    let (more, rest) ← readMembers steps (← Text.stripStart [','] rest)
    return ((key, v) :: more, rest)

end

/-- Reads the value at the front of a text. -/
def read (cs : List Char) : Option (Value × List Char) :=
  readValue cs.length cs

end Reader

section Keys

variable {rest : List Char}

theorem readQuoted_quote (s : String) (rest : List Char) :
    ∃ cs, (quote s).toList ++ rest = '"' :: cs ∧ readQuoted cs = some (s, rest) := by
  obtain ⟨cs, htext, hread⟩ := string_quote s rest
  refine ⟨cs, htext, ?_⟩
  rw [readQuoted, hread]
  rfl

/-- A key is read back from its text in front of a colon, and its text starts with no blank and no
brace. -/
theorem readKey_keyText (key : String) (rest : List Char) :
    ∃ c cs, (keyText key).toList ++ ':' :: rest = c :: cs ∧ isSpace c = false ∧ c ≠ '\x7d' ∧
      readKey (c :: cs) = some (key, ':' :: rest) := by
  rw [keyText]
  split
  · rename_i hplain
    rw [← String.ofList_toList (s := key), isPlainKey_iff] at hplain
    obtain ⟨⟨c, hc, -⟩, hall⟩ := hplain
    obtain ⟨cs, hcs⟩ : ∃ cs, key.toList = c :: cs := by
      cases hkey : key.toList with
      | nil =>
          rw [hkey] at hc
          cases hc
      | cons d cs =>
          rw [hkey] at hc
          exact ⟨cs, by rw [Option.some.inj hc]⟩
    have hpart : isNamePart c = true := hall c (hcs ▸ List.mem_cons_self)
    have hne : ∀ d, isNamePart d = false → c ≠ d := by
      rintro d hd rfl
      exact Bool.noConfusion (hpart.symm.trans hd)
    refine ⟨c, cs ++ ':' :: rest, by rw [hcs, List.cons_append], ?_, hne _ rfl, ?_⟩
    · simp [isSpace, hne ' ' rfl, hne '\n' rfl, hne '\t' rfl, hne '\r' rfl]
    · rw [readKey, if_neg (hne _ rfl), ← List.cons_append, ← hcs,
        List.takeWhile_append_of_pos hall, List.dropWhile_append_of_pos hall,
        List.takeWhile_cons_of_neg (by decide), List.dropWhile_cons_of_neg (by decide),
        List.append_nil, String.ofList_toList]
  · obtain ⟨cs, htext, hread⟩ := readQuoted_quote key (':' :: rest)
    exact ⟨'"', cs, htext, rfl, by decide, by rw [readKey, if_pos rfl, hread]⟩

end Keys

section Texts

variable (depth : Nat)

theorem toList_null : (Value.expression depth .null).toList = ['n', 'u', 'l', 'l'] := by
  simp [Value.expression]

theorem toList_boolean (b : Bool) :
    (Value.expression depth (.boolean b)).toList = (boolText b).toList := by
  rw [Value.expression]

theorem toList_array (items : List Value) :
    (Value.expression depth (.array items)).toList =
      '[' :: ((itemTexts depth items).toList ++ [']']) := by
  simp [Value.expression]

theorem toList_object_nil : (Value.expression depth (.object [])).toList = ['\x7b', '\x7d'] := by
  simp [Value.expression]

theorem toList_object_cons (m : String × Value) (members : List (String × Value)) :
    (Value.expression depth (.object (m :: members))).toList =
      '\x7b' :: '\n' :: ((memberLines (depth + 1) (m :: members)).toList ++
        ((indentation depth).toList ++ ['\x7d'])) := by
  simp [Value.expression]

theorem toList_itemTexts_cons (v w : Value) (items : List Value) :
    (itemTexts depth (v :: w :: items)).toList =
      (v.expression depth).toList ++ ',' :: ' ' :: (itemTexts depth (w :: items)).toList := by
  simp [itemTexts]

theorem toList_memberLines_cons (key : String) (v : Value) (members : List (String × Value)) :
    (memberLines depth ((key, v) :: members)).toList =
      (indentation depth).toList ++ ((keyText key).toList ++ ':' :: ' ' ::
        ((v.expression depth).toList ++ ',' :: '\n' :: (memberLines depth members).toList)) := by
  simp [memberLines]

theorem isSpace_indentation : ∀ c ∈ (indentation depth).toList, isSpace c = true :=
  fun c hc => isSpace_lineStart depth c (List.mem_cons_of_mem _ hc)

/-- The text of a number starts with a digit or a minus sign. -/
theorem head_toText {n : Number} (hn : n.Proper) :
    ∃ c cs, n.toText.toList = c :: cs ∧ (c.isDigit = true ∨ c = '-') := by
  obtain ⟨m, hm, htext, -⟩ := Number.exists_numeral hn
  rw [← htext, Numeral.text]
  obtain ⟨c, cs, hwhole⟩ := List.exists_cons_of_ne_nil hm.whole_ne_nil
  have hdigit : c.isDigit = true := hm.whole c (hwhole ▸ List.mem_cons_self)
  rw [hwhole]
  cases m.negative with
  | true => exact ⟨'-', _, rfl, .inr rfl⟩
  | false => exact ⟨c, _, rfl, .inl hdigit⟩

/-- No expression starts with a closing bracket. -/
theorem head_expression {v : Value} (hv : ∀ n ∈ v.numbers, n.Proper) :
    ∃ c cs, (v.expression depth).toList = c :: cs ∧ c ≠ ']' := by
  cases v with
  | null => exact ⟨'n', _, toList_null depth, by decide⟩
  | boolean b =>
      rw [toList_boolean]
      cases b with
      | true => exact ⟨'t', _, rfl, by decide⟩
      | false => exact ⟨'f', _, rfl, by decide⟩
  | number n =>
      rw [Value.expression]
      obtain ⟨c, cs, htext, hc⟩ := head_toText (hv n (List.mem_singleton_self n))
      refine ⟨c, cs, htext, ?_⟩
      rintro rfl
      exact hc.elim nofun nofun
  | string s =>
      rw [Value.expression]
      obtain ⟨cs, htext, -⟩ := readQuoted_quote s []
      rw [List.append_nil] at htext
      exact ⟨'"', cs, htext, by decide⟩
  | array items => exact ⟨'[', _, toList_array depth items, by decide⟩
  | object members =>
      cases members with
      | nil => exact ⟨'\x7b', _, toList_object_nil depth, by decide⟩
      | cons m members => exact ⟨'\x7b', _, toList_object_cons depth m members, by decide⟩

/-- A reader of any expression takes at least one step. -/
theorem exists_steps {v : Value} (hv : ∀ n ∈ v.numbers, n.Proper) {depth steps : Nat}
    (hsteps : (v.expression depth).toList.length ≤ steps) : ∃ k, steps = k + 1 := by
  obtain ⟨c, cs, htext, -⟩ := head_expression depth hv
  apply Nat.exists_eq_add_one_of_ne_zero
  rw [htext, List.length_cons] at hsteps
  omega

theorem head_itemTexts {v : Value} (hv : ∀ n ∈ v.numbers, n.Proper) (items : List Value) :
    ∃ c cs, (itemTexts depth (v :: items)).toList = c :: cs ∧ c ≠ ']' := by
  obtain ⟨c, cs, htext, hc⟩ := head_expression depth hv
  cases items with
  | nil => exact ⟨c, cs, htext, hc⟩
  | cons w items =>
      rw [toList_itemTexts_cons, htext]
      exact ⟨c, _, rfl, hc⟩

end Texts

section Values

theorem ends_cons {c : Char} {rest : List Char} (h : c.isDigit = false ∧ c ≠ '.' ∧ c ≠ 'e') :
    Numeral.Ends (c :: rest) := by
  intro d hd
  rw [← Option.some.inj hd]
  exact h

theorem readValue_number {n : Number} (hn : n.Proper) {rest : List Char} (hrest : Numeral.Ends rest)
    (steps : Nat) :
    readValue (steps + 1) (n.toText.toList ++ rest) = some (.number n, rest) := by
  obtain ⟨c, cs, htext, hc⟩ := head_toText hn
  have hread := Number.read_toText hn hrest
  have hne : ∀ d : Char, d.isDigit = false → d ≠ '-' → c ≠ d := by
    rintro d hd hsign rfl
    rcases hc with hc | hc
    · exact Bool.noConfusion (hc.symm.trans hd)
    · exact hsign hc
  have hletter : ¬ isAsciiLetter c = true := by
    rcases hc with hc | rfl
    · rw [Char.isDigit, Bool.and_eq_true, decide_eq_true_eq, decide_eq_true_eq] at hc
      rw [isAsciiLetter_iff]
      have hhigh : c.toNat ≤ 0x39 := hc.2
      omega
    · decide
  rw [htext, List.cons_append] at hread ⊢
  rw [readValue, if_neg (hne _ rfl (by decide)), if_neg (hne _ rfl (by decide)),
    if_neg (hne _ rfl (by decide)), if_neg hletter, hread, Option.map_some]

theorem readValue_string (s : String) (rest : List Char) (steps : Nat) :
    readValue (steps + 1) ((quote s).toList ++ rest) = some (.string s, rest) := by
  obtain ⟨cs, htext, hread⟩ := readQuoted_quote s rest
  rw [htext, readValue, if_neg (by decide), if_neg (by decide), if_pos rfl, hread, Option.map_some]

theorem readValue_array {v : Value} (hv : ∀ n ∈ v.numbers, n.Proper) {items : List Value}
    {depth steps : Nat} {rest : List Char}
    (hread : readItems steps ((itemTexts depth (v :: items)).toList ++ ']' :: rest) =
      some (v :: items, rest)) :
    readValue (steps + 1) ((Value.expression depth (.array (v :: items))).toList ++ rest) =
      some (.array (v :: items), rest) := by
  obtain ⟨c, cs, htext, hc⟩ := head_itemTexts depth hv items
  rw [toList_array, List.cons_append, List.append_assoc, List.singleton_append, readValue,
    if_neg (by decide), if_pos rfl]
  rw [htext, List.cons_append] at hread ⊢
  rw [List.head?_cons, if_neg (fun h => hc (Option.some.inj h)), hread, Option.map_some]

theorem readValue_object {m : String × Value} {members : List (String × Value)} {depth steps : Nat}
    {rest : List Char}
    (hread : readMembers steps (['\n'] ++ ((memberLines (depth + 1) (m :: members)).toList ++
      ((indentation depth).toList ++ '\x7d' :: rest))) = some (m :: members, rest)) :
    readValue (steps + 1) ((Value.expression depth (.object (m :: members))).toList ++ rest) =
      some (.object (m :: members), rest) := by
  rw [toList_object_cons, List.cons_append, readValue, if_pos rfl]
  simp only [List.cons_append, List.append_assoc, List.nil_append] at hread ⊢
  rw [hread, Option.map_some]

/-- A value and the values behind it make a list. -/
theorem readItems_cons {steps : Nat} {cs behind rest : List Char} {v : Value} {more : List Value}
    (hvalue : readValue steps cs = some (v, ',' :: ' ' :: behind))
    (hmore : readItems steps behind = some (more, rest)) :
    readItems (steps + 1) cs = some (v :: more, rest) := by
  have hcomma : Text.stripStart [',', ' '] (',' :: ' ' :: behind) = some behind :=
    Text.stripStart_append [',', ' '] behind
  have hopen : (',' :: ' ' :: behind).head? ≠ some ']' := by simp
  rw [readItems]
  simp only [hvalue, Option.bind_eq_bind, Option.bind_some, if_neg hopen, hcomma, hmore]
  rfl

/-- A member and the members behind it make an object. -/
theorem readMembers_cons {steps : Nat} {cs text behind rest : List Char} {key : String} {v : Value}
    {more : List (String × Value)} (hopen : (skipSpace cs).head? ≠ some '\x7d')
    (hkey : readKey (skipSpace cs) = some (key, ':' :: ' ' :: text))
    (hvalue : readValue steps text = some (v, ',' :: behind))
    (hmore : readMembers steps behind = some (more, rest)) :
    readMembers (steps + 1) cs = some ((key, v) :: more, rest) := by
  have hcolon : Text.stripStart [':', ' '] (':' :: ' ' :: text) = some text :=
    Text.stripStart_append [':', ' '] text
  have hcomma : Text.stripStart [','] (',' :: behind) = some behind :=
    Text.stripStart_append [','] behind
  rw [readMembers]
  simp only [if_neg hopen, hkey, Option.bind_eq_bind, Option.bind_some, hcolon, hvalue, hcomma, hmore]
  rfl

mutual

/-- A value is read back from its expression, and the rest of the text stays as it is. -/
theorem readValue_expression : (v : Value) → (∀ n ∈ v.numbers, n.Proper) →
    ∀ (depth steps : Nat) (rest : List Char), (v.expression depth).toList.length ≤ steps →
      (∀ n, v = .number n → Numeral.Ends rest) →
      readValue steps ((v.expression depth).toList ++ rest) = some (v, rest)
  | .null, hv => by
      intro depth steps rest hsteps _
      obtain ⟨steps, rfl⟩ := exists_steps hv hsteps
      rw [toList_null]
      rfl
  | .boolean b, hv => by
      intro depth steps rest hsteps _
      obtain ⟨steps, rfl⟩ := exists_steps hv hsteps
      rw [toList_boolean]
      cases b <;> rfl
  | .number n, hv => by
      intro depth steps rest hsteps hrest
      obtain ⟨steps, rfl⟩ := exists_steps hv hsteps
      rw [Value.expression]
      exact readValue_number (hv n (List.mem_singleton_self n)) (hrest n rfl) steps
  | .string s, hv => by
      intro depth steps rest hsteps _
      obtain ⟨steps, rfl⟩ := exists_steps hv hsteps
      rw [Value.expression]
      exact readValue_string s rest steps
  | .array [], hv => by
      intro depth steps rest hsteps _
      obtain ⟨steps, rfl⟩ := exists_steps hv hsteps
      rw [toList_array]
      rfl
  | .array (v :: items), hv => by
      intro depth steps rest hsteps _
      obtain ⟨steps, rfl⟩ := exists_steps hv hsteps
      apply readValue_array fun n hn => hv n (List.mem_append_left _ hn)
      apply readItems_itemTexts (v :: items) (List.cons_ne_nil v items) hv depth steps rest
      rw [toList_array, List.length_cons, List.length_append, List.length_singleton] at hsteps
      omega
  | .object [], _ => by
      intro depth steps rest hsteps _
      -- one step for the object, one for its missing members
      rw [toList_object_nil] at hsteps ⊢
      obtain ⟨steps, rfl⟩ := Nat.exists_eq_add_of_le' hsteps
      rfl
  | .object (m :: members), hv => by
      intro depth steps rest hsteps _
      obtain ⟨steps, rfl⟩ := exists_steps hv hsteps
      apply readValue_object
      apply readMembers_memberLines (m :: members) hv (depth + 1) steps ['\n']
        (indentation depth).toList rest (List.forall_mem_singleton.mpr rfl) (isSpace_indentation depth)
      rw [toList_object_cons] at hsteps
      simp only [List.length_cons, List.length_append, List.length_nil] at hsteps
      omega

/-- The values of a list are read back up to the closing bracket. -/
theorem readItems_itemTexts : (items : List Value) → items ≠ [] → (∀ n ∈ itemNumbers items, n.Proper) →
    ∀ (depth steps : Nat) (rest : List Char), (itemTexts depth items).toList.length < steps →
      readItems steps ((itemTexts depth items).toList ++ ']' :: rest) = some (items, rest)
  | [], h, _ => absurd rfl h
  | [v], _, hv => by
      intro depth steps rest hsteps
      obtain ⟨steps, rfl⟩ := Nat.exists_eq_add_one_of_ne_zero (show steps ≠ 0 by omega)
      rw [itemNumbers, itemNumbers, List.append_nil] at hv
      rw [itemTexts] at hsteps ⊢
      rw [readItems, readValue_expression v hv depth steps (']' :: rest) (by omega)
        fun _ _ => ends_cons (by decide)]
      rfl
  | v :: w :: more, _, hv => by
      intro depth steps rest hsteps
      obtain ⟨steps, rfl⟩ := Nat.exists_eq_add_one_of_ne_zero (show steps ≠ 0 by omega)
      rw [itemNumbers, List.forall_mem_append] at hv
      rw [toList_itemTexts_cons] at hsteps ⊢
      simp only [List.length_append, List.length_cons] at hsteps
      rw [List.append_assoc]
      apply readItems_cons
      · exact readValue_expression v hv.1 depth steps _ (by omega) fun _ _ => ends_cons (by decide)
      · exact readItems_itemTexts (w :: more) (List.cons_ne_nil w more) hv.2 depth steps rest (by omega)

/-- The members of an object are read back up to the closing brace, whatever blanks stand around
them. -/
theorem readMembers_memberLines : (members : List (String × Value)) →
    (∀ n ∈ memberNumbers members, n.Proper) →
    ∀ (depth steps : Nat) (before after rest : List Char), (∀ c ∈ before, isSpace c = true) →
      (∀ c ∈ after, isSpace c = true) → (memberLines depth members).toList.length < steps →
      readMembers steps (before ++ ((memberLines depth members).toList ++ (after ++ '\x7d' :: rest))) =
        some (members, rest)
  | [], _ => by
      intro depth steps before after rest hbefore hafter hsteps
      obtain ⟨steps, rfl⟩ := Nat.exists_eq_add_one_of_ne_zero (show steps ≠ 0 by omega)
      have hskip : skipSpace (before ++ ((memberLines depth []).toList ++ (after ++ '\x7d' :: rest))) =
          '\x7d' :: rest := by
        rw [memberLines, String.toList_empty, List.nil_append, skipSpace_blank hbefore,
          skipSpace_blank hafter, skipSpace_cons rfl]
      rw [readMembers, hskip]
      rfl
  | (key, v) :: more, hv => by
      intro depth steps before after rest hbefore hafter hsteps
      obtain ⟨steps, rfl⟩ := Nat.exists_eq_add_one_of_ne_zero (show steps ≠ 0 by omega)
      rw [memberNumbers, List.forall_mem_append] at hv
      rw [toList_memberLines_cons] at hsteps ⊢
      simp only [List.length_append, List.length_cons] at hsteps
      obtain ⟨c, cs, htext, hspace, hbrace, hkey⟩ := readKey_keyText key (' ' ::
        ((v.expression depth).toList ++ ',' :: '\n' :: ((memberLines depth more).toList ++
          (after ++ '\x7d' :: rest))))
      have hskip : skipSpace (before ++ (((indentation depth).toList ++ ((keyText key).toList ++
          ':' :: ' ' :: ((v.expression depth).toList ++ ',' :: '\n' ::
            (memberLines depth more).toList))) ++ (after ++ '\x7d' :: rest))) = c :: cs := by
        rw [skipSpace_blank hbefore, List.append_assoc, skipSpace_blank (isSpace_indentation depth)]
        simp only [List.append_assoc, List.cons_append] at htext ⊢
        rw [htext, skipSpace_cons hspace]
      apply readMembers_cons
      · rw [hskip]
        exact fun h => hbrace (Option.some.inj h)
      · rw [hskip, hkey]
      · exact readValue_expression v hv.1 depth steps _ (by omega) fun _ _ => ends_cons (by decide)
      · exact readMembers_memberLines more hv.2 depth steps ['\n'] after rest
          (List.forall_mem_singleton.mpr rfl) hafter (by omega)

end

theorem read_expression {v : Value} (hv : ∀ n ∈ v.numbers, n.Proper) (depth : Nat)
    {rest : List Char} (hrest : ∀ n, v = .number n → Numeral.Ends rest) :
    read ((v.expression depth).toList ++ rest) = some (v, rest) := by
  apply readValue_expression v hv depth _ rest _ hrest
  rw [List.length_append]
  exact Nat.le_add_right _ _

/-- A document that was read is read back from its expression. -/
theorem read_expression_of_parse {text : String} {v : Value} (h : parse text = .ok v) (depth : Nat)
    {rest : List Char} (hrest : ∀ n, v = .number n → Numeral.Ends rest) :
    read ((v.expression depth).toList ++ rest) = some (v, rest) :=
  read_expression (proper_of_parse h) depth hrest

end Values

end Expression

namespace ModuleName

theorem Chosen.blank_notMem_constant {taken : List String} {category : String} {name : ModuleName}
    (h : Chosen taken category name) : ' ' ∉ name.constant.toList := by
  have hconstant : ' ' ∉ (constantName category).toList := by
    have hwords : ' ' ∉ wordsOf category := notMem_camelCase rfl rfl List.not_mem_nil
    rw [constantName_eq, String.toList_ofList, underscored]
    generalize wordsOf category = words at hwords
    split
    · decide
    · cases words with
      | nil => exact List.not_mem_nil
      | cons c words =>
          rw [guardDigit]
          split
          · rw [List.mem_cons, not_or]
            exact ⟨by decide, hwords⟩
          · exact hwords
  cases h with
  | natural _ => exact hconstant
  | numbered n _ _ =>
      rw [ModuleName.numbered, String.toList_append, Nat.toList_repr, List.mem_append, not_or]
      refine ⟨hconstant, fun hmem => ?_⟩
      exact Bool.noConfusion (Numeral.isDigit_of_mem_toDigits ' ' hmem)

theorem blank_notMem_constant {categories : List String} {name : ModuleName}
    (h : name ∈ ofCategories categories) : ' ' ∉ name.constant.toList := by
  obtain ⟨before, later, hsplit⟩ := List.append_of_mem h
  exact (chosen_of_ofCategories hsplit).blank_notMem_constant

/-- The text of a module: its constant in front of a blank, then the expression of the tree. -/
theorem toList_render (name : ModuleName) (tree : Json.Value) :
    ∃ behind, (name.render tree).toList = "export const ".toList ++ (name.constant.toList ++
      ' ' :: (['=', ' '] ++ ((tree.expression 0).toList ++ ' ' :: behind))) := by
  have hequals : " = ".toList = [' ', '=', ' '] := by decide
  have hclosing : " as const;\n\n".toList = ' ' :: "as const;\n\n".toList := by decide
  delta render
  generalize " = " = equals at hequals
  generalize " as const;\n\n" = closing at hclosing
  simp only [String.toList_append, List.append_assoc, hequals, hclosing, List.cons_append,
    List.nil_append]
  exact ⟨_, rfl⟩

/-- A value is read back from its expression at every depth, and the reader stops where the expression
does, whatever follows, if it does not extend a number. So modules with the same text have the same
constant and the same tree. -/
theorem expression_readable :
    (∀ (v : Json.Value) (depth : Nat) (rest : List Char), (∀ n ∈ v.numbers, n.Proper) →
      (∀ n, v = .number n → Numeral.Ends rest) →
      Expression.read ((v.expression depth).toList ++ rest) = some (v, rest)) ∧
    ∀ (categories categories' : List String) (name name' : ModuleName) (tree tree' : Json.Value),
      name ∈ ofCategories categories → name' ∈ ofCategories categories' →
      (∀ n ∈ tree.numbers, n.Proper) → (∀ n ∈ tree'.numbers, n.Proper) →
      name.render tree = name'.render tree' → name.constant = name'.constant ∧ tree = tree' := by
  constructor
  · intro v depth rest hv hrest
    exact Expression.read_expression hv depth hrest
  · intro categories categories' name name' tree tree' hname hname' htree htree' hsame
    obtain ⟨behind, htext⟩ := toList_render name tree
    obtain ⟨behind', htext'⟩ := toList_render name' tree'
    rw [← hsame, htext, List.append_cancel_left_eq] at htext'
    obtain ⟨hconstant, hvalue⟩ :=
      Text.append_mark_inj (blank_notMem_constant hname) (blank_notMem_constant hname') htext'
    have hexpression := List.append_cancel_left hvalue
    have hends : ∀ cs, Numeral.Ends (' ' :: cs) := fun cs => Expression.ends_cons (by decide)
    have hread := Expression.read_expression htree 0 fun _ _ => hends behind
    have hread' := Expression.read_expression htree' 0 fun _ _ => hends behind'
    rw [hexpression, hread'] at hread
    exact ⟨String.toList_injective hconstant, (Prod.mk.inj (Option.some.inj hread)).1.symm⟩

/-- A tree with a key in quotes, a list, and numbers of both kinds. -/
def lineTree : Json.Value :=
  .object [("line-height", .number (.real ⟨false, ⟨6755399441055744, -52⟩⟩)),
    ("steps", .array [.number (.integer (-2)), .null, .object []])]

theorem expression_readable_line :
    (∀ n ∈ lineTree.numbers, n.Proper) ∧
      Expression.read ((lineTree.expression 1).toList ++ [',']) = some (lineTree, [',']) ∧
      Expression.read "-2 as const".toList = some (.number (.integer (-2)), " as const".toList) ∧
      (⟨"text-", "text", "TextTokens"⟩ : ModuleName).render lineTree =
        (⟨"text", "text", "TextTokens"⟩ : ModuleName).render lineTree ∧
      "text" = "text" ∧ lineTree = lineTree := by
  have hproper : ∀ n ∈ lineTree.numbers, n.Proper := by
    have hnumbers : lineTree.numbers =
        [.real ⟨false, ⟨6755399441055744, -52⟩⟩, .integer (-2)] := rfl
    rw [hnumbers, List.forall_mem_cons, List.forall_mem_singleton]
    exact ⟨⟨by decide, by decide, by decide, by decide⟩, trivial⟩
  have htext : "-2 as const".toList =
      ((Json.Value.number (.integer (-2))).expression 0).toList ++ " as const".toList := by
    decide +kernel
  refine ⟨hproper, expression_readable.1 lineTree 1 [','] hproper nofun, ?_, rfl, ?_⟩
  · rw [htext]
    apply expression_readable.1
    · exact List.forall_mem_singleton.mpr trivial
    · exact fun _ _ => Expression.ends_cons (by decide)
  · exact expression_readable.2 ["text-"] ["text"] ⟨"text-", "text", "TextTokens"⟩
      ⟨"text", "text", "TextTokens"⟩ lineTree lineTree (by decide +kernel) (by decide +kernel)
      hproper hproper rfl

example : lineTree.expression 0 =
    "\x7b\n  \"line-height\": 1.5,\n  steps: [-2, null, \x7b\x7d],\n\x7d" := by
  decide +kernel

end ModuleName

end DesignTokens
