import DesignTokens.Proofs.Text.Lines
import DesignTokens.Proofs.Toml.Strings

/-!
Documents of lines and headers are read back statement by statement.
-/

namespace DesignTokens.Toml

variable {cs key rest text more : List Char} {c : Char} {found others : List Statement}

section Keys

/-- A key that needs no quotes. -/
def Bare (key : List Char) : Prop :=
  key ≠ [] ∧ ∀ c ∈ key, isKeyChar c = true

instance : DecidablePred Bare := fun key =>
  decidable_of_iff (key.isEmpty = false ∧ key.all isKeyChar = true) (by simp [Bare])

theorem Bare.exists_cons (h : Bare key) : ∃ c cs, key = c :: cs ∧ isKeyChar c = true := by
  obtain ⟨c, cs, rfl⟩ := List.exists_cons_of_ne_nil h.1
  exact ⟨c, cs, rfl, h.2 c List.mem_cons_self⟩

theorem skipSpace_of_isKeyChar (h : isKeyChar c = true) : skipSpace (c :: cs) = c :: cs := by
  have hspace : isSpace c = false := by
    rw [isSpace, Bool.or_eq_false_iff, decide_eq_false_iff_not, decide_eq_false_iff_not]
    constructor <;> rintro rfl <;> exact absurd h (by decide)
  rw [skipSpace, List.dropWhile_cons_of_neg (by simp [hspace])]

theorem simpleKey_of_bare (hkey : Bare key) (hrest : ∀ c ∈ rest.head?, isKeyChar c = false) :
    simpleKey (key ++ rest) = some (String.ofList key, rest) := by
  have htake : (key ++ rest).takeWhile isKeyChar = key := by
    rw [List.takeWhile_append_of_pos hkey.2]
    cases rest with
    | nil => exact List.append_nil key
    | cons c cs => simp [hrest c rfl]
  have hdrop : (key ++ rest).dropWhile isKeyChar = rest := by
    rw [List.dropWhile_append_of_pos hkey.2]
    cases rest with
    | nil => rfl
    | cons c cs => simp [hrest c rfl]
  obtain ⟨c, cs, rfl, hc⟩ := hkey.exists_cons
  unfold simpleKey
  split
  · rename_i heq
    obtain rfl := (List.cons.inj heq).1
    exact absurd hc (by decide)
  · rename_i heq
    obtain rfl := (List.cons.inj heq).1
    exact absurd hc (by decide)
  · rw [htake, hdrop]

theorem dottedKey_of_bare (hkey : Bare key) (hrest : ∀ c ∈ rest.head?, isKeyChar c = false)
    (hdot : (skipSpace rest).head? ≠ some '.') :
    dottedKey depthLimit (key ++ rest) = some (([], String.ofList key), skipSpace rest) := by
  have hskip : skipSpace (key ++ rest) = key ++ rest := by
    obtain ⟨c, cs, rfl, hc⟩ := hkey.exists_cons
    exact skipSpace_of_isKeyChar hc
  rw [depthLimit, dottedKey, hskip, simpleKey_of_bare hkey hrest]
  simp only [Option.bind_some]
  split
  · rename_i heq
    exact absurd (congrArg List.head? heq) hdot
  · rfl

end Keys

section Front

/-- A text at the front of a document gives some statements, and then what follows is read. -/
def Gives (text : List Char) (found : List Statement) : Prop :=
  ∀ rest lines, (text ++ rest).length < lines → ∃ left, rest.length < left ∧
    statements lines (text ++ rest) = (statements left rest).map (found ++ ·)

theorem Gives.nil : Gives [] [] := by
  intro rest lines h
  refine ⟨lines, h, ?_⟩
  simp

theorem Gives.append (h : Gives text found) (hmore : Gives more others) :
    Gives (text ++ more) (found ++ others) := by
  intro rest lines hlines
  rw [List.append_assoc] at hlines ⊢
  obtain ⟨left, hleft, hread⟩ := h (more ++ rest) lines hlines
  obtain ⟨last, hlast, hreadMore⟩ := hmore rest left hleft
  refine ⟨last, hlast, ?_⟩
  rw [hread, hreadMore, Option.map_map]
  simp [Function.comp_def]

/-- A document all of whose text is known. -/
theorem Gives.statements (h : Gives text found) {lines : Nat} (hlines : text.length < lines) :
    statements lines text = some found := by
  obtain ⟨left, hleft, hread⟩ := h [] lines (by simpa using hlines)
  obtain ⟨left, rfl⟩ := Nat.exists_eq_succ_of_ne_zero (Nat.ne_of_gt hleft)
  rw [List.append_nil] at hread
  rw [hread]
  simp [Toml.statements, skipSpace]

/-- A text that is read as a value up to the end of its line. -/
structure Writes (text : List Char) (v : Value) : Prop where
  skipSpace : ∀ rest, skipSpace (text ++ '\n' :: rest) = text ++ '\n' :: rest
  value : ∀ steps depth rest,
    value (steps + 1) depth (text ++ '\n' :: rest) = some (v, '\n' :: rest)

theorem assignment_of_bare {v : Value} (hkey : Bare key) (htext : Writes text v)
    (rest : List Char) :
    assignment (key ++ (' ' :: '=' :: ' ' :: (text ++ '\n' :: rest))) =
      some (.assign [] (String.ofList key) v, '\n' :: rest) := by
  have hspace : skipSpace (' ' :: '=' :: ' ' :: (text ++ '\n' :: rest)) =
      '=' :: ' ' :: (text ++ '\n' :: rest) := rfl
  have hskip : skipSpace (' ' :: (text ++ '\n' :: rest)) = text ++ '\n' :: rest :=
    htext.skipSpace rest
  have hread : dottedKey depthLimit (key ++ (' ' :: '=' :: ' ' :: (text ++ '\n' :: rest))) =
      some (([], String.ofList key), '=' :: ' ' :: (text ++ '\n' :: rest)) :=
    dottedKey_of_bare hkey (by simp; decide) (by rw [hspace]; simp)
  rw [assignment, hread]
  simp only [Option.bind_some, hskip, htext.value, Option.map_some]

theorem statements_of_isKeyChar {lines : Nat} (hc : isKeyChar c = true) :
    statements (lines + 1) (c :: cs) =
      (assignment (c :: cs)).bind fun (statement, rest) =>
        (lineEnd rest).bind fun rest => (statements lines rest).map (statement :: ·) := by
  rw [Toml.statements, skipSpace_of_isKeyChar hc]
  split
  case h_6 =>
    rfl
  all_goals
    rename_i heq
    cases heq <;> exact absurd hc (by decide)

theorem gives_assignment {v : Value} (hkey : Bare key) (htext : Writes text v) :
    Gives (key ++ (' ' :: '=' :: ' ' :: (text ++ ['\n']))) [.assign [] (String.ofList key) v] := by
  intro rest lines hlines
  obtain ⟨left, rfl⟩ := Nat.exists_eq_succ_of_ne_zero (Nat.ne_zero_of_lt hlines)
  refine ⟨left, by simp at hlines; omega, ?_⟩
  have hread := assignment_of_bare hkey htext rest
  have happend : key ++ (' ' :: '=' :: ' ' :: (text ++ ['\n'])) ++ rest =
      key ++ (' ' :: '=' :: ' ' :: (text ++ '\n' :: rest)) := by simp
  obtain ⟨c, cs, rfl, hc⟩ := hkey.exists_cons
  rw [happend, List.cons_append, statements_of_isKeyChar hc, ← List.cons_append, hread]
  rfl

end Front

section Lines

theorem exists_quote (s : String) : ∃ mark more, (quote s).toList = mark :: more ∧
    (mark = '"' ∨ mark = '\'') := by
  have happend : (quote s).toList = (quotingOf s.toList).delimiter.toList ++
      ((quotingOf s.toList).body s.toList ++ (quotingOf s.toList).delimiter.toList) := by
    simp [quote]
  rw [happend]
  cases quotingOf s.toList with
  | basic => exact ⟨'"', _, rfl, .inl rfl⟩
  | literal => exact ⟨'\'', _, rfl, .inr rfl⟩
  | longBasic => exact ⟨'"', _, rfl, .inl rfl⟩
  | longLiteral => exact ⟨'\'', _, rfl, .inr rfl⟩

theorem writes_quote (s : String) : Writes (quote s).toList (.string s) := by
  have hread : ∀ rest, string ((quote s).toList ++ '\n' :: rest) = some (s, '\n' :: rest) :=
    fun rest => string_quote s ⟨by simp, by simp⟩
  obtain ⟨mark, more, hquote, hmark⟩ := exists_quote s
  rw [hquote] at hread ⊢
  constructor
  · intro rest
    obtain rfl | rfl := hmark <;> rfl
  · intro steps depth rest
    have := congrArg (Option.map (Prod.map Value.string id)) (hread rest)
    obtain rfl | rfl := hmark
    · exact this
    · exact this

theorem writes_boolean (b : Bool) :
    Writes (if b then "true" else "false").toList (.boolean b) := by
  cases b with
  | true => exact ⟨fun _ => rfl, fun _ _ _ => rfl⟩
  | false => exact ⟨fun _ => rfl, fun _ _ _ => rfl⟩

theorem gives_stringLine {key : String} (hkey : Bare key.toList) (s : String) :
    Gives (stringLine key s).toList [.assign [] key (.string s)] := by
  simpa [stringLine] using gives_assignment hkey (writes_quote s)

theorem gives_boolLine {key : String} (hkey : Bare key.toList) (b : Bool) :
    Gives (boolLine key b).toList [.assign [] key (.boolean b)] := by
  simpa [boolLine] using gives_assignment hkey (writes_boolean b)

end Lines

end DesignTokens.Toml
