import DesignTokens.Proofs.TypedModule.Aliases
import DesignTokens.TypedModule.Render

/-!
Which names can be declared. A name has to be an identifier and none of the words that ECMAScript
keeps for itself. Words that are run together always make an identifier, but a category can be such a
word, and a number can come to stand in front of a type when all else is taken for endings.
-/

namespace DesignTokens

/-- The words of ECMAScript that no declaration in a module can have for its name: the reserved words,
those that strict code reserves besides, and the two names that strict code does not declare. -/
def reservedWords : List String := [
  "await", "break", "case", "catch", "class", "const", "continue", "debugger", "default", "delete",
  "do", "else", "enum", "export", "extends", "false", "finally", "for", "function", "if", "import",
  "in", "instanceof", "new", "null", "return", "super", "switch", "this", "throw", "true", "try",
  "typeof", "var", "void", "while", "with", "yield",
  "implements", "interface", "let", "package", "private", "protected", "public", "static",
  "arguments", "eval"]

/-- Whether a name can stand behind `export const` and `export type`. -/
def IsBinding (name : String) : Prop :=
  isPlainKey name = true ∧ name ∉ reservedWords

/-- Letters and digits of ASCII. -/
def isWordChar (c : Char) : Bool :=
  isAsciiLetter c || isAsciiDigit c

/-- The characters that identifiers consist of. -/
def isNamePart (c : Char) : Bool :=
  isWordChar c || c = '_' || c = '$'

/-- Characters of usual categories: words and what separates them. -/
def isCategoryChar (c : Char) : Bool :=
  isWordChar c || isWordBreak c

/-- A category is a word with nothing but word breaks around it. -/
def Surrounds (category : String) (word : List Char) : Prop :=
  ∃ front back, (∀ c ∈ front ++ back, isWordBreak c = true) ∧
    category.toList = front ++ word ++ back

/-- Small letters of ASCII. -/
def isSmall (c : Char) : Bool :=
  'a' ≤ c && c ≤ 'z'

section Characters

variable {c : Char} {cs : List Char}

theorem isAsciiLetter_iff :
    isAsciiLetter c = true ↔
      0x61 ≤ c.toNat ∧ c.toNat ≤ 0x7A ∨ 0x41 ≤ c.toNat ∧ c.toNat ≤ 0x5A := by
  simp [isAsciiLetter, Char.le_def, UInt32.le_iff_toNat_le]

theorem isAsciiDigit_iff : isAsciiDigit c = true ↔ 0x30 ≤ c.toNat ∧ c.toNat ≤ 0x39 := by
  simp [isAsciiDigit, Char.le_def, UInt32.le_iff_toNat_le]

theorem isSmall_iff : isSmall c = true ↔ 0x61 ≤ c.toNat ∧ c.toNat ≤ 0x7A := by
  simp [isSmall, Char.le_def, UInt32.le_iff_toNat_le]

theorem isWordChar_iff :
    isWordChar c = true ↔ isAsciiLetter c = true ∨ isAsciiDigit c = true := by
  rw [isWordChar, Bool.or_eq_true]

theorem isNamePart_of_isWordChar (h : isWordChar c = true) : isNamePart c = true := by
  simp [isNamePart, h]

theorem isWordBreak_eq_false_of_isWordChar (h : isWordChar c = true) : isWordBreak c = false := by
  rw [Bool.eq_false_iff]
  intro hbreak
  simp only [isWordBreak, Bool.or_eq_true, decide_eq_true_eq] at hbreak
  rcases hbreak with ((rfl | rfl) | rfl) | rfl <;> exact absurd h (by decide)

theorem isPlainKey_iff :
    isPlainKey (String.ofList cs) = true ↔
      (∃ c ∈ cs.head?, isAsciiDigit c = false) ∧ ∀ c ∈ cs, isNamePart c = true := by
  rw [isPlainKey, String.toList_ofList]
  cases cs with
  | nil => simp
  | cons c cs =>
      have hletter : isAsciiLetter c = true → isAsciiDigit c = false := by
        rw [Bool.eq_false_iff, ne_eq, isAsciiLetter_iff, isAsciiDigit_iff]
        omega
      have hmark : c = '_' ∨ c = '$' → isAsciiDigit c = false := by
        rintro (rfl | rfl) <;> rfl
      simp only [isNamePart, isWordChar, List.head?_cons, Option.mem_some_iff, exists_eq_left',
        List.forall_mem_cons, Bool.and_eq_true, Bool.or_eq_true, decide_eq_true_eq, List.all_eq_true]
      grind

/-- With a digit behind its start a name stays one, but without a start it does not. -/
theorem isPlainKey_append_digit_iff {digit : Char} {back more : List Char}
    (h : isPlainKey (String.ofList (cs ++ back)) = true) (hdigit : isAsciiDigit digit = true)
    (hmore : ∀ c ∈ digit :: more, isNamePart c = true) :
    isPlainKey (String.ofList (cs ++ digit :: more)) = true ↔ ¬ cs = [] := by
  rw [isPlainKey_iff, List.forall_mem_append] at h ⊢
  cases cs with
  | nil => simp [hdigit]
  | cons first cs =>
      obtain ⟨hfirst, hcs, -⟩ := h
      exact iff_of_true ⟨hfirst, hcs, hmore⟩ (List.cons_ne_nil first cs)

theorem exists_head?_guardDigit (h : cs ≠ []) :
    ∃ c ∈ (guardDigit cs).head?, isAsciiDigit c = false := by
  obtain ⟨c, cs, rfl⟩ := List.exists_cons_of_ne_nil h
  rw [guardDigit]
  split
  · exact ⟨'_', rfl, rfl⟩
  · rename_i hdigit
    exact ⟨c, rfl, Bool.eq_false_iff.mpr hdigit⟩

theorem isNamePart_guardDigit (h : ∀ c ∈ cs, isWordChar c = true) :
    ∀ c ∈ guardDigit cs, isNamePart c = true := by
  have hcs : ∀ c ∈ cs, isNamePart c = true := fun c hc => isNamePart_of_isWordChar (h c hc)
  cases cs with
  | nil => exact hcs
  | cons c cs =>
      rw [guardDigit]
      split
      · rw [List.forall_mem_cons]
        exact ⟨rfl, hcs⟩
      · exact hcs

end Characters

namespace Text

theorem upper_capitals :
    ∀ n ∈ List.range' 0x41 26, upper (Char.ofNat n) = [Char.ofNat n] := by
  decide +kernel

/-- The upper-case form of a letter or a digit is one again, and no small letter. -/
theorem upper_of_isWordChar {c : Char} (h : isWordChar c = true) :
    ∃ d, upper c = [d] ∧ isWordChar d = true ∧ isSmall d = false := by
  simp only [Bool.eq_false_iff, ne_eq, isWordChar_iff, isAsciiLetter_iff, isSmall_iff] at h ⊢
  rcases h with (⟨hge, hle⟩ | ⟨hge, hle⟩) | hdigit
  · have hupper := upper_letters c.toNat (List.mem_range'_1.mpr (by omega))
    rw [Char.ofNat_toNat] at hupper
    refine ⟨_, hupper, ?_⟩
    rw [toNat_ofNat (.inl (by omega))]
    omega
  · have hupper := upper_capitals c.toNat (List.mem_range'_1.mpr (by omega))
    rw [Char.ofNat_toNat] at hupper
    exact ⟨c, hupper, .inl (.inr ⟨hge, hle⟩), by omega⟩
  · have hbounds := isAsciiDigit_iff.mp hdigit
    exact ⟨c, upper_of_isAsciiDigit hdigit, .inr hdigit, by omega⟩

end Text

section Words

variable {c category : String} {cs done word : List Char} {startsWord : Bool}

theorem isWordChar_camelCase (hdone : ∀ c ∈ done, isWordChar c = true)
    (hcs : ∀ c ∈ cs, isCategoryChar c = true) :
    ∀ c ∈ camelCase done startsWord cs, isWordChar c = true := by
  induction cs generalizing done startsWord with
  | nil => exact hdone
  | cons c cs ih =>
      obtain ⟨hc, hcs⟩ := List.forall_mem_cons.mp hcs
      rw [camelCase]
      split
      · exact ih hdone hcs
      · rename_i hbreak
        have hword : isWordChar c = true := by simpa [isCategoryChar, hbreak] using hc
        apply ih _ hcs
        rw [List.forall_mem_append]
        refine ⟨hdone, ?_⟩
        split
        · obtain ⟨d, hd, hd', -⟩ := Text.upper_of_isWordChar hword
          simpa [hd] using hd'
        · simpa using hword

theorem isWordChar_wordsOf (h : ∀ c ∈ category.toList, isCategoryChar c = true) :
    ∀ c ∈ wordsOf category, isWordChar c = true :=
  isWordChar_camelCase (fun _ hc => absurd hc List.not_mem_nil) h

/-- Words that run together into small letters are one word: the next one would start with a capital
or with a digit. -/
theorem exists_front_of_isSmall (hcs : ∀ c ∈ cs, isCategoryChar c = true) (hdone : done ≠ [])
    (hsmall : ∀ c ∈ camelCase done startsWord cs, isSmall c = true) :
    ∃ front back, cs = front ++ back ∧ (∀ c ∈ back, isWordBreak c = true) ∧
      camelCase done startsWord cs = done ++ front ∧ (startsWord = true → front = []) := by
  induction cs generalizing done startsWord with
  | nil => exact ⟨[], [], by simp [camelCase]⟩
  | cons c cs ih =>
      obtain ⟨hc, hcs⟩ := List.forall_mem_cons.mp hcs
      rw [camelCase] at hsmall ⊢
      split
      · rename_i hbreak
        rw [if_pos hbreak] at hsmall
        obtain ⟨front, back, rfl, hback, hrest, hfront⟩ := ih hcs hdone hsmall
        obtain rfl := hfront (by simpa using hdone)
        refine ⟨[], c :: back, rfl, ?_, hrest, fun _ => rfl⟩
        rw [List.forall_mem_cons]
        exact ⟨hbreak, hback⟩
      · rename_i hbreak
        rw [if_neg hbreak] at hsmall
        have hword : isWordChar c = true := by simpa [isCategoryChar, hbreak] using hc
        cases startsWord with
        | true =>
            obtain ⟨d, hd, -, hd'⟩ := Text.upper_of_isWordChar hword
            obtain ⟨more, hmore⟩ := exists_camelCase (done ++ [d]) false cs
            rw [if_pos rfl, hd, hmore] at hsmall
            have hsmall' := hsmall d (by simp)
            rw [hd'] at hsmall'
            exact absurd hsmall' Bool.false_ne_true
        | false =>
            rw [if_neg Bool.false_ne_true] at hsmall ⊢
            obtain ⟨front, back, rfl, hback, hrest, -⟩ := ih hcs (by simp) hsmall
            refine ⟨c :: front, back, rfl, hback, ?_, fun h => absurd h Bool.false_ne_true⟩
            rw [hrest, List.append_assoc, List.singleton_append]

theorem camelCase_of_breaks (hcs : ∀ c ∈ cs, isWordBreak c = true) :
    camelCase done startsWord cs = done := by
  induction cs generalizing startsWord with
  | nil => rfl
  | cons c cs ih =>
      obtain ⟨hc, hcs⟩ := List.forall_mem_cons.mp hcs
      rw [camelCase, if_pos hc, ih hcs]

theorem camelCase_nil_breaks_append (hcs : ∀ c ∈ cs, isWordBreak c = true) (more : List Char) :
    camelCase [] false (cs ++ more) = camelCase [] false more := by
  induction cs with
  | nil => rfl
  | cons c cs ih =>
      obtain ⟨hc, hcs⟩ := List.forall_mem_cons.mp hcs
      rw [List.cons_append, camelCase, if_pos hc]
      exact ih hcs

theorem camelCase_word_append (hword : ∀ c ∈ word, isWordBreak c = false) (more : List Char) :
    camelCase done false (word ++ more) = camelCase (done ++ word) false more := by
  induction word generalizing done with
  | nil => simp
  | cons c word ih =>
      obtain ⟨hc, hword⟩ := List.forall_mem_cons.mp hword
      rw [List.cons_append, camelCase, hc, if_neg Bool.false_ne_true, if_neg Bool.false_ne_true,
        ih hword, List.append_assoc, List.singleton_append]

/-- Around words that run together into small letters there is nothing but word breaks. -/
theorem exists_breaks_of_isSmall (hcs : ∀ c ∈ cs, isCategoryChar c = true)
    (hne : camelCase [] false cs ≠ [])
    (hsmall : ∀ c ∈ camelCase [] false cs, isSmall c = true) :
    ∃ front back, (∀ c ∈ front ++ back, isWordBreak c = true) ∧
      cs = front ++ camelCase [] false cs ++ back := by
  induction cs with
  | nil => exact absurd rfl hne
  | cons c cs ih =>
      obtain ⟨hc, hcs⟩ := List.forall_mem_cons.mp hcs
      by_cases hbreak : isWordBreak c = true
      · have hskip : camelCase [] false (c :: cs) = camelCase [] false cs := by
          rw [camelCase, if_pos hbreak]
          rfl
        rw [hskip] at hne hsmall ⊢
        obtain ⟨front, back, hbreaks, heq⟩ := ih hcs hne hsmall
        refine ⟨c :: front, back, ?_, congrArg (c :: ·) heq⟩
        rw [List.cons_append, List.forall_mem_cons]
        exact ⟨hbreak, hbreaks⟩
      · have hstart : camelCase [] false (c :: cs) = camelCase [c] false cs := by
          rw [camelCase, if_neg hbreak, if_neg Bool.false_ne_true, List.nil_append]
        rw [hstart] at hsmall ⊢
        obtain ⟨front, back, rfl, hback, hrest, -⟩ :=
          exists_front_of_isSmall hcs (List.cons_ne_nil c []) hsmall
        exact ⟨[], back, hback, by rw [hrest]; simp⟩

/-- The words of a category make one word of small letters exactly if the category is that word with
word breaks around it. -/
theorem wordsOf_eq_iff (h : ∀ c ∈ category.toList, isCategoryChar c = true) (hne : word ≠ [])
    (hsmall : ∀ c ∈ word, isSmall c = true) :
    wordsOf category = word ↔ Surrounds category word := by
  constructor
  · rintro rfl
    exact exists_breaks_of_isSmall h hne hsmall
  · rintro ⟨front, back, hbreaks, heq⟩
    obtain ⟨hfront, hback⟩ := List.forall_mem_append.mp hbreaks
    have hword : ∀ c ∈ word, isWordBreak c = false := by
      intro c hc
      apply isWordBreak_eq_false_of_isWordChar
      rw [isWordChar_iff, isAsciiLetter_iff]
      exact .inl (.inl (isSmall_iff.mp (hsmall c hc)))
    rw [wordsOf, heq, List.append_assoc, camelCase_nil_breaks_append hfront,
      camelCase_word_append hword, camelCase_of_breaks hback, List.nil_append]

/-- An underscore never stands in front of small letters. -/
theorem underscored_eq_iff (hcs : '_' ∉ cs) (hne : word ≠ [])
    (hsmall : ∀ c ∈ word, isSmall c = true) : underscored cs = word ↔ cs = word := by
  have hword : '_' ∉ word := fun hmem => absurd (hsmall _ hmem) (by decide)
  constructor
  · intro heq
    rw [← dropWhile_underscored hcs, heq, dropWhile_of_notMem hword]
  · rintro rfl
    obtain ⟨c, cs, rfl⟩ := List.exists_cons_of_ne_nil hne
    have hc := isSmall_iff.mp (hsmall c List.mem_cons_self)
    rw [underscored, if_neg hne, guardDigit, if_neg]
    rw [isAsciiDigit_iff]
    omega

theorem forall_mem_toList_of_all {p : Char → Bool} {words : List String}
    (h : (words.all fun word => word.toList.all p) = true) :
    ∀ word ∈ words, ∀ c ∈ word.toList, p c = true :=
  fun word hword => List.all_eq_true.mp (List.all_eq_true.mp h word hword)

theorem small_of_mem_reservedWords :
    ∀ word ∈ reservedWords, word.toList ≠ [] ∧ ∀ c ∈ word.toList, isSmall c = true := by
  have hne : ∀ word ∈ reservedWords, word.toList ≠ [] := by decide +kernel
  have hsmall : ∀ word ∈ reservedWords, ∀ c ∈ word.toList, isSmall c = true :=
    forall_mem_toList_of_all (by decide +kernel)
  exact fun word hword => ⟨hne word hword, hsmall word hword⟩

theorem constantName_mem_reservedWords_iff
    (h : ∀ c ∈ category.toList, isCategoryChar c = true) :
    constantName category ∈ reservedWords ↔
      ∃ word ∈ reservedWords, Surrounds category word.toList := by
  have hiff : ∀ word ∈ reservedWords,
      constantName category = word ↔ Surrounds category word.toList := by
    intro word hword
    obtain ⟨hne, hsmall⟩ := small_of_mem_reservedWords word hword
    rw [constantName_eq, ← wordsOf_eq_iff h hne hsmall,
      ← underscored_eq_iff (underscore_notMem_wordsOf category) hne hsmall,
      ← String.toList_inj, String.toList_ofList]
  constructor
  · intro hmem
    exact ⟨_, hmem, (hiff _ hmem).mp rfl⟩
  · rintro ⟨word, hword, hsurrounds⟩
    rw [(hiff word hword).mpr hsurrounds]
    exact hword

end Words

section Endings

variable {cs : List Char}

/-- The ending of types, some number of times. -/
def endings (k : Nat) : List Char :=
  (List.replicate k typeSuffix).flatten

theorem endings_succ (k : Nat) : endings (k + 1) = endings k ++ typeSuffix := by
  rw [endings, endings, List.replicate_succ', List.flatten_append, List.flatten_singleton]

theorem append_typeSuffix_eq_endings_iff :
    (∃ k, cs ++ typeSuffix = endings k) ↔ ∃ k, cs = endings k := by
  constructor
  · rintro ⟨k, h⟩
    cases k with
    | zero => exact absurd h (List.append_ne_nil_of_right_ne_nil cs (by decide))
    | succ k =>
        rw [endings_succ, List.append_cancel_right_eq] at h
        exact ⟨k, h⟩
  · rintro ⟨k, rfl⟩
    exact ⟨k + 1, (endings_succ k).symm⟩

theorem append_endings_eq_endings_iff (j : Nat) :
    (∃ k, cs ++ endings j = endings k) ↔ ∃ k, cs = endings k := by
  induction j with
  | zero => simp [endings]
  | succ j ih => rw [endings_succ, ← List.append_assoc, append_typeSuffix_eq_endings_iff, ih]

theorem eq_of_endings_eq_cons {k : Nat} {c : Char} (h : endings k = c :: cs) : c = 'T' := by
  cases k with
  | zero => cases h
  | succ k => exact (List.cons.inj h).1.symm

theorem guardDigit_eq_endings_iff : (∃ k, guardDigit cs = endings k) ↔ ∃ k, cs = endings k := by
  cases cs with
  | nil => rfl
  | cons c cs =>
      rw [guardDigit]
      split
      · rename_i hdigit
        constructor
        · rintro ⟨k, h⟩
          exact absurd (eq_of_endings_eq_cons h.symm) (by decide)
        · rintro ⟨k, h⟩
          rw [eq_of_endings_eq_cons h.symm] at hdigit
          exact absurd hdigit (by decide)
      · rfl

namespace ModuleName

/-- What is left of a text without the endings at its end, the text given backwards. -/
theorem exists_dropSuffixes {n : Nat} (h : cs.length ≤ n) :
    ∃ k, cs.reverse = (dropSuffixes n cs).reverse ++ endings k ∧
      ¬ typeSuffix <:+ (dropSuffixes n cs).reverse := by
  have hnone : ∀ cs : List Char, Text.stripStart typeSuffix.reverse cs = none →
      ¬ typeSuffix <:+ cs.reverse := by
    intro cs hstrip hsuffix
    rw [← List.reverse_prefix, List.reverse_reverse, ← Text.isSome_stripStart_iff, hstrip] at hsuffix
    exact Bool.false_ne_true hsuffix
  induction n generalizing cs with
  | zero =>
      obtain rfl := List.eq_nil_of_length_eq_zero (Nat.le_zero.mp h)
      exact ⟨0, rfl, by decide⟩
  | succ n ih =>
      rw [dropSuffixes]
      split
      · rename_i rest hstrip
        obtain rfl := Text.eq_append_of_stripStart hstrip
        have hrest : rest.length ≤ n := by
          rw [List.length_append] at h
          have hlength : typeSuffix.reverse.length = 6 := rfl
          omega
        obtain ⟨k, heq, hend⟩ := ih hrest
        refine ⟨k + 1, ?_, hend⟩
        rw [List.reverse_append, List.reverse_reverse, heq, endings_succ, List.append_assoc]
      · rename_i hstrip
        exact ⟨0, (List.append_nil _).symm, hnone _ hstrip⟩

/-- The stem of a type is the type without all its endings. -/
theorem exists_endings_of_typeStem (type : String) :
    ∃ k, type.toList = (typeStem type).toList ++ endings k ∧
      ¬ typeSuffix <:+ (typeStem type).toList := by
  have hlength : type.toList.reverse.length ≤ type.length := by
    rw [List.length_reverse, String.length_toList]
  obtain ⟨k, heq, hend⟩ := exists_dropSuffixes hlength
  rw [List.reverse_reverse] at heq
  refine ⟨k, ?_, ?_⟩
  · rw [typeStem, String.toList_ofList, ← heq]
  · rwa [typeStem, String.toList_ofList]

/-- Nothing is left of a type that consists of endings, and of no other. -/
theorem typeStem_eq_nil_iff (type : String) :
    (typeStem type).toList = [] ↔ ∃ k, type.toList = endings k := by
  obtain ⟨j, heq, hend⟩ := exists_endings_of_typeStem type
  rw [heq, append_endings_eq_endings_iff]
  constructor
  · intro hnil
    exact ⟨0, hnil⟩
  · rintro ⟨k, hk⟩
    cases k with
    | zero => exact hk
    | succ k =>
        rw [endings_succ] at hk
        exact absurd ⟨endings k, hk.symm⟩ hend

end ModuleName

end Endings

namespace ModuleName

variable {category : String} {cs : List Char} {taken : List String} {name : ModuleName} {n : Nat}

/-- A name that got a number and whose natural type consists of endings. They are all taken off before
the number is added, and then nothing stands in front of it. -/
def NumberFirst (name : ModuleName) : Prop :=
  name.constant ≠ constantName name.category ∧
    ∃ k, initialUpper (constantName name.category) = endings k

theorem isPlainKey_underscored (h : ∀ c ∈ cs, isWordChar c = true) :
    isPlainKey (String.ofList (underscored cs)) = true := by
  rw [isPlainKey_iff, underscored]
  split
  · exact ⟨⟨'_', rfl, rfl⟩, List.forall_mem_singleton.mpr rfl⟩
  · rename_i hne
    exact ⟨exists_head?_guardDigit hne, isNamePart_guardDigit h⟩

theorem isWordChar_digits (n : Nat) : ∀ c ∈ n.repr.toList, isWordChar c = true := by
  intro c hc
  rw [Nat.toList_repr] at hc
  have hdigit := Nat.isDigit_of_mem_toDigits (b := 10) (by decide) (by decide) hc
  rw [isWordChar_iff, isAsciiDigit_iff]
  right
  simpa [Char.isDigit, UInt32.le_iff_toNat_le] using hdigit

theorem isWordChar_capitalized (h : ∀ c ∈ cs, isWordChar c = true) :
    ∀ c ∈ capitalized cs, isWordChar c = true := by
  cases cs with
  | nil => exact h
  | cons c cs =>
      obtain ⟨hc, hcs⟩ := List.forall_mem_cons.mp h
      obtain ⟨d, hd, hd', -⟩ := Text.upper_of_isWordChar hc
      rw [capitalized, hd, List.singleton_append, List.forall_mem_cons]
      exact ⟨hd', hcs⟩

theorem isNamePart_typeSuffix : ∀ c ∈ typeSuffix, isNamePart c = true :=
  List.all_eq_true.mp (by decide)

/-- The natural type of a category can always stand as a name. -/
theorem isPlainKey_natural_type (h : ∀ c ∈ category.toList, isCategoryChar c = true) :
    isPlainKey (natural category).type = true := by
  have hwords := isWordChar_capitalized (isWordChar_wordsOf h)
  rw [natural_type_eq, isPlainKey_iff, List.forall_mem_append]
  refine ⟨?_, isNamePart_guardDigit hwords, isNamePart_typeSuffix⟩
  by_cases hnil : capitalized (wordsOf category) = []
  · rw [hnil]
    exact ⟨'T', rfl, rfl⟩
  · obtain ⟨first, hfirst, hdigit⟩ := exists_head?_guardDigit hnil
    exact ⟨first, List.mem_head?_append_of_mem_head? hfirst, hdigit⟩

theorem toList_numbered_type :
    ((natural category).numbered n).type.toList =
      (typeStem (natural category).type).toList ++ n.repr.toList ++ typeSuffix := by
  rw [numbered, String.toList_append, String.toList_append]
  rfl

/-- A number in a type leaves it a name as long as something stands in front of it. -/
theorem isPlainKey_numbered_type_iff (h : ∀ c ∈ category.toList, isCategoryChar c = true) :
    isPlainKey ((natural category).numbered n).type = true ↔
      ¬ ∃ k, initialUpper (constantName category) = endings k := by
  have hstem : (typeStem (natural category).type).toList = [] ↔
      ∃ k, initialUpper (constantName category) = endings k := by
    rw [typeStem_eq_nil_iff, natural_type_eq, String.toList_ofList, append_typeSuffix_eq_endings_iff,
      guardDigit_eq_endings_iff, initialUpper_constantName]
  obtain ⟨k, htype, -⟩ := exists_endings_of_typeStem (natural category).type
  have hplain := isPlainKey_natural_type h
  rw [← String.ofList_toList (s := (natural category).type), htype] at hplain
  obtain ⟨d, ds, hrepr, hd, -⟩ := exists_digits n
  have hparts : ∀ c ∈ d :: (ds ++ typeSuffix), isNamePart c = true := by
    rw [← List.cons_append, ← hrepr, List.forall_mem_append]
    exact ⟨fun c hc => isNamePart_of_isWordChar (isWordChar_digits n c hc), isNamePart_typeSuffix⟩
  rw [← hstem, ← String.ofList_toList (s := ((natural category).numbered n).type),
    toList_numbered_type, hrepr, List.append_assoc, List.cons_append]
  exact isPlainKey_append_digit_iff hplain hd hparts

/-- A text with anything but small letters is none of the reserved words. -/
theorem notMem_reservedWords {c : Char} {word : String} (hc : c ∈ word.toList)
    (h : isSmall c = false) : word ∉ reservedWords := by
  intro hmem
  rw [(small_of_mem_reservedWords word hmem).2 c hc] at h
  exact Bool.noConfusion h

theorem exists_digit_of_numbered (category : String) (n : Nat) :
    ∃ c ∈ ((natural category).numbered n).constant.toList, isSmall c = false := by
  obtain ⟨d, ds, hrepr, hd, -⟩ := exists_digits n
  refine ⟨d, ?_, ?_⟩
  · rw [numbered, String.toList_append, hrepr]
    simp
  · rw [isAsciiDigit_iff] at hd
    rw [Bool.eq_false_iff, ne_eq, isSmall_iff]
    omega

namespace Chosen

variable (hchosen : Chosen taken category name)
  (h : ∀ c ∈ category.toList, isCategoryChar c = true)
include hchosen h

theorem isPlainKey_constant : isPlainKey name.constant = true := by
  have hwords := isWordChar_wordsOf h
  cases hchosen with
  | natural _ =>
      rw [ModuleName.natural, constantName_eq]
      exact isPlainKey_underscored hwords
  | numbered n _ _ =>
      obtain ⟨d, ds, hrepr, hd, -⟩ := exists_digits n
      rw [numbered_constant_eq hrepr hd]
      apply isPlainKey_underscored
      rw [← hrepr, List.forall_mem_append]
      exact ⟨hwords, isWordChar_digits n⟩

theorem constant_mem_reservedWords_iff :
    name.constant ∈ reservedWords ↔ name.constant = constantName category ∧
      ∃ word ∈ reservedWords, Surrounds category word.toList := by
  rw [← constantName_mem_reservedWords_iff h]
  cases hchosen with
  | natural _ => exact (and_iff_right rfl).symm
  | numbered n hmem hn =>
      obtain ⟨c, hc, hsmall⟩ := exists_digit_of_numbered category n
      refine iff_of_false (notMem_reservedWords hc hsmall) ?_
      rintro ⟨heq, hword⟩
      rw [← heq] at hword
      exact notMem_reservedWords hc hsmall hword

theorem isPlainKey_type_iff :
    isPlainKey name.type = true ↔ ¬ NumberFirst name := by
  rw [NumberFirst, hchosen.category_eq, ne_eq, hchosen.constant_eq_iff]
  cases hchosen with
  | natural hfree => exact iff_of_true (isPlainKey_natural_type h) fun hfirst => hfirst.1 hfree
  | numbered n hmem _ => rw [isPlainKey_numbered_type_iff h, and_iff_right (not_not_intro hmem)]

omit h in
theorem type_notMem_reservedWords : name.type ∉ reservedWords := by
  have hT : 'T' ∈ name.type.toList := by
    cases hchosen with
    | natural _ =>
        rw [natural_type_eq, String.toList_ofList]
        exact List.mem_append_right _ (by decide)
    | numbered n _ _ =>
        rw [toList_numbered_type]
        exact List.mem_append_right _ (by decide)
  exact notMem_reservedWords hT (by decide)

end Chosen

/-- Names of categories of letters, digits and word breaks. Every constant is an identifier, and can be
declared unless its category is a reserved word within word breaks whose constant was free. No type is
a reserved word, and it can be declared unless its number comes first. -/
theorem bindings_legal (categories : List String)
    (h : ∀ category ∈ categories, ∀ c ∈ category.toList, isCategoryChar c = true) :
    ∀ name ∈ ofCategories categories,
      isPlainKey name.constant = true ∧ name.type ∉ reservedWords ∧
      (IsBinding name.constant ↔ ¬ (name.constant = constantName name.category ∧
        ∃ word ∈ reservedWords, Surrounds name.category word.toList)) ∧
      (IsBinding name.type ↔ ¬ NumberFirst name) := by
  intro name hname
  obtain ⟨taken, hchosen⟩ := exists_chosen hname
  have hchars := h name.category (category_mem_of_mem hname)
  have hconstant := hchosen.isPlainKey_constant hchars
  have htype := hchosen.type_notMem_reservedWords
  refine ⟨hconstant, htype, ?_, ?_⟩
  · rw [IsBinding, and_iff_right hconstant, hchosen.constant_mem_reservedWords_iff hchars]
  · rw [IsBinding, and_iff_left htype, hchosen.isPlainKey_type_iff hchars]

theorem bindings_legal_fonts :
    (∀ category ∈ ["-class", "font size", "fontSize", "3d"],
      ∀ c ∈ category.toList, isCategoryChar c = true) ∧
    ⟨"fontSize", "fontSize2", "FontSize2Tokens"⟩ ∈
      ofCategories ["-class", "font size", "fontSize", "3d"] ∧
    IsBinding "fontSize2" ∧ IsBinding "FontSize2Tokens" := by
  have hchars : ∀ category ∈ ["-class", "font size", "fontSize", "3d"],
      ∀ c ∈ category.toList, isCategoryChar c = true :=
    forall_mem_toList_of_all (by decide +kernel)
  have hmem : ⟨"fontSize", "fontSize2", "FontSize2Tokens"⟩ ∈
      ofCategories ["-class", "font size", "fontSize", "3d"] := by
    decide +kernel
  obtain ⟨-, -, hconstant, htype⟩ := bindings_legal _ hchars _ hmem
  refine ⟨hchars, hmem, hconstant.mpr fun hword => ?_, htype.mpr fun hfirst => ?_⟩
  · exact absurd hword.1 (by decide +kernel)
  · obtain ⟨k, hk⟩ := hfirst.2
    have hupper : initialUpper (constantName "fontSize") = "FontSize".toList := by decide +kernel
    exact absurd (eq_of_endings_eq_cons (hk.symm.trans hupper)) (by decide)

/-- A category that is a reserved word makes a constant that no module can declare, and two categories
with the constant `tokens` make a type that starts with a digit. -/
theorem bindings_illegal :
    (∀ category ∈ ["class", "tokens", "tokens-"],
      category ≠ "" ∧ ∀ c ∈ category.toList, isCategoryChar c = true) ∧
    ofCategories ["class", "tokens", "tokens-"] =
      [⟨"class", "class", "ClassTokens"⟩, ⟨"tokens", "tokens", "TokensTokens"⟩,
        ⟨"tokens-", "tokens2", "2Tokens"⟩] ∧
    "class" ∈ reservedWords ∧ isPlainKey "2Tokens" = false := by
  have hne : ∀ category ∈ ["class", "tokens", "tokens-"], category ≠ "" := by decide
  have hchars : ∀ category ∈ ["class", "tokens", "tokens-"],
      ∀ c ∈ category.toList, isCategoryChar c = true :=
    forall_mem_toList_of_all (by decide +kernel)
  refine ⟨fun category hcategory => ⟨hne category hcategory, hchars category hcategory⟩, ?_⟩
  decide +kernel

end ModuleName

end DesignTokens
