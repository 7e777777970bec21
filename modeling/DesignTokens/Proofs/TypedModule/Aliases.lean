import DesignTokens.Proofs.Text.UpperCase
import DesignTokens.Proofs.TypedModule.Writing

/-!
Which names get the same type. A type comes from the constant by an upper-case start, so constants that
differ only there have one type between them, though the constants are kept apart.
-/

namespace DesignTokens

/-- A text with the upper-case form of its first character. -/
def capitalized : List Char → List Char
  | c :: rest => Text.upper c ++ rest
  | [] => []

/-- A constant without the underscores in front, with an upper-case start. -/
def initialUpper (constant : String) : List Char :=
  capitalized (constant.toList.dropWhile (· = '_'))

/-- The words of a category run together. -/
def wordsOf (category : String) : List Char :=
  camelCase [] false category.toList

/-- Words as a constant: an underscore stands where they are missing or start with a digit. -/
def underscored (cs : List Char) : List Char :=
  if cs = [] then ['_'] else guardDigit cs

section Underscores

variable {cs : List Char}

theorem dropWhile_of_notMem (h : '_' ∉ cs) : cs.dropWhile (· = '_') = cs := by
  cases cs with
  | nil => rfl
  | cons c cs =>
      have hne : c ≠ '_' := fun heq => h (heq ▸ List.mem_cons_self)
      rw [List.dropWhile_cons_of_neg (by simpa using hne)]

theorem dropWhile_guardDigit (h : '_' ∉ cs) : (guardDigit cs).dropWhile (· = '_') = cs := by
  cases cs with
  | nil => rfl
  | cons c cs =>
      rw [guardDigit]
      split
      · rw [List.dropWhile_cons_of_pos (by decide), dropWhile_of_notMem h]
      · exact dropWhile_of_notMem h

theorem dropWhile_underscored (h : '_' ∉ cs) : (underscored cs).dropWhile (· = '_') = cs := by
  rw [underscored]
  split
  · rename_i hnil
    rw [hnil]
    rfl
  · exact dropWhile_guardDigit h

/-- A digit in front stays in front, whatever follows. -/
theorem guardDigit_append (h : cs ≠ []) (more : List Char) :
    guardDigit (cs ++ more) = guardDigit cs ++ more := by
  obtain ⟨c, cs, rfl⟩ := List.exists_cons_of_ne_nil h
  rw [List.cons_append, guardDigit, guardDigit]
  split <;> rfl

theorem capitalized_ne_nil (h : cs ≠ []) : capitalized cs ≠ [] := by
  obtain ⟨c, cs, rfl⟩ := List.exists_cons_of_ne_nil h
  rw [capitalized]
  rcases Text.upper_eq_or c with heq | ⟨hne, -⟩
  · rw [heq]
    exact List.cons_ne_nil _ _
  · exact List.append_ne_nil_of_left_ne_nil hne _

theorem capitalized_append (h : cs ≠ []) (more : List Char) :
    capitalized (cs ++ more) = capitalized cs ++ more := by
  obtain ⟨c, cs, rfl⟩ := List.exists_cons_of_ne_nil h
  rw [List.cons_append, capitalized, capitalized, List.append_assoc]

theorem underscore_notMem_capitalized (h : '_' ∉ cs) : '_' ∉ capitalized cs := by
  cases cs with
  | nil => exact h
  | cons c cs =>
      rw [List.mem_cons, not_or] at h
      rw [capitalized, List.mem_append, not_or]
      exact ⟨Text.notMem_upper rfl fun heq => h.1 heq.symm, h.2⟩

/-- A word break that no other character turns into does not stand in words run together. -/
theorem notMem_camelCase {mark : Char} (hmark : isWordBreak mark = true)
    (hword : Text.isWordNumber mark.toNat = false) {done : List Char} {startsWord : Bool}
    (h : mark ∉ done) : mark ∉ camelCase done startsWord cs := by
  induction cs generalizing done startsWord with
  | nil => exact h
  | cons c cs ih =>
      rw [camelCase]
      split
      · exact ih h
      · rename_i hbreak
        have hne : c ≠ mark := by
          rintro rfl
          exact hbreak hmark
        apply ih
        rw [List.mem_append, not_or]
        refine ⟨h, ?_⟩
        split
        · exact Text.notMem_upper hword hne
        · exact fun hmem => hne (List.mem_singleton.mp hmem).symm

theorem underscore_notMem_wordsOf (category : String) : '_' ∉ wordsOf category :=
  notMem_camelCase rfl rfl List.not_mem_nil

end Underscores

section Digits

variable {d : Char} {ds : List Char}

theorem exists_digits (n : Nat) :
    ∃ d ds, n.repr.toList = d :: ds ∧ isAsciiDigit d ∧ '_' ∉ d :: ds := by
  obtain ⟨d, ds, hdigits⟩ := List.exists_cons_of_ne_nil (Nat.toDigits_ne_nil (n := n) (b := 10))
  have hall : ∀ c ∈ d :: ds, c.isDigit := fun c hc =>
    Nat.isDigit_of_mem_toDigits (by decide) (by decide) (hdigits ▸ hc)
  refine ⟨d, ds, by rw [Nat.toList_repr, hdigits], ?_, fun hmem => absurd (hall _ hmem) (by decide)⟩
  simpa [Char.isDigit, isAsciiDigit, Char.le_def] using hall d List.mem_cons_self

theorem guardDigit_digits (h : isAsciiDigit d) : guardDigit (d :: ds) = '_' :: d :: ds := by
  rw [guardDigit, if_pos h]

theorem capitalized_digits (h : isAsciiDigit d) : capitalized (d :: ds) = d :: ds := by
  rw [capitalized, Text.upper_of_isAsciiDigit h, List.singleton_append]

/-- Only a text that starts with a digit itself gets an upper-case form that does. -/
theorem eq_of_capitalized_digits {cs : List Char} (hd : isAsciiDigit d)
    (h : capitalized cs = d :: ds) : cs = d :: ds := by
  cases cs with
  | nil => exact h
  | cons c cs =>
      rw [capitalized] at h
      rcases Text.upper_eq_or c with heq | ⟨hne, hword⟩
      · rwa [heq, List.singleton_append] at h
      · obtain ⟨first, rest, hupper⟩ := List.exists_cons_of_ne_nil hne
        rw [hupper, List.cons_append] at h
        obtain ⟨rfl, -⟩ := List.cons.inj h
        have hfirst := hword first (hupper ▸ List.mem_cons_self)
        rw [Text.isWordNumber_eq_false_of_isAsciiDigit hd] at hfirst
        exact absurd hfirst Bool.false_ne_true

/-- A number makes words of a constant that has none. -/
theorem underscored_append (hd : isAsciiDigit d) (cs : List Char) :
    underscored cs ++ d :: ds = underscored (cs ++ d :: ds) := by
  rw [underscored, underscored, if_neg (List.append_ne_nil_of_right_ne_nil cs (List.cons_ne_nil d ds))]
  split
  · rename_i hnil
    rw [hnil, List.nil_append, guardDigit_digits hd]
    rfl
  · rename_i hne
    exact (guardDigit_append hne _).symm

end Digits

theorem exists_camelCase (done : List Char) (startsWord : Bool) (cs : List Char) :
    ∃ more, camelCase done startsWord cs = done ++ more := by
  induction cs generalizing done startsWord with
  | nil => exact ⟨[], (List.append_nil done).symm⟩
  | cons c cs ih =>
      rw [camelCase]
      split
      · exact ih _ _
      · obtain ⟨more, hmore⟩ := ih (done ++ if startsWord then Text.upper c else [c]) false
        exact ⟨_, by rw [hmore, List.append_assoc]⟩

/-- The words of a category that starts low start with the same character. -/
theorem exists_wordsOf_of_isLow {category : String} (h : category.toList.head?.any Text.isLow) :
    ∃ first more, Text.isLow first ∧ wordsOf category = first :: more := by
  rw [wordsOf]
  cases hcs : category.toList with
  | nil =>
      rw [hcs] at h
      exact absurd h Bool.false_ne_true
  | cons first rest =>
      rw [hcs, List.head?_cons, Option.any_some] at h
      have hword : isWordBreak first = false := by
        rw [Bool.eq_false_iff]
        intro hbreak
        simp only [isWordBreak, Bool.or_eq_true, decide_eq_true_eq] at hbreak
        rcases hbreak with ((rfl | rfl) | rfl) | rfl <;> exact absurd h (by decide)
      obtain ⟨more, hmore⟩ := exists_camelCase [first] false rest
      refine ⟨first, more, h, ?_⟩
      rw [camelCase, hword, if_neg Bool.false_ne_true, if_neg Bool.false_ne_true, List.nil_append,
        hmore, List.singleton_append]

theorem constantName_eq (category : String) :
    constantName category = String.ofList (underscored (wordsOf category)) := by
  rw [constantName, wordsOf, underscored]
  split
  · rename_i hnil
    rw [hnil, if_pos rfl]
  · rename_i hne
    rw [if_neg (fun hnil => hne hnil)]

theorem initialUpper_ofList {cs : List Char} (h : '_' ∉ cs) :
    initialUpper (String.ofList (underscored cs)) = capitalized cs := by
  rw [initialUpper, String.toList_ofList, dropWhile_underscored h]

theorem initialUpper_constantName (category : String) :
    initialUpper (constantName category) = capitalized (wordsOf category) := by
  rw [constantName_eq, initialUpper_ofList (underscore_notMem_wordsOf category)]

namespace ModuleName

variable {taken : List String} {c : String} {name : ModuleName}

/-- Endings are taken off a type only if it has some besides the one that all types have. -/
theorem typeStem_ofList {cs : List Char} (h : ¬ typeSuffix <:+ cs) :
    typeStem (String.ofList (cs ++ typeSuffix)) = String.ofList cs := by
  have hnone : Text.stripStart typeSuffix.reverse cs.reverse = none := by
    rcases hstrip : Text.stripStart typeSuffix.reverse cs.reverse with _ | rest
    · rfl
    · have heq := congrArg List.reverse (Text.eq_append_of_stripStart hstrip)
      rw [List.reverse_reverse, List.reverse_append, List.reverse_reverse] at heq
      exact absurd ⟨_, heq.symm⟩ h
  have hstop : ∀ n, dropSuffixes n cs.reverse = cs.reverse := by
    intro n
    cases n with
    | zero => rfl
    | succ n => rw [dropSuffixes, hnone]
  have hlength : (String.ofList (cs ++ typeSuffix)).length = cs.length + 5 + 1 := by
    rw [String.length_ofList, List.length_append]
    rfl
  rw [typeStem, hlength, String.toList_ofList, List.reverse_append, dropSuffixes,
    Text.stripStart_append]
  dsimp only
  rw [hstop, List.reverse_reverse]

theorem not_isSuffix_guardDigit {cs : List Char} (h : ¬ typeSuffix <:+ cs) :
    ¬ typeSuffix <:+ guardDigit cs := by
  cases cs with
  | nil => exact h
  | cons c cs =>
      rw [guardDigit]
      split
      · rw [List.suffix_cons_iff, not_or]
        refine ⟨fun heq => ?_, h⟩
        exact absurd (List.cons.inj heq).1 (by decide)
      · exact h

/-- A name whose natural type has an ending of its own, which is lost where a number is added. -/
def Shortened (name : ModuleName) : Prop :=
  name.constant ≠ constantName name.category ∧
    typeSuffix <:+ initialUpper (constantName name.category)

theorem natural_type_eq (category : String) :
    (natural category).type =
      String.ofList (guardDigit (capitalized (wordsOf category)) ++ typeSuffix) := by
  rw [← initialUpper_constantName]
  rfl

theorem numbered_type_eq {n : Nat} (h : ¬ typeSuffix <:+ capitalized (wordsOf c)) :
    ((natural c).numbered n).type =
      String.ofList (guardDigit (capitalized (wordsOf c)) ++ n.repr.toList ++ typeSuffix) := by
  rw [numbered, natural_type_eq, typeStem_ofList (not_isSuffix_guardDigit h), String.ofList_append,
    String.ofList_append, String.ofList_toList]
  rfl

theorem numbered_constant_eq {n : Nat} {d : Char} {ds : List Char} (hrepr : n.repr.toList = d :: ds)
    (hd : isAsciiDigit d) :
    ((natural c).numbered n).constant = String.ofList (underscored (wordsOf c ++ d :: ds)) := by
  rw [← underscored_append hd, String.ofList_append, ← hrepr, String.ofList_toList,
    ← constantName_eq]
  rfl

/-- What a name consists of: words, their constant and the part of the type before its ending. Only a
number without words has no underscore in front in its type. -/
structure Parts (name : ModuleName) (words stem : List Char) : Prop where
  begins : wordsOf name.category <+: words
  plain : '_' ∉ words
  constant : name.constant = String.ofList (underscored words)
  type : name.type = String.ofList (stem ++ typeSuffix)
  stem : stem = guardDigit (capitalized words) ∨
    stem = words ∧ ∃ d ds, words = d :: ds ∧ isAsciiDigit d

theorem Chosen.parts (h : Chosen taken c name) (hshort : ¬ Shortened name) :
    ∃ words stem, Parts name words stem := by
  cases h with
  | natural _ =>
      exact ⟨wordsOf c, _,
        { begins := List.prefix_rfl
          plain := underscore_notMem_wordsOf c
          constant := constantName_eq c
          type := natural_type_eq c
          stem := .inl rfl }⟩
  | numbered n hmem hn =>
      have hne : constantName c ++ n.repr ≠ constantName c := by
        intro heq
        exact hn.free (heq.symm ▸ hmem)
      have hsuffix : ¬ typeSuffix <:+ capitalized (wordsOf c) := fun hsuffix =>
        hshort ⟨hne, (initialUpper_constantName c).symm ▸ hsuffix⟩
      obtain ⟨d, ds, hrepr, hd, hplain⟩ := exists_digits n
      refine ⟨wordsOf c ++ d :: ds, guardDigit (capitalized (wordsOf c)) ++ d :: ds,
        { begins := List.prefix_append _ _, plain := ?_, constant := numbered_constant_eq hrepr hd
          type := by rw [numbered_type_eq hsuffix, hrepr], stem := ?_ }⟩
      · rw [List.mem_append, not_or]
        exact ⟨underscore_notMem_wordsOf c, hplain⟩
      · by_cases hwords : wordsOf c = []
        · rw [hwords]
          exact .inr ⟨rfl, d, ds, rfl, hd⟩
        · rw [capitalized_append hwords, guardDigit_append (capitalized_ne_nil hwords)]
          exact .inl rfl

namespace Parts

variable {other : ModuleName} {words words' stem stem' : List Char}

theorem initialUpper_eq (h : Parts name words stem) :
    initialUpper name.constant = capitalized words := by
  rw [h.constant, initialUpper_ofList h.plain]

theorem dropWhile_stem (h : Parts name words stem) :
    stem.dropWhile (· = '_') = capitalized words := by
  rcases h.stem with hstem | ⟨hstem, d, ds, hwords, hd⟩
  · rw [hstem, dropWhile_guardDigit (underscore_notMem_capitalized h.plain)]
  · rw [hstem, dropWhile_of_notMem h.plain, hwords, capitalized_digits hd]

theorem constant_inj (h : Parts name words stem) (h' : Parts other words' stem')
    (hwords : words = words') : name.constant = other.constant := by
  rw [h.constant, h'.constant, hwords]

/-- Two names with different constants have the same type if their constants differ only in the case
of the first letter, and in no other case. -/
theorem type_eq_iff (h : Parts name words stem) (h' : Parts other words' stem')
    (hne : name.constant ≠ other.constant) :
    name.type = other.type ↔ initialUpper name.constant = initialUpper other.constant := by
  have htypes : name.type = other.type ↔ stem = stem' := by
    rw [h.type, h'.type, String.ofList_inj, List.append_cancel_right_eq]
  rw [htypes, h.initialUpper_eq, h'.initialUpper_eq]
  constructor
  · intro heq
    rw [← h.dropWhile_stem, ← h'.dropWhile_stem, heq]
  · intro heq
    -- A number without words has its constant to itself.
    rcases h.stem with hstem | ⟨-, d, ds, hwords, hd⟩
    · rcases h'.stem with hstem' | ⟨-, d, ds, hwords, hd⟩
      · rw [hstem, hstem', heq]
      · rw [hwords, capitalized_digits hd] at heq
        exact absurd (h.constant_inj h' ((eq_of_capitalized_digits hd heq).trans hwords.symm)) hne
    · rw [hwords, capitalized_digits hd] at heq
      exact absurd (h.constant_inj h' (hwords.trans (eq_of_capitalized_digits hd heq.symm).symm)) hne

end Parts

section Lists

variable {categories : List String} {a b : ModuleName}

theorem exists_chosen (h : name ∈ ofCategories categories) :
    ∃ taken, Chosen taken name.category name := by
  obtain ⟨before, later, hsplit⟩ := List.append_of_mem h
  exact ⟨_, chosen_of_ofCategories hsplit⟩

theorem eq_of_constant_eq (ha : a ∈ ofCategories categories) (hb : b ∈ ofCategories categories)
    (h : a.constant = b.constant) : a = b :=
  List.inj_on_of_nodup_map (nodup_constants categories) ha hb h

theorem type_eq_iff_of_mem (ha : a ∈ ofCategories categories) (hb : b ∈ ofCategories categories)
    (hshort : ¬ Shortened a) (hshort' : ¬ Shortened b) :
    a.type = b.type ↔ initialUpper a.constant = initialUpper b.constant := by
  obtain ⟨_, hchosen⟩ := exists_chosen ha
  obtain ⟨_, hchosen'⟩ := exists_chosen hb
  obtain ⟨_, _, hparts⟩ := hchosen.parts hshort
  obtain ⟨_, _, hparts'⟩ := hchosen'.parts hshort'
  by_cases hconstant : a.constant = b.constant
  · obtain rfl := eq_of_constant_eq ha hb hconstant
    exact iff_of_true rfl rfl
  · exact hparts.type_eq_iff hparts' hconstant

theorem nodup_types_iff (h : ∀ name ∈ ofCategories categories, ¬ Shortened name) :
    ((ofCategories categories).map type).Nodup ↔
      ((ofCategories categories).map fun name => initialUpper name.constant).Nodup := by
  rw [List.nodup_map_iff_inj_on (nodup_ofCategories categories),
    List.nodup_map_iff_inj_on (nodup_ofCategories categories)]
  constructor
  · intro hinj a ha b hb heq
    exact hinj a ha b hb ((type_eq_iff_of_mem ha hb (h a ha) (h b hb)).mpr heq)
  · intro hinj a ha b hb heq
    exact hinj a ha b hb ((type_eq_iff_of_mem ha hb (h a ha) (h b hb)).mp heq)

theorem not_shortened_of_mem (h : ∀ c ∈ categories, ¬ typeSuffix <:+ initialUpper (constantName c)) :
    ∀ name ∈ ofCategories categories, ¬ Shortened name := by
  intro name hname hshort
  exact h _ (category_mem_of_mem hname) hshort.2

/-- Categories that start low have constants that stay distinct with an upper-case start. -/
theorem nodup_types_of_isLow (hlow : ∀ c ∈ categories, c.toList.head?.any Text.isLow)
    (h : ∀ c ∈ categories, ¬ typeSuffix <:+ initialUpper (constantName c)) :
    ((ofCategories categories).map type).Nodup := by
  have hshort := not_shortened_of_mem h
  -- The words of a name start as its category does, and there upper case loses nothing.
  have hstart : ∀ name ∈ ofCategories categories, ∃ first more stem, Text.isLow first ∧
      Parts name (first :: more) stem := by
    intro name hname
    obtain ⟨_, hchosen⟩ := exists_chosen hname
    obtain ⟨words, stem, hparts⟩ := hchosen.parts (hshort name hname)
    obtain ⟨first, more, hfirst, hwords⟩ :=
      exists_wordsOf_of_isLow (hlow _ (category_mem_of_mem hname))
    obtain ⟨rest, rfl⟩ := hparts.begins
    rw [hwords, List.cons_append] at hparts
    exact ⟨first, more ++ rest, stem, hfirst, hparts⟩
  rw [nodup_types_iff hshort, List.nodup_map_iff_inj_on (nodup_ofCategories categories)]
  intro a ha b hb heq
  obtain ⟨first, more, _, hfirst, hparts⟩ := hstart a ha
  obtain ⟨first', more', _, hfirst', hparts'⟩ := hstart b hb
  rw [hparts.initialUpper_eq, hparts'.initialUpper_eq, capitalized, capitalized] at heq
  obtain ⟨d, hd, -⟩ := Text.upper_of_isLow hfirst
  obtain ⟨d', hd', -⟩ := Text.upper_of_isLow hfirst'
  rw [hd, hd', List.singleton_append, List.singleton_append] at heq
  obtain ⟨rfl, rfl⟩ := List.cons.inj heq
  obtain rfl := Text.upper_injective_of_isLow hfirst hfirst' (hd.trans hd'.symm)
  exact eq_of_constant_eq ha hb (hparts.constant_inj hparts' rfl)

end Lists

/-- Names have the same type where their constants differ only in the case of the first letter, and
in no other case as long as no number is put in the place of an ending. So the types are distinct if
all categories start low and none brings an ending of its own. -/
theorem types_distinct (categories : List String) :
    (∀ a ∈ ofCategories categories, ∀ b ∈ ofCategories categories,
      ¬ Shortened a → ¬ Shortened b →
      (a.type = b.type ↔ initialUpper a.constant = initialUpper b.constant)) ∧
    ((∀ name ∈ ofCategories categories, ¬ Shortened name) →
      (((ofCategories categories).map type).Nodup ↔
        ((ofCategories categories).map fun name => initialUpper name.constant).Nodup)) ∧
    ((∀ c ∈ categories, c.toList.head?.any Text.isLow) →
      (∀ c ∈ categories, ¬ typeSuffix <:+ initialUpper (constantName c)) →
      ((ofCategories categories).map type).Nodup) :=
  ⟨fun _ ha _ hb => type_eq_iff_of_mem ha hb, nodup_types_iff, nodup_types_of_isLow⟩

theorem types_distinct_fonts :
    ((∀ c ∈ ["color", "font-size", "fontSize"], c.toList.head?.any Text.isLow) ∧
      ∀ c ∈ ["color", "font-size", "fontSize"], ¬ typeSuffix <:+ initialUpper (constantName c)) ∧
    ((ofCategories ["color", "font-size", "fontSize"]).map type).Nodup ∧
    (ofCategories ["color", "font-size", "fontSize"]).map type =
      ["ColorTokens", "FontSizeTokens", "FontSize2Tokens"] := by
  have hlow : ∀ c ∈ ["color", "font-size", "fontSize"], c.toList.head?.any Text.isLow := by
    decide +kernel
  have hending : ∀ c ∈ ["color", "font-size", "fontSize"],
      ¬ typeSuffix <:+ initialUpper (constantName c) := by
    decide +kernel
  obtain ⟨-, -, hnodup⟩ := types_distinct ["color", "font-size", "fontSize"]
  exact ⟨⟨hlow, hending⟩, hnodup hlow hending, by decide +kernel⟩

/-- Two categories with constants of their own share a type, and the index exports it twice. -/
theorem types_coincide :
    ["Color", "color"].Nodup ∧
    ofCategories ["Color", "color"] =
      [⟨"Color", "Color", "ColorTokens"⟩, ⟨"color", "color", "ColorTokens"⟩] ∧
    ¬ ((ofCategories ["Color", "color"]).map type).Nodup ∧
    renderIndex (ofCategories ["Color", "color"]) =
      "export \x7b Color \x7d from './Color';\nexport \x7b color \x7d from './color';\n\n" ++
      "export type \x7b ColorTokens \x7d from './Color';\n" ++
      "export type \x7b ColorTokens \x7d from './color';\n" := by
  decide +kernel

/-- A number that is put in the place of an ending can meet the number of another category. -/
example : (ofCategories ["foo", "foo-", "fooTokens", "foo-tokens"]).map type =
    ["FooTokens", "Foo2Tokens", "FooTokensTokens", "Foo2Tokens"] := by
  decide +kernel

end ModuleName

end DesignTokens
