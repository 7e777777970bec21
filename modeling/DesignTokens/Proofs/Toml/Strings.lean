import DesignTokens.Proofs.Placeholder.Pieces
import DesignTokens.Toml.Printer
import DesignTokens.Toml.Reader

/-!
Quoted strings of TOML documents are read back. Each way of quoting can hold the strings that it is
taken for, and what it escapes or leaves as it is means the same to the reader.
-/

namespace DesignTokens.Toml

variable {cs ds rest : List Char} {c : Char} {steps : Nat}

/-- A text that does not go on with a quote. -/
def Unquoted (rest : List Char) : Prop :=
  rest.head? ≠ some '"' ∧ rest.head? ≠ some '\''

section Characters

theorem isPlain_of_not_isControl (h : isControl c = false) (hbreak : c ≠ '\n') :
    isPlain c = true := by
  rw [isControl, Bool.or_eq_false_iff, decide_eq_false_iff_not] at h
  obtain ⟨hlow, hdelete⟩ := h
  rw [isPlain, Bool.or_eq_true, Bool.and_eq_true, decide_eq_true_iff, decide_eq_true_iff,
    decide_eq_true_iff]
  by_cases htab : c = '\t'
  · exact .inl htab
  · refine .inr ⟨?_, hdelete⟩
    by_contra hcode
    simp [htab, hbreak, Nat.lt_of_not_le hcode] at hlow

/-- A control character is escaped by the four hexadecimal digits of its number. -/
theorem hexValue_hexPadded : ∀ n < 0x80,
    ((Text.hexPadded 4 n).toList.map Char.toUpper).length = 4 ∧
      hexValue 0 ((Text.hexPadded 4 n).toList.map Char.toUpper) = some n := by
  decide +kernel

theorem escape_hexPadded (h : c.toNat < 0x80) (rest : List Char) :
    escape ('u' :: (Text.hexPadded 4 c.toNat).toList.map Char.toUpper ++ rest) =
      some (c, rest) := by
  obtain ⟨hlength, hvalue⟩ := hexValue_hexPadded c.toNat h
  have hlong : ¬ ((Text.hexPadded 4 c.toNat).toList.map Char.toUpper ++ rest).length < 4 := by
    rw [List.length_append]
    omega
  rw [List.cons_append, escape, if_neg hlong, List.take_left' hlength, List.drop_left' hlength,
    hvalue, Option.bind_some, charOf?, if_pos (.inl (by omega)), Char.ofNat_toNat]
  rfl

/-- How a character is spelled that is no quote: as itself, or by a backslash and a letter that the
reader knows. -/
theorem escapeChar_cases (keepBreaks : Bool) (c : Char) :
    (escapeChar keepBreaks c = [c] ∧ c ≠ '\\' ∧ c ≠ '\r' ∧
      (keepBreaks = true ∧ c = '\n' ∨ isPlain c = true)) ∨
    ∃ letter more, escapeChar keepBreaks c = '\\' :: letter :: more ∧
      letter ∉ [' ', '\t', '\n', '\r'] ∧
      ∀ rest, escape (letter :: more ++ rest) = some (c, rest) := by
  rw [escapeChar]
  iterate 2
    split
    · subst c
      exact .inr ⟨_, _, rfl, by decide, fun _ => rfl⟩
  split
  · subst c
    cases keepBreaks with
    | true => exact .inl ⟨rfl, by decide, by decide, .inl ⟨rfl, rfl⟩⟩
    | false => exact .inr ⟨_, _, rfl, by decide, fun _ => rfl⟩
  iterate 3
    split
    · subst c
      exact .inr ⟨_, _, rfl, by decide, fun _ => rfl⟩
  rename_i hbreak _ hreturn hslash
  split
  · rename_i hcontrol
    have hcode : c.toNat < 0x80 := by
      simp only [isControl, Bool.or_eq_true, Bool.and_eq_true, decide_eq_true_iff] at hcontrol
      omega
    rw [List.cons_append, List.cons_append, List.nil_append]
    exact .inr ⟨'u', _, rfl, by decide, escape_hexPadded hcode⟩
  · rename_i hcontrol
    exact .inl ⟨rfl, hslash, hreturn,
      .inr (isPlain_of_not_isControl (Bool.eq_false_iff.mpr hcontrol) hbreak)⟩

end Characters

/-- An escaped text is at least as long as the text itself. -/
theorem length_le_escapeFrom (keepBreaks : Bool) (allowed run : Nat) (cs : List Char) :
    cs.length ≤ (escapeFrom keepBreaks allowed run cs).length := by
  induction cs generalizing run with
  | nil => exact Nat.zero_le _
  | cons c cs ih =>
    rw [escapeFrom]
    split
    · split
      · simpa using ih (run + 1)
      · simpa using Nat.le_succ_of_le (ih 0)
    · have hone : 1 ≤ (escapeChar keepBreaks c).length := by
        obtain ⟨h, -⟩ | ⟨letter, more, h, -⟩ := escapeChar_cases keepBreaks c <;> simp [h]
      have := ih 0
      simp only [List.length_cons, List.length_append]
      omega

section Basic

theorem basicBody_escape (h : escape cs = some (c, rest)) :
    basicBody (steps + 1) ('\\' :: cs) = consRead c (basicBody steps rest) := by
  rw [basicBody, h, Option.bind_some]

theorem basicBody_plain (hquote : c ≠ '"') (hslash : c ≠ '\\') (h : isPlain c = true) :
    basicBody (steps + 1) (c :: rest) = consRead c (basicBody steps rest) := by
  rw [basicBody.eq_4 _ _ _ hquote hslash, if_pos h]

/-- A text in double quotes: whatever is in it, it is read back. -/
theorem basicBody_escapeFrom (hsteps : cs.length < steps) :
    basicBody steps (escapeFrom false 0 0 cs ++ '"' :: rest) = some (cs, rest) := by
  induction cs generalizing steps with
  | nil =>
    obtain ⟨steps, rfl⟩ := Nat.exists_eq_succ_of_ne_zero (Nat.ne_of_gt hsteps)
    rfl
  | cons c cs ih =>
    obtain ⟨steps, rfl⟩ := Nat.exists_eq_succ_of_ne_zero (Nat.ne_zero_of_lt hsteps)
    have hread : consRead c (basicBody steps (escapeFrom false 0 0 cs ++ '"' :: rest)) =
        some (c :: cs, rest) := by
      rw [ih (Nat.lt_of_succ_lt_succ hsteps)]
      rfl
    rw [escapeFrom]
    split
    · subst c
      exact (basicBody_escape rfl).trans hread
    · rename_i hquote
      obtain ⟨hsame, hslash, -, hplain⟩ | ⟨letter, more, hescape, -, hback⟩ :=
        escapeChar_cases false c
      · rw [hsame]
        exact (basicBody_plain hquote hslash (by simpa using hplain)).trans hread
      · rw [hescape, List.append_assoc]
        exact (basicBody_escape (hback _)).trans hread

end Basic

section Literal

/-- A text in single quotes, which has to be without them and without controls. -/
theorem literalBody_append (hplain : ∀ c ∈ cs, c ≠ '\'' ∧ isPlain c = true) :
    literalBody (cs ++ '\'' :: rest) = some (cs, rest) := by
  induction cs with
  | nil => rfl
  | cons c cs ih =>
    obtain ⟨⟨hquote, hc⟩, hcs⟩ := List.forall_mem_cons.mp hplain
    rw [List.cons_append, literalBody.eq_3 _ _ hquote, if_pos hc, ih hcs]
    rfl

end Literal

section LongBasic

theorem longBasicBody_escape {letter : Char} (hletter : letter ∉ [' ', '\t', '\n', '\r'])
    (h : escape (letter :: cs) = some (c, rest)) :
    longBasicBody (steps + 1) ('\\' :: letter :: cs) = consRead c (longBasicBody steps rest) := by
  simp only [List.mem_cons, List.not_mem_nil, not_or, or_false] at hletter
  obtain ⟨hspace, htab, hbreak, hreturn⟩ := hletter
  have hline : breaksLine (letter :: cs) = false := by
    simp [breaksLine, skipSpace, isSpace, hspace, htab, hbreak, hreturn]
  rw [longBasicBody, hline, h]
  rfl

theorem longBasicBody_plain (hquotes : c = '"' → ∀ ds, cs ≠ '"' :: '"' :: ds) (hslash : c ≠ '\\')
    (hreturn : c ≠ '\r') (h : c = '\n' ∨ isPlain c = true) :
    longBasicBody (steps + 1) (c :: cs) = consRead c (longBasicBody steps cs) := by
  rw [longBasicBody.eq_7 _ _ _ (fun _ hc hcs => hquotes hc _ hcs)
    (fun _ hc hcs => hquotes hc _ hcs) (fun _ hc hcs => hquotes hc _ hcs) hslash
    (fun _ hc _ => hreturn hc), if_pos (by simpa using h)]

/-- Fewer than three quotes do not close a text. -/
theorem longBasicBody_quotes {run : Nat} (hrun : run ≤ 2) (hcs : cs.head? ≠ some '"')
    (h : longBasicBody steps cs = some (ds, rest)) :
    longBasicBody (steps + run) (List.replicate run '"' ++ cs) =
      some (List.replicate run '"' ++ ds, rest) := by
  have hone : ∀ (n : Nat) (es : List Char), (∀ fs, es ≠ '"' :: '"' :: fs) →
      longBasicBody (n + 1) ('"' :: es) = consRead '"' (longBasicBody n es) := fun n es hes =>
    longBasicBody_plain (fun _ => hes) (by decide) (by decide) (.inr (by decide))
  have hhead : ∀ fs, cs ≠ '"' :: fs := by
    rintro fs rfl
    exact hcs rfl
  match run, hrun with
  | 0, _ => exact h
  | 1, _ =>
    refine (hone steps cs fun fs => hhead _).trans ?_
    rw [h]
    rfl
  | 2, _ =>
    refine (hone (steps + 1) ('"' :: cs) fun fs hfs => hhead fs (List.cons.inj hfs).2).trans ?_
    rw [hone steps cs fun fs => hhead _, h]
    rfl

/-- Up to two quotes in front of the closing ones belong to the text. -/
theorem longBasicBody_close {run : Nat} (hrun : run ≤ 2) (hrest : rest.head? ≠ some '"') :
    longBasicBody (steps + 1) (List.replicate run '"' ++ '"' :: '"' :: '"' :: rest) =
      some (List.replicate run '"', rest) := by
  have hhead : ∀ fs, rest ≠ '"' :: fs := by
    rintro fs rfl
    exact hrest rfl
  match run, hrun with
  | 0, _ => exact longBasicBody.eq_4 _ _ (fun _ => hhead _) (fun _ => hhead _)
  | 1, _ => exact longBasicBody.eq_3 _ _ (fun _ => hhead _)
  | 2, _ => exact longBasicBody.eq_2 _ _

/-- A text in three double quotes, behind up to two quotes that are still to be read. -/
theorem longBasicBody_escapeFrom {run : Nat} (hrun : run ≤ 2) (hrest : rest.head? ≠ some '"')
    (hsteps : cs.length < steps) :
    longBasicBody (steps + run)
        (List.replicate run '"' ++ (escapeFrom true 2 run cs ++ '"' :: '"' :: '"' :: rest)) =
      some (List.replicate run '"' ++ cs, rest) := by
  induction cs generalizing steps run with
  | nil =>
    obtain ⟨more, rfl⟩ := Nat.exists_eq_add_of_lt hsteps
    rw [show [].length + more + 1 + run = more + run + 1 by simp; omega]
    simpa [escapeFrom] using longBasicBody_close hrun hrest
  | cons c cs ih =>
    obtain ⟨steps, rfl⟩ := Nat.exists_eq_succ_of_ne_zero (Nat.ne_zero_of_lt hsteps)
    replace hsteps : cs.length < steps := Nat.lt_of_succ_lt_succ hsteps
    have hread : consRead c (longBasicBody steps
        (escapeFrom true 2 0 cs ++ '"' :: '"' :: '"' :: rest)) = some (c :: cs, rest) := by
      have := ih (Nat.zero_le 2) hsteps
      simp only [Nat.add_zero, List.replicate_zero, List.nil_append] at this
      rw [this]
      rfl
    rw [escapeFrom]
    split
    · subst c
      split
      · -- the quote joins those in front of it
        have hrun : run + 1 ≤ 2 := by omega
        have := ih hrun hsteps
        rw [List.replicate_succ', List.append_assoc, List.append_assoc] at this
        rw [show steps + 1 + run = steps + (run + 1) by omega]
        exact this
      · refine longBasicBody_quotes hrun (by simp) ?_
        exact (longBasicBody_escape (by decide) rfl).trans hread
    · rename_i hquote
      obtain ⟨hsame, hslash, hreturn, hplain⟩ | ⟨letter, more, hescape, hletter, hback⟩ :=
        escapeChar_cases true c
      · rw [hsame]
        refine longBasicBody_quotes hrun (by simpa using hquote) ?_
        exact (longBasicBody_plain (fun h => absurd h hquote) hslash hreturn
          (by simpa using hplain)).trans hread
      · rw [hescape, List.append_assoc]
        refine longBasicBody_quotes hrun (by simp) ?_
        exact (longBasicBody_escape hletter (hback _)).trans hread

end LongBasic

section LongLiteral

theorem longLiteralBody_plain (hquotes : c = '\'' → ∀ ds, cs ≠ '\'' :: '\'' :: ds)
    (hreturn : c ≠ '\r') (h : c = '\n' ∨ isPlain c = true) :
    longLiteralBody (c :: cs) = consRead c (longLiteralBody cs) := by
  rw [longLiteralBody.eq_5 _ _ (fun _ hc hcs => hquotes hc _ hcs)
    (fun _ hc hcs => hquotes hc _ hcs) (fun _ hc hcs => hquotes hc _ hcs)
    (fun _ hc _ => hreturn hc), if_pos (by simpa using h)]

/-- A text in three single quotes, which has to be without three of them in a row. -/
theorem longLiteralBody_append (hcontrol : ∀ c ∈ cs, isControl c = false)
    (hquotes : ¬ ['\'', '\'', '\''] <:+: cs) (hrest : rest.head? ≠ some '\'') :
    longLiteralBody (cs ++ '\'' :: '\'' :: '\'' :: rest) = some (cs, rest) := by
  have hhead : ∀ fs, rest ≠ '\'' :: fs := by
    rintro fs rfl
    exact hrest rfl
  induction cs with
  | nil => exact longLiteralBody.eq_3 _ (fun _ => hhead _) (fun _ => hhead _)
  | cons c cs ih =>
    obtain ⟨hc, hcs⟩ := List.forall_mem_cons.mp hcontrol
    have hread : consRead c (longLiteralBody (cs ++ '\'' :: '\'' :: '\'' :: rest)) =
        some (c :: cs, rest) := by
      rw [ih hcs fun h => hquotes (List.infix_cons h)]
      rfl
    have hreturn : c ≠ '\r' := by
      rintro rfl
      exact absurd hc (by decide)
    have hplain : c = '\n' ∨ isPlain c = true := by
      by_cases hbreak : c = '\n'
      · exact .inl hbreak
      · exact .inr (isPlain_of_not_isControl hc hbreak)
    by_cases hquote : c = '\''
    · subst c
      by_cases hnone : cs = []
      · subst hnone
        exact longLiteralBody.eq_2 _ (fun _ => hhead _)
      by_cases hone : cs = ['\'']
      · subst hone
        exact longLiteralBody.eq_1 _
      refine (longLiteralBody_plain (fun _ fs hfs => ?_) hreturn hplain).trans hread
      match cs with
      | [] => exact hnone rfl
      | [d] => exact hone (congrArg (fun d => [d]) (List.cons.inj hfs).1)
      | d :: e :: more =>
        obtain ⟨rfl, htail⟩ := List.cons.inj hfs
        obtain ⟨rfl, -⟩ := List.cons.inj htail
        exact hquotes ⟨[], more, rfl⟩
    · exact (longLiteralBody_plain (fun h => absurd h hquote) hreturn hplain).trans hread

end LongLiteral

section Quoting

theorem plain_of_quotingOf_literal (h : quotingOf cs = .literal) :
    ∀ c ∈ cs, c ≠ '\'' ∧ isPlain c = true := by
  simp only [quotingOf] at h
  split at h
  · simp at h
  split at h
  · rename_i hliteral
    simp only [Bool.and_eq_true, Bool.not_eq_true', List.any_eq_false, List.contains_eq_mem,
      decide_eq_false_iff_not] at hliteral
    obtain ⟨⟨hcontrol, hbreak⟩, hquote⟩ := hliteral
    intro c hc
    exact ⟨fun heq => hquote (heq ▸ hc),
      isPlain_of_not_isControl (by simpa using hcontrol c hc) fun heq => hbreak (heq ▸ hc)⟩
  · split at h
    · simp at h
    · split at h
      · simp at h
      · split at h <;> simp at h

theorem free_of_quotingOf_longLiteral (h : quotingOf cs = .longLiteral) :
    (∀ c ∈ cs, isControl c = false) ∧ ¬ ['\'', '\'', '\''] <:+: cs := by
  simp only [quotingOf] at h
  iterate 3
    split at h
    · simp at h
  split at h
  · rename_i hfree
    simp only [Bool.and_eq_true, Bool.not_eq_true', List.any_eq_false, Bool.not_eq_true] at hfree
    refine ⟨hfree.1, fun hinfix => ?_⟩
    rw [Text.occurs_iff_infix.mpr hinfix] at hfree
    exact absurd hfree.2 (by decide)
  · split at h <;> simp at h

/-- No break is dropped in front of a text that has none. -/
theorem dropBreak_break_append (text : List Char) (h : cs.contains '\n' = false →
    ∀ c ∈ text.head?, c ≠ '\n' ∧ c ≠ '\r') :
    dropBreak ((if cs.contains '\n' then ['\n'] else []) ++ text) = text := by
  cases hbreak : cs.contains '\n' with
  | true => rfl
  | false =>
    rw [if_neg (by decide), List.nil_append]
    unfold dropBreak
    split
    · exact absurd rfl (h hbreak '\n' rfl).1
    · exact absurd rfl (h hbreak '\r' rfl).2
    · rfl

/-- An escaped text does not start with a break, unless the text itself has one. -/
theorem head_escapeFrom (hbreak : cs.contains '\n' = false) :
    ∀ c ∈ (escapeFrom true 2 0 cs ++ '"' :: rest).head?, c ≠ '\n' ∧ c ≠ '\r' := by
  cases cs with
  | nil => simp [escapeFrom]
  | cons d ds =>
    rw [escapeFrom]
    split
    · simp
    · obtain ⟨hsame, -, hreturn, -⟩ | ⟨letter, more, hescape, -⟩ := escapeChar_cases true d
      · have : d ≠ '\n' := by
          rintro rfl
          simp at hbreak
        simpa [hsame, hreturn] using this
      · simp [hescape]

theorem string_of_quote (h : ∀ ds, cs ≠ '"' :: '"' :: ds) :
    string ('"' :: cs) =
      (basicBody (cs.length + 2) cs).map fun (text, rest) => (String.ofList text, rest) := by
  unfold string
  split
  · rename_i heq
    exact absurd (List.cons.inj heq).2 (h _)
  · rename_i heq
    rw [(List.cons.inj heq).2]
    rfl
  all_goals simp_all

theorem string_of_apostrophe (h : ∀ ds, cs ≠ '\'' :: '\'' :: ds) :
    string ('\'' :: cs) =
      (literalBody cs).map fun (text, rest) => (String.ofList text, rest) := by
  unfold string
  split
  · simp_all
  · simp_all
  · rename_i heq
    exact absurd (List.cons.inj heq).2 (h _)
  · rename_i heq
    rw [(List.cons.inj heq).2]
  · simp_all

theorem string_of_quotes (cs : List Char) :
    string ('"' :: '"' :: '"' :: cs) =
      (longBasicBody (cs.length + 4) (dropBreak cs)).map
        fun (text, rest) => (String.ofList text, rest) :=
  rfl

theorem string_of_apostrophes (cs : List Char) :
    string ('\'' :: '\'' :: '\'' :: cs) =
      (longLiteralBody (dropBreak cs)).map fun (text, rest) => (String.ofList text, rest) :=
  rfl

theorem string_basic (hrest : rest.head? ≠ some '"') :
    string ('"' :: (escapeFrom false 0 0 cs ++ '"' :: rest)) = some (String.ofList cs, rest) := by
  have hhead : ∀ ds, escapeFrom false 0 0 cs ++ '"' :: rest ≠ '"' :: '"' :: ds := by
    rintro ds heq
    cases cs with
    | nil => simp [(List.cons.inj heq).2] at hrest
    | cons c cs =>
      rw [escapeFrom] at heq
      split at heq
      · simp at heq
      · rename_i hquote
        obtain ⟨hsame, -⟩ | ⟨letter, more, hescape, -⟩ := escapeChar_cases false c
        · simp [hsame, hquote] at heq
        · simp [hescape] at heq
  have hlength : cs.length < (escapeFrom false 0 0 cs ++ '"' :: rest).length + 2 := by
    have := length_le_escapeFrom false 0 0 cs
    rw [List.length_append]
    omega
  rw [string_of_quote hhead, basicBody_escapeFrom hlength]
  rfl

theorem string_literal (hcs : ∀ c ∈ cs, c ≠ '\'' ∧ isPlain c = true)
    (hrest : rest.head? ≠ some '\'') :
    string ('\'' :: (cs ++ '\'' :: rest)) = some (String.ofList cs, rest) := by
  have hhead : ∀ ds, cs ++ '\'' :: rest ≠ '\'' :: '\'' :: ds := by
    rintro ds heq
    cases cs with
    | nil => simp [(List.cons.inj heq).2] at hrest
    | cons c cs => exact (List.forall_mem_cons.mp hcs).1.1 (List.cons.inj heq).1
  rw [string_of_apostrophe hhead, literalBody_append hcs]
  rfl

theorem string_longBasic (hrest : rest.head? ≠ some '"') :
    string ('"' :: '"' :: '"' :: (Quoting.longBasic.body cs ++ '"' :: '"' :: '"' :: rest)) =
      some (String.ofList cs, rest) := by
  have hlength :
      cs.length < (Quoting.longBasic.body cs ++ '"' :: '"' :: '"' :: rest).length + 4 := by
    have := length_le_escapeFrom true 2 0 cs
    simp only [Quoting.body, List.length_append]
    omega
  have hread := longBasicBody_escapeFrom (Nat.zero_le 2) hrest hlength
  rw [List.replicate_zero, List.nil_append, List.nil_append] at hread
  have hdrop : dropBreak (Quoting.longBasic.body cs ++ '"' :: '"' :: '"' :: rest) =
      escapeFrom true 2 0 cs ++ '"' :: '"' :: '"' :: rest := by
    rw [Quoting.body, List.append_assoc]
    exact dropBreak_break_append _ head_escapeFrom
  exact (string_of_quotes _).trans (by rw [hdrop, hread]; rfl)

theorem string_longLiteral (hcontrol : ∀ c ∈ cs, isControl c = false)
    (hquotes : ¬ ['\'', '\'', '\''] <:+: cs) (hrest : rest.head? ≠ some '\'') :
    string ('\'' :: '\'' :: '\'' :: (Quoting.longLiteral.body cs ++ '\'' :: '\'' :: '\'' :: rest)) =
      some (String.ofList cs, rest) := by
  have hhead : cs.contains '\n' = false →
      ∀ c ∈ (cs ++ '\'' :: '\'' :: '\'' :: rest).head?, c ≠ '\n' ∧ c ≠ '\r' := by
    intro hbreak c hc
    cases cs with
    | nil =>
      obtain rfl : '\'' = c := Option.some.inj hc
      exact ⟨by decide, by decide⟩
    | cons d ds =>
      obtain rfl : d = c := Option.some.inj hc
      refine ⟨?_, ?_⟩
      · rintro rfl
        simp at hbreak
      · rintro rfl
        exact absurd (hcontrol _ List.mem_cons_self) (by decide)
  have hread := longLiteralBody_append hcontrol hquotes hrest
  have hdrop : dropBreak (Quoting.longLiteral.body cs ++ '\'' :: '\'' :: '\'' :: rest) =
      cs ++ '\'' :: '\'' :: '\'' :: rest := by
    rw [Quoting.body, List.append_assoc]
    exact dropBreak_break_append _ hhead
  exact (string_of_apostrophes _).trans (by rw [hdrop, hread]; rfl)

/-- Each way of quoting brings a string back that it is taken for. -/
theorem string_body (cs : List Char) (hrest : Unquoted rest) :
    string ((quotingOf cs).delimiter.toList ++ ((quotingOf cs).body cs ++
      ((quotingOf cs).delimiter.toList ++ rest))) = some (String.ofList cs, rest) := by
  cases hquoting : quotingOf cs with
  | basic => exact string_basic hrest.1
  | literal => exact string_literal (plain_of_quotingOf_literal hquoting) hrest.2
  | longBasic => exact string_longBasic hrest.1
  | longLiteral =>
    obtain ⟨hcontrol, hquotes⟩ := free_of_quotingOf_longLiteral hquoting
    exact string_longLiteral hcontrol hquotes hrest.2

/-- A quoted string is read back, and what follows it is left. -/
theorem string_quote (s : String) (hrest : Unquoted rest) :
    string ((quote s).toList ++ rest) = some (s, rest) := by
  have := string_body s.toList hrest
  simpa [quote, List.append_assoc] using this

end Quoting

end DesignTokens.Toml
