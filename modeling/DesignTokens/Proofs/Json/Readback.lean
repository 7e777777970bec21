import DesignTokens.Proofs.Json.Characters
import DesignTokens.Proofs.Json.Numbers
import Mathlib.Algebra.Group.Int.Defs
import Mathlib.Algebra.Group.Nat.Defs

/-!
What the reader makes of the texts that the printer writes: quoted strings, integers of 64 bits, and
objects with one member per line.
-/

namespace DesignTokens

namespace Text

theorem digit?_of_isDigit {c : Char} (h : c.isDigit = true) :
    digit? c = some (c.toNat - '0'.toNat) := by
  rw [Char.isDigit, Bool.and_eq_true, decide_eq_true_iff, decide_eq_true_iff] at h
  rw [digit?, if_pos ⟨h.1, h.2⟩]

end Text

namespace Json

section Strings

theorem byteLength_ge (cs : List Char) : cs.length ≤ byteLength cs := by
  induction cs with
  | nil => exact Nat.le_refl 0
  | cons c cs ih =>
      have hpos := c.utf8Size_pos
      rw [byteLength, List.length_cons]
      omega

theorem hexUnit_cons {a b c d : Char} {m n k l : Nat} (ha : Text.hexDigit? a = some m)
    (hb : Text.hexDigit? b = some n) (hc : Text.hexDigit? c = some k)
    (hd : Text.hexDigit? d = some l) (rest : List Char) :
    hexUnit (a :: b :: c :: d :: rest) = .ok (((m * 16 + n) * 16 + k) * 16 + l, rest) := by
  have hlong : ¬ byteLength (a :: b :: c :: d :: rest) < 4 := by
    have hlength := byteLength_ge (a :: b :: c :: d :: rest)
    rw [List.length_cons, List.length_cons, List.length_cons, List.length_cons] at hlength
    omega
  rw [hexUnit.eq_def, if_neg hlong]
  simp only [ha, hb, hc, hd]

/-- A control character is escaped by the four hexadecimal digits of its number. -/
theorem hexPadded_control : ∀ n < 0x20,
    (Text.hexPadded 4 n).toList = ['0', '0', Nat.digitChar (n / 16), Nat.digitChar (n % 16)] ∧
      Text.hexDigit? (Nat.digitChar (n / 16)) = some (n / 16) ∧
      Text.hexDigit? (Nat.digitChar (n % 16)) = some (n % 16) := by
  decide +kernel

theorem hexUnit_hexPadded {n : Nat} (hn : n < 0x20) (rest : List Char) :
    hexUnit ((Text.hexPadded 4 n).toList ++ rest) = .ok (n, rest) := by
  obtain ⟨htext, hhigh, hlow⟩ := hexPadded_control n hn
  have hsum : ((0 * 16 + 0) * 16 + n / 16) * 16 + n % 16 = n := by omega
  have hzero : Text.hexDigit? (Nat.digitChar 0) = some 0 := rfl
  have hread := hexUnit_cons hzero hzero hhigh hlow rest
  rw [hsum] at hread
  rw [htext]
  exact hread

theorem stringBody_backslash {cs rest : List Char} {c : Char} (h : escape cs = .ok (c, rest)) :
    stringBody ('\\' :: cs) = (stringBody rest).map fun r => (c :: r.1, r.2) := by
  rw [stringBody]
  split
  · rename_i hfault
    cases h.symm.trans hfault
  · rename_i d rest' hread
    obtain ⟨rfl, rfl⟩ := Prod.mk.inj (Except.ok.inj (h.symm.trans hread))
    cases stringBody rest <;> rfl

theorem stringBody_plain {c : Char} (hquote : c ≠ '"') (hslash : c ≠ '\\')
    (hcontrol : ¬ c.toNat < 0x20) (rest : List Char) :
    stringBody (c :: rest) = (stringBody rest).map fun r => (c :: r.1, r.2) := by
  rw [stringBody.eq_def]
  split
  · rename_i h
    cases h
  · rename_i h
    exact absurd (List.cons.inj h).1 hquote
  · rename_i h
    exact absurd (List.cons.inj h).1 hslash
  · rename_i h
    obtain ⟨rfl, rfl⟩ := List.cons.inj h
    rw [if_neg hcontrol]
    cases stringBody rest <;> rfl

/-- A character is read back from its spelling inside quotes. -/
theorem stringBody_escapeChar (c : Char) (rest : List Char) :
    stringBody (escapeChar c ++ rest) = (stringBody rest).map fun r => (c :: r.1, r.2) := by
  rw [escapeChar]
  split
  · subst c
    exact stringBody_backslash rfl
  split
  · subst c
    exact stringBody_backslash rfl
  iterate 5
    split
    · subst c
      exact stringBody_backslash rfl
  split
  · rename_i hcontrol
    have hread : escape ('u' :: ((Text.hexPadded 4 c.toNat).toList ++ rest)) = .ok (c, rest) := by
      rw [escape, unicodeEscape, hexUnit_hexPadded hcontrol]
      simp only
      rw [if_neg (by omega), if_neg (by omega), Char.ofNat_toNat]
    exact stringBody_backslash hread
  · rename_i hquote hslash _ _ _ _ _ hcontrol
    exact stringBody_plain hquote hslash hcontrol rest

theorem stringBody_escaped (cs rest : List Char) :
    stringBody (escaped cs ++ '"' :: rest) = .ok (cs, rest) := by
  induction cs with
  | nil =>
      rw [escaped, List.flatMap_nil, List.nil_append, stringBody]
  | cons c cs ih =>
      rw [escaped_cons, List.append_assoc, stringBody_escapeChar, ih]
      rfl

/-- A quoted text is read back, whatever follows it. -/
theorem string_quote (s : String) (rest : List Char) :
    ∃ cs, (quote s).toList ++ rest = '"' :: cs ∧ string cs = .ok (s, rest) := by
  refine ⟨escaped s.toList ++ '"' :: rest, ?_, ?_⟩
  · rw [toList_quote, List.append_assoc, List.cons_append, List.singleton_append]
  · rw [string, stringBody_escaped]
    exact congrArg (fun t => Except.ok (t, rest)) String.ofList_toList

end Strings

section Numbers

theorem le_ofDigitChars (ds : List Char) (sum : Nat) : sum ≤ Nat.ofDigitChars 10 ds sum := by
  induction ds generalizing sum with
  | nil => exact Nat.le_refl sum
  | cons d ds ih =>
      rw [Nat.ofDigitChars_cons]
      exact le_trans (by omega) (ih _)

/-- Digits are read to their end if the number they make stays at or below the limit. -/
theorem digitsUpTo_append {limit sum : Nat} {ds rest : List Char}
    (hds : ∀ d ∈ ds, d.isDigit = true) (hrest : digitNext rest = false)
    (hlimit : Nat.ofDigitChars 10 ds sum ≤ limit) (count : Nat) :
    digitsUpTo limit sum count (ds ++ rest) =
      (Nat.ofDigitChars 10 ds sum, count + ds.length, rest) := by
  induction ds generalizing sum count with
  | nil =>
      cases rest with
      | nil => rfl
      | cons c rest =>
          rw [digitNext, Option.isSome_eq_false_iff, Option.isNone_iff_eq_none] at hrest
          rw [List.nil_append, digitsUpTo, hrest]
          rfl
  | cons d ds ih =>
      obtain ⟨hd, hds⟩ := List.forall_mem_cons.mp hds
      rw [Nat.ofDigitChars_cons, Nat.mul_comm] at hlimit ⊢
      have hnext := le_trans (le_ofDigitChars ds _) hlimit
      rw [List.cons_append, digitsUpTo, Text.digit?_of_isDigit hd]
      dsimp only
      rw [if_pos hnext, ih hds hlimit, List.length_cons, Nat.add_right_comm, Nat.add_assoc]

theorem digit?_ne_zero {c : Char} (h : c.isDigit = true) (hc : c ≠ '0') :
    ∃ d, Text.digit? c = some d ∧ d ≠ 0 := by
  refine ⟨_, Text.digit?_of_isDigit h, ?_⟩
  intro hzero
  refine hc (Char.toNat_inj.mp ?_)
  rw [Char.isDigit, Bool.and_eq_true, decide_eq_true_iff, decide_eq_true_iff] at h
  have hlow : '0'.toNat ≤ c.toNat := h.1
  omega

/-- Only zero is written with a zero in front. -/
theorem toDigits_eq_cons {n : Nat} (hn : n ≠ 0) :
    ∃ c cs, Nat.toDigits 10 n = c :: cs ∧ c ≠ '0' := by
  induction n using Nat.strongRecOn with
  | ind n ih =>
      by_cases hsmall : n < 10
      · refine ⟨Nat.digitChar n, [], Nat.toDigits_of_lt_base hsmall, ?_⟩
        have hchars : ∀ n < 10, n ≠ 0 → Nat.digitChar n ≠ '0' := by decide
        exact hchars n hsmall hn
      · obtain ⟨c, cs, hcs, hc⟩ := ih (n / 10) (by omega) (by omega)
        refine ⟨c, cs ++ [Nat.digitChar (n % 10)], ?_, hc⟩
        rw [Nat.toDigits_of_base_le (by decide) (by omega), hcs, List.cons_append]

/-- What may follow an integer: no digit, point or exponent. -/
def Ended (rest : List Char) : Prop :=
  ∀ c ∈ rest.head?, ¬ Numeric c ∧ c ≠ 'E'

theorem Ended.digitNext {rest : List Char} (h : Ended rest) : digitNext rest = false := by
  cases rest with
  | nil => rfl
  | cons c rest =>
      have hc := (h c rfl).1
      rw [Json.digitNext, Option.isSome_eq_false_iff, Option.isNone_iff_eq_none, Text.digit?, if_neg]
      intro hdigit
      apply hc
      left
      rw [Char.isDigit, Bool.and_eq_true, decide_eq_true_iff, decide_eq_true_iff]
      exact hdigit

theorem number_of_run {c : Char} {cs rest : List Char} {first n count : Nat}
    (hfirst : Text.digit? c = some first)
    (hrun : (if first = 0 then (0, 1, (c :: cs).drop 1)
      else digitsUpTo significandLimit 0 0 (c :: cs)) = (n, count, rest))
    (hrest : Ended rest) : number false (c :: cs) = .ok (.integer n, rest) := by
  rw [number]
  simp only [hfirst, hrun, hrest.digitNext, Bool.false_eq_true, if_false]
  cases rest with
  | nil => rfl
  | cons d rest =>
      obtain ⟨hnumeric, hE⟩ := hrest d rfl
      split
      · rename_i h
        exact absurd (by rw [(List.cons.inj h).1]; decide) hnumeric
      · rename_i h
        exact absurd (by rw [(List.cons.inj h).1]; decide) hnumeric
      · rename_i h
        exact absurd (List.cons.inj h).1 hE
      · rfl

/-- An integer of 64 bits is read back. -/
theorem number_repr {n : Nat} (hn : n < 2 ^ 64) {rest : List Char} (hrest : Ended rest) :
    number false (n.repr.toList ++ rest) = .ok (.integer n, rest) := by
  rw [Nat.toList_repr]
  by_cases hzero : n = 0
  · subst hzero
    exact number_of_run (rfl : Text.digit? '0' = some 0) rfl hrest
  · obtain ⟨c, cs, hcs, hc⟩ := toDigits_eq_cons hzero
    have hdigits : ∀ d ∈ Nat.toDigits 10 n, d.isDigit = true :=
      fun d hd => Nat.isDigit_of_mem_toDigits (by decide) (by decide) hd
    have hlimit : Nat.ofDigitChars 10 (Nat.toDigits 10 n) 0 ≤ significandLimit := by
      rw [Nat.ofDigitChars_ten_toDigits]
      exact Nat.le_sub_one_of_lt hn
    have hread := digitsUpTo_append hdigits hrest.digitNext hlimit 0
    rw [Nat.ofDigitChars_ten_toDigits] at hread
    rw [hcs] at hdigits hread ⊢
    obtain ⟨first, hfirst, hne⟩ := digit?_ne_zero (hdigits c List.mem_cons_self) hc
    refine number_of_run hfirst (Eq.trans (if_neg hne) hread) hrest

theorem digitsUpTo_le {limit sum : Nat} (h : sum ≤ limit) (count : Nat) (cs : List Char) :
    (digitsUpTo limit sum count cs).1 ≤ limit := by
  induction cs generalizing sum count with
  | nil => exact h
  | cons c cs ih =>
      rw [digitsUpTo]
      split
      · exact h
      · split
        · rename_i hnext
          exact ih hnext _
        · exact h

/-- An integer that is read has 64 bits. -/
theorem number_lt {negative : Bool} {cs rest : List Char} {n : Int}
    (h : number negative cs = .ok (.integer n, rest)) : n < 2 ^ 64 := by
  have hof : ∀ m : Nat, m ≤ significandLimit → integerOf negative m = .integer n → n < 2 ^ 64 := by
    intro m hm hn
    rw [significandLimit] at hm
    have hlimit : (m : Int) < 2 ^ 64 := by
      exact_mod_cast Nat.lt_of_le_pred (by decide) hm
    rw [integerOf] at hn
    split at hn
    · split at hn
      · cases hn
      · cases hn
        omega
    · cases hn
      exact hlimit
  have hreal : ∀ m e cs, numberTail negative m e cs ≠ .ok (.integer n, rest) := by
    intro m e cs htail
    obtain ⟨x, hx, -⟩ := yields_numberTail cs _ _ htail
    cases hx
  rw [number.eq_def] at h
  split at h
  · cases h
  · split at h
    · cases h
    · rename_i c cs' _ first _
      have hrun : (if first = 0 then (0, 1, (c :: cs').drop 1)
          else digitsUpTo significandLimit 0 0 (c :: cs')).1 ≤ significandLimit := by
        split
        · exact Nat.zero_le _
        · exact digitsUpTo_le (Nat.zero_le _) 0 _
      generalize (if first = 0 then (0, 1, (c :: cs').drop 1)
        else digitsUpTo significandLimit 0 0 (c :: cs')) = run at h hrun
      obtain ⟨m, count, after⟩ := run
      dsimp only at h hrun
      split at h
      · split at h
        · cases h
        · exact absurd h (hreal _ _ _)
      · split at h
        · exact absurd h (hreal _ _ _)
        · exact absurd h (hreal _ _ _)
        · exact absurd h (hreal _ _ _)
        · exact hof m hrun (Prod.mk.inj (Except.ok.inj h)).1

end Numbers

section Objects

theorem skipSpace_blank {blank : List Char} (h : ∀ c ∈ blank, isSpace c = true) (cs : List Char) :
    skipSpace (blank ++ cs) = skipSpace cs := by
  rw [skipSpace, List.dropWhile_append_of_pos h]
  rfl

theorem skipSpace_cons {c : Char} (h : isSpace c = false) (cs : List Char) :
    skipSpace (c :: cs) = c :: cs :=
  List.dropWhile_cons_of_neg (by simp [h])

/-- The start of a line: a line break and blanks. -/
def lineStart (depth : Nat) : List Char :=
  '\n' :: (indentation depth).toList

theorem isSpace_lineStart (depth : Nat) : ∀ c ∈ lineStart depth, isSpace c = true := by
  have hblank : ∀ n, ∀ c ∈ (Text.times "  " n).toList, isSpace c = true := by
    intro n
    induction n with
    | zero => exact fun c hc => absurd hc List.not_mem_nil
    | succ n ih =>
        rw [Text.times, String.toList_append, List.forall_mem_append]
        exact ⟨by simp [isSpace], ih⟩
  rw [lineStart, List.forall_mem_cons]
  exact ⟨rfl, hblank depth⟩

/-- The text of an indented object behind its opening brace or behind one of its members, given the
texts of the members that follow. -/
def membersText (depth : Nat) (first : Bool) : List (String × String) → List Char
  | [] => lineStart depth ++ ['\x7d']
  | (key, text) :: members =>
    (if first then [] else [',']) ++ (lineStart (depth + 1) ++ ((quote key).toList ++
      (':' :: ' ' :: text.toList ++ membersText depth false members)))

theorem membersText_false (depth : Nat) (m : String × String) (members : List (String × String)) :
    membersText depth false (m :: members) = ',' :: membersText depth true (m :: members) := rfl

theorem toList_indentedObject_nil (depth : Nat) :
    (indentedObject depth []).toList = ['\x7b', '\x7d'] := by
  simp [indentedObject]

theorem toList_indentedObject_cons (depth : Nat) (m : String × String)
    (members : List (String × String)) :
    (indentedObject depth (m :: members)).toList =
      '\x7b' :: membersText depth true (m :: members) := by
  have hlines : ∀ m : String × String, membersText depth true (m :: members) =
      '\n' :: (Text.join ",\n" ((m :: members).map fun m =>
        indentation (depth + 1) ++ quote m.1 ++ ": " ++ m.2)).toList ++
        (lineStart depth ++ ['\x7d']) := by
    induction members with
    | nil => simp [membersText, Text.join, lineStart]
    | cons next members ih =>
        intro m
        rw [membersText, membersText_false, ih next]
        simp [Text.join, lineStart]
  rw [hlines]
  simp [indentedObject, lineStart]

/-- Behind a member comes a comma or a line break. -/
theorem ended_membersText (depth : Nat) (members : List (String × String)) (rest : List Char) :
    Ended (membersText depth false members ++ rest) := by
  cases members with
  | nil =>
      rintro c ⟨⟩
      decide
  | cons m members =>
      rintro c ⟨⟩
      decide

end Objects

end Json

end DesignTokens
