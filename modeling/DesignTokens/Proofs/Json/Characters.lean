import DesignTokens.Json.Printer
import Mathlib.Data.List.Infix

/-!
Which characters stand in the text of a JSON document. Braces come from objects and from strings
alone: numbers have none, and escaping a string neither makes nor removes one.
-/

namespace DesignTokens

/-- The characters that numbers are written with. -/
def Numeric (c : Char) : Prop :=
  c.isDigit = true ∨ c ∈ ['-', '+', '.', 'e']

instance (c : Char) : Decidable (Numeric c) :=
  inferInstanceAs (Decidable (_ ∨ _))

theorem Numeric.of_mem_toDigits {n : Nat} {c : Char} (h : c ∈ Nat.toDigits 10 n) : Numeric c :=
  .inl (Nat.isDigit_of_mem_toDigits (by decide) (by decide) h)

theorem Numeric.ne {c d : Char} (h : Numeric c) (hdigit : d.isDigit = false)
    (hsign : d ∉ ['-', '+', '.', 'e']) : c ≠ d := by
  rintro rfl
  rcases h with h | h
  · exact Bool.noConfusion (h.symm.trans hdigit)
  · exact hsign h

namespace Decimal

theorem numeric_shortest (m : Magnitude) : ∀ c ∈ (shortest m).digits, Numeric c := by
  rw [shortest]
  dsimp only
  split
  · intro c hc
    rw [significantDigits, List.mem_reverse] at hc
    exact .of_mem_toDigits (List.mem_reverse.mp ((List.dropWhile_suffix _).subset hc))
  · intro c hc
    rw [List.mem_singleton.mp hc]
    exact .inl rfl

theorem numeric_positional {d : Decimal} (h : ∀ c ∈ d.digits, Numeric c) :
    ∀ c ∈ d.positional, Numeric c := by
  have hzero : Numeric '0' := .inl rfl
  have hpoint : Numeric '.' := .inr (by decide)
  have hzeros : ∀ n, ∀ c ∈ List.replicate n '0', Numeric c := by
    intro n c hc
    rw [List.eq_of_mem_replicate hc]
    exact hzero
  rw [positional]
  split
  · dsimp only
    generalize hpadded : d.digits ++ List.replicate _ '0' = padded
    have hall : ∀ c ∈ padded, Numeric c := by
      rw [← hpadded, List.forall_mem_append]
      exact ⟨h, hzeros _⟩
    rw [List.forall_mem_append, List.forall_mem_cons]
    refine ⟨fun c hc => hall c (List.mem_of_mem_take hc), hpoint, ?_⟩
    split
    · exact List.forall_mem_singleton.mpr hzero
    · exact fun c hc => hall c (List.mem_of_mem_drop hc)
  · rw [List.cons_append, List.cons_append, List.forall_mem_cons, List.forall_mem_cons,
      List.forall_mem_append]
    exact ⟨hzero, hpoint, hzeros _, h⟩

theorem numeric_scientific {d : Decimal} (h : ∀ c ∈ d.digits, Numeric c) :
    ∀ c ∈ d.scientific, Numeric c := by
  rw [scientific, List.forall_mem_append, List.forall_mem_append, List.forall_mem_cons, List.forall_mem_cons]
  refine ⟨⟨fun c hc => h c (List.mem_of_mem_take hc), ?_⟩, .inr (by decide), ?_, ?_⟩
  · split
    · exact fun _ hc => absurd hc List.not_mem_nil
    · rw [List.forall_mem_cons]
      exact ⟨.inr (by decide), fun c hc => h c (List.mem_of_mem_drop hc)⟩
  · split
    · exact .inr (by decide)
    · exact .inr (by decide)
  · exact fun _ hc => .of_mem_toDigits hc

end Decimal

namespace Json

theorem numeric_toText (n : Number) : ∀ c ∈ n.toText.toList, Numeric c := by
  cases n with
  | integer n =>
      have hdigits : ∀ c ∈ n.natAbs.repr.toList, Numeric c := by
        rw [Nat.toList_repr]
        exact fun _ hc => .of_mem_toDigits hc
      rw [Number.toText]
      split
      · rw [String.toList_append, List.forall_mem_append]
        exact ⟨List.forall_mem_singleton.mpr (.inr (by decide)), hdigits⟩
      · exact hdigits
  | real x =>
      rw [Number.toText, Number.realText]
      dsimp only
      generalize hbody : (if x.magnitude.mantissa = 0 then ['0', '.', '0'] else _) = body
      have hall : ∀ c ∈ body, Numeric c := by
        rw [← hbody]
        split
        · simp [Numeric]
        · split
          · exact Decimal.numeric_positional (Decimal.numeric_shortest _)
          · exact Decimal.numeric_scientific (Decimal.numeric_shortest _)
      rw [String.toList_ofList]
      split
      · exact List.forall_mem_cons.mpr ⟨.inr (by decide), hall⟩
      · exact hall

/-- The characters of a text between quotes. -/
def escaped (cs : List Char) : List Char :=
  cs.flatMap escapeChar

theorem toList_quote (s : String) : (quote s).toList = '"' :: escaped s.toList ++ ['"'] := by
  rw [quote, String.toList_ofList, escaped]

theorem escaped_append (cs ds : List Char) : escaped (cs ++ ds) = escaped cs ++ escaped ds :=
  List.flatMap_append

theorem escaped_cons (c : Char) (cs : List Char) : escaped (c :: cs) = escapeChar c ++ escaped cs :=
  rfl

/-- A character is escaped as itself, or by a backslash and characters other than braces. -/
theorem escapeChar_cases (c : Char) :
    escapeChar c = [c] ∨ '\\' ∈ escapeChar c ∧ '\x7b' ∉ escapeChar c ∧ '\x7d' ∉ escapeChar c := by
  have hlow : ∀ n < 0x20, '\x7b' ∉ (Text.hexPadded 4 n).toList ∧
      '\x7d' ∉ (Text.hexPadded 4 n).toList := by
    decide +kernel
  rw [escapeChar]
  iterate 7
    split
    · exact .inr (by decide)
  split
  · rename_i hcode
    obtain ⟨hopen, hclose⟩ := hlow c.toNat hcode
    exact .inr ⟨by simp, by simpa using hopen, by simpa using hclose⟩
  · exact .inl rfl

theorem mem_escaped_iff {c : Char} (hc : c = '\x7b' ∨ c = '\x7d') (cs : List Char) :
    c ∈ escaped cs ↔ c ∈ cs := by
  have hone : ∀ d, c ∈ escapeChar d ↔ c = d := by
    intro d
    rcases escapeChar_cases d with hself | ⟨-, hopen, hclose⟩
    · rw [hself, List.mem_singleton]
    · constructor
      · intro h
        rcases hc with rfl | rfl
        · exact absurd h hopen
        · exact absurd h hclose
      · rintro rfl
        rcases hc with rfl | rfl
        · exact absurd (by decide) hopen
        · exact absurd (by decide) hclose
  rw [escaped, List.mem_flatMap]
  constructor
  · rintro ⟨d, hd, h⟩
    rwa [(hone d).mp h]
  · exact fun h => ⟨c, h, (hone c).mpr rfl⟩

end Json

end DesignTokens
