import DesignTokens.Json.Reader
import DesignTokens.Proofs.Keyed
import DesignTokens.Proofs.Number.Rounding

/-!
The numbers in a document that was read are binary64 numbers, each in its only form, or integers.
-/

namespace DesignTokens

namespace Magnitude

variable {a b m : Magnitude} {n : Nat}

theorem canonical_ofNat? (h : ofNat? n = some m) : m.Canonical :=
  canonical_of_nearest? Nat.one_ne_zero h

theorem canonical_mul? (h : mul? a b = some m) : m.Canonical :=
  canonical_of_nearest? (scaleTwo_snd_pos _ _).ne' h

theorem canonical_div? (hb : b.mantissa ≠ 0) (h : div? a b = some m) : m.Canonical := by
  refine canonical_of_nearest? (Nat.mul_ne_zero (scaleTwo_snd_pos _ _).ne' ?_) h
  exact (scaleTwo_fst_pos (Nat.pos_of_ne_zero hb) _).ne'

end Magnitude

namespace Json

/-- The numbers that a program can hold: of the binary64 numbers each in its only form. -/
def Number.Proper : Number → Prop
  | integer _ => True
  | real x => x.magnitude.Canonical

mutual

/-- The numbers in a value. -/
def Value.numbers : Value → List Number
  | .number n => [n]
  | .array items => itemNumbers items
  | .object members => memberNumbers members
  | _ => []

def itemNumbers : List Value → List Number
  | [] => []
  | v :: rest => v.numbers ++ itemNumbers rest

def memberNumbers : List (String × Value) → List Number
  | [] => []
  | (_, v) :: rest => v.numbers ++ memberNumbers rest

end

theorem itemNumbers_append (items more : List Value) :
    itemNumbers (items ++ more) = itemNumbers items ++ itemNumbers more := by
  induction items with
  | nil => rfl
  | cons v items ih => rw [List.cons_append, itemNumbers, itemNumbers, ih, List.append_assoc]

theorem mem_memberNumbers_put {key : String} {v : Value} {members : List (String × Value)} {n : Number}
    (h : n ∈ memberNumbers (Keyed.put key v members)) :
    n ∈ v.numbers ∨ n ∈ memberNumbers members := by
  induction members with
  | nil =>
      rw [Keyed.put, memberNumbers, memberNumbers, List.append_nil] at h
      exact .inl h
  | cons m members ih =>
      obtain ⟨k, w⟩ := m
      rw [Keyed.put] at h
      split at h
      · rw [memberNumbers, List.mem_append] at h
        exact h.imp_right (List.mem_append_right _)
      · rw [memberNumbers, List.mem_append] at h ⊢
        rcases h with h | h
        · exact .inr (.inl h)
        · exact (ih h).imp_right .inr

/-- Whatever is read has a property. -/
def Yields {α : Type} (P : α → Prop) (r : Reading α) : Prop :=
  ∀ a rest, r = .ok (a, rest) → P a

section Rules

variable {α β : Type} {P : α → Prop} {Q : β → Prop}

theorem yields_error (fault : Fault) : Yields P (.error fault) := by
  rintro a rest ⟨⟩

theorem yields_ok {a : α} (h : P a) (rest : List Char) : Yields P (.ok (a, rest)) := by
  rintro b rest ⟨⟩
  exact h

theorem Yields.map {r : Reading α} {f : α → β} (h : Yields P r) (hf : ∀ a, P a → Q (f a)) :
    Yields Q (r.map fun read => (f read.1, read.2)) := by
  cases r with
  | error fault => exact yields_error fault
  | ok read => exact yields_ok (hf read.1 (h read.1 read.2 rfl)) read.2

theorem yields_map_const {a : α} (h : P a) (r : Except Fault (List Char)) :
    Yields P (r.map fun rest => (a, rest)) := by
  cases r with
  | error fault => exact yields_error fault
  | ok rest => exact yields_ok h rest

end Rules

section Reals

variable {negative : Bool} {significand : Nat} {e : Int}

theorem powerOfTen_ne_zero {e : Nat} (he : e ≤ 308) : (powerOfTen e).mantissa ≠ 0 := by
  obtain rfl | hlt : e = 308 ∨ e ≤ 307 := by omega
  · decide +kernel
  · have hmost : Nat.pow 10 e < 2 ^ 1023 * 1 :=
      lt_of_le_of_lt (Nat.pow_le_pow_right (by decide) hlt) (by decide +kernel)
    have hleast : 1 ≤ Nat.pow 10 e := Nat.pow_pos (by decide)
    obtain ⟨m, hm, hne⟩ := Magnitude.exists_nearest? Nat.one_ne_zero hleast hmost
    rw [powerOfTen, Magnitude.ofNat?, hm]
    exact hne

/-- One step down. -/
theorem timesPowerOfTen_succ (steps : Nat) (m : Magnitude) (e : Int) :
    timesPowerOfTen (steps + 1) m e =
      if e.natAbs ≤ 308 then
        if 0 ≤ e then m.mul? (powerOfTen e.toNat) else m.div? (powerOfTen (-e).toNat)
      else if m.mantissa = 0 then some m
      else if 0 ≤ e then none
      else (m.div? (powerOfTen 308)).bind fun smaller => timesPowerOfTen steps smaller (e + 308) := by
  delta timesPowerOfTen timesPowerOfTen._f
  -- the power stays closed: to compute it in passing goes too deep
  generalize powerOfTen 308 = power
  cases h : m.div? power with
  | none => simp only [h, Option.bind_none]
  | some smaller => simp only [h, Option.bind_some]

theorem timesPowerOfTen_zero (m : Magnitude) (e : Int) :
    timesPowerOfTen 0 m e =
      if e.natAbs ≤ 308 then
        if 0 ≤ e then m.mul? (powerOfTen e.toNat) else m.div? (powerOfTen (-e).toNat)
      else if m.mantissa = 0 then some m
      else if 0 ≤ e then none
      else some .zero :=
  rfl

theorem canonical_timesPowerOfTen {steps : Nat} {m k : Magnitude} {e : Int} (hm : m.Canonical)
    (h : timesPowerOfTen steps m e = some k) : k.Canonical := by
  have hnear : ∀ {m : Magnitude} {e : Int}, e.natAbs ≤ 308 →
      (if 0 ≤ e then m.mul? (powerOfTen e.toNat) else m.div? (powerOfTen (-e).toNat)) = some k →
      k.Canonical := by
    intro m e he hk
    split at hk
    · exact Magnitude.canonical_mul? hk
    · exact Magnitude.canonical_div? (powerOfTen_ne_zero (by omega)) hk
  induction steps generalizing m e with
  | zero =>
      rw [timesPowerOfTen_zero] at h
      split at h
      · exact hnear ‹_› h
      · split at h
        · exact Option.some.inj h ▸ hm
        · split at h
          · cases h
          · exact Option.some.inj h ▸ Magnitude.canonical_zero
  | succ steps ih =>
      rw [timesPowerOfTen_succ] at h
      split at h
      · exact hnear ‹_› h
      · split at h
        · exact Option.some.inj h ▸ hm
        · split at h
          · cases h
          · obtain ⟨smaller, hsmaller, h⟩ := Option.bind_eq_some_iff.mp h
            exact ih (Magnitude.canonical_div? (powerOfTen_ne_zero (by decide)) hsmaller) h

/-- A number with a point or an exponent. -/
def Number.Real (n : Number) : Prop :=
  ∃ x : Binary64, n = .real x ∧ x.magnitude.Canonical

theorem Number.Real.proper {n : Number} (h : n.Real) : n.Proper := by
  obtain ⟨x, rfl, hx⟩ := h
  exact hx

theorem yields_realOf (rest : List Char) : Yields Number.Real (realOf negative significand e rest) := by
  rw [realOf]
  split
  · rename_i m hm
    obtain ⟨k, hk, hm⟩ := Option.bind_eq_some_iff.mp hm
    exact yields_ok ⟨_, rfl, canonical_timesPowerOfTen (Magnitude.canonical_ofNat? hk) hm⟩ rest
  · exact yields_error _

theorem yields_exponentPart (cs : List Char) :
    Yields Number.Real (exponentPart negative significand e cs) := by
  rw [exponentPart.eq_def]
  dsimp only
  split
  · exact yields_error _
  · split
    · exact yields_error _
    · -- whatever the sign
      split
      all_goals
        split
        · split
          · exact yields_error _
          · exact yields_ok ⟨_, rfl, Magnitude.canonical_zero⟩ _
        · exact yields_realOf _

theorem yields_exponentOrEnd (cs : List Char) :
    Yields Number.Real (exponentOrEnd negative significand e cs) := by
  rw [exponentOrEnd.eq_def]
  split
  · exact yields_exponentPart _
  · exact yields_exponentPart _
  · exact yields_realOf _

theorem yields_fractionPart (cs : List Char) :
    Yields Number.Real (fractionPart negative significand e cs) := by
  rw [fractionPart]
  dsimp only
  split
  · exact yields_exponentOrEnd _
  · split
    · exact yields_error _
    · exact yields_exponentOrEnd _

theorem yields_numberTail (cs : List Char) :
    Yields Number.Real (numberTail negative significand e cs) := by
  rw [numberTail.eq_def]
  split
  · exact yields_fractionPart _
  · exact yields_exponentOrEnd _

end Reals

section Documents

theorem proper_integerOf (negative : Bool) (n : Nat) : (integerOf negative n).Proper := by
  rw [integerOf]
  split
  · split
    · rw [Number.Proper]
      cases h : Magnitude.ofNat? n with
      | none => exact Magnitude.canonical_zero
      | some m => exact Magnitude.canonical_ofNat? h
    · trivial
  · trivial

theorem yields_number (negative : Bool) (cs : List Char) : Yields Number.Proper (number negative cs) := by
  have hreal : ∀ significand e cs, Yields Number.Proper (numberTail negative significand e cs) :=
    fun significand e cs n rest h => (yields_numberTail cs n rest h).proper
  rw [number.eq_def]
  split
  · exact yields_error _
  · split
    · exact yields_error _
    · generalize (if _ = 0 then (0, 1, _) else digitsUpTo significandLimit 0 0 _) = run
      dsimp only
      split
      · split
        · exact yields_error _
        · exact hreal _ _ _
      · split
        · exact hreal _ _ _
        · exact hreal _ _ _
        · exact hreal _ _ _
        · exact yields_ok (proper_integerOf negative _) _

mutual

theorem yields_value : (steps depth : Nat) → (cs : List Char) →
    Yields (fun v => ∀ n ∈ v.numbers, n.Proper) (value steps depth cs)
  | 0, _, _ => yields_error _
  | steps + 1, depth, cs => by
      have hnumber : ∀ negative cs, Yields (fun v => ∀ n ∈ v.numbers, n.Proper)
          ((number negative cs).map fun r => (Value.number r.1, r.2)) := fun negative cs =>
        (yields_number negative cs).map fun n hn => List.forall_mem_singleton.mpr hn
      have hword : ∀ v : Value, v.numbers = [] → ∀ n ∈ v.numbers, n.Proper := by
        intro v hv n hn
        rw [hv] at hn
        cases hn
      rw [value]
      split
      · exact yields_error _
      · exact yields_map_const (hword _ rfl) _
      · exact yields_map_const (hword _ rfl) _
      · exact yields_map_const (hword _ rfl) _
      · exact Yields.map (P := fun _ => True) (fun _ _ _ => trivial) fun s _ => hword (.string s) rfl
      · exact hnumber _ _
      · split
        · exact yields_error _
        · split
          · exact yields_error _
          · exact yields_ok (hword _ rfl) _
          · exact (yields_items steps _ [] _ nofun).map fun items hitems => hitems
      · split
        · exact yields_error _
        · split
          · exact yields_error _
          · exact yields_ok (hword _ rfl) _
          · exact (yields_members steps _ [] _ nofun).map fun members hmembers => hmembers
          · exact yields_error _
      · split
        · exact hnumber _ _
        · exact yields_error _

theorem yields_items : (steps depth : Nat) → (done : List Value) → (cs : List Char) →
    (∀ n ∈ itemNumbers done, n.Proper) →
    Yields (fun items => ∀ n ∈ itemNumbers items, n.Proper) (items steps depth done cs)
  | 0, _, _, _, _ => yields_error _
  | steps + 1, depth, done, cs, hdone => by
      rw [items]
      split
      · exact yields_error _
      · rename_i v rest hv
        have hmore : ∀ n ∈ itemNumbers (done ++ [v]), n.Proper := by
          rw [itemNumbers_append, List.forall_mem_append, itemNumbers, itemNumbers, List.append_nil]
          exact ⟨hdone, yields_value steps depth cs v rest hv⟩
        split
        · exact yields_error _
        · exact yields_ok hmore _
        · split
          · exact yields_error _
          · exact yields_error _
          · exact yields_items steps depth _ _ hmore
        · exact yields_error _

theorem yields_members : (steps depth : Nat) → (done : List (String × Value)) → (cs : List Char) →
    (∀ n ∈ memberNumbers done, n.Proper) →
    Yields (fun members => ∀ n ∈ memberNumbers members, n.Proper) (members steps depth done cs)
  | 0, _, _, _, _ => yields_error _
  | steps + 1, depth, done, cs, hdone => by
      rw [members]
      split
      · exact yields_error _
      · split
        · exact yields_error _
        · split
          · exact yields_error _
          · rename_i v rest hv
            have hmore : ∀ key, ∀ n ∈ memberNumbers (Keyed.put key v done), n.Proper := by
              intro key n hn
              exact (mem_memberNumbers_put hn).elim (yields_value steps depth _ v rest hv n) (hdone n)
            dsimp only
            split
            · exact yields_error _
            · exact yields_ok (hmore _) _
            · split
              · exact yields_error _
              · exact yields_members steps depth _ _ (hmore _)
              · exact yields_error _
              · exact yields_error _
            · exact yields_error _
        · exact yields_error _

end

/-- The numbers of a document that was read are numbers that a program can hold. -/
theorem proper_of_parse {text : String} {v : Value} (h : parse text = .ok v) :
    ∀ n ∈ v.numbers, n.Proper := by
  rw [parse, document] at h
  cases hvalue : value (stepsFor text.toList) nestingLimit text.toList with
  | error fault =>
      rw [hvalue] at h
      cases h
  | ok read =>
      rw [hvalue] at h
      obtain ⟨found, rest⟩ := read
      dsimp only at h
      cases hend : atEnd rest with
      | error fault =>
          rw [hend] at h
          cases h
      | ok _ =>
          rw [hend] at h
          obtain rfl : found = v := Except.ok.inj h
          exact yields_value _ _ _ found rest hvalue

end Documents

end Json

end DesignTokens
