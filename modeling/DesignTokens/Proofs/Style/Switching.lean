import DesignTokens.Proofs.Style.Mode
import DesignTokens.Style.Stylesheet

/-!
Modes and the blocks they are written as. The settings of a mode tell which blocks the file of a flavor
gets: one that a media query switches on, one that is switched on by hand, or a plain rule.
-/

namespace DesignTokens

namespace Mode

variable (m : Mode)

/-- Whether a mode is switched on apart from all others. -/
def StandsApart : Prop :=
  m.independent = true ∨ m.type = .motion

instance : Decidable m.StandsApart :=
  inferInstanceAs (Decidable (_ ∨ _))

/-- Whether a mode can be chosen by hand. -/
def ByHand : Prop :=
  ¬ m.StandsApart ∧ (m.manualOnly = true ∨ m.allowManual = true)

instance : Decidable m.ByHand :=
  inferInstanceAs (Decidable (_ ∧ _))

/-- Whether a media query switches a mode on. -/
def ByMedia : Prop :=
  m.StandsApart ∨ m.mediaQuery.isSome = true ∧ m.manualOnly = false

instance : Decidable m.ByMedia :=
  inferInstanceAs (Decidable (_ ∨ _))

variable {m}

theorem activation_of_standsApart (h : m.StandsApart) :
    m.activation = .motion (m.mediaQuery.getD reducedMotionQuery) :=
  if_pos h

theorem activation_of_not_standsApart (h : ¬ m.StandsApart) :
    m.activation =
      if m.manualOnly then .manual m.pin
      else match m.mediaQuery, m.allowManual with
        | some query, true => .mediaOrManual query m.pin
        | some query, false => .media query
        | none, true => .manual m.pin
        | none, false => .base :=
  if_neg h

theorem pin?_activation (m : Mode) : m.activation.pin? = if m.ByHand then some m.pin else none := by
  by_cases hapart : m.StandsApart
  · rw [activation_of_standsApart hapart, if_neg fun hhand => hhand.1 hapart]
    rfl
  · rw [activation_of_not_standsApart hapart]
    cases honly : m.manualOnly <;> cases hquery : m.mediaQuery <;> cases hallow : m.allowManual <;>
      simp [ByHand, hapart, honly, hallow, Activation.pin?]

theorem mediaQuery?_activation (m : Mode) :
    m.activation.mediaQuery? =
      if m.ByMedia then some (m.mediaQuery.getD reducedMotionQuery) else none := by
  by_cases hapart : m.StandsApart
  · rw [activation_of_standsApart hapart, if_pos (.inl hapart)]
    rfl
  · rw [activation_of_not_standsApart hapart]
    cases honly : m.manualOnly <;> cases hquery : m.mediaQuery <;> cases hallow : m.allowManual <;>
      simp [ByMedia, hapart, honly, hquery, Activation.mediaQuery?]

end Mode

namespace Stylesheet

variable (s : Stylesheet)

/-- The block of a flavor that nothing has to switch on. -/
def ruleBlock (flavor : String) (tokens : List Token) : Block :=
  ⟨.rule, s.rule (s.selectors.forFlavor flavor) tokens 0⟩

theorem flavorBlocks_eq (flavor : String) (a : Activation) (tokens : List Token) :
    s.flavorBlocks flavor a tokens =
      if a.mediaQuery? = none ∧ a.pin? = none then [s.ruleBlock flavor tokens]
      else (a.mediaQuery?.map fun query => s.mediaBlock flavor query tokens).toList ++
        (a.pin?.map fun pin => s.manualBlock flavor pin tokens).toList := by
  cases a <;> simp [flavorBlocks, ruleBlock, Activation.mediaQuery?, Activation.pin?]

/-- How the blocks for a file of a flavor are switched on in a mode. -/
structure SwitchedBy (m : Mode) (flavor : String) (tokens : List Token) (blocks : List Block) :
    Prop where
  manual_iff : .manual ∈ blocks.map Block.kind ↔ m.ByHand
  media_iff : .media ∈ blocks.map Block.kind ↔ m.ByMedia
  rule_iff : blocks = [s.ruleBlock flavor tokens] ↔
    .media ∉ blocks.map Block.kind ∧ .manual ∉ blocks.map Block.kind
  /-- Beside the plain rule there is no other block; else there is at most one of either kind, that of
  the media query first. -/
  order : blocks ≠ [s.ruleBlock flavor tokens] →
    (blocks.map Block.kind).Sublist [.media, .manual]
  /-- A mode without a value for its attribute is chosen by its name. -/
  manual_eq : ∀ block ∈ blocks, block.kind = .manual →
    block = s.manualBlock flavor (m.attributeValue.getD m.name) tokens
  /-- A query is missing only where a mode stands apart; it is that of reduced motion then. -/
  media_eq : ∀ block ∈ blocks, block.kind = .media →
    block = s.mediaBlock flavor (m.mediaQuery.getD reducedMotionQuery) tokens

theorem switchedBy_activation (m : Mode) (flavor : String) (tokens : List Token) :
    s.SwitchedBy m flavor tokens (s.flavorBlocks flavor m.activation tokens) := by
  rw [flavorBlocks_eq, m.mediaQuery?_activation, m.pin?_activation]
  by_cases hmedia : m.ByMedia <;> by_cases hhand : m.ByHand <;>
    constructor <;> simp [hmedia, hhand, ruleBlock, mediaBlock, manualBlock, Mode.pin]

end Stylesheet

namespace ModeRegistry

/-- Whatever overrides are applied, the names of the modes are distinct. A name other than that of the
base is resolved to the last override with this name, else to the mode that is built in, and the
settings of this mode tell the blocks of a flavor; without such a mode it counts as the base, which is
reported. -/
theorem resolve_overridden (overrides : List Mode) :
    let r := builtin.withOverrides overrides
    (r.modes.map Mode.name).Nodup ∧
      ∀ name, name ≠ baseModeName →
        let chosen := (overrides.reverse.find? fun m => m.name == name).or
          (builtinModes.find? fun m => m.name == name)
        (chosen = none → r.resolve (some name) = .base ∧
          r.resolveNotices (some name) = [.unknownMode name]) ∧
        ∀ m, chosen = some m → r.resolve (some name) = m.activation ∧
          r.resolveNotices (some name) = m.notices ∧
          ∀ (s : Stylesheet) (flavor : String) (tokens : List Token),
            s.SwitchedBy m flavor tokens (s.flavorBlocks flavor (r.resolve (some name)) tokens) := by
  intro r
  refine ⟨nodup_names_withOverrides (by decide) overrides, ?_⟩
  intro name hname chosen
  have hchosen : r.get? name = chosen := get?_withOverrides builtin overrides name
  have hresolve := r.resolve_of_ne_base hname
  have hnotices := r.resolveNotices_of_ne_base hname
  rw [hchosen] at hresolve hnotices
  constructor
  · intro hnone
    rw [hresolve, hnotices, hnone]
    exact ⟨rfl, rfl⟩
  · intro m hsome
    rw [hresolve, hnotices, hsome]
    exact ⟨rfl, rfl, fun s flavor tokens => s.switchedBy_activation m flavor tokens⟩

/-- Two overrides of one mode: the second one leaves its query aside. -/
def darkOverrides : List Mode :=
  [⟨"dark", .color, some "prefers-color-scheme: dark", none, false, false, false⟩,
    ⟨"sepia", .color, none, some "old", true, false, false⟩,
    ⟨"dark", .color, some "prefers-color-scheme: dark", none, false, true, false⟩]

theorem resolve_overridden_dark :
    let r := builtin.withOverrides darkOverrides
    let s : Stylesheet := ⟨"sando", .standard⟩
    let m : Mode := ⟨"dark", .color, some "prefers-color-scheme: dark", none, false, true, false⟩
    (r.modes.map Mode.name).Nodup ∧ "dark" ≠ baseModeName ∧
      r.resolve (some "dark") = .manual "dark" ∧
      s.SwitchedBy m "original" [] (s.flavorBlocks "original" (r.resolve (some "dark")) []) ∧
      "dusk" ≠ baseModeName ∧ r.resolveNotices (some "dusk") = [.unknownMode "dusk"] := by
  intro r s m
  have hdark : "dark" ≠ baseModeName := by decide
  have hdusk : "dusk" ≠ baseModeName := by decide
  have hall := resolve_overridden darkOverrides
  obtain ⟨hresolve, -, hblocks⟩ := (hall.2 "dark" hdark).2 m rfl
  exact ⟨hall.1, hdark, hresolve, hblocks s "original" [], hdusk, ((hall.2 "dusk" hdusk).1 rfl).2⟩

end ModeRegistry

end DesignTokens
