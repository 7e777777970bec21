import DesignTokens.Proofs.Style.Reading
import Mathlib

/-!
Which elements of a document a list of selectors matches, and how specific the selectors are that do.
-/

namespace DesignTokens.Css

/-- How specific a selector is: by identifiers, then by classes and attributes, then by types. -/
abbrev Specificity : Type := ℕ ×ₗ ℕ ×ₗ ℕ

/-- What one condition on attributes adds. -/
def attributeWeight : Specificity :=
  toLex (0, toLex (1, 0))

theorem attributeWeight_pos : 0 < attributeWeight := by
  decide

/-- A document: the attributes of its elements, by the names that selectors give them, the elements
around them, and what simple selectors of other kinds mean in it. -/
structure Document (E : Type) where
  attributeOf : E → String → Option String
  parent : E → Option E
  knows : String → Prop
  holds : String → E → Prop
  weight : String → Specificity

namespace Document

variable {E : Type} (d : Document E)

/-- Whether an element is around another one. -/
def Around (a e : E) : Prop :=
  Relation.TransGen (fun outer inner => d.parent inner = some outer) a e

def Fulfils (e : E) : Condition → Prop
  | .has name => d.attributeOf e name ≠ none
  | .is name value => d.attributeOf e name = some value

def Is (e : E) : Simple → Prop
  | .attribute condition => d.Fulfils e condition
  | .lacks condition => ¬ d.Fulfils e condition
  | .other text => d.holds text e

def IsAll (e : E) (compound : List Simple) : Prop :=
  ∀ simple ∈ compound, d.Is e simple

/-- Whether an element stands inside of such elements, the innermost first. -/
def Stands : E → List (List Simple) → Prop
  | _, [] => True
  | e, compound :: rest => ∃ a, d.Around a e ∧ d.IsAll a compound ∧ Stands a rest

def Matches (e : E) (s : Selector) : Prop :=
  d.IsAll e s.subject ∧ d.Stands e s.around

def simpleWeight : Simple → Specificity
  | .attribute _ => attributeWeight
  | .lacks _ => attributeWeight
  | .other text => d.weight text

def compoundWeight (compound : List Simple) : Specificity :=
  (compound.map d.simpleWeight).sum

def selectorWeight (s : Selector) : Specificity :=
  d.compoundWeight s.subject + (s.around.map d.compoundWeight).sum

/-- Whether the simple selectors of other kinds in a compound are known. -/
def Known (compound : List Simple) : Prop :=
  ∀ text, Simple.other text ∈ compound → d.knows text

def Understands (s : Selector) : Prop :=
  d.Known s.subject ∧ ∀ compound ∈ s.around, d.Known compound

/-- How specific the selectors of a list are that match an element. A list with a selector that is
not understood matches nothing. -/
def weights (texts : List String) (e : E) : Set Specificity :=
  {w | (∀ text ∈ texts, ∃ s, read text = some s ∧ d.Understands s) ∧
    ∃ text ∈ texts, ∃ s, read text = some s ∧ d.Matches e s ∧ d.selectorWeight s = w}

/-- Whether a list of selectors matches an element. -/
def Selects (texts : List String) (e : E) : Prop :=
  (d.weights texts e).Nonempty

variable {d} {e : E} {w : Specificity}

@[simp] theorem isAll_append {compound more : List Simple} :
    d.IsAll e (compound ++ more) ↔ d.IsAll e compound ∧ d.IsAll e more :=
  List.forall_mem_append

@[simp] theorem isAll_cons {simple : Simple} {more : List Simple} :
    d.IsAll e (simple :: more) ↔ d.Is e simple ∧ d.IsAll e more :=
  List.forall_mem_cons

@[simp] theorem isAll_nil : d.IsAll e [] :=
  List.forall_mem_nil _

@[simp] theorem is_attribute_iff {name value : String} :
    d.Is e (.attribute (.is name value)) ↔ d.attributeOf e name = some value :=
  Iff.rfl

@[simp] theorem is_lacks_iff {name : String} :
    d.Is e (.lacks (.has name)) ↔ d.attributeOf e name = none :=
  not_not

@[simp] theorem known_nil : d.Known [] :=
  fun _ h => absurd h List.not_mem_nil

@[simp] theorem known_append {compound more : List Simple} :
    d.Known (compound ++ more) ↔ d.Known compound ∧ d.Known more := by
  simp only [Known, List.mem_append, or_imp, forall_and]

@[simp] theorem known_cons_attribute {condition : Condition} {more : List Simple} :
    d.Known (.attribute condition :: more) ↔ d.Known more := by
  simp [Known]

@[simp] theorem known_cons_lacks {condition : Condition} {more : List Simple} :
    d.Known (.lacks condition :: more) ↔ d.Known more := by
  simp [Known]

@[simp] theorem compoundWeight_append {compound more : List Simple} :
    d.compoundWeight (compound ++ more) = d.compoundWeight compound + d.compoundWeight more := by
  rw [compoundWeight, List.map_append, List.sum_append]
  rfl

@[simp] theorem compoundWeight_cons_attribute {condition : Condition} {more : List Simple} :
    d.compoundWeight (.attribute condition :: more) = attributeWeight + d.compoundWeight more := by
  rw [compoundWeight, List.map_cons, List.sum_cons]
  rfl

@[simp] theorem compoundWeight_cons_lacks {condition : Condition} {more : List Simple} :
    d.compoundWeight (.lacks condition :: more) = attributeWeight + d.compoundWeight more := by
  rw [compoundWeight, List.map_cons, List.sum_cons]
  rfl

@[simp] theorem compoundWeight_nil : d.compoundWeight [] = 0 := rfl

@[simp] theorem matches_alone_iff {compound : List Simple} :
    d.Matches e ⟨compound, []⟩ ↔ d.IsAll e compound :=
  and_iff_left trivial

@[simp] theorem matches_inside_iff {compound outer : List Simple} :
    d.Matches e ⟨compound, [outer]⟩ ↔
      d.IsAll e compound ∧ ∃ a, d.Around a e ∧ d.IsAll a outer := by
  simp [Matches, Stands]

@[simp] theorem understands_alone_iff {compound : List Simple} :
    d.Understands ⟨compound, []⟩ ↔ d.Known compound := by
  simp [Understands]

@[simp] theorem understands_inside_iff {compound outer : List Simple} :
    d.Understands ⟨compound, [outer]⟩ ↔ d.Known compound ∧ d.Known outer := by
  simp [Understands]

@[simp] theorem selectorWeight_alone (compound : List Simple) :
    d.selectorWeight ⟨compound, []⟩ = d.compoundWeight compound :=
  add_zero _

@[simp] theorem selectorWeight_inside (compound outer : List Simple) :
    d.selectorWeight ⟨compound, [outer]⟩ = d.compoundWeight compound + d.compoundWeight outer := by
  simp [selectorWeight]

theorem mem_weights_iff {texts : List String} (selectors : List Selector)
    (h : texts.map read = selectors.map some) :
    w ∈ d.weights texts e ↔ (∀ s ∈ selectors, d.Understands s) ∧
      ∃ s ∈ selectors, d.Matches e s ∧ d.selectorWeight s = w := by
  have hread : ∀ s ∈ selectors, ∃ text ∈ texts, read text = some s := by
    intro s hs
    exact List.mem_map.mp (h ▸ List.mem_map_of_mem hs)
  have hmem : ∀ text ∈ texts, ∃ s ∈ selectors, some s = read text := by
    intro text htext
    have hmap : read text ∈ selectors.map some := h ▸ List.mem_map_of_mem htext
    exact List.mem_map.mp hmap
  constructor
  · rintro ⟨hall, text, htext, s, hs, hmatches, hweight⟩
    refine ⟨fun s hs => ?_, s, ?_, hmatches, hweight⟩
    · obtain ⟨text, htext, heq⟩ := hread s hs
      obtain ⟨s', hs', hunderstands⟩ := hall text htext
      rwa [Option.some.inj (heq.symm.trans hs')]
    · obtain ⟨s', hmem', heq⟩ := hmem text htext
      rwa [← Option.some.inj (heq.trans hs)]
  · rintro ⟨hall, s, hs, hmatches, hweight⟩
    refine ⟨fun text htext => ?_, ?_⟩
    · obtain ⟨s', hmem', heq⟩ := hmem text htext
      exact ⟨s', heq.symm, hall s' hmem'⟩
    · obtain ⟨text, htext, heq⟩ := hread s hs
      exact ⟨text, htext, s, heq, hmatches, hweight⟩

end Document

end DesignTokens.Css
