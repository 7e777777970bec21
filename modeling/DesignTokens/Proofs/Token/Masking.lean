import DesignTokens.Proofs.Token.Expansion
import DesignTokens.Style.Stylesheet
import DesignTokens.TypedModule.Write

/-!
Values that do not show. What is written about the tokens of a layer has names of properties in place
of the value of every token with references, and such names alone in the typed modules of all layers
but the primitives. So nothing of it depends on the values that tokens of other layers have.
-/

namespace DesignTokens

open Placeholder Job

/-- What is left of a token when the value of a token with references is not looked at. -/
def Token.shown (t : Token) : Token :=
  if t.hasReferences then { t with value := .null } else t

namespace Token

variable {t : Token}

theorem shown_path : t.shown.path = t.path := by
  rw [shown]
  split <;> rfl

theorem shown_source : t.shown.source = t.source := by
  rw [shown]
  split <;> rfl

theorem shown_category : t.shown.category = t.category := by
  rw [category, category, shown_path]

theorem shown_hasReferences : t.shown.hasReferences = t.hasReferences := by
  rw [hasReferences, hasReferences, shown_source]

theorem shown_cssValue (h : ¬ t.hasReferences) : t.shown.cssValue = t.cssValue := by
  rw [shown, if_neg h]

end Token

section Written

variable {f : Token → Token} {tokens : List Token}

theorem groupByCategory_map (hf : ∀ t, (f t).category = t.category) :
    groupByCategory (tokens.map f) =
      (groupByCategory tokens).map (Prod.map id (List.map f)) := by
  have hadd : ∀ groups t, addToGroup (groups.map (Prod.map id (List.map f))) (f t) =
      (addToGroup groups t).map (Prod.map id (List.map f)) := by
    intro groups t
    rw [addToGroup, addToGroup, Keyed.map_putSorted, Keyed.get?_map, hf, List.map_append]
    cases Keyed.get? t.category groups <;> rfl
  have hfold : ∀ groups, tokens.foldl (fun groups t => addToGroup groups (f t))
      (groups.map (Prod.map id (List.map f))) =
        (tokens.foldl addToGroup groups).map (Prod.map id (List.map f)) :=
    fun _ => List.foldl_hom _ hadd
  rw [groupByCategory, groupByCategory, List.foldl_map]
  exact hfold []

theorem categoriesOf_map (hf : ∀ t, (f t).category = t.category) :
    categoriesOf (tokens.map f) = categoriesOf tokens := by
  rw [categoriesOf, categoriesOf, List.foldl_map]
  simp only [hf]

theorem build_map {category : Option String} {leaf : Token → Json.Value}
    (hf : ∀ t, (f t).path = t.path) (hleaf : ∀ t, leaf (f t) = leaf t) :
    TokenTree.build (tokens.map f) category leaf = TokenTree.build tokens category leaf := by
  have hadd : ∀ members t, TokenTree.addToken category leaf members (f t) =
      TokenTree.addToken category leaf members t := by
    intro members t
    have hkeys : TokenTree.keyPath? category (f t) = TokenTree.keyPath? category t := by
      cases category with
      | none => exact congrArg some (hf t)
      | some c =>
          have hcategory : (f t).category = t.category := congrArg (·.headD "") (hf t)
          rw [TokenTree.keyPath?, TokenTree.keyPath?, hcategory, hf]
    rw [TokenTree.addToken, TokenTree.addToken, hkeys, hleaf]
  rw [TokenTree.build, TokenTree.build, List.foldl_map]
  simp only [hadd]

namespace Stylesheet

variable (s : Stylesheet)

/-- The declaration of a token with references has no value in it. -/
theorem declaration_shown (t : Token) : s.declaration t.shown = s.declaration t := by
  rw [declaration, declaration, declarationValue, declarationValue, Token.shown_path,
    Token.shown_hasReferences, Token.shown_source]
  split
  · rfl
  · rename_i h
    rw [Token.shown_cssValue h]

theorem bodyLines_shown (indent : String) (groups : List (String × List Token)) :
    s.bodyLines indent (groups.map (Prod.map id (List.map Token.shown))) =
      s.bodyLines indent groups := by
  have hgroup : ∀ group : String × List Token,
      s.groupLines indent (Prod.map id (List.map Token.shown) group) = s.groupLines indent group := by
    intro group
    rw [groupLines, groupLines, Prod.map_snd, List.map_map]
    simp only [Function.comp_def, declaration_shown]
    rfl
  induction groups with
  | nil => rfl
  | cons group rest ih =>
      cases rest with
      | nil => exact hgroup group
      | cons next rest =>
          rw [List.map_cons] at ih ⊢
          rw [List.map_cons, bodyLines, bodyLines, ih, hgroup]

theorem rule_shown (selectors : List String) (tokens : List Token) (depth : Nat) :
    s.rule selectors (tokens.map Token.shown) depth = s.rule selectors tokens depth := by
  rw [rule, rule, ruleLines, ruleLines, groupByCategory_map fun _ => Token.shown_category,
    bodyLines_shown]

theorem rootText_shown (tokens : List Token) :
    s.rootText (tokens.map Token.shown) = s.rootText tokens :=
  s.rule_shown _ tokens 0

theorem flavorText_shown (flavor : String) (activation : Activation) (tokens : List Token) :
    s.flavorText flavor activation (tokens.map Token.shown) =
      s.flavorText flavor activation tokens := by
  have hblocks : s.flavorBlocks flavor activation (tokens.map Token.shown) =
      s.flavorBlocks flavor activation tokens := by
    cases activation <;>
      simp only [flavorBlocks, mediaBlock, manualBlock, mediaRule, rule_shown]
  rw [flavorText, flavorText, hblocks]

end Stylesheet

end Written

/-- What is written about tokens is the same for others of which the same is shown. -/
theorem eq_of_shown_eq {α : Type} {f : List Token → α} {tokens tokens' : List Token}
    (hf : ∀ ts, f (ts.map Token.shown) = f ts)
    (h : tokens.map Token.shown = tokens'.map Token.shown) : f tokens = f tokens' := by
  rw [← hf tokens, h, hf]

namespace RawToken

/-- What is left of a token when values of other layers are not looked at. -/
def hidden (raw : RawToken) : RawToken :=
  if raw.isSource then raw else { raw with value := .null }

theorem hidden_isSource (raw : RawToken) : raw.hidden.isSource = raw.isSource := by
  rw [hidden]
  split <;> rfl

/-- What is shown of the token that a token of the layer itself becomes. -/
def shown (raw : RawToken) : Token :=
  ⟨raw.path, if hasReference raw.value.sourceText then .null else raw.value.filled fun _ => .null,
    raw.value.sourceText, raw.file, raw.isSource⟩

end RawToken

namespace RawTokens

variable {tokens tokens' : RawTokens} {d d' : Dictionary}

/-- Tokens without the values of other layers. -/
def hidden (tokens : RawTokens) : RawTokens :=
  tokens.map (Prod.map id RawToken.hidden)

theorem hidden_add_source (tokens : RawTokens) (p : Path)
    (found : List (List String × Json.Value)) :
    (tokens.add p true found).hidden = tokens.hidden.add p true found := by
  refine (List.foldl_hom hidden fun acc leaf => Eq.symm ?_).symm
  exact Keyed.map_put

theorem hidden_add_dependency (tokens : RawTokens) (p : Path)
    (found : List (List String × Json.Value)) :
    (tokens.add p false found).hidden =
      tokens.hidden.add p false ((found.map Prod.fst).map fun path => (path, .null)) := by
  rw [add, add, List.foldl_map, List.foldl_map]
  refine (List.foldl_hom hidden fun acc leaf => Eq.symm ?_).symm
  exact Keyed.map_put

/-- The tokens of a layer itself, as far as they show. -/
def shownSources (tokens : RawTokens) : List Token :=
  (tokens.filter fun entry => entry.2.isSource).map fun entry => entry.2.shown

theorem shownSources_hidden (tokens : RawTokens) : tokens.hidden.shownSources = tokens.shownSources := by
  have hkeeps : (fun entry : String × RawToken => entry.2.isSource) ∘ Prod.map id RawToken.hidden =
      fun entry => entry.2.isSource :=
    funext fun entry => entry.2.hidden_isSource
  rw [shownSources, shownSources, hidden, List.filter_map, List.map_map, hkeeps]
  refine List.map_congr_left fun entry hentry => ?_
  change entry.2.hidden.shown = entry.2.shown
  rw [RawToken.hidden, if_pos (List.mem_filter.mp hentry).2]

/-- What a dictionary shows of the layer's own tokens can be told without the values of others. A
token whose value took something from another one has references. -/
theorem Holds.shown_sources (h : tokens.Holds d) :
    d.sources.map Token.shown = tokens.shownSources := by
  rw [Dictionary.sources, h.tokens_eq, List.filter_map, List.map_map, shownSources]
  refine List.map_congr_left fun entry hentry => ?_
  have hraw : Keyed.get? entry.1 tokens = some entry.2 :=
    Keyed.get?_of_mem h.indexed.nodup (List.mem_filter.mp hentry).1
  have hvalue := (h.means entry (List.mem_filter.mp hentry).1).eq_filled hraw
  change (tokens.resolvedToken entry).shown = entry.2.shown
  rw [Token.shown, RawToken.shown]
  change (if hasReference entry.2.value.sourceText then _ else _) = _
  split
  · rfl
  · rename_i hplain
    have hnone := placeholders_eq_nil_of_not_hasReference (Bool.not_eq_true _ ▸ hplain)
    rw [resolvedToken, hvalue, filled_congr (g := fun _ => .null) entry.2.value]
    rw [hnone]
    exact fun _ hpath => absurd hpath List.not_mem_nil

theorem shown_sources_congr (h : tokens.Holds d) (h' : tokens'.Holds d')
    (hhidden : tokens.hidden = tokens'.hidden) :
    d.sources.map Token.shown = d'.sources.map Token.shown := by
  rw [h.shown_sources, h'.shown_sources, ← shownSources_hidden, hhidden, shownSources_hidden]

end RawTokens

/-- The paths of the tokens in a text, in document order, if it is a token document. -/
def declaredIn (text : String) : Option (List (List String)) :=
  match Json.parse text with
  | .error _ => none
  | .ok document => (leaves document).toOption.map (·.map Prod.fst)

theorem declaredIn_of_documentTokens {p : Path} {text : String}
    {found : List (List String × Json.Value)} (h : documentTokens p text = .ok found) :
    declaredIn text = some (found.map Prod.fst) := by
  rw [documentTokens] at h
  rw [declaredIn]
  cases hparse : Json.parse text with
  | error e =>
      rw [hparse] at h
      cases h
  | ok document =>
      rw [hparse] at h
      dsimp only at h ⊢
      cases hleaves : leaves document with
      | error e =>
          rw [hleaves] at h
          cases h
      | ok leaves =>
          rw [hleaves] at h
          rw [← Except.ok.inj h]
          rfl

namespace Place

variable {w v : Place} {dependencies sources : List Path}

/-- Places in which the dependencies of a layer declare the same paths, and its own files are the
same. Only files that can be read in both are compared. -/
structure Masked (dependencies sources : List Path) (w v : Place) : Prop where
  dependencies : ∀ p ∈ dependencies, ∀ text text', w.readText p = .ok text →
    v.readText p = .ok text' → declaredIn text = declaredIn text'
  sources : ∀ p ∈ sources, ∀ text text', w.readText p = .ok text → v.readText p = .ok text' →
    text = text'

theorem loaded_cons_eq_ok {isSource : Bool} {tokens out : RawTokens} {p : Path} {rest : List Path} :
    w.loaded isSource tokens (p :: rest) = .ok out ↔
      ∃ text found, w.readText p = .ok text ∧ documentTokens p text = .ok found ∧
        w.loaded isSource (tokens.add p isSource found) rest = .ok out := by
  constructor
  · intro h
    rw [loaded] at h
    split at h
    · cases h
    · split at h
      · cases h
      · rename_i text htext _ found hfound
        exact ⟨text, found, htext, hfound, h⟩
  · rintro ⟨text, found, htext, hfound, h⟩
    rw [loaded, htext]
    dsimp only
    rw [hfound]
    exact h

/-- Loading agrees but for hidden values if the documents of each file add the same but for them. -/
theorem hidden_loaded {isSource : Bool} {paths : List Path} {tokens tokens' out out' : RawTokens}
    (h : ∀ p ∈ paths, ∀ text text' found found', w.readText p = .ok text →
      v.readText p = .ok text' → documentTokens p text = .ok found →
      documentTokens p text' = .ok found' → ∀ before before' : RawTokens,
        before.hidden = before'.hidden →
        (before.add p isSource found).hidden = (before'.add p isSource found').hidden)
    (htokens : tokens.hidden = tokens'.hidden) (hout : w.loaded isSource tokens paths = .ok out)
    (hout' : v.loaded isSource tokens' paths = .ok out') : out.hidden = out'.hidden := by
  induction paths generalizing tokens tokens' with
  | nil =>
      obtain rfl := Except.ok.inj hout
      obtain rfl := Except.ok.inj hout'
      exact htokens
  | cons p rest ih =>
      obtain ⟨hp, hrest⟩ := List.forall_mem_cons.mp h
      obtain ⟨text, found, htext, hfound, hout⟩ := loaded_cons_eq_ok.mp hout
      obtain ⟨text', found', htext', hfound', hout'⟩ := loaded_cons_eq_ok.mp hout'
      have hadd := hp text text' found found' htext htext' hfound hfound' tokens tokens' htokens
      exact ih hrest hadd hout hout'

theorem Masked.hidden_collected (h : Masked dependencies sources w v) {tokens tokens' : RawTokens}
    (hw : w.collected dependencies sources = .ok tokens)
    (hv : v.collected dependencies sources = .ok tokens') : tokens.hidden = tokens'.hidden := by
  rw [collected] at hw hv
  split at hw
  · cases hw
  rename_i before hbefore
  split at hv
  · cases hv
  rename_i before' hbefore'
  have hdependencies : before.hidden = before'.hidden := by
    refine hidden_loaded ?_ rfl hbefore hbefore'
    intro p hp text text' found found' htext htext' hfound hfound' ts ts' hts
    have hpaths := h.dependencies p hp text text' htext htext'
    rw [declaredIn_of_documentTokens hfound, declaredIn_of_documentTokens hfound',
      Option.some.injEq] at hpaths
    rw [RawTokens.hidden_add_dependency, RawTokens.hidden_add_dependency, hts, hpaths]
  refine hidden_loaded ?_ hdependencies hw hv
  intro p hp text text' found found' htext htext' hfound hfound' ts ts' hts
  obtain rfl := h.sources p hp text text' htext htext'
  obtain rfl := Except.ok.inj (hfound.symm.trans hfound')
  rw [RawTokens.hidden_add_source, RawTokens.hidden_add_source, hts]

/-- Dictionaries of masked places show the same of the layer's own tokens. -/
theorem Masked.shown_sources (h : Masked dependencies sources w v) {d d' : Dictionary}
    (hw : w.dictionary dependencies sources = .ok d)
    (hv : v.dictionary dependencies sources = .ok d') :
    d.sources.map Token.shown = d'.sources.map Token.shown := by
  have hcollected : ∀ {x : Place} {e : Dictionary}, x.dictionary dependencies sources = .ok e →
      ∃ tokens, x.collected dependencies sources = .ok tokens ∧ tokens.Holds e := fun {x _} hx =>
    RawTokens.exists_holds (w := ⟨x, 0, 0, []⟩) (by rw [exec_resolveFiles, hx])
  obtain ⟨tokens, htokens, hholds⟩ := hcollected hw
  obtain ⟨tokens', htokens', hholds'⟩ := hcollected hv
  exact RawTokens.shown_sources_congr hholds hholds' (h.hidden_collected htokens htokens')

end Place

end DesignTokens
