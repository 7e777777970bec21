import DesignTokens.Proofs.Style.Matching

/-!
Which elements get the declarations of a flavor, and which declarations win. An element belongs to one
flavor at most, and where a mode is chosen by hand for it, the selectors of the mode are more specific
than those of the flavor.
-/

namespace DesignTokens

namespace Css

/-- Values that need no escapes between double quotes. -/
def IsPlain (value : String) : Prop :=
  '"' ∉ value.toList ∧ '\\' ∉ value.toList

instance (value : String) : Decidable (IsPlain value) :=
  inferInstanceAs (Decidable (_ ∧ _))

/-- Such values on one line. -/
def IsLine (value : String) : Prop :=
  IsPlain value ∧ value.toList.any isLineBreak = false

theorem all_isValueChar_of_isPlain {value : String} (h : IsPlain value) :
    value.toList.all isValueChar := by
  rw [List.all_eq_true]
  intro c hc
  simp only [isValueChar, Bool.and_eq_true, decide_eq_true_eq]
  exact ⟨fun heq => h.1 (heq ▸ hc), fun heq => h.2 (heq ▸ hc)⟩

theorem toList_attributeIs (name value : String) :
    (Selectors.attributeIs name value).toList = attributeText name.toList value.toList := by
  simp [Selectors.attributeIs, attributeText]

end Css

namespace Selectors

open Css

variable {s : Selectors} {f a : String} {root : List Simple}

theorem toList_unflavored (s : Selectors) :
    s.unflavored.toList = lacksText s.flavorAttribute.toList := by
  simp [unflavored, lacksText]

section Scans

variable {r : Reader} {name value : String} (hr : r.isClosed) (hname : isIdentifier name.toList)

include hr hname

theorem scan_attributeIs (hvalue : IsPlain value) (cs : List Char) :
    r.scan ((attributeIs name value).toList ++ cs) =
      if value.toList.any isLineBreak then none
      else (r.withPart (attributeText name.toList value.toList)).scan cs := by
  rw [toList_attributeIs, Reader.scan_attributeText hr (all_isNameChar_of_isIdentifier hname)
    (all_isValueChar_of_isPlain hvalue)]

/-- What can be read after a value shows that the value is on one line. -/
theorem isLine_of_scan (hvalue : IsPlain value) {cs : List Char} {r' : Reader}
    (h : r.scan ((attributeIs name value).toList ++ cs) = some r') : IsLine value := by
  refine ⟨hvalue, Bool.eq_false_iff.mpr fun hline => ?_⟩
  rw [scan_attributeIs hr hname hvalue, if_pos hline] at h
  exact absurd h nofun

theorem scan_attributeIs_of_isLine (hvalue : IsLine value) (cs : List Char) :
    r.scan ((attributeIs name value).toList ++ cs) =
      (r.withPart (attributeText name.toList value.toList)).scan cs := by
  rw [scan_attributeIs hr hname hvalue.1, hvalue.2, if_neg Bool.false_ne_true]

theorem scan_attributeIs_last (hvalue : IsLine value) :
    r.scan (attributeIs name value).toList =
      some (r.withPart (attributeText name.toList value.toList)) := by
  have hscan := scan_attributeIs_of_isLine hr hname hvalue []
  rwa [List.append_nil] at hscan

omit hname in
theorem scan_unflavored (hflavor : isIdentifier s.flavorAttribute.toList) :
    r.scan s.unflavored.toList = some (r.withPart (lacksText s.flavorAttribute.toList)) := by
  have hscan := Reader.scan_lacksText hr (all_isNameChar_of_isIdentifier hflavor) []
  rw [List.append_nil] at hscan
  rwa [toList_unflavored]

end Scans

section Readings

variable (hflavor : isIdentifier s.flavorAttribute.toList)
  (hmode : isIdentifier s.modeAttribute.toList) (hroot : readCompound s.root = some root)
  (hf : IsLine f) (ha : IsLine a)

theorem simpleOf_attributeIs {name value : String} (hname : isIdentifier name.toList)
    (hvalue : IsPlain value) :
    simpleOf (attributeText name.toList value.toList) = .attribute (.is name value) := by
  rw [simpleOf_attributeText hname (all_isValueChar_of_isPlain hvalue), String.ofList_toList,
    String.ofList_toList]

include hflavor

theorem simpleOf_unflavored :
    simpleOf (lacksText s.flavorAttribute.toList) = .lacks (.has s.flavorAttribute) := by
  rw [simpleOf_lacksText hflavor, String.ofList_toList]

include hf in
theorem read_explicit :
    read (s.explicit f) = some ⟨[.attribute (.is s.flavorAttribute f)], []⟩ := by
  rw [explicit, read_of_scan_withPart (scan_attributeIs_last rfl hflavor hf) attributeText_ne_nil
    isUnfinished_attributeText, simpleOf_attributeIs hflavor hf.1]
  rfl

include hroot in
theorem read_unflavored :
    read (s.root ++ s.unflavored) = some ⟨root ++ [.lacks (.has s.flavorAttribute)], []⟩ := by
  obtain ⟨r, hr, hclosed, haround, rfl⟩ := exists_scan_of_readCompound hroot
  have hscan : Reader.start.scan (s.root ++ s.unflavored).toList =
      some (r.withPart (lacksText s.flavorAttribute.toList)) := by
    rw [String.toList_append, Reader.scan_append, hr, Option.bind_some,
      scan_unflavored hclosed hflavor]
  rw [read_of_scan_withPart hscan lacksText_ne_nil isUnfinished_lacksText,
    simpleOf_unflavored hflavor, haround, List.map_nil]

include hmode ha

include hroot in
theorem read_root_pinned :
    read (s.root ++ s.pinned a ++ s.unflavored) = some ⟨root ++ [.attribute (.is s.modeAttribute a),
      .lacks (.has s.flavorAttribute)], []⟩ := by
  obtain ⟨r, hr, hclosed, haround, rfl⟩ := exists_scan_of_readCompound hroot
  have hscan : Reader.start.scan (s.root ++ s.pinned a ++ s.unflavored).toList =
      some ((r.withPart (attributeText s.modeAttribute.toList a.toList)).withPart
        (lacksText s.flavorAttribute.toList)) := by
    rw [String.toList_append, String.toList_append, List.append_assoc, Reader.scan_append, hr,
      Option.bind_some, pinned, scan_attributeIs_of_isLine hclosed hmode ha,
      scan_unflavored (Reader.isClosed_withPart isUnfinished_attributeText) hflavor]
  have harounds : (r.withPart (attributeText s.modeAttribute.toList a.toList)).around = [] := haround
  rw [read_of_scan_withPart hscan lacksText_ne_nil isUnfinished_lacksText,
    simpleOf_unflavored hflavor, compoundOf_texts_withPart attributeText_ne_nil,
    simpleOf_attributeIs hmode ha.1, harounds, List.append_assoc, List.map_nil,
    List.singleton_append]

include hf

theorem read_explicit_pinned :
    read (s.explicit f ++ s.pinned a) = some ⟨[.attribute (.is s.flavorAttribute f),
      .attribute (.is s.modeAttribute a)], []⟩ := by
  have hscan : Reader.start.scan (s.explicit f ++ s.pinned a).toList =
      some ((Reader.start.withPart (attributeText s.flavorAttribute.toList f.toList)).withPart
        (attributeText s.modeAttribute.toList a.toList)) := by
    rw [String.toList_append, explicit, scan_attributeIs_of_isLine rfl hflavor hf, pinned,
      scan_attributeIs_last (Reader.isClosed_withPart isUnfinished_attributeText) hmode ha]
  rw [read_of_scan_withPart hscan attributeText_ne_nil isUnfinished_attributeText,
    compoundOf_texts_withPart attributeText_ne_nil, simpleOf_attributeIs hflavor hf.1,
    simpleOf_attributeIs hmode ha.1]
  rfl

theorem read_pinned_explicit :
    read (s.pinned a ++ " " ++ s.explicit f) = some ⟨[.attribute (.is s.flavorAttribute f)],
      [[.attribute (.is s.modeAttribute a)]]⟩ := by
  have hscan : Reader.start.scan (s.pinned a ++ " " ++ s.explicit f).toList =
      some (Reader.withPart ⟨[[attributeText s.modeAttribute.toList a.toList]], [], [], [], none, .off⟩
        (attributeText s.flavorAttribute.toList f.toList)) := by
    have hblank : " ".toList ++ (s.explicit f).toList = ' ' :: (s.explicit f).toList := rfl
    rw [String.toList_append, String.toList_append, List.append_assoc, pinned, hblank,
      scan_attributeIs_of_isLine rfl hmode ha, Reader.scan_blank isUnfinished_attributeText,
      Reader.compounds_withPart attributeText_ne_nil, explicit, scan_attributeIs_last rfl hflavor hf]
    rfl
  have hcompound : compoundOf [attributeText s.modeAttribute.toList a.toList] =
      [.attribute (.is s.modeAttribute a)] := by
    rw [compoundOf, List.map_singleton, simpleOf_attributeIs hmode ha.1]
  rw [read_of_scan_withPart hscan attributeText_ne_nil isUnfinished_attributeText,
    simpleOf_attributeIs hflavor hf.1, List.map_singleton, hcompound]
  rfl

end Readings

section Weights

variable {E : Type} {d : Document E} {e : E} {v w : Specificity}

/-- The ways an element gets the declarations of a flavor, by the weight of the selector. -/
inductive ByFlavor (s : Selectors) (d : Document E) (root : List Simple) (e : E) (f : String) :
    Specificity → Prop
  | implicit (hdefault : s.isDefaultFlavor f) (hnone : d.attributeOf e s.flavorAttribute = none)
      (hall : d.IsAll e root) : ByFlavor s d root e f (d.compoundWeight root + attributeWeight)
  | explicit (hsome : d.attributeOf e s.flavorAttribute = some f) :
      ByFlavor s d root e f attributeWeight

/-- The ways it gets those of a mode: the choice is made on the element, or around it. -/
inductive ByMode (s : Selectors) (d : Document E) (root : List Simple) (e : E) (f a : String) :
    Specificity → Prop
  | pinned {w : Specificity} (hflavor : ByFlavor s d root e f w)
      (hmode : d.attributeOf e s.modeAttribute = some a) :
      ByMode s d root e f a (w + attributeWeight)
  | inside {x : E} (hdefault : s.isDefaultFlavor f)
      (hsome : d.attributeOf e s.flavorAttribute = some f) (haround : d.Around x e)
      (hmode : d.attributeOf x s.modeAttribute = some a) :
      ByMode s d root e f a (attributeWeight + attributeWeight)

theorem byFlavor_iff :
    ByFlavor s d root e f w ↔
      s.isDefaultFlavor f ∧ (d.IsAll e root ∧ d.attributeOf e s.flavorAttribute = none) ∧
          d.compoundWeight root + attributeWeight = w ∨
        d.attributeOf e s.flavorAttribute = some f ∧ attributeWeight = w := by
  constructor
  · intro h
    cases h with
    | implicit hdefault hnone hall => exact .inl ⟨hdefault, ⟨hall, hnone⟩, rfl⟩
    | explicit hsome => exact .inr ⟨hsome, rfl⟩
  · rintro (⟨hdefault, ⟨hall, hnone⟩, rfl⟩ | ⟨hsome, rfl⟩)
    · exact .implicit hdefault hnone hall
    · exact .explicit hsome

theorem byMode_iff :
    ByMode s d root e f a w ↔
      s.isDefaultFlavor f ∧ (d.IsAll e root ∧ d.attributeOf e s.modeAttribute = some a ∧
            d.attributeOf e s.flavorAttribute = none) ∧
          d.compoundWeight root + (attributeWeight + attributeWeight) = w ∨
        (d.attributeOf e s.flavorAttribute = some f ∧ d.attributeOf e s.modeAttribute = some a) ∧
          attributeWeight + attributeWeight = w ∨
        s.isDefaultFlavor f ∧ (d.attributeOf e s.flavorAttribute = some f ∧
            ∃ x, d.Around x e ∧ d.attributeOf x s.modeAttribute = some a) ∧
          attributeWeight + attributeWeight = w := by
  constructor
  · intro h
    cases h with
    | pinned hflavor hmode =>
        cases hflavor with
        | implicit hdefault hnone hall =>
            exact .inl ⟨hdefault, ⟨hall, hmode, hnone⟩, (add_assoc _ _ _).symm⟩
        | explicit hsome => exact .inr (.inl ⟨⟨hsome, hmode⟩, rfl⟩)
    | inside hdefault hsome haround hmode =>
        exact .inr (.inr ⟨hdefault, ⟨hsome, _, haround, hmode⟩, rfl⟩)
  · rintro (⟨hdefault, ⟨hall, hmode, hnone⟩, rfl⟩ | ⟨⟨hsome, hmode⟩, rfl⟩ |
      ⟨hdefault, ⟨hsome, x, haround, hmode⟩, rfl⟩)
    · rw [← add_assoc]
      exact .pinned (.implicit hdefault hnone hall) hmode
    · exact .pinned (.explicit hsome) hmode
    · exact .inside hdefault hsome haround hmode

/-- An element gets the declarations of one flavor at most. -/
theorem ByFlavor.unique {g : String} (h : ByFlavor s d root e f v) (h' : ByFlavor s d root e g w) :
    f = g ∧ v = w := by
  cases h with
  | implicit hdefault hnone _ =>
      cases h' with
      | implicit hdefault' _ _ =>
          exact ⟨(eq_of_beq hdefault).trans (eq_of_beq hdefault').symm, rfl⟩
      | explicit hsome => exact absurd (hsome.symm.trans hnone) nofun
  | explicit hsome =>
      cases h' with
      | implicit _ hnone _ => exact absurd (hsome.symm.trans hnone) nofun
      | explicit hsome' => exact ⟨Option.some.inj (hsome.symm.trans hsome'), rfl⟩

/-- Where a mode comes to an element, so does the flavor, with one condition less. -/
theorem ByMode.exists_byFlavor (h : ByMode s d root e f a w) :
    ∃ v, ByFlavor s d root e f v ∧ w = v + attributeWeight := by
  cases h with
  | pinned hflavor _ => exact ⟨_, hflavor, rfl⟩
  | inside _ hsome _ _ => exact ⟨_, .explicit hsome, rfl⟩

theorem ByMode.exists_pinned (h : ByMode s d root e f a w) :
    ∃ x, (x = e ∨ d.Around x e) ∧ d.attributeOf x s.modeAttribute = some a := by
  cases h with
  | pinned _ hmode => exact ⟨e, .inl rfl, hmode⟩
  | inside _ _ haround hmode => exact ⟨_, .inr haround, hmode⟩

variable (hflavor : isIdentifier s.flavorAttribute.toList)
  (hmode : isIdentifier s.modeAttribute.toList) (hroot : readCompound s.root = some root)
  (hf : IsPlain f) (ha : IsPlain a)

include hflavor hf

theorem isLine_of_mem_weights_forFlavor (h : w ∈ d.weights (s.forFlavor f) e) : IsLine f := by
  obtain ⟨selector, hread, -⟩ := h.1 (s.explicit f) (by rw [forFlavor]; split <;> simp)
  obtain ⟨r, hscan⟩ := exists_scan_of_read hread
  rw [← List.append_nil (s.explicit f).toList] at hscan
  exact isLine_of_scan rfl hflavor hf hscan

include hmode ha in
theorem isLine_of_mem_weights_forMode (h : w ∈ d.weights (s.forMode f a) e) :
    IsLine f ∧ IsLine a := by
  obtain ⟨selector, hread, -⟩ :=
    h.1 (s.explicit f ++ s.pinned a) (by rw [forMode]; split <;> simp)
  obtain ⟨r, hscan⟩ := exists_scan_of_read hread
  rw [String.toList_append] at hscan
  have hline := isLine_of_scan rfl hflavor hf hscan
  rw [explicit, scan_attributeIs_of_isLine rfl hflavor hline,
    ← List.append_nil (s.pinned a).toList] at hscan
  exact ⟨hline, isLine_of_scan (Reader.isClosed_withPart isUnfinished_attributeText) hmode ha hscan⟩

include hroot

theorem mem_weights_forFlavor_iff :
    w ∈ d.weights (s.forFlavor f) e ↔
      IsLine f ∧ (s.isDefaultFlavor f → d.Known root) ∧ ByFlavor s d root e f w := by
  -- A list with a flavor on several lines cannot be read and so matches nothing.
  by_cases hline : IsLine f
  · rw [forFlavor]
    split
    · rename_i hdefault
      rw [Document.mem_weights_iff [⟨root ++ [.lacks (.has s.flavorAttribute)], []⟩,
        ⟨[.attribute (.is s.flavorAttribute f)], []⟩]]
      · simp [hline, hdefault, byFlavor_iff]
      · rw [List.map_cons, List.map_singleton, read_explicit hflavor hline,
          read_unflavored hflavor hroot]
        rfl
    · rename_i hdefault
      rw [Document.mem_weights_iff [⟨[.attribute (.is s.flavorAttribute f)], []⟩]]
      · simp [hline, hdefault, byFlavor_iff]
      · rw [List.map_singleton, read_explicit hflavor hline]
        rfl
  · exact iff_of_false (fun h => hline (isLine_of_mem_weights_forFlavor hflavor hf h))
      fun h => hline h.1

include hmode ha

theorem mem_weights_forMode_iff :
    w ∈ d.weights (s.forMode f a) e ↔
      IsLine f ∧ IsLine a ∧ (s.isDefaultFlavor f → d.Known root) ∧ ByMode s d root e f a w := by
  by_cases hlines : IsLine f ∧ IsLine a
  · obtain ⟨hline, hmodeLine⟩ := hlines
    rw [forMode]
    split
    · rename_i hdefault
      rw [Document.mem_weights_iff [
        ⟨root ++ [.attribute (.is s.modeAttribute a), .lacks (.has s.flavorAttribute)], []⟩,
        ⟨[.attribute (.is s.flavorAttribute f), .attribute (.is s.modeAttribute a)], []⟩,
        ⟨[.attribute (.is s.flavorAttribute f)], [[.attribute (.is s.modeAttribute a)]]⟩]]
      · simp [hline, hmodeLine, hdefault, byMode_iff]
      · rw [List.map_cons, List.map_cons, List.map_singleton,
          read_root_pinned hflavor hmode hroot hmodeLine,
          read_explicit_pinned hflavor hmode hline hmodeLine,
          read_pinned_explicit hflavor hmode hline hmodeLine]
        rfl
    · rename_i hdefault
      rw [Document.mem_weights_iff [⟨[.attribute (.is s.flavorAttribute f),
        .attribute (.is s.modeAttribute a)], []⟩]]
      · simp [hline, hmodeLine, hdefault, byMode_iff]
      · rw [List.map_singleton, read_explicit_pinned hflavor hmode hline hmodeLine]
        rfl
  · exact iff_of_false (fun h => hlines (isLine_of_mem_weights_forMode hflavor hmode hf ha h))
      fun h => hlines ⟨h.1, h.2.1⟩

omit hmode ha in
theorem isGreatest_weights_forFlavor (h : w ∈ d.weights (s.forFlavor f) e) :
    IsGreatest (d.weights (s.forFlavor f) e) w := by
  refine ⟨h, fun v hv => ?_⟩
  rw [mem_weights_forFlavor_iff hflavor hroot hf] at h hv
  exact (hv.2.2.unique h.2.2).2.le

theorem isGreatest_weights_forMode (h : w ∈ d.weights (s.forMode f a) e) :
    IsGreatest (d.weights (s.forMode f a) e) w := by
  refine ⟨h, fun v hv => ?_⟩
  rw [mem_weights_forMode_iff hflavor hmode hroot hf ha] at h hv
  obtain ⟨low, hlow, rfl⟩ := h.2.2.2.exists_byFlavor
  obtain ⟨low', hlow', rfl⟩ := hv.2.2.2.exists_byFlavor
  rw [(hlow'.unique hlow).2]

theorem exists_byFlavor_of_selects
    (h : d.Selects (s.forFlavor f) e ∨ d.Selects (s.forMode f a) e) :
    ∃ w, ByFlavor s d root e f w := by
  rcases h with ⟨w, hw⟩ | ⟨w, hw⟩
  · exact ⟨w, ((mem_weights_forFlavor_iff hflavor hroot hf).mp hw).2.2⟩
  · obtain ⟨-, -, -, hby⟩ := (mem_weights_forMode_iff hflavor hmode hroot hf ha).mp hw
    obtain ⟨v, hv, -⟩ := hby.exists_byFlavor
    exact ⟨v, hv⟩

end Weights

/-- Under the rules of matching, no element gets the declarations of two flavors. Where it gets those
of a mode chosen by hand, it gets those of the flavor as well, the choice is made on the element or
around it, and the most specific selector of the mode wins over that of the flavor. -/
theorem flavors_apart_and_modes_win {E : Type} (d : Document E) (e : E) (s : Selectors)
    {root : List Simple} (hroot : readCompound s.root = some root)
    (hflavor : isIdentifier s.flavorAttribute.toList)
    (hmode : isIdentifier s.modeAttribute.toList) :
    (∀ f g, f ≠ g → IsPlain f → IsPlain g → ∀ a b, IsPlain a → IsPlain b →
      d.Selects (s.forFlavor f) e ∨ d.Selects (s.forMode f a) e →
      ¬ (d.Selects (s.forFlavor g) e ∨ d.Selects (s.forMode g b) e)) ∧
    ∀ f a, IsPlain f → IsPlain a → d.Selects (s.forMode f a) e →
      d.Selects (s.forFlavor f) e ∧
      (∃ x, (x = e ∨ d.Around x e) ∧ d.attributeOf x s.modeAttribute = some a) ∧
      ∃ high low, IsGreatest (d.weights (s.forMode f a) e) high ∧
        IsGreatest (d.weights (s.forFlavor f) e) low ∧ low < high := by
  refine ⟨fun f g hne hf hg a b ha hb h h' => ?_, fun f a hf ha h => ?_⟩
  · obtain ⟨_, hby⟩ := exists_byFlavor_of_selects hflavor hmode hroot hf ha h
    obtain ⟨_, hby'⟩ := exists_byFlavor_of_selects hflavor hmode hroot hg hb h'
    exact hne (hby.unique hby').1
  · obtain ⟨high, hhigh⟩ := h
    obtain ⟨hline, -, hknown, hby⟩ :=
      (mem_weights_forMode_iff hflavor hmode hroot hf ha).mp hhigh
    obtain ⟨low, hbyFlavor, rfl⟩ := hby.exists_byFlavor
    have hlow : low ∈ d.weights (s.forFlavor f) e :=
      (mem_weights_forFlavor_iff hflavor hroot hf).mpr ⟨hline, hknown, hbyFlavor⟩
    exact ⟨⟨low, hlow⟩, hby.exists_pinned, _, low,
      isGreatest_weights_forMode hflavor hmode hroot hf ha hhigh,
      isGreatest_weights_forFlavor hflavor hroot hf hlow, lt_add_of_pos_right _ attributeWeight_pos⟩

/-- A page whose root chooses the mode `dark`, and in it an element with the flavor `original`. -/
def themedPage : Document Bool :=
  { attributeOf := fun isRoot name =>
      if isRoot then if name = "flavor-mode" then some "dark" else none
      else if name = "flavor" then some "original" else none
    parent := fun isRoot => if isRoot then none else some true
    knows := fun _ => True
    holds := fun text isRoot => text = ":root" ∧ isRoot = true
    weight := fun _ => attributeWeight }

theorem flavors_apart_and_modes_win_page :
    (readCompound standard.root = some [.other ":root"] ∧
      isIdentifier standard.flavorAttribute.toList ∧ isIdentifier standard.modeAttribute.toList ∧
      "original" ≠ "strawberry" ∧ IsPlain "original" ∧ IsPlain "strawberry" ∧ IsPlain "dark" ∧
      themedPage.Selects (standard.forMode "original" "dark") false) ∧
    ¬ (themedPage.Selects (standard.forFlavor "strawberry") false ∨
      themedPage.Selects (standard.forMode "strawberry" "dark") false) ∧
    themedPage.Selects (standard.forFlavor "original") false ∧
    ∃ high low, IsGreatest (themedPage.weights (standard.forMode "original" "dark") false) high ∧
      IsGreatest (themedPage.weights (standard.forFlavor "original") false) low ∧ low < high := by
  have hroot : readCompound standard.root = some [.other ":root"] := by decide +kernel
  have hflavor : isIdentifier standard.flavorAttribute.toList := by decide +kernel
  have hmode : isIdentifier standard.modeAttribute.toList := by decide +kernel
  have hne : "original" ≠ "strawberry" := by decide
  have horiginal : IsLine "original" := ⟨by decide +kernel, by decide +kernel⟩
  have hdark : IsLine "dark" := ⟨by decide +kernel, by decide +kernel⟩
  have hstrawberry : IsPlain "strawberry" := by decide +kernel
  have hselects : themedPage.Selects (standard.forMode "original" "dark") false := by
    refine ⟨attributeWeight + attributeWeight,
      (mem_weights_forMode_iff hflavor hmode hroot horiginal.1 hdark.1).mpr
        ⟨horiginal, hdark, fun _ _ _ => trivial, ?_⟩⟩
    exact .inside (x := true) rfl rfl (.single rfl) rfl
  obtain ⟨hapart, hwin⟩ := flavors_apart_and_modes_win themedPage false standard hroot hflavor hmode
  obtain ⟨hflavors, -, hweights⟩ := hwin "original" "dark" horiginal.1 hdark.1 hselects
  exact ⟨⟨hroot, hflavor, hmode, hne, horiginal.1, hstrawberry, hdark.1, hselects⟩,
    hapart _ _ hne horiginal.1 hstrawberry _ _ hdark.1 hdark.1 (.inr hselects), hflavors, hweights⟩

end Selectors

end DesignTokens
