import DesignTokens.Proofs.Layer.Emission

/-!
What a run that writes typed modules leaves. A file has what was written last in its place: the index
is written last of all, and modules stay unless a later file goes to the same place.
-/

namespace DesignTokens

open Job

/-- A body that ends in a line break stands in a generated file as it is. -/
theorem Generated.contents_eq {stamp body : String} (h : body.toList.getLast? = some '\n') :
    contents stamp body = header stamp ++ "\n" ++ body := by
  have hlast : (header stamp ++ "\n" ++ body).toList.getLast? = some '\n' := by
    rw [String.toList_append, List.getLast?_append, h, Option.some_or]
  rw [contents, endLine, if_pos hlast]

theorem exec_generated_eq {p q : Path} {stamp body : String} {x after : Workspace}
    (h : exec (Generated.write p stamp body) x = (.ok q, after)) : q = p := by
  obtain ⟨_, _, _, hreturn⟩ := exec_bind_eq_ok.mp h
  rw [exec_pure] at hreturn
  obtain ⟨hvalue, -⟩ := Prod.mk.inj hreturn
  exact (Except.ok.inj hvalue).symm

theorem place_of_exec_report {notices : List Notice} {u : Unit} {x after : Workspace}
    (h : exec (report notices : Job TokenError Unit) x = (.ok u, after)) : after.place = x.place := by
  rw [exec_report] at h
  exact congrArg (Workspace.place ∘ Prod.snd) h.symm

namespace ModuleName

theorem getLast?_append_line (front : String) {line : String}
    (h : line.toList.getLast? = some '\n') : (front ++ line).toList.getLast? = some '\n' := by
  rw [String.toList_append, List.getLast?_append, h, Option.some_or]

theorem getLast?_render (name : ModuleName) (tree : Json.Value) :
    (name.render tree).toList.getLast? = some '\n' :=
  getLast?_append_line _ (by decide)

theorem getLast?_exportLines (keyword : String) (exported : ModuleName → String)
    {names : List ModuleName} (h : names ≠ []) :
    (exportLines keyword exported names).toList.getLast? = some '\n' := by
  induction names with
  | nil => exact absurd rfl h
  | cons name rest ih =>
      rw [exportLines]
      cases rest with
      | nil =>
          rw [exportLines, String.append_empty]
          exact getLast?_append_line _ (by decide)
      | cons next rest => exact getLast?_append_line _ (ih (List.cons_ne_nil next rest))

/-- The lines of an index: one for each constant, an empty one, and one for each type. -/
def indexLines (names : List ModuleName) : List String :=
  names.map (fun name =>
      "export \x7b " ++ name.constant ++ " \x7d from './" ++ name.category ++ "';\n") ++
    "\n" :: names.map fun name =>
      "export type \x7b " ++ name.type ++ " \x7d from './" ++ name.category ++ "';\n"

theorem exportLines_append (keyword : String) (exported : ModuleName → String)
    (names : List ModuleName) (more : List String) :
    exportLines keyword exported names ++ Text.join "" more =
      Text.join "" (names.map (fun name => keyword ++ " \x7b " ++ exported name ++ " \x7d from './" ++
        name.category ++ "';\n") ++ more) := by
  induction names with
  | nil => exact String.empty_append
  | cons name rest ih =>
      rw [exportLines, String.append_assoc, ih, List.map_cons, List.cons_append, Text.join_empty_cons]

theorem renderIndex_eq (names : List ModuleName) :
    renderIndex names = Text.join "" (indexLines names) := by
  have htypes := exportLines_append "export type" type names []
  rw [Text.join, String.append_empty, List.append_nil] at htypes
  rw [renderIndex, String.append_assoc, htypes, ← Text.join_empty_cons, exportLines_append]
  rfl

theorem getLast?_renderIndex (names : List ModuleName) :
    (renderIndex names).toList.getLast? = some '\n' := by
  rw [renderIndex]
  cases names with
  | nil => rfl
  | cons name rest => exact getLast?_append_line _ (getLast?_exportLines _ _ (List.cons_ne_nil name rest))

end ModuleName

namespace TypedModule

variable {dir : Path} {tokens : List Token} {leaf : Token → Json.Value} {stamp : String}
  {x after : Workspace} {written : List Path}

/-- The file of a category. -/
def modulePath (dir : Path) (category : String) : Path :=
  dir.join (category ++ ".ts")

theorem getLast?_moduleText (name : ModuleName) :
    (moduleText tokens leaf name).toList.getLast? = some '\n' :=
  ModuleName.getLast?_render name _

/-- Later modules that go elsewhere spare a file. -/
theorem node_of_exec_writeModules {names : List ModuleName} {p : Path}
    (hother : ∀ name ∈ names, x.place.target (modulePath dir name.category) ≠ x.place.target p)
    (h : exec (writeModules dir tokens leaf stamp names) x = (.ok written, after))
    {content : ByteArray} {modified : Nat} (hnode : x.place.node p = .ok (.file content modified)) :
    after.place.node p = .ok (.file content modified) := by
  refine BuildContext.node_of_exec (BuildContext.within_writeModules Reworking.chain _ _ _ ?_) h hnode
  intro name hname body
  refine BuildContext.reworking_write (fun w hw heq => hother name hname ?_) _ _
  rwa [Place.target_congr hw, ← modulePath] at heq

theorem node_of_exec_generated_beside {p q : Path} {body : String} {r : Path}
    (hother : x.place.target q ≠ x.place.target p)
    (h : exec (Generated.write q stamp body) x = (.ok r, after))
    {content : ByteArray} {modified : Nat} (hnode : x.place.node p = .ok (.file content modified)) :
    after.place.node p = .ok (.file content modified) := by
  refine BuildContext.node_of_exec (BuildContext.reworking_write (fun w hw heq => hother ?_) _ _) h hnode
  rwa [Place.target_congr hw] at heq

theorem target_of_exec_writeModules {names : List ModuleName} (p : Path)
    (h : exec (writeModules dir tokens leaf stamp names) x = (.ok written, after)) :
    after.place.target p = x.place.target p := by
  have hworks : Within (Reworking x.place.current (fun _ => False) fun _ => False)
      (writeModules dir tokens leaf stamp names) :=
    BuildContext.within_writeModules Reworking.chain _ _ _ fun name _ body =>
      BuildContext.reworking_typed name.category stamp body
  exact Place.target_congr (BuildContext.reworked_of_exec hworks h).2.current p

theorem target_of_exec_generated (category : String) {body : String} {q : Path} (p : Path)
    (h : exec (Generated.write (modulePath dir category) stamp body) x = (.ok q, after)) :
    after.place.target p = x.place.target p :=
  Place.target_congr
    (BuildContext.reworked_of_exec (BuildContext.reworking_typed _ _ _) h).2.current p

/-- The modules are written in the order of their names, and each one stays that no later module
replaces. -/
theorem writeModules_leaves {names : List ModuleName}
    (h : exec (writeModules dir tokens leaf stamp names) x = (.ok written, after)) :
    written = names.map (fun name => modulePath dir name.category) ∧
    ∀ before name later, names = before ++ name :: later →
      (∀ other ∈ later, x.place.target (modulePath dir other.category) ≠
        x.place.target (modulePath dir name.category)) →
      ∃ modified, after.place.node (modulePath dir name.category) =
        .ok (.file (Generated.contents stamp (moduleText tokens leaf name)).toUTF8 modified) := by
  induction names generalizing x written with
  | nil =>
      obtain ⟨hwritten, -⟩ := Prod.mk.inj h
      refine ⟨(Except.ok.inj hwritten).symm, ?_⟩
      intro before name later hsplit
      exact absurd hsplit.symm (List.append_ne_nil_of_right_ne_nil before (List.cons_ne_nil _ _))
  | cons first rest ih =>
      obtain ⟨_, y, hreport, hrest⟩ := exec_bind_eq_ok.mp h
      obtain ⟨p, z, hwrite, hrest⟩ := exec_bind_eq_ok.mp hrest
      obtain ⟨more, _, hmore, hreturn⟩ := exec_bind_eq_ok.mp hrest
      obtain ⟨hwritten, rfl⟩ := Prod.mk.inj hreturn
      obtain rfl := exec_generated_eq hwrite
      obtain ⟨hpaths, hholds⟩ := ih hmore
      have hplace := place_of_exec_report hreport
      have htarget : ∀ q, z.place.target q = x.place.target q :=
        fun q => hplace ▸ target_of_exec_generated _ q hwrite
      refine ⟨?_, ?_⟩
      · rw [← Except.ok.inj hwritten, hpaths]
        rfl
      · intro before name later hsplit hother
        cases before with
        | nil =>
            obtain ⟨rfl, rfl⟩ := List.cons.inj hsplit
            obtain ⟨modified, hnode⟩ := node_of_exec_generated hwrite
            -- The later modules are told apart by places in the state before this one.
            refine ⟨modified, node_of_exec_writeModules (fun other hmem => ?_) hmore hnode⟩
            rw [htarget, htarget]
            exact hother other hmem
        | cons _ before =>
            obtain ⟨rfl, hrestSplit⟩ := List.cons.inj hsplit
            refine hholds before name later hrestSplit fun other hmem => ?_
            rw [htarget, htarget]
            exact hother other hmem

/-- What a run that writes typed modules leaves, if it succeeds. -/
structure Wrote (dir : Path) (tokens : List Token) (leaf : Token → Json.Value) (stamp : String)
    (written : List Path) (w : Place) : Prop where
  /-- There is a module for each category, in ascending order, and after them the index. -/
  paths : written = (sortedCategories tokens).map (modulePath dir) ++
    if tokens = [] then [] else [dir.join indexName]
  /-- The index is written last. -/
  index : tokens ≠ [] → w.readText (dir.join indexName) =
    .ok (Generated.header stamp ++ "\n" ++
      ModuleName.renderIndex (ModuleName.ofCategories (sortedCategories tokens)))
  /-- A module stays where no later file goes to its place. -/
  modules : ∀ before name later,
    ModuleName.ofCategories (sortedCategories tokens) = before ++ name :: later →
    (∀ other ∈ later, w.target (modulePath dir other.category) ≠
      w.target (modulePath dir name.category)) →
    w.target (dir.join indexName) ≠ w.target (modulePath dir name.category) →
    w.readText (modulePath dir name.category) =
      .ok (Generated.header stamp ++ "\n" ++ moduleText tokens leaf name)

theorem wrote_of_exec {style : LeafStyle} {stem : String}
    (h : exec (write dir tokens style stem stamp) x = (.ok written, after)) :
    Wrote dir tokens (style.leaf stem) stamp written after.place := by
  obtain ⟨_, y, hreport, hrest⟩ := exec_bind_eq_ok.mp h
  obtain ⟨modules, z, hmodules, hrest⟩ := exec_bind_eq_ok.mp hrest
  obtain ⟨hpaths, hholds⟩ := writeModules_leaves hmodules
  have hnames : ∀ names : List ModuleName, names.map (fun name => modulePath dir name.category) =
      (names.map ModuleName.category).map (modulePath dir) := by
    intro names
    rw [List.map_map]
    rfl
  rw [hnames, ModuleName.map_category_ofCategories] at hpaths
  by_cases hempty : tokens = []
  · have hnone : ModuleName.ofCategories (sortedCategories tokens) = [] := by
      rw [hempty, sortedCategories_nil]
      rfl
    rw [hnone, List.isEmpty_nil, if_pos rfl] at hrest
    obtain ⟨hwritten, rfl⟩ := Prod.mk.inj hrest
    refine ⟨?_, fun hne => absurd hempty hne, ?_⟩
    · rw [← Except.ok.inj hwritten, hpaths, if_pos hempty, List.append_nil]
    · intro before name later hsplit
      rw [hnone] at hsplit
      exact absurd hsplit.symm (List.append_ne_nil_of_right_ne_nil before (List.cons_ne_nil _ _))
  · have hsome := ofCategories_ne_nil (sortedCategories_ne_nil hempty)
    rw [if_neg (by simpa using hsome)] at hrest
    obtain ⟨q, last, hindex, hreturn⟩ := exec_bind_eq_ok.mp hrest
    obtain ⟨hwritten, rfl⟩ := Prod.mk.inj hreturn
    obtain rfl := exec_generated_eq hindex
    have htarget : ∀ p, z.place.target p = y.place.target p :=
      fun p => target_of_exec_writeModules p hmodules
    have htarget' : ∀ p, last.place.target p = z.place.target p :=
      fun p => target_of_exec_generated "index" p hindex
    refine ⟨?_, fun _ => ?_, ?_⟩
    · rw [← Except.ok.inj hwritten, hpaths, if_neg hempty]
    · obtain ⟨modified, hnode⟩ := node_of_exec_generated hindex
      rw [Generated.contents_eq (ModuleName.getLast?_renderIndex _)] at hnode
      exact Place.readText_of_node hnode
    · intro before name later hsplit hother hnot
      simp only [htarget'] at hother hnot
      obtain ⟨modified, hnode⟩ := hholds before name later hsplit fun other hmem => by
        simpa only [htarget] using hother other hmem
      rw [Generated.contents_eq (getLast?_moduleText name)] at hnode
      exact Place.readText_of_node (node_of_exec_generated_beside hnot hindex hnode)

theorem target_modulePath {w : Place} (dir : Path) {category : String}
    (h : '/' ∉ category.toList) :
    w.target (modulePath dir category) = w.target dir ++ [category ++ ".ts"] :=
  Place.target_join _ (proper_append h (by decide) (by decide))

theorem modulePath_index (dir : Path) : modulePath dir "index" = dir.join indexName := rfl

theorem target_modulePath_inj {w : Place} {dir : Path} {c d : String} (hc : '/' ∉ c.toList)
    (hd : '/' ∉ d.toList) (h : w.target (modulePath dir c) = w.target (modulePath dir d)) :
    c = d := by
  rw [target_modulePath dir hc, target_modulePath dir hd, List.append_cancel_left_eq,
    List.singleton_inj] at h
  exact (String.append_left_inj _).mp h

/-- A line of an index exports a name, and the module of the name begins a definition like this. -/
inductive Exports (name : ModuleName) : String → String → Prop
  | constant : Exports name
      ("export \x7b " ++ name.constant ++ " \x7d from './" ++ name.category ++ "';\n")
      ("export const " ++ name.constant ++ " = ")
  | type : Exports name
      ("export type \x7b " ++ name.type ++ " \x7d from './" ++ name.category ++ "';\n")
      ("export type " ++ name.type ++ " = ")

/-- A file has a line that begins a definition. -/
def Defines (w : Place) (p : Path) (definition : String) : Prop :=
  ∃ front back, w.readText p = .ok (front ++ "\n" ++ definition ++ back)

theorem exists_exports_of_mem {names : List ModuleName} {line : String}
    (h : line ∈ ModuleName.indexLines names) :
    line = "\n" ∨ ∃ name ∈ names, ∃ definition, Exports name line definition := by
  rcases List.mem_append.mp h with h | h
  · obtain ⟨name, hname, rfl⟩ := List.mem_map.mp h
    exact .inr ⟨name, hname, _, .constant⟩
  · rcases List.mem_cons.mp h with rfl | h
    · exact .inl rfl
    · obtain ⟨name, hname, rfl⟩ := List.mem_map.mp h
      exact .inr ⟨name, hname, _, .type⟩

theorem Exports.defines {name : ModuleName} {line definition : String}
    (h : Exports name line definition) {w : Place} {p : Path} {tree : Json.Value}
    (hfile : w.readText p = .ok (Generated.header stamp ++ "\n" ++ name.render tree)) :
    Defines w p definition := by
  obtain ⟨text, hrender⟩ : ∃ text, name.render tree = "export const " ++ name.constant ++ " = " ++
      text ++ " as const;\n\n" ++ "export type " ++ name.type ++ " = typeof " ++ name.constant ++
      ";\n" := ⟨_, rfl⟩
  rw [hrender] at hfile
  cases h with
  | constant =>
      refine ⟨Generated.header stamp, text ++ " as const;\n\n" ++ "export type " ++ name.type ++
        " = typeof " ++ name.constant ++ ";\n", ?_⟩
      rw [hfile]
      simp only [String.append_assoc]
  | type =>
      have hbreak : " as const;\n\n" = " as const;\n" ++ "\n" := by decide
      have htypeof : " = typeof " = " = " ++ "typeof " := by decide
      refine ⟨Generated.header stamp ++ "\n" ++ ("export const " ++ name.constant ++ " = " ++ text ++
        " as const;\n"), "typeof " ++ name.constant ++ ";\n", ?_⟩
      rw [hfile, hbreak, htypeof]
      simp only [String.append_assoc]

/-- Modules of categories without a slash go to places of their own, and the index does unless a
category is called like it. -/
theorem nodup_targets (dir : Path) (w : Place) (hplain : ∀ t ∈ tokens, '/' ∉ t.category.toList)
    (hindex : ∀ t ∈ tokens, t.category ≠ "index") :
    (((sortedCategories tokens).map (modulePath dir) ++ [dir.join indexName]).map w.target).Nodup := by
  have hslash : ∀ c ∈ sortedCategories tokens, '/' ∉ c.toList := by
    intro c hc
    obtain ⟨t, ht, rfl⟩ := mem_sortedCategories_iff.mp hc
    exact hplain t ht
  rw [List.map_append, List.map_map, List.map_singleton, ← modulePath_index]
  refine List.Nodup.append ?_ (List.nodup_singleton _) (List.disjoint_singleton.mpr ?_)
  · refine (nodup_sortedCategories tokens).map_on ?_
    exact fun c hc d hd heq => target_modulePath_inj (hslash c hc) (hslash d hd) heq
  · intro hmem
    obtain ⟨c, hc, heq⟩ := List.mem_map.mp hmem
    obtain rfl := target_modulePath_inj (hslash c hc) (by decide) heq
    obtain ⟨t, ht, hcategory⟩ := mem_sortedCategories_iff.mp hc
    exact hindex t ht hcategory

theorem Wrote.nodup_iff (h : Wrote dir tokens leaf stamp written x.place)
    (hplain : ∀ t ∈ tokens, '/' ∉ t.category.toList) :
    written.Nodup ↔ ∀ t ∈ tokens, t.category ≠ "index" := by
  rw [h.paths]
  constructor
  · intro hnodup t ht hcategory
    rw [if_neg (List.ne_nil_of_mem ht)] at hnodup
    refine (List.nodup_append.mp hnodup).2.2 _ ?_ _ (List.mem_singleton_self _) rfl
    rw [← modulePath_index]
    exact List.mem_map_of_mem (mem_sortedCategories_iff.mpr ⟨t, ht, hcategory⟩)
  · intro hindex
    have hnodup := (nodup_targets dir x.place hplain hindex).of_map
    split
    · rw [List.append_nil]
      exact (List.nodup_append.mp hnodup).1
    · exact hnodup

/-- A module of a category without a slash stays unless it is called like the index. -/
theorem Wrote.module (h : Wrote dir tokens leaf stamp written x.place)
    (hplain : ∀ t ∈ tokens, '/' ∉ t.category.toList) {name : ModuleName}
    (hname : name ∈ ModuleName.ofCategories (sortedCategories tokens))
    (hindex : name.category ≠ "index") :
    x.place.readText (modulePath dir name.category) =
      .ok (Generated.header stamp ++ "\n" ++ moduleText tokens leaf name) := by
  have hslash : ∀ name ∈ ModuleName.ofCategories (sortedCategories tokens),
      '/' ∉ name.category.toList := by
    intro name hname
    obtain ⟨t, ht, heq⟩ := exists_of_mem_ofCategories hname
    exact heq ▸ hplain t ht
  obtain ⟨before, later, hsplit⟩ := List.append_of_mem hname
  have hcategories := nodup_sortedCategories tokens
  rw [← ModuleName.map_category_ofCategories (sortedCategories tokens), hsplit, List.map_append,
    List.map_cons] at hcategories
  refine h.modules before name later hsplit ?_ ?_
  · intro other hother heq
    have hmem : other ∈ ModuleName.ofCategories (sortedCategories tokens) := by
      rw [hsplit]
      exact List.mem_append_right _ (List.mem_cons_of_mem _ hother)
    have hsame := target_modulePath_inj (hslash other hmem) (hslash name hname) heq
    refine (List.nodup_cons.mp (List.nodup_append.mp hcategories).2.1).1 ?_
    exact hsame ▸ List.mem_map_of_mem hother
  · intro heq
    rw [← modulePath_index] at heq
    exact hindex (target_modulePath_inj (by decide) (hslash name hname) heq).symm

/-- What a successful run leaves: the index always, and each module that no later file replaces. If no
category has a slash in it, a category called `index` is the only one whose module is replaced: the
paths are distinct if and only if there is none, all other modules have their texts, and what the
index exports from them is defined there. -/
theorem write_leaves {style : LeafStyle} {stem : String}
    (h : exec (write dir tokens style stem stamp) x = (.ok written, after)) :
    Wrote dir tokens (style.leaf stem) stamp written after.place ∧
    ((∀ t ∈ tokens, '/' ∉ t.category.toList) →
      (written.Nodup ↔ ∀ t ∈ tokens, t.category ≠ "index") ∧
      (written.Nodup → (written.map after.place.target).Nodup) ∧
      (∀ t ∈ tokens, t.category ≠ "index" →
        ∃ name ∈ ModuleName.ofCategories (sortedCategories tokens), name.category = t.category ∧
          after.place.readText (dir.join (t.category ++ ".ts")) =
            .ok (Generated.header stamp ++ "\n" ++
              name.render (TokenTree.build tokens (some t.category) (style.leaf stem)))) ∧
      ModuleName.renderIndex (ModuleName.ofCategories (sortedCategories tokens)) = Text.join ""
        (ModuleName.indexLines (ModuleName.ofCategories (sortedCategories tokens))) ∧
      ∀ line ∈ ModuleName.indexLines (ModuleName.ofCategories (sortedCategories tokens)),
        line = "\n" ∨ ∃ name ∈ ModuleName.ofCategories (sortedCategories tokens), ∃ definition,
          Exports name line definition ∧ (name.category ≠ "index" →
            Defines after.place (dir.join (name.category ++ ".ts")) definition)) := by
  have hwrote := wrote_of_exec h
  refine ⟨hwrote, fun hplain => ⟨hwrote.nodup_iff hplain, ?_, ?_, ModuleName.renderIndex_eq _, ?_⟩⟩
  · intro hnodup
    have htargets := nodup_targets dir after.place hplain
      ((hwrote.nodup_iff hplain).mp hnodup)
    rw [hwrote.paths]
    split
    · rw [List.append_nil]
      rw [List.map_append] at htargets
      exact (List.nodup_append.mp htargets).1
    · exact htargets
  · intro t ht hindex
    have hmem := mem_sortedCategories_iff.mpr ⟨t, ht, rfl⟩
    rw [← ModuleName.map_category_ofCategories (sortedCategories tokens)] at hmem
    obtain ⟨name, hname, hcategory⟩ := List.mem_map.mp hmem
    refine ⟨name, hname, hcategory, ?_⟩
    rw [← hcategory] at hindex ⊢
    exact hwrote.module hplain hname hindex
  · intro line hline
    rcases exists_exports_of_mem hline with rfl | ⟨name, hname, definition, hexports⟩
    · exact .inl rfl
    · refine .inr ⟨name, hname, definition, hexports, fun hindex => ?_⟩
      exact hexports.defines (hwrote.module hplain hname hindex)

/-- A token of a layer itself. -/
def token (path : List String) (value : Json.Value) : Token :=
  ⟨path, value, value.sourceText, ⟨"tokens.json"⟩, true⟩

/-- The run of `write` for given categories. -/
def writeNamed (dir : Path) (tokens : List Token) (leaf : Token → Json.Value) (stamp : String)
    (categories : List String) : Job TokenError (List Path) := do
  Job.report (ModuleName.notices categories)
  let modules ← writeModules dir tokens leaf stamp (ModuleName.ofCategories categories)
  if (ModuleName.ofCategories categories).isEmpty then return modules
  let index ← Generated.write (dir.join indexName) stamp
    (ModuleName.renderIndex (ModuleName.ofCategories categories))
  return modules ++ [index]

theorem exec_write_of_categories {categories : List String} {style : LeafStyle} {stem : String}
    (hcategories : sortedCategories tokens = categories)
    (h : (exec (writeNamed dir tokens (style.leaf stem) stamp categories) x).1.toOption =
      some written) :
    exec (write dir tokens style stem stamp) x =
      (.ok written, (exec (writeNamed dir tokens (style.leaf stem) stamp categories) x).2) := by
  have hwrite : write dir tokens style stem stamp =
      writeNamed dir tokens (style.leaf stem) stamp categories := by
    rw [write, hcategories]
    rfl
  rw [hwrite]
  rcases hrun : exec (writeNamed dir tokens (style.leaf stem) stamp categories) x with ⟨_ | paths, y⟩
  · rw [hrun] at h
    exact absurd h nofun
  · rw [hrun] at h
    rw [Option.some.inj h]

def paletteTokens : List Token :=
  [token ["space", "1"] (.string "4px"), token ["color", "bg"] (.string "#fff")]

def emptyWorkspace : Workspace := ⟨⟨.empty, []⟩, 1, 0, []⟩

def paletteAfter : Workspace :=
  (exec (writeNamed ⟨"ts"⟩ paletteTokens (LeafStyle.propertyName.leaf "sando") "now"
    ["color", "space"]) emptyWorkspace).2

theorem sortedCategories_palette : sortedCategories paletteTokens = ["color", "space"] := by
  have hswap : paletteTokens.Perm
      [token ["color", "bg"] (.string "#fff"), token ["space", "1"] (.string "4px")] := .swap _ _ _
  rw [sortedCategories_congr hswap, sortedCategories_of_pairwise]
  · rfl
  · decide +kernel

theorem exec_palette :
    exec (write ⟨"ts"⟩ paletteTokens .propertyName "sando" "now") emptyWorkspace =
      (.ok [⟨"ts/color.ts"⟩, ⟨"ts/space.ts"⟩, ⟨"ts/index.ts"⟩], paletteAfter) :=
  exec_write_of_categories sortedCategories_palette (by decide +kernel)

theorem write_leaves_palette :
    (exec (write ⟨"ts"⟩ paletteTokens .propertyName "sando" "now") emptyWorkspace =
        (.ok [⟨"ts/color.ts"⟩, ⟨"ts/space.ts"⟩, ⟨"ts/index.ts"⟩], paletteAfter) ∧
      (∀ t ∈ paletteTokens, '/' ∉ t.category.toList) ∧
      ∀ t ∈ paletteTokens, t.category ≠ "index") ∧
    ([⟨"ts/color.ts"⟩, ⟨"ts/space.ts"⟩, ⟨"ts/index.ts"⟩] : List Path).Nodup ∧
    ∃ name : ModuleName, name.category = "color" ∧
      paletteAfter.place.readText ⟨"ts/color.ts"⟩ = .ok (Generated.header "now" ++ "\n" ++
        name.render (.object [("bg", .string "--sando-color-bg")])) := by
  have hplain : ∀ t ∈ paletteTokens, '/' ∉ t.category.toList := by decide
  have hindex : ∀ t ∈ paletteTokens, t.category ≠ "index" := by decide
  have hpath : (⟨"ts"⟩ : Path).join ("color" ++ ".ts") = ⟨"ts/color.ts"⟩ := by decide +kernel
  have htree : TokenTree.build paletteTokens (some "color") (LeafStyle.propertyName.leaf "sando") =
      .object [("bg", .string "--sando-color-bg")] := rfl
  have hcolor : token ["color", "bg"] (.string "#fff") ∈ paletteTokens :=
    List.mem_cons_of_mem _ List.mem_cons_self
  obtain ⟨-, hplainly⟩ := write_leaves exec_palette
  obtain ⟨hnodup, -, hmodules, -⟩ := hplainly hplain
  obtain ⟨name, -, hname, hfile⟩ := hmodules _ hcolor (hindex _ hcolor)
  have hcategory : (token ["color", "bg"] (.string "#fff")).category = "color" := rfl
  rw [hcategory, hpath, htree] at hfile
  exact ⟨⟨exec_palette, hplain, hindex⟩, hnodup.mpr hindex, name, hname, hfile⟩

def indexTokens : List Token :=
  [token ["index", "a"] .null]

def indexAfter : Workspace :=
  (exec (writeNamed ⟨"ts"⟩ indexTokens (LeafStyle.literal.leaf "sando") "now" ["index"])
    emptyWorkspace).2

/-- The module of a category `index` is lost: its file holds the index. -/
theorem write_replaces_index :
    exec (write ⟨"ts"⟩ indexTokens .literal "sando" "now") emptyWorkspace =
        (.ok [⟨"ts/index.ts"⟩, ⟨"ts/index.ts"⟩], indexAfter) ∧
      indexAfter.place.readText ⟨"ts/index.ts"⟩ = .ok (Generated.header "now" ++ "\n" ++
        "export \x7b index \x7d from './index';\n\n" ++
        "export type \x7b IndexTokens \x7d from './index';\n") ∧
      indexAfter.place.readText ⟨"ts/index.ts"⟩ ≠ .ok (Generated.header "now" ++ "\n" ++
        (ModuleName.natural "index").render
          (TokenTree.build indexTokens (some "index") (LeafStyle.literal.leaf "sando"))) := by
  have hcategories : sortedCategories indexTokens = ["index"] := by
    rw [sortedCategories_of_pairwise]
    · rfl
    · decide +kernel
  have hrun : exec (write ⟨"ts"⟩ indexTokens .literal "sando" "now") emptyWorkspace =
      (.ok [⟨"ts/index.ts"⟩, ⟨"ts/index.ts"⟩], indexAfter) :=
    exec_write_of_categories hcategories (by decide +kernel)
  have hpath : (⟨"ts"⟩ : Path).join indexName = ⟨"ts/index.ts"⟩ := by decide +kernel
  have htext : Generated.header "now" ++ "\n" ++ ModuleName.renderIndex
      (ModuleName.ofCategories ["index"]) = Generated.header "now" ++ "\n" ++
        "export \x7b index \x7d from './index';\n\n" ++
        "export type \x7b IndexTokens \x7d from './index';\n" := by
    decide +kernel
  have hmodule : Generated.header "now" ++ "\n" ++ "export \x7b index \x7d from './index';\n\n" ++
        "export type \x7b IndexTokens \x7d from './index';\n" ≠ Generated.header "now" ++ "\n" ++
      (ModuleName.natural "index").render
        (TokenTree.build indexTokens (some "index") (LeafStyle.literal.leaf "sando")) := by
    decide +kernel
  have hindex := (wrote_of_exec hrun).index (List.cons_ne_nil _ _)
  rw [hcategories, hpath, htext] at hindex
  refine ⟨hrun, hindex, fun hread => ?_⟩
  exact hmodule (Except.ok.inj (hindex.symm.trans hread))

end TypedModule

end DesignTokens
