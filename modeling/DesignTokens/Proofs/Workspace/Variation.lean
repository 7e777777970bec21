import DesignTokens.Proofs.Layer.Outputs

/-!
One job run twice, on files of which some have other contents. As long as the contents are not looked
at, both runs do the same to the tree: what they write is the same, and files that differ afterwards
are files that differed before.
-/

namespace DesignTokens

/-- Which bytes two runs may find at a location. -/
abbrev Variation := Location → ByteArray → ByteArray → Prop

namespace FileTree

/-- Trees with the same contents everywhere but for certain pairs of files, and with files at certain
locations where they do have the same contents. -/
structure Varied (D : Variation) (done : List Location) (t u : FileTree) : Prop where
  nodes : ∀ l, t.contentAt l = u.contentAt l ∨
    ∃ a b, D l a b ∧ t.contentAt l = some (some a) ∧ u.contentAt l = some (some b)
  done : ∀ l ∈ done, ∃ content, t.contentAt l = some (some content) ∧
    u.contentAt l = some (some content)

namespace Varied

variable {D : Variation} {done : List Location} {t u : FileTree} {l : Location}

theorem isDirectory_iff (h : Varied D done t u) :
    t.lookup l = some .directory ↔ u.lookup l = some .directory := by
  rw [← contentAt_eq_directory_iff, ← contentAt_eq_directory_iff]
  rcases h.nodes l with heq | ⟨a, b, -, ht, hu⟩
  · rw [heq]
  · rw [ht, hu]
    exact ⟨nofun, nofun⟩

theorem isNone_iff (h : Varied D done t u) : t.lookup l = none ↔ u.lookup l = none := by
  rw [← contentAt_eq_none_iff, ← contentAt_eq_none_iff]
  rcases h.nodes l with heq | ⟨a, b, -, ht, hu⟩
  · rw [heq]
  · rw [ht, hu]
    exact ⟨nofun, nofun⟩

/-- At each location there is nothing in both trees, a directory in both, or a file in both. -/
theorem cases (h : Varied D done t u) (l : Location) :
    (t.lookup l = none ∧ u.lookup l = none) ∨
      (t.lookup l = some .directory ∧ u.lookup l = some .directory) ∨
      ∃ a b m n, t.lookup l = some (.file a m) ∧ u.lookup l = some (.file b n) ∧
        (a = b ∨ D l a b) := by
  have hnode := h.nodes l
  rcases ht : t.lookup l with _ | ⟨_ | ⟨a, m⟩⟩
  · exact .inl ⟨rfl, h.isNone_iff.mp ht⟩
  · exact .inr (.inl ⟨rfl, h.isDirectory_iff.mp ht⟩)
  · rcases hu : u.lookup l with _ | ⟨_ | ⟨b, n⟩⟩
    · exact absurd (ht.symm.trans (h.isNone_iff.mpr hu)) nofun
    · exact absurd (ht.symm.trans (h.isDirectory_iff.mpr hu)) nofun
    · refine .inr (.inr ⟨a, b, m, n, rfl, rfl, ?_⟩)
      rw [contentAt, contentAt, ht, hu] at hnode
      rcases hnode with heq | ⟨a', b', hD, ha, hb⟩
      · exact .inl (Option.some.inj (Option.some.inj heq))
      · obtain rfl := Option.some.inj (Option.some.inj ha)
        obtain rfl := Option.some.inj (Option.some.inj hb)
        exact .inr hD

theorem blockage_eq (h : Varied D done t u) (ls : List Location) : t.blockage ls = u.blockage ls := by
  induction ls with
  | nil => rfl
  | cons l ls ih =>
      rw [blockage, blockage]
      rcases h.cases l with ⟨ht, hu⟩ | ⟨ht, hu⟩ | ⟨_, _, _, _, ht, hu, -⟩ <;> rw [ht, hu]
      exact ih

theorem requireDirectory_eq (h : Varied D done t u) (l : Location) :
    t.requireDirectory l = u.requireDirectory l := by
  rw [requireDirectory, requireDirectory]
  rcases h.cases l with ⟨ht, hu⟩ | ⟨ht, hu⟩ | ⟨_, _, _, _, ht, hu, -⟩ <;> rw [ht, hu]

theorem walk_eq (h : Varied D done t u) (l : Location) (names : List String) :
    t.walk l names = u.walk l names := by
  rw [FileTree.walk_eq, FileTree.walk_eq, h.blockage_eq]

/-- The same node is put at a location of both trees. -/
theorem set (h : Varied D done t u) (hl : l ≠ []) {k k' : Node} (hk : k.content? = k'.content?)
    (hdone : l ∈ done → k.content?.isSome) : Varied D done (t.set l k) (u.set l k') := by
  have hset : ∀ m, (t.set l k).contentAt m = if m = l then some k.content? else t.contentAt m := by
    intro m
    rw [contentAt, lookup_set hl]
    split <;> rfl
  have hset' : ∀ m, (u.set l k').contentAt m = if m = l then some k.content? else u.contentAt m := by
    intro m
    rw [contentAt, lookup_set hl, hk]
    split <;> rfl
  constructor
  · intro m
    rw [hset, hset']
    split
    · exact .inl rfl
    · exact h.nodes m
  · intro m hm
    rw [hset, hset']
    split
    · rename_i heq
      obtain ⟨content, hcontent⟩ := Option.isSome_iff_exists.mp (hdone (heq ▸ hm))
      exact ⟨content, by rw [hcontent], by rw [hcontent]⟩
    · exact h.done m hm

theorem makeDirectory (h : Varied D done t u) (hl : l ≠ []) (hnone : t.lookup l = none) :
    Varied D done (t.set l .directory) (u.set l .directory) := by
  refine h.set hl rfl fun hmem => ?_
  obtain ⟨content, hcontent, -⟩ := h.done l hmem
  rw [contentAt_eq_none_iff.mpr hnone] at hcontent
  exact absurd hcontent nofun

theorem writeFile (h : Varied D done t u) (hl : l ≠ []) (content : ByteArray) (time time' : Nat) :
    Varied D (l :: done) (t.set l (.file content time)) (u.set l (.file content time')) := by
  have hset : Varied D done (t.set l (.file content time)) (u.set l (.file content time')) :=
    h.set hl rfl fun _ => rfl
  refine ⟨hset.nodes, List.forall_mem_cons.mpr ⟨⟨content, ?_, ?_⟩, hset.done⟩⟩
  · rw [contentAt, lookup_set_self hl]
    rfl
  · rw [contentAt, lookup_set_self hl]
    rfl

/-- Something is dropped from both trees, before anything was written. -/
theorem drop (h : Varied D [] t u) {t' u' : FileTree} (gone : Location → Prop)
    [DecidablePred gone] (ht : ∀ m, t'.lookup m = if gone m then none else t.lookup m)
    (hu : ∀ m, u'.lookup m = if gone m then none else u.lookup m) : Varied D [] t' u' := by
  refine ⟨fun m => ?_, fun _ hm => absurd hm List.not_mem_nil⟩
  rw [contentAt, contentAt, ht, hu]
  split
  · exact .inl rfl
  · exact h.nodes m

end Varied

end FileTree

/-- Two results that are refused for one reason, or hold related values. -/
def Agree {ε α β : Type} (R : α → β → Prop) : Except ε α → Except ε β → Prop
  | .ok a, .ok b => R a b
  | .error e, .error e' => e = e'
  | _, _ => False

namespace Place

open FileTree

/-- Such trees, seen from one directory. -/
structure Varied (start : Place) (D : Variation) (done : List Location) (w v : Place) : Prop where
  current : w.current = start.current
  current' : v.current = start.current
  tree : w.tree.Varied D done v.tree

theorem read_of_node {w : Place} {p : Path} {n : Node} {content : ByteArray} (hn : w.node p = .ok n)
    (hcontent : n.content? = some content) : w.read p = .ok content := by
  rw [read, hn]
  cases n with
  | directory => cases hcontent
  | file bytes modified =>
      obtain rfl := Option.some.inj hcontent
      rfl

namespace Varied

variable {start w v : Place} {D : Variation} {done : List Location} {p : Path}

theorem with_trees (h : Varied start D done w v) {more : List Location} {t u : FileTree}
    (htree : t.Varied D more u) : Varied start D more ⟨t, w.current⟩ ⟨u, v.current⟩ :=
  ⟨h.current, h.current', htree⟩

theorem origin_eq (h : Varied start D done w v) : w.origin p = v.origin p :=
  origin_congr (h.current.trans h.current'.symm) p

theorem locate_eq (h : Varied start D done w v) : w.locate p = v.locate p := by
  rw [locate, locate, h.origin_eq, h.tree.walk_eq]
  simp only [h.tree.requireDirectory_eq]

theorem holder_eq (h : Varied start D done w v) : w.holder p = v.holder p := by
  rw [holder, holder, h.origin_eq, h.tree.walk_eq]
  simp only [h.tree.requireDirectory_eq]

theorem locate_eq_ok (h : Varied start D done w v) {l : Location} (hl : w.locate p = .ok l) :
    l = start.target p := by
  rw [← (locate_eq_ok_iff.mp hl).2.2.2]
  exact target_congr h.current p

theorem node_cases (h : Varied start D done w v) (p : Path) :
    (∃ e, w.node p = .error e ∧ v.node p = .error e) ∨
      (w.node p = .ok .directory ∧ v.node p = .ok .directory) ∨
      ∃ a b m n, w.node p = .ok (.file a m) ∧ v.node p = .ok (.file b n) ∧
        (a = b ∨ D (start.target p) a b) := by
  rw [node_eq, node_eq, ← h.locate_eq]
  cases hl : w.locate p with
  | error e => exact .inl ⟨e, rfl, rfl⟩
  | ok l =>
      obtain rfl := h.locate_eq_ok hl
      dsimp only
      rcases h.tree.cases (start.target p) with ⟨ht, hu⟩ | ⟨ht, hu⟩ | ⟨a, b, m, n, ht, hu, hab⟩
      · rw [ht, hu]
        exact .inl ⟨.notFound, rfl, rfl⟩
      · rw [ht, hu]
        exact .inr (.inl ⟨rfl, rfl⟩)
      · rw [ht, hu]
        exact .inr (.inr ⟨a, b, m, n, rfl, rfl, hab⟩)

/-- A file that was written has the same contents in both. -/
theorem content_eq (h : Varied start D done w v) (hp : start.target p ∈ done) {n n' : Node}
    (hn : w.node p = .ok n) (hn' : v.node p = .ok n') :
    ∃ content, n.content? = some content ∧ n'.content? = some content := by
  obtain ⟨content, hw, hv⟩ := h.tree.done _ hp
  have hlookup := (node_eq_ok_iff.mp hn).2
  have hlookup' := (node_eq_ok_iff.mp hn').2
  rw [target_congr h.current] at hlookup
  rw [target_congr h.current'] at hlookup'
  rw [contentAt, hlookup] at hw
  rw [contentAt, hlookup'] at hv
  exact ⟨content, Option.some.inj hw, Option.some.inj hv⟩

theorem isDirectory_eq (h : Varied start D done w v) : w.isDirectory p = v.isDirectory p := by
  rw [isDirectory, isDirectory]
  rcases h.node_cases p with ⟨e, ht, hu⟩ | ⟨ht, hu⟩ | ⟨a, b, m, n, ht, hu, -⟩ <;> rw [ht, hu]

theorem pathExists_eq (h : Varied start D done w v) : w.pathExists p = v.pathExists p := by
  rw [pathExists, pathExists]
  rcases h.node_cases p with ⟨e, ht, hu⟩ | ⟨ht, hu⟩ | ⟨a, b, m, n, ht, hu, -⟩
  · rw [ht, hu]
  · rw [ht, hu]
  · rw [ht, hu]
    rfl

/-- A text that both runs read is the same one, or comes from bytes that may differ. -/
theorem readText_cases (h : Varied start D done w v) {text text' : String}
    (hw : w.readText p = .ok text) (hv : v.readText p = .ok text') :
    text = text' ∨ ∃ a b, D (start.target p) a b ∧ String.fromUTF8? a = some text ∧
      String.fromUTF8? b = some text' := by
  rw [readText_eq] at hw hv
  rcases h.node_cases p with ⟨e, ht, hu⟩ | ⟨ht, hu⟩ | ⟨a, b, m, n, ht, hu, hab⟩
  · rw [ht] at hw
    exact absurd hw nofun
  · rw [ht] at hw
    exact absurd hw nofun
  · rw [ht] at hw
    rw [hu] at hv
    dsimp only at hw hv
    cases ha : String.fromUTF8? a with
    | none =>
        rw [ha] at hw
        exact absurd hw nofun
    | some read =>
        cases hb : String.fromUTF8? b with
        | none =>
            rw [hb] at hv
            exact absurd hv nofun
        | some read' =>
            rw [ha] at hw
            rw [hb] at hv
            obtain rfl := Except.ok.inj hw
            obtain rfl := Except.ok.inj hv
            rcases hab with rfl | hab
            · exact .inl (Option.some.inj (ha.symm.trans hb))
            · exact .inr ⟨a, b, hab, ha, hb⟩

theorem makeDirectory (h : Varied start D done w v) (p : Path) :
    Agree (FileTree.Varied D done) (w.makeDirectory p) (v.makeDirectory p) := by
  rw [Place.makeDirectory, Place.makeDirectory, ← h.holder_eq]
  cases w.holder p with
  | error e => rfl
  | ok found =>
      obtain ⟨l, last⟩ := found
      cases last with
      | none => rfl
      | some name =>
          change Agree _ (if name = "." ∨ name = ".." then _ else _)
            (if name = "." ∨ name = ".." then _ else _)
          split
          · rfl
          · have hne : l ++ [name] ≠ [] := List.append_ne_nil_of_right_ne_nil l (List.cons_ne_nil _ _)
            rcases h.tree.cases (l ++ [name]) with ⟨ht, hu⟩ | ⟨ht, hu⟩ | ⟨_, _, _, _, ht, hu, -⟩
            · simp only [ht, hu]
              exact h.tree.makeDirectory hne ht
            · simp only [ht, hu]
              rfl
            · simp only [ht, hu]
              rfl

theorem write (h : Varied start D done w v) {content : ByteArray} {time time' : Nat}
    {t u : FileTree} (ht : w.write p content time = .ok t)
    (hu : v.write p content time' = .ok u) : t.Varied D (start.target p :: done) u := by
  obtain ⟨l, name, -, htarget, -, -, rfl⟩ := write_eq_ok ht
  obtain ⟨l', name', -, htarget', -, -, rfl⟩ := write_eq_ok hu
  have hne : start.target p ≠ [] := by
    rw [← target_congr h.current, htarget]
    exact List.append_ne_nil_of_right_ne_nil l (List.cons_ne_nil _ _)
  rw [← htarget, ← htarget', target_congr h.current, target_congr h.current']
  exact h.tree.writeFile hne content time time'

theorem makeLast (h : Varied start D done w v) (p : Path) :
    (Place.makeLast w p).1.Varied D done (Place.makeLast v p).1 ∧
      (Place.makeLast w p).2 = (Place.makeLast v p).2 := by
  have hmake := h.makeDirectory p
  rw [Place.makeLast, Place.makeLast, ← h.isDirectory_eq]
  cases hw : w.makeDirectory p with
  | ok t =>
      cases hv : v.makeDirectory p with
      | ok u =>
          rw [hw, hv] at hmake
          exact ⟨hmake, rfl⟩
      | error e =>
          rw [hw, hv] at hmake
          exact hmake.elim
  | error e =>
      cases hv : v.makeDirectory p with
      | ok u =>
          rw [hw, hv] at hmake
          exact hmake.elim
      | error e' =>
          rw [hw, hv] at hmake
          obtain rfl : e = e' := hmake
          dsimp only
          split
          · exact ⟨h.tree, rfl⟩
          · exact ⟨h.tree, rfl⟩

theorem notFound_iff (h : Varied start D done w v) (p : Path) :
    w.makeDirectory p = .error .notFound ↔ v.makeDirectory p = .error .notFound := by
  have hmake := h.makeDirectory p
  cases hw : w.makeDirectory p <;> cases hv : v.makeDirectory p <;> rw [hw, hv] at hmake
  · rw [show _ = _ from hmake]
  · exact hmake.elim
  · exact hmake.elim
  · exact ⟨nofun, nofun⟩

/-- Making directories gets equally far in both runs. -/
theorem makeAncestors (depth : Nat) (h : Varied start D done w v) (p : Path) :
    (Place.makeAncestors depth w p).1.Varied D done (Place.makeAncestors depth v p).1 ∧
      (Place.makeAncestors depth w p).2 = (Place.makeAncestors depth v p).2 := by
  induction depth generalizing p with
  | zero =>
      rw [makeAncestors_eq_makeLast, makeAncestors_eq_makeLast]
      split
      · exact ⟨h.tree, rfl⟩
      · simp only [h.notFound_iff]
        split
        · exact ⟨h.tree, rfl⟩
        · exact h.makeLast p
  | succ depth ih =>
      rw [makeAncestors_eq_makeLast, makeAncestors_eq_makeLast]
      split
      · exact ⟨h.tree, rfl⟩
      · simp only [h.notFound_iff]
        split
        · cases hparent : p.parent with
          | none => exact ⟨h.tree, rfl⟩
          | some up =>
              obtain ⟨htree, houtcome⟩ := ih up
              dsimp only
              generalize Place.makeAncestors depth w up = x at htree houtcome
              generalize Place.makeAncestors depth v up = y at htree houtcome
              obtain ⟨t, outcome⟩ := x
              obtain ⟨u, outcome'⟩ := y
              obtain rfl : outcome = outcome' := houtcome
              cases outcome with
              | error e => exact ⟨htree, rfl⟩
              | ok _ => exact (h.with_trees htree).makeLast p
        · exact h.makeLast p

theorem removeDirectory (h : Varied start D [] w v) (p : Path) :
    (w.removeDirectory p).1.Varied D [] (v.removeDirectory p).1 ∧
      (w.removeDirectory p).2 = (v.removeDirectory p).2 := by
  rw [Place.removeDirectory, Place.removeDirectory, ← h.locate_eq]
  cases hl : w.locate p with
  | error e => exact ⟨h.tree, rfl⟩
  | ok l =>
      dsimp only
      rcases h.tree.cases l with ⟨ht, hu⟩ | ⟨ht, hu⟩ | ⟨_, _, _, _, ht, hu, -⟩
      · rw [ht, hu]
        exact ⟨h.tree, rfl⟩
      · rw [ht, hu]
        have hclear := h.tree.drop (Below l) (fun _ => lookup_clear) fun _ => lookup_clear
        dsimp only
        split
        · exact ⟨hclear, rfl⟩
        · exact ⟨hclear, rfl⟩
        · exact ⟨hclear, rfl⟩
        · rename_i name hdot hup hlast
          obtain ⟨hempty, hslash⟩ := proper_of_mem_names (List.mem_of_getLast? hlast)
          have hname : ProperName name := ⟨hempty, hslash, hdot, hup⟩
          have hne : l ≠ [] := by
            rw [← (locate_eq_ok_iff.mp hl).2.2.2, target_eq_advance hlast hname.ne_here,
              advance_of_proper _ hname]
            exact List.append_ne_nil_of_right_ne_nil _ (List.cons_ne_nil _ _)
          exact ⟨h.tree.drop (l <+: ·) (fun _ => lookup_prune hne) fun _ => lookup_prune hne, rfl⟩
      · rw [ht, hu]
        exact ⟨h.tree, rfl⟩

end Varied

end Place

namespace Job

open FileTree

variable {ε α β γ δ : Type} {start : Place} {D : Variation} {done : List Location}

/-- Two jobs run on varied files: if both succeed, their values are related and the files are varied
as before, with more locations at which there are now files with the same contents. -/
def Coupled (start : Place) (D : Variation) (done : List Location)
    (Q : α → β → List Location → Prop) (job : Job ε α) (job' : Job ε β) : Prop :=
  ∀ w v a b w' v', Place.Varied start D done w.place v.place → exec job w = (.ok a, w') →
    exec job' v = (.ok b, v') →
    ∃ more, done ⊆ more ∧ Q a b more ∧ Place.Varied start D more w'.place v'.place

namespace Coupled

variable {P : α → β → List Location → Prop} {Q : γ → δ → List Location → Prop}

theorem pure {a : α} {b : β} (h : P a b done) :
    Coupled start D done P (pure a : Job ε α) (pure b : Job ε β) := by
  intro w v a' b' w' v' hplaces hw hv
  obtain ⟨ha, rfl⟩ := Prod.mk.inj hw
  obtain ⟨hb, rfl⟩ := Prod.mk.inj hv
  obtain rfl := Except.ok.inj ha
  obtain rfl := Except.ok.inj hb
  exact ⟨done, List.Subset.refl done, h, hplaces⟩

theorem bind {job : Job ε α} {job' : Job ε β} {next : α → Job ε γ} {next' : β → Job ε δ}
    (hjob : Coupled start D done P job job')
    (hnext : ∀ a b more, done ⊆ more → P a b more → Coupled start D more Q (next a) (next' b)) :
    Coupled start D done Q (job >>= next) (job' >>= next') := by
  intro w v c d w' v' hplaces hw hv
  rw [exec_bind] at hw hv
  rcases hx : exec job w with ⟨_ | a, x⟩
  · rw [hx] at hw
    exact absurd hw nofun
  rcases hy : exec job' v with ⟨_ | b, y⟩
  · rw [hy] at hv
    exact absurd hv nofun
  rw [hx] at hw
  rw [hy] at hv
  obtain ⟨more, hmore, hP, hbetween⟩ := hjob w v a b x y hplaces hx hy
  obtain ⟨last, hlast, hQ, hend⟩ := hnext a b more hmore hP x y c d w' v' hbetween hw hv
  exact ⟨last, List.Subset.trans hmore hlast, hQ, hend⟩

/-- Jobs that only look at the files. -/
theorem look {job : Job ε α} {job' : Job ε β} {f : Place → Except ε α} {g : Place → Except ε β}
    (hjob : ∀ w, exec job w = (f w.place, w)) (hjob' : ∀ v, exec job' v = (g v.place, v))
    (h : ∀ w v a b, Place.Varied start D done w v → f w = .ok a → g v = .ok b → P a b done) :
    Coupled start D done P job job' := by
  intro w v a b w' v' hplaces hw hv
  rw [hjob] at hw
  rw [hjob'] at hv
  obtain ⟨ha, rfl⟩ := Prod.mk.inj hw
  obtain ⟨hb, rfl⟩ := Prod.mk.inj hv
  exact ⟨done, List.Subset.refl done, h _ _ a b hplaces ha hb, hplaces⟩

theorem report (notices notices' : List Notice) :
    Coupled start D done (fun _ _ _ => True) (report notices : Job ε Unit) (report notices') := by
  intro w v a b w' v' hplaces hw hv
  rw [exec_report] at hw hv
  obtain ⟨-, rfl⟩ := Prod.mk.inj hw
  obtain ⟨-, rfl⟩ := Prod.mk.inj hv
  exact ⟨done, List.Subset.refl done, trivial, hplaces⟩

theorem steps (refuse : FileError → ε) {f : Place → FileTree × Except FileError Unit}
    (h : ∀ w v, Place.Varied start D done w v → (f w).1.Varied D done (f v).1) :
    Coupled start D done (fun _ _ more => more = done) (steps refuse f) (steps refuse f) := by
  intro w v a b w' v' hplaces hw hv
  rw [exec_steps] at hw hv
  obtain ⟨-, rfl⟩ := Prod.mk.inj hw
  obtain ⟨-, rfl⟩ := Prod.mk.inj hv
  exact ⟨done, List.Subset.refl done, rfl, hplaces.with_trees (h _ _ hplaces)⟩

theorem writeFile (refuse : FileError → ε) (p : Path) (content : ByteArray) :
    Coupled start D done (fun _ _ more => start.target p ∈ more) (writeFile refuse p content)
      (writeFile refuse p content) := by
  intro w v a b w' v' hplaces hw hv
  rw [exec_writeFile] at hw hv
  cases ht : w.place.write p content w.stamp with
  | error e =>
      rw [ht] at hw
      exact absurd hw nofun
  | ok t =>
      cases hu : v.place.write p content v.stamp with
      | error e =>
          rw [hu] at hv
          exact absurd hv nofun
      | ok u =>
          rw [ht] at hw
          rw [hu] at hv
          obtain ⟨-, rfl⟩ := Prod.mk.inj hw
          obtain ⟨-, rfl⟩ := Prod.mk.inj hv
          exact ⟨_, List.subset_cons_self _ _, List.mem_cons_self,
            hplaces.with_trees (hplaces.write ht hu)⟩

theorem writeText (refuseDirectory : Path → FileError → ε) (refuseFile : FileError → ε) (p : Path)
    (text : String) :
    Coupled start D done (fun _ _ more => start.target p ∈ more)
      (writeText refuseDirectory refuseFile p text)
      (writeText refuseDirectory refuseFile p text) := by
  rw [Job.writeText]
  cases p.parent with
  | none => exact writeFile refuseFile p text.toUTF8
  | some up =>
      refine bind (steps _ fun _ _ hplaces => ?_) fun _ _ _ _ _ => writeFile refuseFile p text.toUTF8
      exact (hplaces.makeAncestors _ up).1

end Coupled

end Job

end DesignTokens
