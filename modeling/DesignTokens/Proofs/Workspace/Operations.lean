import DesignTokens.Proofs.Workspace.Directories

/-!
What every operation on files keeps, whatever paths it is given: the tree stays well-formed, and
directories are made only where nothing was.
-/

namespace DesignTokens

open FileTree

/-- A tree comes from another one by making directories where nothing was. -/
structure FileTree.Opened (t u : FileTree) : Prop where
  wellFormed : t.WellFormed → u.WellFormed
  lookup : ∀ l, u.lookup l = t.lookup l ∨ t.lookup l = none ∧ u.lookup l = some .directory

namespace FileTree.Opened

variable {t u v : FileTree}

theorem refl (t : FileTree) : Opened t t :=
  ⟨id, fun _ => .inl rfl⟩

theorem trans (htu : Opened t u) (huv : Opened u v) : Opened t v := by
  refine ⟨fun h => huv.wellFormed (htu.wellFormed h), ?_⟩
  intro l
  rcases huv.lookup l with hsame | ⟨hnone, hdir⟩
  · rw [hsame]
    exact htu.lookup l
  · rcases htu.lookup l with hsame | ⟨-, hdir'⟩
    · exact .inr ⟨hsame ▸ hnone, hdir⟩
    · exact absurd (hdir'.symm.trans hnone) nofun

theorem set {l : Location} {name : String} (hname : ProperName name)
    (hl : t.lookup l = some .directory) (hnone : t.lookup (l ++ [name]) = none) :
    Opened t (t.set (l ++ [name]) .directory) := by
  refine ⟨fun hwf => hwf.set hl hname (.inl rfl), ?_⟩
  intro m
  rw [lookup_set_directory_of_none hnone]
  split
  · rename_i hm
    exact .inr ⟨hm ▸ hnone, rfl⟩
  · exact .inl rfl

theorem lookup_of_some (h : Opened t u) {l : Location} {n : Node} (hl : t.lookup l = some n) :
    u.lookup l = some n := by
  rcases h.lookup l with hsame | ⟨hnone, -⟩
  · exact hsame.trans hl
  · exact absurd (hl.symm.trans hnone) nofun

end FileTree.Opened

namespace Place

variable {w : Place} {p : Path}

theorem makeDirectory_eq_ok {tree : FileTree} (h : w.makeDirectory p = .ok tree) :
    Opened w.tree tree ∧ ∀ l, l ≠ w.target p → tree.lookup l = w.tree.lookup l := by
  rw [makeDirectory] at h
  cases hholder : w.holder p with
  | error e =>
      rw [hholder] at h
      cases h
  | ok found =>
      obtain ⟨l, last⟩ := found
      rw [hholder] at h
      cases last with
      | none => cases h
      | some name =>
          have hlast := getLast?_of_holder hholder
          change (if name = "." ∨ name = ".." then _ else _) = _ at h
          split at h
          · cases h
          · rename_i hnot
            obtain ⟨hdot, hup⟩ := not_or.mp hnot
            obtain ⟨hempty, hslash⟩ := proper_of_mem_names (List.mem_of_getLast? hlast)
            have hname : ProperName name := ⟨hempty, hslash, hdot, hup⟩
            rw [holder_eq hlast hdot] at hholder
            split at hholder
            · rename_i hway
              obtain ⟨rfl, -⟩ := Prod.mk.inj (Except.ok.inj hholder)
              split at h
              · cases h
              · rename_i hnone
                obtain rfl := Except.ok.inj h
                have hdir := blockage_eq_none_iff.mp hway _ (descend_mem_wayTo p)
                refine ⟨.set hname hdir hnone, ?_⟩
                intro m hm
                rw [target_eq_advance hlast hdot, advance_of_proper _ hname] at hm
                rw [lookup_set_directory_of_none hnone, if_neg hm]
            · cases hholder

theorem makeLast_opens (w : Place) (p : Path) :
    Opened w.tree (makeLast w p).1 ∧
      ∀ l, l ≠ w.target p → (makeLast w p).1.lookup l = w.tree.lookup l := by
  rw [makeLast]
  split
  · rename_i tree htree
    exact makeDirectory_eq_ok htree
  · split
    · exact ⟨.refl _, fun _ _ => rfl⟩
    · exact ⟨.refl _, fun _ _ => rfl⟩

theorem makeLast_opens_in {t : FileTree} (ht : Opened w.tree t)
    (hrest : ∀ l, l ∉ w.route p → t.lookup l = w.tree.lookup l) :
    Opened w.tree (makeLast ⟨t, w.current⟩ p).1 ∧
      ∀ l, l ∉ w.route p → (makeLast ⟨t, w.current⟩ p).1.lookup l = w.tree.lookup l := by
  obtain ⟨hopened, hlookup⟩ := makeLast_opens ⟨t, w.current⟩ p
  refine ⟨ht.trans hopened, fun l hl => (hlookup l ?_).trans (hrest l hl)⟩
  rintro rfl
  rw [target_mk t w p] at hl
  exact hl (target_mem_route p)

/-- Directories are made where nothing was, and nowhere but on the way. -/
theorem makeAncestors_opens (depth : Nat) (w : Place) (p : Path) :
    Opened w.tree (makeAncestors depth w p).1 ∧
      ∀ l, l ∉ w.route p → (makeAncestors depth w p).1.lookup l = w.tree.lookup l := by
  have hnothing : Opened w.tree w.tree ∧ ∀ l, l ∉ w.route p → w.tree.lookup l = w.tree.lookup l :=
    ⟨.refl _, fun _ _ => rfl⟩
  have hlast := makeLast_opens_in (p := p) (.refl w.tree) fun _ _ => rfl
  rw [makeAncestors_eq_makeLast]
  split
  · exact hnothing
  · split
    · split
      · rename_i depth up hparent
        obtain ⟨hopened, hlookup⟩ := makeAncestors_opens depth w up
        have hrest : ∀ l, l ∉ w.route p →
            (makeAncestors depth w up).1.lookup l = w.tree.lookup l :=
          fun l hl => hlookup l fun hmem => hl (route_parent_subset hparent hmem)
        split
        · rename_i tree e hmade
          rw [hmade] at hopened hrest
          exact ⟨hopened, hrest⟩
        · rename_i tree hmade
          rw [hmade] at hopened hrest
          exact makeLast_opens_in hopened hrest
      · exact hnothing
    · exact hlast

theorem opened_makeDirectories (w : Place) (p : Path) :
    Opened w.tree (w.makeDirectories p).1 :=
  (makeAncestors_opens _ w p).1

/-- Directories above a path are made nowhere but on the way to it. -/
theorem lookup_makeDirectories_parent {up : Path} (hup : p.parent = some up) {l : Location}
    (hl : l ∉ w.wayTo p) : (w.makeDirectories up).1.lookup l = w.tree.lookup l :=
  (makeAncestors_opens _ w up).2 l (route_parent hup ▸ hl)

theorem wellFormed_write {content : ByteArray} {time : Nat} {tree : FileTree}
    (hwf : w.tree.WellFormed) (h : w.write p content time = .ok tree) : tree.WellFormed := by
  obtain ⟨l, name, hname, -, hdir, hfree, rfl⟩ := write_eq_ok h
  exact hwf.set hdir hname (.inr hfree)

theorem wellFormed_removeDirectory (hwf : w.tree.WellFormed) (p : Path) :
    (w.removeDirectory p).1.WellFormed := by
  rw [removeDirectory]
  split
  · exact hwf
  · split
    · exact hwf
    · exact hwf
    · split
      · exact hwf.clear
      · exact hwf.clear
      · exact hwf.clear
      · exact hwf.prune

end Place

namespace Job

variable {ε α β : Type}

/-- Writing a text: directories are made, and then the file is written or refused. -/
theorem exec_writeText (refuseDirectory : Path → FileError → ε) (refuseFile : FileError → ε)
    (p : Path) (text : String) (w : Workspace) :
    ∃ t, Opened w.place.tree t ∧
      (∀ l, l ∉ w.place.wayTo p → t.lookup l = w.place.tree.lookup l) ∧
      ((∃ tree, (⟨t, w.place.current⟩ : Place).write p text.toUTF8 w.stamp = .ok tree ∧
          exec (writeText refuseDirectory refuseFile p text) w = (.ok (), withTree w tree)) ∨
        ∃ e, ((∃ cause, e = refuseFile cause) ∨
            ∃ up cause, p.parent = some up ∧ e = refuseDirectory up cause) ∧
          exec (writeText refuseDirectory refuseFile p text) w = (.error e, withTree w t)) := by
  have hfile : ∀ t, Opened w.place.tree t →
      (∃ tree, (⟨t, w.place.current⟩ : Place).write p text.toUTF8 w.stamp = .ok tree ∧
          exec (writeFile refuseFile p text.toUTF8) (withTree w t) = (.ok (), withTree w tree)) ∨
        ∃ cause, exec (writeFile refuseFile p text.toUTF8) (withTree w t) =
          (.error (refuseFile cause), withTree w t) := by
    intro t ht
    rw [exec_writeFile]
    cases hwrite : (withTree w t).place.write p text.toUTF8 (withTree w t).stamp with
    | ok tree => exact .inl ⟨tree, hwrite, rfl⟩
    | error cause => exact .inr ⟨cause, rfl⟩
  rw [writeText]
  cases hparent : p.parent with
  | none =>
      refine ⟨w.place.tree, .refl _, fun _ _ => rfl, ?_⟩
      rcases hfile _ (.refl _) with hdone | ⟨cause, hfailed⟩
      · exact .inl hdone
      · exact .inr ⟨_, .inl ⟨cause, rfl⟩, hfailed⟩
  | some up =>
      have hopened := Place.opened_makeDirectories w.place up
      refine ⟨_, hopened, fun l hl => Place.lookup_makeDirectories_parent hparent hl, ?_⟩
      rw [exec_bind, exec_steps]
      rcases (w.place.makeDirectories up).2 with cause | _
      · exact .inr ⟨_, .inr ⟨up, cause, rfl, rfl⟩, rfl⟩
      · rcases hfile _ hopened with hdone | ⟨cause, hfailed⟩
        · exact .inl hdone
        · exact .inr ⟨_, .inl ⟨cause, rfl⟩, hfailed⟩

/-- A text that was written is found; if it was not, what is found at any path stays. -/
theorem exec_writeText_cases (refuseDirectory : Path → FileError → ε) (refuseFile : FileError → ε)
    (p : Path) (text : String) (w : Workspace) :
    (∃ modified, (exec (writeText refuseDirectory refuseFile p text) w).1 = .ok () ∧
      (exec (writeText refuseDirectory refuseFile p text) w).2.place.node p =
        .ok (.file text.toUTF8 modified)) ∨
    ∃ e, (exec (writeText refuseDirectory refuseFile p text) w).1 = .error e ∧
      ∀ q n, w.place.node q = .ok n →
        (exec (writeText refuseDirectory refuseFile p text) w).2.place.node q = .ok n := by
  obtain ⟨t, ht, -, ⟨tree, htree, hrun⟩ | ⟨e, -, hrun⟩⟩ :=
    exec_writeText refuseDirectory refuseFile p text w
  · rw [hrun]
    exact .inl ⟨w.stamp, rfl, Place.node_write (w := ⟨t, w.place.current⟩) htree⟩
  · rw [hrun]
    exact .inr ⟨e, rfl, fun q n hn => Place.node_of_kept (fun l m hm => ht.lookup_of_some hm) hn⟩

/-- What writing a text changes: directories are made on the way, and the file is written. -/
theorem lookup_writeText (refuseDirectory : Path → FileError → ε) (refuseFile : FileError → ε)
    (p : Path) (text : String) (w : Workspace) :
    ∃ tree, (exec (writeText refuseDirectory refuseFile p text) w).2 = withTree w tree ∧
      (w.place.tree.WellFormed → tree.WellFormed) ∧
      ∀ l, tree.lookup l = w.place.tree.lookup l ∨
        (l ∈ w.place.wayTo p ∧ w.place.tree.lookup l = none ∧
          tree.lookup l = some .directory) ∨
        (l = w.place.target p ∧ w.place.tree.lookup l ≠ some .directory) := by
  obtain ⟨t, hopened, hway, hrest⟩ := exec_writeText refuseDirectory refuseFile p text w
  have hlookup : ∀ l, t.lookup l = w.place.tree.lookup l ∨
      (l ∈ w.place.wayTo p ∧ w.place.tree.lookup l = none ∧ t.lookup l = some .directory) ∨
      (l = w.place.target p ∧ w.place.tree.lookup l ≠ some .directory) := by
    intro l
    by_cases hl : l ∈ w.place.wayTo p
    · exact (hopened.lookup l).imp_right fun hmade => .inl ⟨hl, hmade⟩
    · exact .inl (hway l hl)
  rcases hrest with ⟨tree, hwrite, hrun⟩ | ⟨e, -, hrun⟩
  · rw [hrun]
    obtain ⟨l, name, hname, htarget, hdir, hfree, rfl⟩ := Place.write_eq_ok hwrite
    rw [Place.target_mk t w.place] at htarget
    refine ⟨_, rfl, fun hwf => (hopened.wellFormed hwf).set hdir hname (.inr hfree), ?_⟩
    intro m
    rw [lookup_set (List.append_ne_nil_of_right_ne_nil l (List.cons_ne_nil name []))]
    split
    · rename_i hm
      refine .inr (.inr ⟨hm.trans htarget.symm, ?_⟩)
      intro hdirectory
      exact hfree (hm ▸ hopened.lookup_of_some hdirectory)
    · exact hlookup m
  · rw [hrun]
    exact ⟨t, rfl, hopened.wellFormed, hlookup⟩

/-- A relation between workspaces that carries over from one step of a job to the next, and does
not depend on what is reported. -/
structure Chain (R : Workspace → Workspace → Prop) : Prop where
  refl : ∀ x, R x x
  trans : ∀ {x y z}, R x y → R y z → R x z
  report : ∀ x notices, R x { x with notices := notices }

/-- A job relates every workspace to the one it leaves. -/
def Within (R : Workspace → Workspace → Prop) (job : Job ε α) : Prop :=
  ∀ x, R x (exec job x).2

theorem Within.of_exec {R : Workspace → Workspace → Prop} {job : Job ε α} (h : Within R job)
    {x after : Workspace} {result : Except ε α} (hrun : exec job x = (result, after)) :
    R x after := by
  have hjob := h x
  rwa [hrun] at hjob

namespace Chain

variable {R : Workspace → Workspace → Prop}

theorem pure (h : Chain R) (a : α) : Within R (pure a : Job ε α) :=
  h.refl

theorem throw (h : Chain R) (e : ε) : Within R (throw e : Job ε α) :=
  h.refl

theorem reports (h : Chain R) (notices : List Notice) : Within R (Job.report notices : Job ε Unit) :=
  fun x => h.report x (x.notices ++ notices)

theorem query (h : Chain R) (refuse : FileError → ε) (f : Place → Except FileError α) :
    Within R (Job.query refuse f) := by
  intro x
  rw [exec_query]
  exact h.refl x

theorem bind (h : Chain R) {job : Job ε α} {next : α → Job ε β} (hjob : Within R job)
    (hnext : ∀ a, Within R (next a)) : Within R (job >>= next) := by
  intro x
  have hfirst := hjob x
  rw [exec_bind]
  rcases hrun : exec job x with ⟨_ | a, after⟩
  · rwa [hrun] at hfirst
  · rw [hrun] at hfirst
    exact h.trans hfirst (hnext a after)

theorem writeText (h : Chain R) (refuseDirectory : Path → FileError → ε)
    (refuseFile : FileError → ε) {p : Path} (text : String)
    (hopen : ∀ x tree, Opened x.place.tree tree → R x (withTree x tree))
    (hwrite : ∀ x tree, x.place.write p text.toUTF8 x.stamp = .ok tree → R x (withTree x tree)) :
    Within R (Job.writeText refuseDirectory refuseFile p text) := by
  intro w
  obtain ⟨t, ht, -, ⟨tree, htree, hrun⟩ | ⟨e, -, hrun⟩⟩ :=
    exec_writeText refuseDirectory refuseFile p text w
  · rw [hrun]
    exact h.trans (hopen w t ht) (hwrite (withTree w t) tree htree)
  · rw [hrun]
    exact hopen w t ht

end Chain

end Job

end DesignTokens
