import DesignTokens.Proofs.Workspace.Variation

/-!
Jobs that write different texts to the same paths. They end the same way, because what is refused
depends on where there are files and directories and not on what the files hold.
-/

namespace DesignTokens

/-- Any two contents may differ. -/
def anyContents : Variation := fun _ _ _ => True

namespace FileTree.Varied

variable {t u : FileTree} {l : Location}

theorem refl (t : FileTree) : Varied anyContents [] t t :=
  ⟨fun _ => .inl rfl, fun _ h => absurd h List.not_mem_nil⟩

/-- Files with different contents are put at a location of both trees. -/
theorem setFiles (h : Varied anyContents [] t u) (hl : l ≠ []) (a b : ByteArray) (m n : Nat) :
    Varied anyContents [] (t.set l (.file a m)) (u.set l (.file b n)) := by
  refine ⟨fun k => ?_, fun _ hk => absurd hk List.not_mem_nil⟩
  rw [contentAt, contentAt, lookup_set hl, lookup_set hl]
  split
  · exact .inr ⟨a, b, trivial, rfl, rfl⟩
  · exact h.nodes k

end FileTree.Varied

/-- Two files at one path are written in both trees, or refused for the same reason. -/
theorem Place.Varied.writeAny {start w v : Place} (h : Place.Varied start anyContents [] w v)
    (p : Path) (a b : ByteArray) (m n : Nat) :
    Agree (FileTree.Varied anyContents []) (w.write p a m) (v.write p b n) := by
  rw [Place.write, Place.write, ← h.holder_eq]
  cases w.holder p with
  | error e => rfl
  | ok found =>
      obtain ⟨l, last⟩ := found
      cases last with
      | none => rfl
      | some name =>
          change Agree _ (if name = "." ∨ name = ".." ∨ p.endsInSlash then _ else _)
            (if name = "." ∨ name = ".." ∨ p.endsInSlash then _ else _)
          have hne : l ++ [name] ≠ [] := List.append_ne_nil_of_right_ne_nil l (List.cons_ne_nil _ _)
          split
          · rfl
          · rcases h.tree.cases (l ++ [name]) with ⟨ht, hu⟩ | ⟨ht, hu⟩ | ⟨_, _, _, _, ht, hu, -⟩
            · simp only [ht, hu]
              exact h.tree.setFiles hne a b m n
            · simp only [ht, hu]
              rfl
            · simp only [ht, hu]
              exact h.tree.setFiles hne a b m n

namespace Job

variable {ε α β : Type} {start : Place}

/-- From files of one shape on, both jobs end the same way and leave files of one shape. -/
def Parallel (start : Place) (job job' : Job ε α) : Prop :=
  ∀ x y, Place.Varied start anyContents [] x.place y.place →
    (exec job x).1 = (exec job' y).1 ∧
      Place.Varied start anyContents [] (exec job x).2.place (exec job' y).2.place

namespace Parallel

theorem pure (a : α) : Parallel start (pure a : Job ε α) (pure a) :=
  fun _ _ h => ⟨rfl, h⟩

theorem report (notices notices' : List Notice) :
    Parallel start (report notices : Job ε Unit) (report notices') :=
  fun _ _ h => ⟨rfl, h⟩

theorem bind {job job' : Job ε α} {next next' : α → Job ε β} (hjob : Parallel start job job')
    (hnext : ∀ a, Parallel start (next a) (next' a)) :
    Parallel start (job >>= next) (job' >>= next') := by
  intro x y h
  obtain ⟨hsame, hplaces⟩ := hjob x y h
  rw [exec_bind, exec_bind]
  generalize exec job x = left at *
  generalize exec job' y = right at *
  obtain ⟨outcome, x'⟩ := left
  obtain ⟨outcome', y'⟩ := right
  obtain rfl : outcome = outcome' := hsame
  cases outcome with
  | error e => exact ⟨rfl, hplaces⟩
  | ok a => exact hnext a x' y' hplaces

theorem makeDirectories (refuse : FileError → ε) (up : Path) :
    Parallel start (steps refuse fun w => w.makeDirectories up)
      (steps refuse fun w => w.makeDirectories up) := by
  intro x y h
  obtain ⟨htree, houtcome⟩ := h.makeAncestors up.parts.length up
  rw [exec_steps, exec_steps]
  exact ⟨congrArg (Except.mapError refuse) houtcome, h.with_trees htree⟩

theorem writeFile (refuse : FileError → ε) (p : Path) (a b : ByteArray) :
    Parallel start (writeFile refuse p a) (writeFile refuse p b) := by
  intro x y h
  have hwrite := h.writeAny p a b x.stamp y.stamp
  rw [exec_writeFile, exec_writeFile]
  cases hx : x.place.write p a x.stamp <;> cases hy : y.place.write p b y.stamp <;>
    rw [hx, hy] at hwrite
  · obtain rfl : _ = _ := hwrite
    exact ⟨rfl, h⟩
  · exact hwrite.elim
  · exact hwrite.elim
  · exact ⟨rfl, h.with_trees hwrite⟩

theorem writeText (refuseDirectory : Path → FileError → ε) (refuseFile : FileError → ε) (p : Path)
    (text text' : String) :
    Parallel start (writeText refuseDirectory refuseFile p text)
      (writeText refuseDirectory refuseFile p text') := by
  rw [Job.writeText, Job.writeText]
  cases p.parent with
  | none => exact writeFile refuseFile p text.toUTF8 text'.toUTF8
  | some up => exact .bind (makeDirectories _ up) fun _ => writeFile _ _ _ _

end Parallel

end Job

end DesignTokens
