import DesignTokens.Build.Run
import DesignTokens.Proofs.Build.Layout

/-!
What the steps of a build leave alone: clearing the output directory, writing the cache file, and
building a layer with what follows for its cache entry.
-/

namespace DesignTokens

open FileTree Place

namespace BuildContext

variable {c : BuildContext} {tokens : Path} {cache : Option Path} {contents : ByteArray → Prop}
  {w : Place}

/-- An empty output directory serves as well as any other. -/
theorem Sound.cleared (h : c.Sound tokens cache contents w) :
    c.Sound tokens cache contents ⟨w.tree.clear (w.target c.outputDir), w.current⟩ ∧
      c.Keeps tokens w ⟨w.tree.clear (w.target c.outputDir), w.current⟩ := by
  have hsame : ∀ l, ¬ Below (w.target c.outputDir) l →
      (w.tree.clear (w.target c.outputDir)).lookup l = w.tree.lookup l := by
    intro l hl
    rw [lookup_clear, if_neg hl]
  have hnone : ∀ l, Below (w.target c.outputDir) l →
      (w.tree.clear (w.target c.outputDir)).lookup l = none := by
    intro l hl
    rw [lookup_clear, if_pos hl]
  have hready : c.Ready ⟨w.tree.clear (w.target c.outputDir), w.current⟩ := by
    refine h.ready.of_tree h.ready.wellFormed.clear ?_ ?_ ?_
    · rw [hsame _ (h.ready.straight _ (origin_mem_route _)), h.ready.origin]
    · intro l hl hsome
      rw [hnone l hl] at hsome
      exact absurd hsome nofun
    · rintro l hl ⟨content, modified, hfile⟩
      exact absurd ((hnone l hl).symm.trans hfile) nofun
  have hkeeps : c.Keeps tokens w ⟨w.tree.clear (w.target c.outputDir), w.current⟩ := by
    constructor
    · rfl
    · intro l hl hdir
      exact (hsame l hl).trans hdir
    · intro l hl
      exact hsame l fun hout => h.apart.not_below_both hout.1 hl.1
    · intro l hl
      rcases List.mem_append.mp hl with hmem | hmem
      · rw [IsFile, IsFile, hsame l (h.ready.straight l hmem)]
      · have hbelow : Below (w.target c.outputDir) l ∧
            l.length = (w.target c.outputDir).length + 1 := by
          rcases List.mem_pair.mp hmem with rfl | rfl
          · exact ⟨Below.append (List.cons_ne_nil _ _), by simp⟩
          · exact ⟨Below.append (List.cons_ne_nil _ _), by simp⟩
        constructor
        · rintro ⟨content, modified, hfile⟩
          exact absurd ((hnone l hbelow.1).symm.trans hfile) nofun
        · intro hfile
          have hdeep := h.ready.deep l hbelow.1 hfile
          omega
  exact ⟨h.keeps hkeeps hready, hkeeps⟩

/-- Writing the cache file changes neither sources nor outputs. -/
theorem Sound.flush {s : CacheStore} (hpath : s.path = cache) {x : Workspace}
    (h : c.Sound tokens cache contents x.place) :
    c.Sound tokens cache contents (Job.exec s.flush x).2.place ∧
      c.Keeps tokens x.place (Job.exec s.flush x).2.place ∧
      ∀ l, Below (x.place.target c.outputDir) l →
        (Job.exec s.flush x).2.place.tree.lookup l = x.place.tree.lookup l := by
  rw [CacheStore.flush]
  cases hcase : s.path with
  | none => exact ⟨h, Keeps.refl _, fun _ _ => rfl⟩
  | some p =>
      have hp : cache = some p := hpath.symm.trans hcase
      obtain ⟨tree, hafter, hwf, hlookup⟩ := Job.lookup_writeText (fun _ => CacheError.file p)
        (CacheError.file p) p s.text x
      obtain ⟨hnotOut, hnotTokens, hnotWay⟩ := h.apart.cacheFile p hp
      have hdirectories : ∀ l, x.place.tree.lookup l = some .directory →
          tree.lookup l = some .directory := by
        intro l hl
        rcases hlookup l with hsame | ⟨-, hnone, -⟩ | ⟨-, hfree⟩
        · rw [hsame, hl]
        · exact absurd (hl.symm.trans hnone) nofun
        · exact absurd hl hfree
      have houtputs : ∀ l, Below (x.place.target c.outputDir) l →
          tree.lookup l = x.place.tree.lookup l := by
        intro l hl
        rcases hlookup l with hsame | ⟨hway, -, -⟩ | ⟨rfl, -⟩
        · exact hsame
        · exact absurd hl (h.apart.cacheWay p hp l hway).1
        · exact absurd hl hnotOut
      have hready : c.Ready ⟨tree, x.place.current⟩ := by
        refine h.ready.of_tree (hwf h.ready.wellFormed) (hdirectories _ h.ready.origin) ?_ ?_
        · intro l hl hsome m hm
          rw [houtputs l hl] at hsome
          exact hdirectories m (h.ready.reach l hl hsome m hm)
        · intro l hl hfile
          rw [IsFile, houtputs l hl] at hfile
          exact h.ready.deep l hl hfile
      have hkeeps : c.Keeps tokens x.place ⟨tree, x.place.current⟩ := by
        constructor
        · rfl
        · intro l _ hdir
          exact hdirectories l hdir
        · intro l hl
          rcases hlookup l with hsame | ⟨hway, -, -⟩ | ⟨rfl, -⟩
          · exact hsame
          · exact absurd hl (h.apart.cacheWay p hp l hway).2
          · exact absurd hl hnotTokens
        · intro l hl
          rcases hlookup l with hsame | ⟨-, hnone, hdir⟩ | ⟨rfl, -⟩
          · rw [IsFile, IsFile, hsame]
          · simp [IsFile, hnone, hdir]
          · rcases List.mem_append.mp hl with hmem | hmem
            · exact absurd hmem hnotWay
            · rcases List.mem_pair.mp hmem with heq | heq
              · exact absurd (heq ▸ Below.append (List.cons_ne_nil _ _)) hnotOut
              · exact absurd (heq ▸ Below.append (List.cons_ne_nil _ _)) hnotOut
      dsimp only
      rw [hafter]
      exact ⟨h.keeps hkeeps hready, hkeeps, houtputs⟩

end BuildContext

end DesignTokens
