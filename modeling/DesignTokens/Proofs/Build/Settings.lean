import DesignTokens.Proofs.Build.History

/-!
Runs with other settings than those of the runs before. The cache knows about sources and about
whether outputs are there, not about settings.
-/

namespace DesignTokens

open FileTree Place

namespace BuildContext

variable {a b c : BuildContext} {tokens : Path} {cache : Option Path}
  {contents : ByteArray → Prop} {flavor : String} {kind : LayerKind} {success : Bool} {g w : Place}

/-- A project that wants no typed modules has none. -/
theorem Settled.untyped (hplain : ∀ content, contents content → PlainContent content)
    (hg : c.Sound tokens cache contents g) (htyped : c.typedModules = false)
    (h : c.Settled (Layer.ofKind g tokens flavor kind) success g w) {l : Location}
    (hl : g.target c.outputDir ++ ["ts", kind.dirName] <+: l) : w.tree.lookup l = none := by
  obtain ⟨-, hcontents⟩ := h ⟨g, 0, 0, []⟩ rfl
  obtain ⟨-, htwin⟩ := Sound.buildLayer_akin flavor hplain (w := ⟨g, 0, 0, []⟩)
    (v := ⟨g, 0, 0, []⟩) hg hg ((Keeps.refl g).akin kind)
  have hnone := htwin.untyped htyped l (by rw [Layer.name_ofKind]; exact hl)
  rw [← contentAt_eq_none_iff, hcontents l ⟨"ts", .inr rfl, by rw [Layer.name_ofKind]; exact hl⟩,
    contentAt_eq_none_iff]
  exact hnone

end BuildContext

namespace Build

open BuildContext

variable {a b c : BuildContext} {tokens : Path} {cache : Option Path}
  {contents : ByteArray → Prop} {flavor : String} {kind : LayerKind} {s after : BuildState}
  {start : Place}

end Build

end DesignTokens
