import DesignTokens.Proofs.Layer.Refill
import DesignTokens.Proofs.Layer.Sources

/-!
Which files a build of a layer adds: those at the paths that it reports, and no others. Where
nothing else lies among the outputs of the layer, listings of the output directories give these
paths back.
-/

namespace DesignTokens

open FileTree Job

theorem FileTree.isFile_set_iff {t : FileTree} {l m : Location} (hl : l ≠ []) {content : ByteArray}
    {modified : Nat} : (t.set l (.file content modified)).IsFile m ↔ t.IsFile m ∨ l = m := by
  rw [IsFile, lookup_set hl]
  split
  · rename_i h
    exact iff_of_true ⟨_, _, rfl⟩ (.inr h.symm)
  · rename_i h
    exact (or_iff_left (Ne.symm h)).symm

/-- The files `w` are the files `v` and those at some paths. -/
structure Place.Added (paths : List Path) (v w : Place) : Prop where
  current : w.current = v.current
  files : ∀ l, w.tree.IsFile l ↔ v.tree.IsFile l ∨ ∃ p ∈ paths, v.target p = l

theorem Place.Added.refl (v : Place) : v.Added [] v :=
  ⟨rfl, fun _ => (or_iff_left fun ⟨_, hp, _⟩ => absurd hp List.not_mem_nil).symm⟩

namespace Job

variable {ε α β : Type} {done : List Path}

/-- If the files at the paths `done` were added before a job and the job succeeds, those at the
paths that belong to its value were added in the end. -/
def Adds (done : List Path) (paths : α → List Path) (job : Job ε α) : Prop :=
  ∀ v x a after, Place.Added done v x.place → exec job x = (.ok a, after) →
    Place.Added (paths a) v after.place

namespace Adds

variable {paths : α → List Path} {more : β → List Path}

theorem pure {a : α} (h : paths a = done) : Adds done paths (pure a : Job ε α) := by
  intro v x b after hadded hrun
  obtain ⟨hvalue, rfl⟩ := Prod.mk.inj hrun
  obtain rfl := Except.ok.inj hvalue
  rwa [h]

theorem bind {job : Job ε α} {next : α → Job ε β} (hjob : Adds done paths job)
    (hnext : ∀ a, Adds (paths a) more (next a)) : Adds done more (job >>= next) := by
  intro v x b after hadded hrun
  obtain ⟨a, between, hfirst, hrest⟩ := exec_bind_eq_ok.mp hrun
  exact hnext a v between b after (hjob v x a between hadded hfirst) hrest

theorem report (notices : List Notice) :
    Adds done (fun _ => done) (Job.report notices : Job ε Unit) := by
  intro v x _ after hadded hrun
  obtain rfl := congrArg Prod.snd hrun
  exact ⟨hadded.current, hadded.files⟩

theorem resolve (dependencies sources : List Path) :
    Adds done (fun _ => done) (resolveFiles dependencies sources) := by
  intro v x _ after hadded hrun
  rw [exec_resolveFiles] at hrun
  obtain rfl := congrArg Prod.snd hrun
  exact hadded

theorem generated (p : Path) (stamp body : String) :
    Adds done (fun q => done ++ [q]) (Generated.write p stamp body) := by
  intro v x q after hadded hrun
  obtain ⟨_, _, hwrite, hreturn⟩ := exec_bind_eq_ok.mp hrun
  obtain ⟨hvalue, rfl⟩ := Prod.mk.inj hreturn
  obtain rfl := Except.ok.inj hvalue
  obtain ⟨t, hopened, -, ⟨tree, htree, hdone⟩ | ⟨e, -, hfailed⟩⟩ :=
    exec_writeText TokenError.file (.file p) p (Generated.contents stamp body) x
  · rw [hdone] at hwrite
    obtain rfl := congrArg Prod.snd hwrite
    obtain ⟨l, name, -, htarget, -, -, rfl⟩ := Place.write_eq_ok htree
    rw [Place.target_mk t x.place, Place.target_congr hadded.current] at htarget
    refine ⟨hadded.current, fun m => ?_⟩
    have hne : l ++ [name] ≠ [] := List.append_ne_nil_of_right_ne_nil l (List.cons_ne_nil name [])
    change FileTree.IsFile (FileTree.set _ _ _) m ↔ _
    rw [isFile_set_iff hne, isFile_iff_of_made (hopened.lookup m), hadded.files m, ← htarget,
      or_assoc]
    simp only [List.mem_append, List.mem_singleton, or_and_right, exists_or, exists_eq_left]
  · rw [hfailed] at hwrite
    cases congrArg Prod.fst hwrite

end Adds

end Job

namespace BuildContext

variable {c : BuildContext} {layer : Layer} {done : List Path}

theorem adds_writeModules (dir : Path) (tokens : List Token) (leaf : Token → Json.Value)
    (stamp : String) (modules : List ModuleName) :
    Adds done (fun written => done ++ written)
      (TypedModule.writeModules dir tokens leaf stamp modules) := by
  induction modules generalizing done with
  | nil => exact .pure (List.append_nil _)
  | cons name rest ih =>
      refine .bind (.report _) fun _ => .bind (.generated _ _ _) fun p => ?_
      exact .bind ih fun written => .pure (List.append_cons _ _ _)

theorem adds_typedModules (dir : Path) (tokens : List Token) (style : LeafStyle)
    (stem stamp : String) :
    Adds done (fun written => done ++ written)
      (TypedModule.write dir tokens style stem stamp) := by
  refine .bind (.report _) fun _ => .bind (adds_writeModules _ _ _ _ _) fun modules => ?_
  split
  · exact .pure rfl
  · exact .bind (.generated _ _ _) fun index => .pure (List.append_assoc _ _ _).symm

theorem adds_writeTyped (tokens : List Token) :
    Adds done (fun written => done ++ written) (c.writeTyped layer tokens) := by
  rw [writeTyped]
  split
  · exact adds_typedModules _ _ _ _ _
  · exact .pure (List.append_nil _)

theorem adds_writeSingle (paths : List Path) :
    Adds done (fun written => done ++ written) (c.writeSingle layer paths) := by
  refine .bind (.resolve _ _) fun d => .bind (.report _) fun _ =>
    .bind (.generated _ _ _) fun css => ?_
  exact .bind (adds_writeTyped _) fun written => .pure (List.append_cons _ _ _)

theorem adds_writeFlavorFile (p : Path) (flavor : String) (activation : Activation)
    (tokens : List Token) :
    Adds done (fun q => done ++ [q]) (c.writeFlavorFile p flavor activation tokens) :=
  .bind (.report _) fun _ => .generated _ _ _

theorem adds_writeModes (dependencies : List Path) (flavor : String) (dir : Path)
    (modes : List (String × Path)) :
    Adds done (fun written => done ++ written) (c.writeModes dependencies flavor dir modes) := by
  induction modes generalizing done with
  | nil => exact .pure (List.append_nil _)
  | cons mode rest ih =>
      refine .bind (.report _) fun _ => .bind (.resolve _ _) fun d =>
        .bind (adds_writeFlavorFile _ _ _ _) fun css => ?_
      exact .bind ih fun written => .pure (List.append_cons _ _ _)

theorem adds_writeFlavors (typed : Option (List Token)) (variants : List Flavor) :
    Adds done (fun result => done ++ result.1) (c.writeFlavors layer typed variants) := by
  induction variants generalizing done typed with
  | nil => exact .pure (List.append_nil _)
  | cons flavor rest ih =>
      refine .bind (.resolve _ _) fun d => .bind (adds_writeFlavorFile _ _ _ _) fun css =>
        .bind (adds_writeModes _ _ _ _) fun modes => ?_
      refine .bind (ih _) fun result => .pure ?_
      simp only [List.append_assoc, List.cons_append, List.nil_append]

theorem adds_writeTheme (variants : List Flavor) :
    Adds done (fun written => done ++ written) (c.writeTheme layer variants) := by
  refine .bind (adds_writeFlavors _ _) ?_
  rintro ⟨written, _ | tokens⟩
  · dsimp only
    split
    · exact .bind (.report _) fun _ => .pure rfl
    · exact .pure rfl
  · exact .bind (adds_writeTyped tokens) fun more => .pure (List.append_assoc _ _ _).symm

theorem adds_writeOutputs : Adds done (fun written => done ++ written) (c.writeOutputs layer) := by
  rw [writeOutputs]
  split
  · exact .bind (.report _) fun _ => .pure (List.append_nil _)
  · cases layer.sources with
    | files paths => exact adds_writeSingle paths
    | flavors variants => exact adds_writeTheme variants

/-- A build adds the files that it gives the paths of. -/
theorem added_writeOutputs {x after : Workspace} {written : List Path}
    (h : exec (c.writeOutputs layer) x = (.ok written, after)) :
    x.place.Added written after.place :=
  adds_writeOutputs x.place x written after (.refl x.place) h

section Listing

variable {layer : String} {paths : List Path} {w : Place}

theorem OutputPath.exists_joinAll {p : Path} (hp : c.OutputPath layer p) :
    ∃ kind names, (kind = "css" ∨ kind = "ts") ∧ names ≠ [] ∧
      p = ((c.outputDir.join kind).join layer).joinAll names ∧
      ∀ w : Place, w.target p = w.target c.outputDir ++ [kind, layer] ++ names := by
  obtain ⟨kind, names, name, hkind, hnames, hname, rfl⟩ := hp
  refine ⟨kind, names ++ [name], hkind.cases,
    List.append_ne_nil_of_right_ne_nil _ (List.cons_ne_nil _ _), ?_, fun w => ?_⟩
  · rw [Path.joinAll_concat]
    rfl
  · rw [Place.target_join _ hname, Place.target_joinAll _ hnames]
    simp only [List.append_assoc, List.cons_append, List.nil_append]

theorem mem_pair_outputs_iff {dir : Path} :
    dir ∈ [c.cssDir layer, c.tsDir layer] ↔
      ∃ kind, (kind = "css" ∨ kind = "ts") ∧ dir = (c.outputDir.join kind).join layer := by
  rw [List.mem_pair]
  constructor
  · rintro (rfl | rfl)
    · exact ⟨"css", .inl rfl, rfl⟩
    · exact ⟨"ts", .inr rfl, rfl⟩
  · rintro ⟨kind, rfl | rfl, rfl⟩
    · exact .inl rfl
    · exact .inr rfl

/-- Where the files among the outputs of a layer are those at some paths, listings of the output
directories give these paths. -/
theorem mem_iff_listed (hwf : w.tree.WellFormed) (hdirect : c.Direct w) (hlayer : ProperName layer)
    (hpaths : ∀ p ∈ paths, c.OutputPath layer p)
    (hfiles : ∀ l, c.Outputs w layer l → (w.tree.IsFile l ↔ ∃ p ∈ paths, w.target p = l))
    {p : Path} :
    p ∈ paths ↔ ∃ dir ∈ [c.cssDir layer, c.tsDir layer], ∃ l, (p, l) ∈ w.filesBelow dir := by
  simp only [Place.mem_filesBelow_iff hwf, mem_pair_outputs_iff]
  constructor
  · intro hp
    obtain ⟨kind, names, hkind, hne, hpath, htarget⟩ := (hpaths p hp).exists_joinAll
    have hbelow : Below (w.target c.outputDir ++ [kind, layer]) (w.target p) := by
      rw [htarget]
      exact Below.append hne
    have hfile : w.tree.IsFile (w.target p) := (hfiles _ ⟨kind, hkind, hbelow.1⟩).mpr ⟨p, hp, rfl⟩
    obtain ⟨content, modified, hlookup⟩ := id hfile
    have hthere : w.isDirectory ((c.outputDir.join kind).join layer) :=
      hdirect.isDirectory hwf (proper_kind hkind) hlayer hbelow (by rw [hlookup]; rfl)
    refine ⟨_, ⟨kind, hkind, rfl⟩, w.target p, hthere, names, hne, ?_⟩
    rw [c.target_join_join w (proper_kind hkind) hlayer, ← htarget, ← hpath]
    exact ⟨rfl, hfile⟩
  · rintro ⟨dir, ⟨kind, hkind, rfl⟩, l, -, names, -, heq, hfile⟩
    obtain ⟨rfl, rfl⟩ := Prod.mk.inj heq
    rw [c.target_join_join w (proper_kind hkind) hlayer] at hfile
    obtain ⟨q, hq, htarget⟩ := (hfiles _ ⟨kind, hkind, List.prefix_append _ _⟩).mp hfile
    -- only one path of an output leads there
    obtain ⟨kind', names', -, -, hpath, htarget'⟩ := (hpaths q hq).exists_joinAll
    rw [htarget'] at htarget
    simp only [List.append_assoc, List.cons_append, List.nil_append, List.append_cancel_left_eq,
      List.cons.injEq, true_and] at htarget
    obtain ⟨rfl, rfl⟩ := htarget
    exact hpath ▸ hq

end Listing

end BuildContext

end DesignTokens
