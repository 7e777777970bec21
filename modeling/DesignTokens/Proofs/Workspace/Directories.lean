import DesignTokens.Proofs.Workspace.Execution
import DesignTokens.Proofs.Workspace.Route

/-!
Making directories, writing files and removing directories: what these change in a tree, and when
they succeed.
-/

namespace DesignTokens

namespace FileTree

/-- Makes the missing directories of a list, up to the first file among them. -/
def openWay (t : FileTree) : List Location → FileTree × Bool
  | [] => (t, true)
  | l :: ls =>
    match t.lookup l with
    | some .directory => t.openWay ls
    | some (.file ..) => (t, false)
    | none => (t.set l .directory).openWay ls

variable {t : FileTree}

theorem lookup_set_directory_of_none {l m : Location} (hl : t.lookup l = none) :
    (t.set l .directory).lookup m = if m = l then some .directory else t.lookup m := by
  refine lookup_set ?_
  rintro rfl
  exact absurd hl (by simp)

/-- A directory is made where nothing was; everything else stays. -/
theorem lookup_openWay (t : FileTree) (ls : List Location) (m : Location) :
    (t.openWay ls).1.lookup m = t.lookup m ∨
      m ∈ ls ∧ t.lookup m = none ∧ (t.openWay ls).1.lookup m = some .directory := by
  induction ls generalizing t with
  | nil => exact .inl rfl
  | cons l ls ih =>
      rw [openWay]
      split
      · exact (ih t).imp_right fun ⟨hm, hrest⟩ => ⟨List.mem_cons_of_mem _ hm, hrest⟩
      · exact .inl rfl
      · rename_i hl
        have hset := lookup_set_directory_of_none (m := m) hl
        by_cases hml : m = l
        · subst hml
          rw [if_pos rfl] at hset
          right
          refine ⟨List.mem_cons_self, hl, ?_⟩
          rcases ih (t.set m .directory) with h | ⟨-, -, h⟩
          · rw [h, hset]
          · exact h
        · rw [if_neg hml] at hset
          rcases ih (t.set l .directory) with h | ⟨hm, hnone, h⟩
          · exact .inl (h.trans hset)
          · exact .inr ⟨List.mem_cons_of_mem _ hm, hset ▸ hnone, h⟩

theorem lookup_openWay_of_some {ls : List Location} {m : Location} {n : Node}
    (h : t.lookup m = some n) : (t.openWay ls).1.lookup m = some n := by
  rcases lookup_openWay t ls m with hsame | ⟨-, hnone, -⟩
  · exact hsame.trans h
  · exact absurd (h.symm.trans hnone) nofun

theorem lookup_openWay_of_not_mem {ls : List Location} {m : Location} (h : m ∉ ls) :
    (t.openWay ls).1.lookup m = t.lookup m :=
  (lookup_openWay t ls m).resolve_right fun hnew => h hnew.1

/-- Making directories where nothing was makes no file and takes none away. -/
theorem isFile_iff_of_made {u : FileTree} {l : Location}
    (h : u.lookup l = t.lookup l ∨ t.lookup l = none ∧ u.lookup l = some .directory) :
    u.IsFile l ↔ t.IsFile l := by
  rcases h with hsame | ⟨hnone, hdir⟩
  · rw [IsFile, IsFile, hsame]
  · simp [IsFile, hnone, hdir]

theorem isFile_openWay_iff {ls : List Location} {m : Location} :
    (t.openWay ls).1.IsFile m ↔ t.IsFile m :=
  isFile_iff_of_made ((lookup_openWay t ls m).imp_right And.right)

theorem passable_openWay {ls : List Location} (h : (t.openWay ls).2 = true) :
    (t.openWay ls).1.Passable ls := by
  induction ls generalizing t with
  | nil => exact fun l hl => absurd hl List.not_mem_nil
  | cons l ls ih =>
      cases hl : t.lookup l with
      | none =>
          have hset := lookup_set_directory_of_none (m := l) hl
          rw [if_pos rfl] at hset
          simp only [openWay, hl] at h ⊢
          exact List.forall_mem_cons.mpr ⟨lookup_openWay_of_some hset, ih h⟩
      | some n =>
          cases n with
          | directory =>
              simp only [openWay, hl] at h ⊢
              exact List.forall_mem_cons.mpr ⟨lookup_openWay_of_some hl, ih h⟩
          | file content modified =>
              simp only [openWay, hl] at h
              exact absurd h Bool.false_ne_true

theorem openWay_append (t : FileTree) (ls ms : List Location) :
    t.openWay (ls ++ ms) =
      if (t.openWay ls).2 then (t.openWay ls).1.openWay ms else ((t.openWay ls).1, false) := by
  induction ls generalizing t with
  | nil => rfl
  | cons l ls ih =>
      rw [List.cons_append, openWay, openWay]
      split
      · exact ih t
      · rfl
      · exact ih _

theorem openWay_of_passable {ls : List Location} (h : t.Passable ls) :
    t.openWay ls = (t, true) := by
  induction ls with
  | nil => rfl
  | cons l ls ih =>
      obtain ⟨hl, hls⟩ := List.forall_mem_cons.mp h
      rw [openWay, hl]
      exact ih hls

theorem openWay_of_blockage {ls : List Location} (h : t.blockage ls = some .notDirectory) :
    t.openWay ls = (t, false) := by
  induction ls with
  | nil => cases h
  | cons l ls ih =>
      rw [blockage] at h
      rw [openWay]
      cases hl : t.lookup l with
      | none =>
          rw [hl] at h
          cases h
      | some n =>
          rw [hl] at h
          cases n with
          | directory => exact ih h
          | file content modified => rfl

theorem openWay_cons_of_none {l : Location} {ls : List Location} (hl : t.lookup l = none) :
    t.openWay (l :: ls) = (t.set l .directory).openWay (l :: ls) := by
  have hset := lookup_set_directory_of_none (m := l) hl
  rw [if_pos rfl] at hset
  simp only [openWay, hl, hset]

theorem exists_visits_eq_cons (l : Location) (names : List String) :
    ∃ ls, visits l names = l :: ls := by
  cases names with
  | nil => exact ⟨[], rfl⟩
  | cons name names => exact ⟨_, rfl⟩

theorem WellFormed.lookup_advance_up (hwf : t.WellFormed) {l : Location}
    (hl : t.lookup l = some .directory) : t.lookup (advance l "..") = some .directory :=
  hwf.lookup_dropLast (by rw [hl]; rfl)

theorem WellFormed.openWay_visits (hwf : t.WellFormed) {l : Location} {names : List String}
    (hl : t.lookup l = some .directory)
    (hnames : ∀ name ∈ names, name = ".." ∨ ProperName name) :
    (t.openWay (visits l names)).1.WellFormed := by
  induction names generalizing l t with
  | nil => rwa [visits_nil, openWay, hl]
  | cons name names ih =>
      obtain ⟨hname, hrest⟩ := List.forall_mem_cons.mp hnames
      rw [visits_cons, openWay, hl]
      change (t.openWay (visits (advance l name) names)).1.WellFormed
      cases hnext : t.lookup (advance l name) with
      | some n =>
          cases n with
          | directory => exact ih hwf hnext hrest
          | file content modified =>
              obtain ⟨ls, hls⟩ := exists_visits_eq_cons (advance l name) names
              rw [hls, openWay, hnext]
              exact hwf
      | none =>
          -- going up never leads to a gap, so the missing directory has a proper name
          rcases hname with rfl | hname
          · exact absurd ((hwf.lookup_advance_up hl).symm.trans hnext) nofun
          · rw [advance_of_proper l hname] at hnext ⊢
            have hopen : t.openWay (visits (l ++ [name]) names) =
                (t.set (l ++ [name]) .directory).openWay (visits (l ++ [name]) names) := by
              obtain ⟨ls, hls⟩ := exists_visits_eq_cons (l ++ [name]) names
              rw [hls, openWay_cons_of_none hnext]
            rw [hopen]
            refine ih (hwf.set hl hname (.inl rfl)) ?_ hrest
            rw [lookup_set_directory_of_none hnext, if_pos rfl]

end FileTree

namespace Path

theorem steps_concat {p : Path} {name : String} (hlast : p.names.getLast? = some name)
    (hdot : name ≠ ".") : p.steps = p.names.dropLast.filter (· ≠ ".") ++ [name] := by
  obtain ⟨front, hfront⟩ := List.getLast?_eq_some_iff.mp hlast
  rw [steps, hfront, List.dropLast_concat, List.filter_append]
  simp [hdot]

theorem text_ne_empty_of_names {p : Path} (h : p.names ≠ []) : p.text ≠ "" := by
  intro hempty
  exact h (by simp [names, hempty, Text.splitAt])

end Path

namespace Place

open FileTree

variable {w : Place}

theorem target_eq_advance {p : Path} {name : String} (hlast : p.names.getLast? = some name)
    (hdot : name ≠ ".") :
    w.target p = advance (descend (w.origin p) p.steps.dropLast) name := by
  rw [target, Path.steps_concat hlast hdot, List.dropLast_concat, descend_concat]

theorem route_eq_wayTo {p : Path} {name : String} (hlast : p.names.getLast? = some name)
    (hdot : name ≠ ".") : w.route p = w.wayTo p ++ [w.target p] := by
  rw [target_eq_advance hlast hdot, route, wayTo, Path.steps_concat hlast hdot,
    List.dropLast_concat, visits_concat]

theorem blockage_append (t : FileTree) (ls ms : List Location) :
    t.blockage (ls ++ ms) = (t.blockage ls).or (t.blockage ms) := by
  induction ls with
  | nil => rfl
  | cons l ls ih =>
      rw [List.cons_append, blockage, blockage]
      split
      · exact ih
      · rfl
      · rfl

theorem requireDirectory_eq (t : FileTree) (l : Location) :
    t.requireDirectory l =
      match t.blockage [l] with
      | none => .ok ()
      | some e => .error e := by
  rw [requireDirectory, blockage]
  rcases t.lookup l with _ | ⟨_ | _⟩ <;> rfl

theorem holder_eq {p : Path} {name : String} (hlast : p.names.getLast? = some name)
    (hdot : name ≠ ".") :
    w.holder p =
      match w.tree.blockage (w.wayTo p) with
      | none => .ok (descend (w.origin p) p.steps.dropLast, some name)
      | some e => .error e := by
  have htext : p.text ≠ "" := by
    apply Path.text_ne_empty_of_names
    rintro hnil
    exact absurd (hnil ▸ hlast) nofun
  have hway : w.tree.blockage (w.wayTo p) =
      w.tree.blockage (visits (w.origin p) p.names.dropLast) := by
    rw [wayTo, Path.steps_concat hlast hdot, List.dropLast_concat, blockage_visits_filter]
  have hdescend : descend (w.origin p) p.steps.dropLast =
      descend (w.origin p) p.names.dropLast := by
    rw [Path.steps_concat hlast hdot, List.dropLast_concat, descend_filter]
  rw [hway, hdescend, holder, if_neg (by simpa using htext), hlast, visits, walk_eq,
    blockage_append]
  cases w.tree.blockage (trail (w.origin p) p.names.dropLast) with
  | some e => rfl
  | none =>
      change (w.tree.requireDirectory (descend (w.origin p) p.names.dropLast) >>= fun _ =>
        pure (descend (w.origin p) p.names.dropLast, some name)) = _
      rw [requireDirectory_eq, Option.none_or]
      split <;> rfl

theorem makeDirectory_of_passable {p : Path} {name : String} (hwf : w.tree.WellFormed)
    (hlast : p.names.getLast? = some name) (hdot : name ≠ ".")
    (hway : w.tree.Passable (w.wayTo p)) :
    w.makeDirectory p =
      match w.tree.lookup (w.target p) with
      | none => .ok (w.tree.set (w.target p) .directory)
      | some _ => .error .alreadyExists := by
  have hhere : w.tree.lookup (descend (w.origin p) p.steps.dropLast) = some .directory :=
    hway _ (descend_mem_wayTo p)
  rw [makeDirectory, holder_eq hlast hdot, blockage_eq_none_iff.mpr hway,
    target_eq_advance hlast hdot]
  change (if name = "." ∨ name = ".." then _ else _) = _
  by_cases hup : name = ".."
  · subst hup
    rw [if_pos (.inr rfl), hwf.lookup_advance_up hhere]
    rfl
  · have hadvance : ∀ l, advance l name = l ++ [name] := fun l => by
      rw [advance, if_neg hdot, if_neg hup]
    rw [if_neg (not_or.mpr ⟨hdot, hup⟩), hadvance]
    cases w.tree.lookup (descend (w.origin p) p.steps.dropLast ++ [name]) <;> rfl

theorem makeDirectory_of_blockage {p : Path} {name : String} {e : FileError}
    (hlast : p.names.getLast? = some name) (hdot : name ≠ ".")
    (hway : w.tree.blockage (w.wayTo p) = some e) : w.makeDirectory p = .error e := by
  have hmake : w.holder p = .error e := by
    rw [holder_eq hlast hdot, hway]
  rw [makeDirectory, hmake]
  rfl

/-- A tree with whether it was made without a refusal. -/
def outcome (result : FileTree × Except FileError Unit) : FileTree × Bool :=
  (result.1, result.2.isOk)

/-- Makes a directory, which may be there already. -/
def makeLast (w : Place) (p : Path) : FileTree × Except FileError Unit :=
  match w.makeDirectory p with
  | .ok tree => (tree, .ok ())
  | .error e => if w.isDirectory p then (w.tree, .ok ()) else (w.tree, .error e)

theorem makeAncestors_eq_makeLast (depth : Nat) (w : Place) (p : Path) :
    makeAncestors depth w p =
      if p.text.isEmpty then (w.tree, .ok ())
      else if w.makeDirectory p = .error .notFound then
        match depth, p.parent with
        | depth + 1, some up =>
          match makeAncestors depth w up with
          | (tree, .error e) => (tree, .error e)
          | (tree, .ok ()) => makeLast ⟨tree, w.current⟩ p
        | _, _ => (w.tree, .error .notFound)
      else makeLast w p := by
  rw [makeAncestors.eq_def, makeLast]
  dsimp only
  cases hmake : w.makeDirectory p with
  | ok tree => rfl
  | error e =>
      cases e with
      | notFound => rfl
      | _ => rfl

/-- The directory itself is made once those above it are there. -/
theorem makeLast_of_passable {p : Path} {name : String} (hwf : w.tree.WellFormed)
    (hlast : p.names.getLast? = some name) (hdot : name ≠ ".")
    (hway : w.tree.Passable (w.wayTo p)) :
    (match w.makeDirectory p with
      | .ok tree => (tree, true)
      | .error _ => (w.tree, w.isDirectory p)) = w.tree.openWay [w.target p] := by
  have htext : p.text ≠ "" := by
    apply Path.text_ne_empty_of_names
    rintro hnil
    cases hnil ▸ hlast
  have hdirectory : w.isDirectory p ↔ w.tree.lookup (w.target p) = some .directory := by
    rw [isDirectory_iff, route_eq_wayTo hlast hdot, Passable, List.forall_mem_append,
      List.forall_mem_singleton]
    exact ⟨fun h => h.2.2, fun h => ⟨htext, hway, h⟩⟩
  rw [makeDirectory_of_passable hwf hlast hdot hway]
  simp only [openWay]
  rcases hl : w.tree.lookup (w.target p) with _ | ⟨_ | _⟩
  · rfl
  · rw [hdirectory.mpr hl]
  · have hfalse : w.isDirectory p = false := by
      rw [Bool.eq_false_iff, Ne, hdirectory, hl]
      rintro ⟨⟩
    rw [hfalse]

theorem makeLast_in {t : FileTree} {p : Path} {name : String} (hwf : t.WellFormed)
    (hlast : p.names.getLast? = some name) (hdot : name ≠ ".") (hway : t.Passable (w.wayTo p)) :
    (match (⟨t, w.current⟩ : Place).makeDirectory p with
      | .ok tree => (tree, true)
      | .error _ => (t, (⟨t, w.current⟩ : Place).isDirectory p)) = t.openWay [w.target p] := by
  have hmade := makeLast_of_passable (w := ⟨t, w.current⟩) hwf hlast hdot
    (by rw [wayTo_mk t w p]; exact hway)
  rwa [target_mk t w p] at hmade

theorem blockage_eq_some {t : FileTree} {ls : List Location} {e : FileError}
    (h : t.blockage ls = some e) : e = .notDirectory ∨ e = .notFound := by
  induction ls with
  | nil => exact absurd h nofun
  | cons l ls ih =>
      rw [blockage] at h
      split at h
      · exact ih h
      · exact .inl (Option.some.inj h).symm
      · exact .inr (Option.some.inj h).symm

theorem makeDirectory_of_steps_nil {p : Path} (htext : p.text ≠ "") (hsteps : p.steps = [])
    (horigin : w.tree.lookup (w.origin p) = some .directory) :
    w.makeDirectory p = .error .alreadyExists := by
  have hdots : ∀ name ∈ p.names, name = "." := by
    intro name hname
    simpa using List.filter_eq_nil_iff.mp hsteps name hname
  have hfilter : p.names.dropLast.filter (· ≠ ".") = [] := by
    rw [List.filter_eq_nil_iff]
    intro name hname
    simpa using hdots name (List.dropLast_subset _ hname)
  have hway : w.tree.blockage (visits (w.origin p) p.names.dropLast) = none := by
    rw [← blockage_visits_filter, hfilter, visits_nil, blockage, horigin]
    rfl
  rw [visits, blockage_append, Option.or_eq_none_iff] at hway
  obtain ⟨htrail, hlast⟩ := hway
  have hholder : w.holder p =
      .ok (descend (w.origin p) p.names.dropLast, p.names.getLast?) := by
    rw [holder, if_neg (by simpa using htext), walk_eq, htrail]
    change (w.tree.requireDirectory (descend (w.origin p) p.names.dropLast) >>= fun _ =>
      pure (descend (w.origin p) p.names.dropLast, p.names.getLast?)) = _
    rw [requireDirectory_eq, hlast]
    rfl
  rw [makeDirectory, hholder]
  cases hname : p.names.getLast? with
  | none => rfl
  | some name =>
      obtain rfl := hdots name (List.mem_of_getLast? hname)
      rfl

theorem isDirectory_of_steps_nil {p : Path} (htext : p.text ≠ "") (hsteps : p.steps = [])
    (horigin : w.tree.lookup (w.origin p) = some .directory) : w.isDirectory p := by
  rw [isDirectory_iff, route, hsteps, visits_nil, Passable, List.forall_mem_singleton]
  exact ⟨htext, horigin⟩

theorem makeAncestors_of_ne_notFound {depth : Nat} {p : Path} (htext : p.text ≠ "")
    (hmake : w.makeDirectory p ≠ .error .notFound) :
    outcome (makeAncestors depth w p) =
      match w.makeDirectory p with
      | .ok tree => (tree, true)
      | .error _ => (w.tree, w.isDirectory p) := by
  have hempty : ¬ p.text.isEmpty = true := by simpa using htext
  rw [makeAncestors.eq_def]
  simp only [if_neg hempty]
  split
  · rename_i h
    simp only [h]
    rfl
  · rename_i h
    exact absurd h hmake
  · rename_i h
    simp only [h]
    cases w.isDirectory p <;> rfl

theorem makeAncestors_of_notFound {depth : Nat} {p up : Path} (htext : p.text ≠ "")
    (hparent : p.parent = some up) (hmake : w.makeDirectory p = .error .notFound) :
    outcome (makeAncestors (depth + 1) w p) =
      if (outcome (makeAncestors depth w up)).2 then
        match { w with tree := (makeAncestors depth w up).1 }.makeDirectory p with
        | .ok tree => (tree, true)
        | .error _ => ((makeAncestors depth w up).1,
            { w with tree := (makeAncestors depth w up).1 }.isDirectory p)
      else outcome (makeAncestors depth w up) := by
  have hempty : ¬ p.text.isEmpty = true := by simpa using htext
  rw [makeAncestors.eq_def]
  simp only [if_neg hempty, hmake, hparent]
  rcases makeAncestors depth w up with ⟨tree, _ | _⟩
  · rfl
  · change outcome (match { w with tree := tree }.makeDirectory p with
      | .ok tree => (tree, .ok ())
      | .error e =>
        if { w with tree := tree }.isDirectory p then (tree, .ok ()) else (tree, .error e)) = _
    split
    · rename_i h
      simp [h, outcome, Except.isOk, Except.toBool]
    · rename_i h
      simp only [h]
      cases { w with tree := tree }.isDirectory p <;> rfl

/-- Nothing is missing above a path: then only the path itself may have to be made. -/
theorem makeAncestors_of_complete {depth : Nat} {p : Path} (hwf : w.tree.WellFormed)
    (horigin : w.tree.lookup (w.origin p) = some .directory)
    (hend : p.steps = [] ∨ ∃ name, p.names.getLast? = some name ∧ name ≠ ".")
    (hcomplete : w.tree.blockage (w.wayTo p) ≠ some .notFound) :
    outcome (makeAncestors depth w p) = w.tree.openWay (w.route p) := by
  by_cases htext : p.text = ""
  · have hroute : w.route p = [w.origin p] := by
      rw [route, Path.steps, Path.names, htext]
      rfl
    rw [makeAncestors.eq_def, hroute]
    simp only [htext, openWay, horigin]
    rfl
  rcases hend with hsteps | ⟨name, hlast, hdot⟩
  · have hmake := makeDirectory_of_steps_nil htext hsteps horigin
    rw [makeAncestors_of_ne_notFound htext (by rw [hmake]; rintro ⟨⟩), hmake,
      isDirectory_of_steps_nil htext hsteps horigin, route, hsteps, visits_nil, openWay, horigin]
    rfl
  cases hway : w.tree.blockage (w.wayTo p) with
  | none =>
      have hpassable := blockage_eq_none_iff.mp hway
      have hmake : w.makeDirectory p ≠ .error .notFound := by
        rw [makeDirectory_of_passable hwf hlast hdot hpassable]
        cases w.tree.lookup (w.target p) <;> rintro ⟨⟩
      rw [makeAncestors_of_ne_notFound htext hmake, route_eq_wayTo hlast hdot, openWay_append,
        openWay_of_passable hpassable, if_pos rfl]
      exact makeLast_of_passable hwf hlast hdot hpassable
  | some e =>
      have hmake := makeDirectory_of_blockage hlast hdot hway
      rcases blockage_eq_some hway with rfl | rfl
      · have hdirectory : w.isDirectory p = false := by
          rw [Bool.eq_false_iff, Ne, isDirectory_iff, route_eq_wayTo hlast hdot]
          rintro ⟨-, hroute⟩
          have hopen := blockage_eq_none_iff.mpr fun l hl => hroute l (List.mem_append_left _ hl)
          cases hway.symm.trans hopen
        rw [makeAncestors_of_ne_notFound htext (by rw [hmake]; rintro ⟨⟩), hmake, hdirectory,
          route_eq_wayTo hlast hdot, openWay_append, openWay_of_blockage hway]
        rfl
      · exact absurd hway hcomplete

theorem origin_parent {p up : Path} (hparent : p.parent = some up) : w.origin up = w.origin p := by
  rw [origin, origin, (Path.parent_spec hparent).2.1]

/-- The way to a path is the route of the directory above it. -/
theorem route_parent {p up : Path} (hparent : p.parent = some up) : w.route up = w.wayTo p := by
  rw [route, wayTo, (Path.parent_spec hparent).1, origin_parent hparent]

/-- Directories are made along the route of a path, from the first one on. -/
theorem makeAncestors_eq {depth : Nat} {p : Path} (hwf : w.tree.WellFormed)
    (horigin : w.tree.lookup (w.origin p) = some .directory)
    (hend : p.steps = [] ∨ ∃ name, p.names.getLast? = some name ∧ name ≠ ".")
    (hdepth : p.steps.length ≤ depth) :
    outcome (makeAncestors depth w p) = w.tree.openWay (w.route p) := by
  induction depth generalizing p with
  | zero =>
      have hsteps : p.steps = [] := List.eq_nil_of_length_eq_zero (Nat.le_zero.mp hdepth)
      refine makeAncestors_of_complete hwf horigin hend ?_
      rw [wayTo, hsteps, List.dropLast_nil, visits_nil, blockage, horigin]
      rintro ⟨⟩
  | succ depth ih =>
      by_cases hcomplete : w.tree.blockage (w.wayTo p) = some .notFound
      · rcases hend with hsteps | ⟨name, hlast, hdot⟩
        · rw [wayTo, hsteps, List.dropLast_nil, visits_nil, blockage, horigin] at hcomplete
          cases hcomplete
        have hsteps := Path.steps_concat hlast hdot
        have htext : p.text ≠ "" := by
          apply Path.text_ne_empty_of_names
          rintro hnil
          cases hnil ▸ hlast
        cases hparent : p.parent with
        | none =>
            rw [Path.steps_of_parent_eq_none hparent] at hsteps
            exact absurd hsteps.symm (List.append_ne_nil_of_right_ne_nil _ (List.cons_ne_nil _ _))
        | some up =>
            obtain ⟨hup, -, hupend⟩ := Path.parent_spec hparent
            have hlength : up.steps.length ≤ depth := by
              rw [hup, List.length_dropLast]
              omega
            have hopen := ih (origin_parent hparent ▸ horigin) hupend hlength
            rw [route_parent hparent] at hopen
            have htree : (makeAncestors depth w up).1 = (w.tree.openWay (w.wayTo p)).1 :=
              congrArg Prod.fst hopen
            have hmake := makeDirectory_of_blockage hlast hdot hcomplete
            rw [makeAncestors_of_notFound htext hparent hmake, hopen, htree,
              route_eq_wayTo hlast hdot, openWay_append]
            split
            · rename_i hclear
              have hwf' : (w.tree.openWay (w.wayTo p)).1.WellFormed := by
                rw [wayTo]
                exact hwf.openWay_visits horigin fun name hname =>
                  proper_of_mem_steps (List.dropLast_subset _ hname)
              exact makeLast_in hwf' hlast hdot (passable_openWay hclear)
            · rename_i hclosed
              exact Prod.ext rfl (Bool.eq_false_iff.mpr hclosed)
      · exact makeAncestors_of_complete hwf horigin hend hcomplete

theorem wayTo_subset (w : Place) (p : Path) : w.wayTo p ⊆ w.route p := by
  rw [wayTo, route]
  rcases p.steps.eq_nil_or_concat with hnil | ⟨front, last, hconcat⟩
  · rw [hnil]
    exact List.Subset.refl _
  · rw [hconcat, List.concat_eq_append, List.dropLast_concat, visits_concat]
    exact List.subset_append_left _ _

theorem route_parent_subset {p up : Path} (hparent : p.parent = some up) :
    w.route up ⊆ w.route p := by
  rw [route_parent hparent]
  exact wayTo_subset w p

/-- Making the directory above a path. -/
theorem makeDirectories_parent {p up : Path} (hwf : w.tree.WellFormed)
    (horigin : w.tree.lookup (w.origin p) = some .directory) (hparent : p.parent = some up) :
    outcome (w.makeDirectories up) = w.tree.openWay (w.wayTo p) := by
  rw [makeDirectories, makeAncestors_eq hwf (origin_parent hparent ▸ horigin)
    (Path.parent_spec hparent).2.2 up.length_steps_le, route_parent hparent]

theorem getLast?_names_join (p : Path) {name : String} (hname : ProperName name) :
    (p.join name).names.getLast? = some name := by
  rw [Path.names_join p hname.ne_empty hname.no_slash, List.getLast?_concat]

theorem holder_join (p : Path) {name : String} (hname : ProperName name)
    (hway : w.tree.Passable (w.route p)) :
    w.holder (p.join name) = .ok (w.target p, some name) := by
  rw [holder_eq (getLast?_names_join p hname) hname.ne_here, wayTo_join p hname,
    blockage_eq_none_iff.mpr hway, Path.steps_join p hname, List.dropLast_concat,
    origin_join p hname, target]

theorem write_join (p : Path) {name : String} (hname : ProperName name) (content : ByteArray)
    (time : Nat) (hway : w.tree.Passable (w.route p)) :
    w.write (p.join name) content time =
      if w.tree.lookup (w.target p ++ [name]) = some .directory then .error .isDirectory
      else .ok (w.tree.set (w.target p ++ [name]) (.file content time)) := by
  have hnot : ¬ (name = "." ∨ name = ".." ∨ (p.join name).endsInSlash) := by
    rintro (h | h | h)
    · exact hname.ne_here h
    · exact hname.ne_up h
    · rw [Path.endsInSlash_join p hname.ne_empty hname.no_slash] at h
      exact Bool.false_ne_true h
  rw [write, holder_join p hname hway]
  change (if name = "." ∨ name = ".." ∨ (p.join name).endsInSlash then _ else _) = _
  rw [if_neg hnot]
  rcases w.tree.lookup (w.target p ++ [name]) with _ | ⟨_ | _⟩ <;> rfl

theorem getLast?_of_holder {p : Path} {l : Location} {name : Option String}
    (h : w.holder p = .ok (l, name)) : p.names.getLast? = name := by
  rw [holder] at h
  split at h
  · exact absurd h nofun
  · cases hwalk : w.tree.walk (w.origin p) p.names.dropLast with
    | error e => exact absurd (hwalk ▸ h) nofun
    | ok m =>
        rw [hwalk] at h
        change (w.tree.requireDirectory m >>= fun _ => pure (m, p.names.getLast?)) = _ at h
        cases hrequire : w.tree.requireDirectory m with
        | error e => exact absurd (hrequire ▸ h) nofun
        | ok _ =>
            rw [hrequire] at h
            exact (Prod.mk.inj (Except.ok.inj h)).2

/-- A file is written under a proper name, and the way to it is made of directories. -/
theorem exists_of_write {p : Path} {content : ByteArray} {time : Nat} {tree : FileTree}
    (h : w.write p content time = .ok tree) :
    ∃ name, p.names.getLast? = some name ∧ ProperName name ∧ ¬ p.endsInSlash ∧
      w.tree.Passable (w.wayTo p) ∧ w.tree.lookup (w.target p) ≠ some .directory ∧
      tree = w.tree.set (w.target p) (.file content time) := by
  rw [write] at h
  cases hholder : w.holder p with
  | error e => exact absurd (hholder ▸ h) nofun
  | ok found =>
      obtain ⟨l, last⟩ := found
      rw [hholder] at h
      cases last with
      | none => exact absurd h nofun
      | some name =>
          have hlast := getLast?_of_holder hholder
          change (if name = "." ∨ name = ".." ∨ p.endsInSlash then _ else _) = _ at h
          split at h
          · exact absurd h nofun
          · rename_i hnot
            obtain ⟨hdot, hup, hslash⟩ : name ≠ "." ∧ name ≠ ".." ∧ ¬ p.endsInSlash :=
              ⟨fun h => hnot (.inl h), fun h => hnot (.inr (.inl h)), fun h => hnot (.inr (.inr h))⟩
            rw [holder_eq hlast hdot] at hholder
            split at hholder
            · rename_i hway
              obtain ⟨rfl, -⟩ := Prod.mk.inj (Except.ok.inj hholder)
              obtain ⟨hempty, hplain⟩ := proper_of_mem_names (List.mem_of_getLast? hlast)
              have hname : ProperName name := ⟨hempty, hplain, hdot, hup⟩
              refine ⟨name, hlast, hname, hslash, blockage_eq_none_iff.mp hway, ?_⟩
              rw [target_eq_advance hlast hdot, advance_of_proper _ hname]
              split at h
              · exact absurd h nofun
              · rename_i hl
                exact ⟨fun hdir => hl hdir, (Except.ok.inj h).symm⟩
            · exact absurd hholder nofun

theorem write_eq_ok {p : Path} {content : ByteArray} {time : Nat} {tree : FileTree}
    (h : w.write p content time = .ok tree) :
    ∃ l name, ProperName name ∧ w.target p = l ++ [name] ∧ w.tree.lookup l = some .directory ∧
      w.tree.lookup (l ++ [name]) ≠ some .directory ∧
      tree = w.tree.set (l ++ [name]) (.file content time) := by
  obtain ⟨name, hlast, hname, -, hway, hfree, rfl⟩ := exists_of_write h
  have htarget := target_eq_advance (w := w) hlast hname.ne_here
  rw [advance_of_proper _ hname] at htarget
  rw [htarget] at hfree ⊢
  exact ⟨_, name, hname, rfl, hway _ (descend_mem_wayTo p), hfree, rfl⟩

theorem passable_trail_iff {t : FileTree} {p : Path} {name : String}
    (hlast : p.names.getLast? = some name) (hdot : name ≠ ".") :
    t.Passable (trail (w.origin p) p.names) ↔ t.Passable (w.wayTo p) := by
  obtain ⟨front, hfront⟩ := List.getLast?_eq_some_iff.mp hlast
  rw [← blockage_eq_none_iff, ← blockage_eq_none_iff, wayTo, Path.steps_concat hlast hdot, hfront,
    List.dropLast_concat, List.dropLast_concat, trail_concat, blockage_visits_filter]

/-- What is found at a path stays there while it does and no directory is removed. -/
theorem node_of_stays {t : FileTree} {p : Path} {n : Node}
    (hdirectories : ∀ l, w.tree.lookup l = some .directory → t.lookup l = some .directory)
    (hstays : w.tree.lookup (w.target p) = some n → t.lookup (w.target p) = some n)
    (h : w.node p = .ok n) : (⟨t, w.current⟩ : Place).node p = .ok n := by
  obtain ⟨hlocate, hlookup⟩ := node_eq_ok_iff.mp h
  obtain ⟨htext, htrail, hslash, -⟩ := locate_eq_ok_iff.mp hlocate
  rw [node_eq_ok_iff, locate_eq_ok_iff, target_mk t w p]
  exact ⟨⟨htext, fun l hl => hdirectories l (htrail l hl),
    fun hend => hdirectories _ (hslash hend), rfl⟩, hstays hlookup⟩

/-- What is found at a path stays there while everything does. -/
theorem node_of_kept {t : FileTree} {p : Path} {n : Node}
    (hkept : ∀ l n, w.tree.lookup l = some n → t.lookup l = some n) (h : w.node p = .ok n) :
    (⟨t, w.current⟩ : Place).node p = .ok n :=
  node_of_stays (fun l => hkept l _) (hkept _ _) h

/-- A file that was written is found. -/
theorem node_write {p : Path} {content : ByteArray} {time : Nat} {tree : FileTree}
    (h : w.write p content time = .ok tree) :
    (⟨tree, w.current⟩ : Place).node p = .ok (.file content time) := by
  obtain ⟨name, hlast, hname, hslash, hway, hfree, rfl⟩ := exists_of_write h
  have hne : w.target p ≠ [] := by
    rintro hnil
    exact hfree (hnil ▸ lookup_nil)
  have hpassable : (w.tree.set (w.target p) (.file content time)).Passable (w.wayTo p) := by
    intro l hl
    rw [lookup_set_of_ne hne]
    · exact hway l hl
    · rintro rfl
      exact hfree (hway _ hl)
  have htarget := target_mk (w.tree.set (w.target p) (.file content time)) w p
  rw [node_eq_ok_iff, locate_eq_ok_iff, htarget]
  refine ⟨⟨Path.text_ne_empty_of_names ?_, ?_, fun hend => absurd hend hslash, rfl⟩,
    lookup_set_self hne⟩
  · rintro hnil
    exact absurd (hnil ▸ hlast) nofun
  · exact (passable_trail_iff (w := w) hlast hname.ne_here).mpr hpassable

theorem pathExists_join_iff (p : Path) {name : String} (hname : ProperName name) :
    w.pathExists (p.join name) ↔
      w.tree.Passable (w.route p) ∧ (w.tree.lookup (w.target p ++ [name])).isSome := by
  have hok : w.pathExists (p.join name) ↔ ∃ n, w.node (p.join name) = .ok n := by
    rw [pathExists]
    cases w.node (p.join name) <;> simp [Except.isOk, Except.toBool]
  rw [hok]
  simp only [node_join_eq_ok_iff hname, Option.isSome_iff_exists, exists_and_left]

theorem removeDirectory_join (p : Path) {name : String} (hname : ProperName name)
    (hway : w.tree.Passable (w.route p)) :
    w.removeDirectory (p.join name) =
      match w.tree.lookup (w.target p ++ [name]) with
      | none => (w.tree, .error .notFound)
      | some (.file ..) => (w.tree, .error .notDirectory)
      | some .directory => (w.tree.prune (w.target p ++ [name]), .ok ()) := by
  have hlocate : w.locate (p.join name) = .ok (w.target p ++ [name]) := by
    rw [locate_eq_ok_iff, Path.names_join p hname.ne_empty hname.no_slash, trail_concat,
      origin_join p hname, passable_names_iff, target_join p hname,
      Path.endsInSlash_join p hname.ne_empty hname.no_slash]
    exact ⟨Path.join_ne_empty p hname.ne_empty hname.no_slash, hway, nofun, rfl⟩
  rw [removeDirectory, hlocate]
  rcases hl : w.tree.lookup (w.target p ++ [name]) with _ | ⟨_ | _⟩
  · simp only [hl]
  · simp only [hl, getLast?_names_join p hname]
    split
    · rename_i h
      cases h
    · rename_i h
      exact absurd (Option.some.inj h) hname.ne_here
    · rename_i h
      exact absurd (Option.some.inj h) hname.ne_up
    · rfl
  · simp only [hl]

end Place

end DesignTokens
