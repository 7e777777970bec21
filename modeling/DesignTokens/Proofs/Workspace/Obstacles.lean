import DesignTokens.Proofs.Workspace.Alike
import DesignTokens.Proofs.Workspace.Operations

/-!
What stands in the way of an operation on files, and so which error it fails with. On a way that goes
down to its goal, or through directories that are there, this depends only on where files are.
-/

namespace DesignTokens

namespace FileTree

variable {t : FileTree}

theorem exists_isFile_of_blockage {ls : List Location} (h : t.blockage ls = some .notDirectory) :
    ∃ l ∈ ls, t.IsFile l := by
  rw [← openWay_eq_false_iff, openWay_of_blockage h]

/-- What is missing on such a way comes behind the files on it. -/
theorem blockage_visits_of_isFile (hwf : t.WellFormed) {goal l : Location} {names : List String}
    (hl : t.lookup l = some .directory)
    (hdirect : ∀ m ∈ visits l names, m <+: goal ∨ t.lookup m = some .directory)
    (hfile : ∃ m ∈ visits l names, t.IsFile m) :
    t.blockage (visits l names) = some .notDirectory := by
  have hnot : ∀ {m}, t.lookup m = some .directory → ¬ t.IsFile m := by
    rintro m hm ⟨content, modified, hfile⟩
    cases hm.symm.trans hfile
  induction names generalizing l with
  | nil =>
      obtain ⟨m, hm, hfile⟩ := hfile
      rw [visits_nil, List.mem_singleton] at hm
      exact absurd hfile (hnot (hm ▸ hl))
  | cons name names ih =>
      rw [visits_cons] at hdirect hfile ⊢
      obtain ⟨-, hrest⟩ := List.forall_mem_cons.mp hdirect
      have hlater := ((List.exists_mem_cons_iff _ _ _).mp hfile).resolve_left (hnot hl)
      rw [blockage_cons_of_directory hl]
      rcases hnext : t.lookup (advance l name) with _ | ⟨_ | _⟩
      · -- a file further on would lie above or below the gap, on the way to the goal
        obtain ⟨m, hm, hfile⟩ := hlater
        have hgoal := (hrest m hm).resolve_right fun hdir => hnot hdir hfile
        have hgap := (hrest _ (mem_visits_self _ _)).resolve_right (by rw [hnext]; exact nofun)
        have hsome : (t.lookup m).isSome := by
          obtain ⟨content, modified, hlookup⟩ := hfile
          rw [hlookup]
          rfl
        have hne : m ≠ advance l name := by
          rintro rfl
          rw [hnext] at hsome
          cases hsome
        rcases List.prefix_or_prefix_of_prefix hgap hgoal with hle | hle
        · have hdir := hwf.lookup_of_below ⟨hle, hne⟩ hsome
          cases hnext.symm.trans hdir
        · have habove : m <+: l := by
            rw [advance] at hle hne
            split at hle
            · exact hle
            · split at hle
              · exact hle.trans (List.dropLast_prefix l)
              · rename_i hdot hup
                rw [if_neg hdot, if_neg hup] at hne
                exact (List.prefix_concat_iff.mp hle).resolve_left hne
          by_cases heq : m = l
          · exact absurd hfile (hnot (heq ▸ hl))
          · exact absurd hfile (hnot (hwf.lookup_of_below ⟨habove, Ne.symm heq⟩ (by rw [hl]; rfl)))
      · exact ih hnext hrest hlater
      · obtain ⟨ls, hls⟩ := exists_visits_eq_cons (advance l name) names
        rw [hls, blockage, hnext]

end FileTree

namespace Place

open FileTree

variable {w v : Place} {p : Path}

/-- The way to a path goes down to it, or through directories that are there. -/
def Direct (w : Place) (p : Path) : Prop :=
  ∀ l ∈ w.route p, l <+: w.target p ∨ w.tree.lookup l = some .directory

/-- Why the directory of a path cannot be made. -/
def obstacle (w : Place) (p : Path) : FileError :=
  if w.tree.blockage (w.wayTo p) = some .notDirectory then .notDirectory else .alreadyExists

theorem error_of_makeLast {name : String} {e : FileError} (hwf : w.tree.WellFormed)
    (hlast : p.names.getLast? = some name) (hdot : name ≠ ".")
    (hmake : w.makeDirectory p ≠ .error .notFound) (h : (makeLast w p).2 = .error e) :
    e = w.obstacle p := by
  rw [makeLast] at h
  rw [obstacle]
  cases hway : w.tree.blockage (w.wayTo p) with
  | none =>
      rw [makeDirectory_of_passable hwf hlast hdot (blockage_eq_none_iff.mp hway)] at h
      split at h
      · cases h
      · split at h
        · cases h
        · rename_i e' herror _
          split at herror
          · cases herror
          · cases herror
            exact (Except.error.inj h).symm
  | some cause =>
      have herror := makeDirectory_of_blockage hlast hdot hway
      rw [herror] at h hmake
      rcases blockage_eq_some hway with rfl | rfl
      · dsimp only at h
        split at h
        · cases h
        · exact (Except.error.inj h).symm
      · exact absurd rfl hmake

theorem blockage_route {e : FileError} (h : w.tree.blockage (w.wayTo p) = some e) :
    w.tree.blockage (w.route p) = some e := by
  rw [wayTo] at h
  rw [route]
  rcases p.steps.eq_nil_or_concat with hnil | ⟨front, last, hconcat⟩
  · rw [hnil] at h ⊢
    exact h
  · rw [hconcat, List.concat_eq_append, List.dropLast_concat] at h
    rw [hconcat, List.concat_eq_append, visits_concat, blockage_append, h]
    rfl

theorem blockage_of_missing {name : String} (hwf : w.tree.WellFormed)
    (hlast : p.names.getLast? = some name) (hdot : name ≠ ".")
    (h : w.makeDirectory p = .error .notFound) :
    w.tree.blockage (w.wayTo p) = some .notFound := by
  cases hway : w.tree.blockage (w.wayTo p) with
  | none =>
      rw [makeDirectory_of_passable hwf hlast hdot (blockage_eq_none_iff.mp hway)] at h
      split at h
      · cases h
      · cases h
  | some cause =>
      rw [makeDirectory_of_blockage hlast hdot hway] at h
      rw [Except.error.inj h]

/-- Once the way is there, a directory cannot be made if a file is in its place. -/
theorem error_of_makeLast_in {t : FileTree} {name : String} {e : FileError} (ht : t.WellFormed)
    (hlast : p.names.getLast? = some name) (hdot : name ≠ ".") (hway : t.Passable (w.wayTo p))
    (h : (makeLast ⟨t, w.current⟩ p).2 = .error e) : e = .alreadyExists := by
  have hclear : t.blockage ((⟨t, w.current⟩ : Place).wayTo p) = none := by
    rw [wayTo_mk]
    exact blockage_eq_none_iff.mpr hway
  have hcause := error_of_makeLast (w := ⟨t, w.current⟩) ht hlast hdot ?_ h
  · rw [hcause, obstacle, hclear, if_neg nofun]
  · rw [makeDirectory_of_passable ht hlast hdot (blockage_eq_none_iff.mp hclear)]
    split
    · exact nofun
    · exact nofun

/-- What keeps a directory from being made is a file: on the way, or in its place. -/
theorem error_of_makeAncestors {depth : Nat} {p : Path} {e : FileError} (hwf : w.tree.WellFormed)
    (horigin : w.tree.lookup (w.origin p) = some .directory)
    (hend : p.steps = [] ∨ ∃ name, p.names.getLast? = some name ∧ name ≠ ".")
    (hdepth : p.steps.length ≤ depth) (h : (makeAncestors depth w p).2 = .error e) :
    e = w.obstacle p := by
  rw [makeAncestors_eq_makeLast] at h
  split at h
  · cases h
  rename_i htext
  have htext : p.text ≠ "" := by simpa using htext
  rcases hend with hsteps | ⟨name, hlast, hdot⟩
  · -- the directory that the path starts from is there
    have hmake := makeDirectory_of_steps_nil htext hsteps horigin
    rw [hmake, if_neg nofun, makeLast, hmake] at h
    dsimp only at h
    rw [if_pos (isDirectory_of_steps_nil htext hsteps horigin)] at h
    cases h
  split at h
  · rename_i hmissing
    have hway := blockage_of_missing hwf hlast hdot hmissing
    have hsteps : p.steps ≠ [] := by
      rw [Path.steps_concat hlast hdot]
      exact List.append_ne_nil_of_right_ne_nil _ (List.cons_ne_nil _ _)
    split at h
    · rename_i depth up hparent
      obtain ⟨hup, -, hupend⟩ := Path.parent_spec hparent
      have hlength : up.steps.length ≤ depth := by
        rw [hup, List.length_dropLast]
        omega
      have horiginUp := origin_parent (w := w) hparent ▸ horigin
      split at h
      · rename_i tree e' hmade
        cases h
        -- no file is in front of the gap, so the directory above failed for a file in its place
        have hnot : w.tree.blockage (w.wayTo up) ≠ some .notDirectory := by
          intro hblocked
          have hroute := blockage_route hblocked
          rw [route_parent hparent, hway] at hroute
          cases hroute
        have hcause := error_of_makeAncestors hwf horiginUp hupend hlength (congrArg Prod.snd hmade)
        rw [hcause, obstacle, obstacle, if_neg hnot, hway, if_neg (by decide)]
      · rename_i tree hmade
        have hopen : outcome (makeAncestors depth w up) = w.tree.openWay (w.route up) :=
          makeAncestors_eq hwf horiginUp hupend hlength
        rw [hmade, route_parent hparent] at hopen
        have htree : tree = (w.tree.openWay (w.wayTo p)).1 := congrArg Prod.fst hopen
        have hpassable := passable_openWay (congrArg Prod.snd hopen).symm
        have hopened : tree.WellFormed := by
          rw [htree, wayTo]
          exact hwf.openWay_visits horigin fun name hname =>
            proper_of_mem_steps (List.dropLast_subset _ hname)
        rw [← htree] at hpassable
        rw [error_of_makeLast_in hopened hlast hdot hpassable h, obstacle, hway,
          if_neg (by decide)]
    · rename_i hend
      have hpositive := List.length_pos_of_ne_nil hsteps
      cases hparent : p.parent with
      | none => exact absurd (Path.steps_of_parent_eq_none hparent) hsteps
      | some up => exact absurd hparent (hend _ up (Nat.succ_pred (by omega)).symm)
  · rename_i hmake
    exact error_of_makeLast hwf hlast hdot hmake h

theorem obstacle_congr {goal : Location} (hcurrent : w.current = v.current)
    (hw : w.tree.WellFormed) (hv : v.tree.WellFormed)
    (horigin : w.tree.lookup (w.origin p) = some .directory)
    (horigin' : v.tree.lookup (v.origin p) = some .directory)
    (hdirect : ∀ l ∈ w.wayTo p, l <+: goal ∨ w.tree.lookup l = some .directory)
    (hdirect' : ∀ l ∈ v.wayTo p, l <+: goal ∨ v.tree.lookup l = some .directory)
    (hfiles : ∀ l ∈ w.wayTo p, w.tree.IsFile l ↔ v.tree.IsFile l) : w.obstacle p = v.obstacle p := by
  have hway := wayTo_congr hcurrent p
  have hiff : w.tree.blockage (w.wayTo p) = some .notDirectory ↔
      v.tree.blockage (v.wayTo p) = some .notDirectory := by
    constructor
    · intro h
      obtain ⟨l, hl, hfile⟩ := exists_isFile_of_blockage h
      have hother : ∃ m ∈ v.wayTo p, v.tree.IsFile m := ⟨l, hway ▸ hl, (hfiles l hl).mp hfile⟩
      rw [wayTo] at hdirect' hother ⊢
      exact blockage_visits_of_isFile hv horigin' hdirect' hother
    · intro h
      obtain ⟨l, hl, hfile⟩ := exists_isFile_of_blockage h
      rw [← hway] at hl
      have hother : ∃ m ∈ w.wayTo p, w.tree.IsFile m := ⟨l, hl, (hfiles l hl).mpr hfile⟩
      rw [wayTo] at hdirect hother ⊢
      exact blockage_visits_of_isFile hw horigin hdirect hother
  rw [obstacle, obstacle]
  simp only [hiff]

namespace Direct

theorem passable (h : w.Direct p) (hwf : w.tree.WellFormed) {l : Location}
    (hl : Below (w.target p) l) (hsome : (w.tree.lookup l).isSome) : w.tree.Passable (w.route p) := by
  intro m hm
  rcases h m hm with hup | hdir
  · exact hwf.lookup_of_below (Below.of_le hup hl) hsome
  · exact hdir

theorem joinAll (h : w.Direct p) {names : List String} (hnames : ∀ name ∈ names, ProperName name) :
    w.Direct (p.joinAll names) := by
  obtain ⟨more, hroute, hmore⟩ := route_joinAll (w := w) p hnames
  intro l hl
  rw [hroute] at hl
  rw [target_joinAll p hnames]
  rcases List.mem_append.mp hl with hl | hl
  · exact (h l hl).imp_left fun hup => hup.trans (List.prefix_append _ _)
  · obtain ⟨front, -, hfront, rfl⟩ := hmore l hl
    left
    rwa [List.prefix_append_right_inj]

theorem blockage_eq_iff (h : w.Direct p) (hwf : w.tree.WellFormed)
    (horigin : w.tree.lookup (w.origin p) = some .directory) :
    w.tree.blockage (w.route p) = some .notDirectory ↔ ∃ l ∈ w.route p, w.tree.IsFile l := by
  constructor
  · exact exists_isFile_of_blockage
  · intro hfile
    rw [Direct, route] at h
    rw [route] at hfile ⊢
    exact blockage_visits_of_isFile hwf horigin h hfile

/-- What is found in a directory, or why nothing is. -/
theorem node_join (h : w.Direct p) (hwf : w.tree.WellFormed) {name : String}
    (hname : ProperName name) :
    w.node (p.join name) =
      match w.tree.lookup (w.target p ++ [name]) with
      | some n => .ok n
      | none => .error
          (if w.tree.blockage (w.route p) = some .notDirectory then .notDirectory else .notFound) := by
  rcases hlookup : w.tree.lookup (w.target p ++ [name]) with _ | n
  · have hlocate := locate_eq (w := w) (p.join name)
      (Path.join_ne_empty p hname.ne_empty hname.no_slash)
    rw [Path.endsInSlash_join p hname.ne_empty hname.no_slash,
      Path.names_join p hname.ne_empty hname.no_slash, trail_concat, origin_join p hname,
      target_join p hname] at hlocate
    have hway : w.tree.blockage (visits (w.origin p) p.names) = w.tree.blockage (w.route p) := by
      rw [route, Path.steps, blockage_visits_filter]
    rw [hway] at hlocate
    rw [node_eq, hlocate]
    cases hblocked : w.tree.blockage (w.route p) with
    | none => simp [hlookup]
    | some e =>
        rcases blockage_eq_some hblocked with rfl | rfl
        · rfl
        · rfl
  · have hbelow : Below (w.target p) (w.target p ++ [name]) := Below.append (List.cons_ne_nil _ _)
    refine (node_join_eq_ok_iff hname).mpr ⟨h.passable hwf hbelow ?_, hlookup⟩
    rw [hlookup]
    rfl

end Direct

end Place

/-- The path above one; that without a last part itself. -/
def Path.above (p : Path) : Path :=
  p.parent.getD p

namespace Place

variable {w v : Place}

theorem origin_above (p : Path) : w.origin p.above = w.origin p := by
  rw [Path.above]
  cases hparent : p.parent with
  | none => rfl
  | some up => exact origin_parent hparent

theorem wayTo_above_subset (p : Path) : w.wayTo p.above ⊆ w.wayTo p := by
  rw [Path.above]
  cases hparent : p.parent with
  | none => exact List.Subset.refl _
  | some up =>
      rw [← route_parent hparent]
      exact wayTo_subset w up

end Place

open Job FileTree Place

/-- Writing a text: the directories above the path are made as far as no file stands in the way,
then the file is written. -/
theorem Job.exec_writeText_eq {ε : Type} (refuseDirectory : Path → FileError → ε)
    (refuseFile : FileError → ε) (p : Path) (text : String) {w : Workspace}
    (hwf : w.place.tree.WellFormed)
    (horigin : w.place.tree.lookup (w.place.origin p) = some .directory) :
    exec (writeText refuseDirectory refuseFile p text) w =
      let opened := w.place.tree.openWay (w.place.wayTo p)
      if opened.2 then
        match (⟨opened.1, w.place.current⟩ : Place).write p text.toUTF8 w.stamp with
        | .ok tree => (.ok (), withTree w tree)
        | .error e => (.error (refuseFile e), withTree w opened.1)
      else (.error (refuseDirectory p.above (w.place.obstacle p.above)), withTree w opened.1) := by
  rw [writeText, Path.above]
  cases hparent : p.parent with
  | none =>
      have hopen : w.place.tree.openWay (w.place.wayTo p) = (w.place.tree, true) := by
        rw [Place.wayTo, Path.steps_of_parent_eq_none hparent, List.dropLast_nil, visits_nil,
          openWay, horigin]
        rfl
      rw [hopen]
      exact exec_writeFile refuseFile p text.toUTF8 w
  | some up =>
      rw [exec_bind, exec_steps, ← Place.makeDirectories_parent hwf horigin hparent]
      rcases hmade : w.place.makeDirectories up with ⟨tree, e | _⟩
      · have hcause := error_of_makeAncestors hwf (origin_parent (w := w.place) hparent ▸ horigin)
          (Path.parent_spec hparent).2.2 up.length_steps_le (congrArg Prod.snd hmade)
        rw [hcause]
        rfl
      · exact exec_writeFile refuseFile p text.toUTF8 (withTree w tree)

/-- Writing a text under a proper name into a directory. -/
theorem Job.exec_writeText_join {ε : Type} (refuseDirectory : Path → FileError → ε)
    (refuseFile : FileError → ε) {p : Path} {name : String} (hname : ProperName name)
    (text : String) {w : Workspace} (hwf : w.place.tree.WellFormed)
    (horigin : w.place.tree.lookup (w.place.origin p) = some .directory)
    {t : FileTree} {clear : Bool} (hopen : w.place.tree.openWay (w.place.route p) = (t, clear)) :
    exec (writeText refuseDirectory refuseFile (p.join name) text) w =
      if clear then
        if t.lookup (w.place.target p ++ [name]) = some .directory then
          (.error (refuseFile .isDirectory), withTree w t)
        else (.ok (),
          withTree w (t.set (w.place.target p ++ [name]) (.file text.toUTF8 w.stamp)))
      else (.error (refuseDirectory (p.join name).above (w.place.obstacle (p.join name).above)),
        withTree w t) := by
  rw [exec_writeText_eq refuseDirectory refuseFile _ text hwf
    (by rw [Place.origin_join _ hname]; exact horigin), Place.wayTo_join _ hname, hopen]
  cases clear with
  | false => rfl
  | true =>
      have hpassable := passable_openWay (congrArg Prod.snd hopen)
      rw [hopen] at hpassable
      have hwrite := Place.write_join (w := ⟨t, w.place.current⟩) p hname text.toUTF8 w.stamp
        (by rw [Place.route_mk t w.place p]; exact hpassable)
      rw [Place.target_mk t w.place p] at hwrite
      simp only [hwrite, if_true]
      by_cases hdir : t.lookup (w.place.target p ++ [name]) = some .directory
      · simp only [hdir, if_true]
      · simp only [hdir, if_false]

/-- Writing the same text where the way and its end are alike: both runs go equally far, and with the
same obstacle they fail with the same error. -/
theorem Job.alike_writeText {ε : Type} (refuseDirectory : Path → FileError → ε)
    (refuseFile : FileError → ε) {p : Path} {name : String} (hname : ProperName name)
    (text : String) {S R : Location → Prop} {x y : Workspace}
    (hx : x.place.tree.WellFormed) (hy : y.place.tree.WellFormed)
    (horigin : x.place.tree.lookup (x.place.origin p) = some .directory)
    (horigin' : y.place.tree.lookup (y.place.origin p) = some .directory)
    (hcurrent : x.place.current = y.place.current) (h : Alike S R x.place.tree y.place.tree)
    (hway : ∀ l ∈ x.place.route p, S l ∨ R l) (hgoal : R (x.place.target p ++ [name])) :
    Alike S R (exec (writeText refuseDirectory refuseFile (p.join name) text) x).2.place.tree
        (exec (writeText refuseDirectory refuseFile (p.join name) text) y).2.place.tree ∧
      (exec (writeText refuseDirectory refuseFile (p.join name) text) x).1.mapError (fun _ => ()) =
        (exec (writeText refuseDirectory refuseFile (p.join name) text) y).1.mapError
          (fun _ => ()) ∧
      (x.place.obstacle (p.join name).above = y.place.obstacle (p.join name).above →
        (exec (writeText refuseDirectory refuseFile (p.join name) text) x).1 =
          (exec (writeText refuseDirectory refuseFile (p.join name) text) y).1) := by
  obtain ⟨hsame, hopen⟩ := h.openWay hway
  rcases ht : x.place.tree.openWay (x.place.route p) with ⟨t, clear⟩
  rcases hu : y.place.tree.openWay (y.place.route p) with ⟨u, clear'⟩
  rw [exec_writeText_join refuseDirectory refuseFile hname text hx horigin ht,
    exec_writeText_join refuseDirectory refuseFile hname text hy horigin' hu,
    ← target_congr hcurrent]
  rw [← route_congr hcurrent] at hu
  rw [ht, hu] at hsame hopen
  obtain rfl : clear = clear' := hsame
  cases clear with
  | false => exact ⟨hopen, rfl, fun hobstacle => by rw [hobstacle]; rfl⟩
  | true =>
      have hdir := hopen.directory_iff hgoal
      simp only [if_true]
      by_cases hfull : t.lookup (x.place.target p ++ [name]) = some .directory
      · rw [if_pos hfull, if_pos (hdir.mp hfull)]
        exact ⟨hopen, rfl, fun _ => rfl⟩
      · rw [if_neg hfull, if_neg (mt hdir.mpr hfull)]
        refine ⟨hopen.set ?_ rfl, rfl, fun _ => rfl⟩
        exact List.append_ne_nil_of_right_ne_nil _ (List.cons_ne_nil _ _)

end DesignTokens
