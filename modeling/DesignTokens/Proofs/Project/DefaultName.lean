import DesignTokens.Proofs.Project.Removal
import Mathlib.Data.List.DropRight
import Mathlib.Logic.Function.Iterate

/-!
The name that a project gets from its path. It is that of the last name on the way, and steps up
behind that name do not count: only where there are none it is the name of the directory that the
path means.
-/

namespace DesignTokens

namespace Path

/-- The number of steps up at the end of a path. -/
def climb (p : Path) : Nat :=
  (p.steps.rtakeWhile (· = "..")).length

theorem climb_eq_zero_iff {p : Path} : p.climb = 0 ↔ p.steps.getLast? ≠ some ".." := by
  rw [climb, List.length_eq_zero_iff, List.rtakeWhile_eq_nil_iff]
  cases hsteps : p.steps using List.reverseRecOn with
  | nil => simp
  | append_singleton names name => simp

end Path

namespace FileTree

/-- Steps up at the end leave the directories of the location before them one after the other. -/
theorem descend_eq_iterate (l : Location) (names : List String) :
    descend l names = List.dropLast^[(names.rtakeWhile (· = "..")).length]
      (descend l (names.rdropWhile (· = ".."))) := by
  induction names using List.reverseRecOn with
  | nil => rfl
  | append_singleton names name ih =>
      by_cases hup : name = ".."
      · subst hup
        rw [List.rtakeWhile_concat_pos _ _ _ (by simp), List.rdropWhile_concat_pos _ _ _ (by simp),
          List.length_append, List.length_singleton, Function.iterate_succ_apply', ← ih,
          descend_concat]
        rfl
      · rw [List.rtakeWhile_concat_neg _ _ _ (by simpa using hup),
          List.rdropWhile_concat_neg _ _ _ (by simpa using hup)]
        rfl

/-- The last name on the way is the name of the location that is reached before the steps up at the
end. -/
theorem getLast?_filter_append {l : Location} {names : List String}
    (hl : ∀ name ∈ l, ProperName name) (hnames : ∀ name ∈ names, name = ".." ∨ ProperName name) :
    ((l ++ names).filter (· ≠ "..")).getLast? =
      (descend l (names.rdropWhile (· = ".."))).getLast? := by
  induction names using List.reverseRecOn with
  | nil =>
      have hkept : l.filter (· ≠ "..") = l :=
        List.filter_eq_self.mpr fun name hname => by simpa using (hl name hname).ne_up
      rw [List.append_nil, hkept]
      rfl
  | append_singleton names name ih =>
      rw [List.forall_mem_append, List.forall_mem_singleton] at hnames
      rw [← List.append_assoc, List.filter_append]
      by_cases hup : name = ".."
      · subst hup
        rw [List.rdropWhile_concat_pos _ _ _ (by simp), ← ih hnames.1]
        simp
      · rw [List.rdropWhile_concat_neg _ _ _ (by simpa using hup), descend_concat,
          advance_of_proper _ (hnames.2.resolve_left hup), List.getLast?_concat,
          List.filter_cons_of_pos (by simpa using hup), List.filter_nil, List.getLast?_concat]

end FileTree

open FileTree

/-- The location from which the steps up at the end of a path set out. -/
def Place.foot (w : Place) (p : Path) : Location :=
  descend (w.origin p) (p.steps.rdropWhile (· = ".."))

namespace Scaffold

variable {w : Place}

/-- The name of a directory; the root goes by the usual name of a project. -/
def directoryName (l : Location) : String :=
  l.getLast?.getD defaultProjectName

theorem filterMap_name (names : List String) :
    (names.map Path.stepComponent).filterMap
        (fun | .name text => some text | _ => none) = names.filter (· ≠ "..") := by
  induction names with
  | nil => rfl
  | cons name names ih =>
      rw [List.map_cons, Path.stepComponent]
      by_cases hup : name = ".."
      · rw [if_pos hup, List.filter_cons_of_neg (by simpa using hup)]
        exact ih
      · rw [if_neg hup, List.filter_cons_of_pos (by simpa using hup)]
        exact congrArg (name :: ·) ih

theorem nameFor_eq_last (hcurrent : ∀ name ∈ w.current, ProperName name) (dir : Path) :
    nameFor w dir =
      ((w.origin dir ++ dir.steps).filter (· ≠ "..")).getLast?.getD defaultProjectName := by
  obtain ⟨habsolute, hsteps⟩ : ((Place.pathOf w.current).join dir.text).isAbsolute ∧
      ((Place.pathOf w.current).join dir.text).steps = w.origin dir ++ dir.steps := by
    by_cases hdir : dir.isAbsolute
    · have hhead : dir.text.toList.head? = some '/' := by simpa [Path.isAbsolute] using hdir
      rw [Path.join, if_pos hhead, Place.origin, if_pos hdir]
      exact ⟨hdir, rfl⟩
    · have hhead : dir.text.toList.head? ≠ some '/' := by simpa [Path.isAbsolute] using hdir
      rw [Path.isAbsolute_join_relative _ hhead, Path.steps_join_relative _ hhead,
        Place.steps_pathOf hcurrent, Place.origin, if_neg hdir]
      exact ⟨Place.isAbsolute_pathOf _, rfl⟩
  rw [nameFor, Path.components_of_isAbsolute habsolute, hsteps]
  exact congrArg (fun names => names.getLast?.getD defaultProjectName) (filterMap_name _)

/-- The usual name of a project is the name of the directory that its path means without the steps
up at its end. The directory that the path means with them lies that many levels above, so the name
is that of the project's directory if the path does not end in a step up. -/
theorem nameFor_eq_directoryName (hcurrent : ∀ name ∈ w.current, ProperName name) (dir : Path) :
    nameFor w dir = directoryName (w.foot dir) ∧
      w.target dir = List.dropLast^[dir.climb] (w.foot dir) ∧
      (∀ l, w.locate dir = .ok l → w.target dir = l) ∧
      (dir.steps.getLast? ≠ some ".." → nameFor w dir = directoryName (w.target dir)) := by
  have hname : nameFor w dir = directoryName (w.foot dir) := by
    have horigin : ∀ name ∈ w.origin dir, ProperName name := by
      intro name hname
      rw [Place.origin] at hname
      split at hname
      · exact absurd hname List.not_mem_nil
      · exact hcurrent name hname
    rw [nameFor_eq_last hcurrent,
      getLast?_filter_append horigin fun name hname => proper_of_mem_steps hname]
    rfl
  have htarget : w.target dir = List.dropLast^[dir.climb] (w.foot dir) := by
    rw [Place.target, descend_eq_iterate]
    rfl
  refine ⟨hname, htarget, fun l hl => (Place.locate_eq_ok_iff.mp hl).2.2.2, ?_⟩
  intro hlast
  rw [htarget, Path.climb_eq_zero_iff.mpr hlast]
  exact hname

/-- A directory `themes` in the current directory `/work/acme`. -/
def themesPlace : Place :=
  ⟨⟨[(["work"], .directory), (["work", "acme"], .directory),
    (["work", "acme", "themes"], .directory)]⟩, ["work", "acme"]⟩

/-- A path that leaves the current directory and comes to a directory that is not there yet. -/
theorem nameFor_eq_directoryName_dark :
    (∀ name ∈ themesPlace.current, ProperName name) ∧
      (⟨"../acme/themes/.//../dark/."⟩ : Path).steps.getLast? ≠ some ".." ∧
      themesPlace.target ⟨"../acme/themes/.//../dark/."⟩ = ["work", "acme", "dark"] ∧
      nameFor themesPlace ⟨"../acme/themes/.//../dark/."⟩ = "dark" := by
  have hcurrent : ∀ name ∈ themesPlace.current, ProperName name := by decide +kernel
  have hlast : (⟨"../acme/themes/.//../dark/."⟩ : Path).steps.getLast? ≠ some ".." := by
    decide +kernel
  have htarget : themesPlace.target ⟨"../acme/themes/.//../dark/."⟩ = ["work", "acme", "dark"] := by
    decide +kernel
  obtain ⟨-, -, -, hname⟩ := nameFor_eq_directoryName hcurrent ⟨"../acme/themes/.//../dark/."⟩
  exact ⟨hcurrent, hlast, htarget, by rw [hname hlast, htarget]; rfl⟩

/-- Where the path goes up from `themes`, the project in `acme` is named `themes`. -/
theorem nameFor_of_climb :
    themesPlace.locate ⟨"themes/.."⟩ = .ok ["work", "acme"] ∧
      directoryName ["work", "acme"] = "acme" ∧ nameFor themesPlace ⟨"themes/.."⟩ = "themes" := by
  decide +kernel

end Scaffold

end DesignTokens
