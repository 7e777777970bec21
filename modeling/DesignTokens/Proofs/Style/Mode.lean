import DesignTokens.Proofs.Text.Shown
import DesignTokens.Style.Mode
import Mathlib.Data.List.Nodup

/-!
Modes by name, and what a description tells. Overrides keep the names distinct; of several with one
name the last one counts, and a name without an override keeps the mode that it had. No two
activations are described alike.
-/

namespace DesignTokens

namespace ModeRegistry

variable (r : ModeRegistry)

theorem find?_replaceIn (mode : Mode) (modes : List Mode) (name : String) :
    (replaceIn mode modes).find? (fun m => m.name == name) =
      if mode.name = name then some mode else modes.find? fun m => m.name == name := by
  induction modes with
  | nil => by_cases hname : mode.name = name <;> simp [replaceIn, hname]
  | cons first rest ih =>
      rw [replaceIn]
      by_cases hfirst : first.name = mode.name
      · rw [if_pos hfirst]
        by_cases hname : mode.name = name
        · simp [hname]
        · simp [hname, hfirst]
      · rw [if_neg hfirst, List.find?_cons, List.find?_cons, ih]
        by_cases hname : mode.name = name
        · have hother : first.name ≠ name := hname ▸ hfirst
          rw [if_pos hname, if_pos hname, beq_false_of_ne hother]
        · simp [hname]

theorem get?_insert (mode : Mode) (name : String) :
    (r.insert mode).get? name = if mode.name = name then some mode else r.get? name :=
  find?_replaceIn mode r.modes name

/-- The last override of a name wins. -/
theorem get?_withOverrides (overrides : List Mode) (name : String) :
    (r.withOverrides overrides).get? name =
      (overrides.reverse.find? fun m => m.name == name).or (r.get? name) := by
  induction overrides generalizing r with
  | nil => rfl
  | cons mode rest ih =>
      have hstep : r.withOverrides (mode :: rest) = (r.insert mode).withOverrides rest := rfl
      rw [hstep, ih, get?_insert, List.reverse_cons, List.find?_append, Option.or_assoc]
      congr 1
      by_cases hname : mode.name = name <;> simp [hname]

theorem resolve_of_ne_base {name : String} (hname : name ≠ baseModeName) :
    r.resolve (some name) = ((r.get? name).map Mode.activation).getD .base := by
  rw [resolve, if_neg hname]
  cases r.get? name <;> rfl

theorem resolveNotices_of_ne_base {name : String} (hname : name ≠ baseModeName) :
    r.resolveNotices (some name) = ((r.get? name).map Mode.notices).getD [.unknownMode name] := by
  rw [resolveNotices, if_neg hname]
  cases r.get? name <;> rfl

theorem names_replaceIn (mode : Mode) (modes : List Mode) :
    (replaceIn mode modes).map Mode.name =
      if mode.name ∈ modes.map Mode.name then modes.map Mode.name
      else modes.map Mode.name ++ [mode.name] := by
  induction modes with
  | nil => rfl
  | cons first rest ih =>
      rw [replaceIn]
      by_cases hfirst : first.name = mode.name
      · rw [if_pos hfirst, List.map_cons, List.map_cons, hfirst, if_pos List.mem_cons_self]
      · rw [if_neg hfirst, List.map_cons, List.map_cons, ih]
        by_cases hrest : mode.name ∈ rest.map Mode.name
        · rw [if_pos hrest, if_pos (List.mem_cons_of_mem _ hrest)]
        · have hall : mode.name ∉ first.name :: rest.map Mode.name :=
            List.not_mem_cons_of_ne_of_not_mem (Ne.symm hfirst) hrest
          rw [if_neg hrest, if_neg hall, List.cons_append]

theorem nodup_names_insert {r : ModeRegistry} (h : (r.modes.map Mode.name).Nodup) (mode : Mode) :
    ((r.insert mode).modes.map Mode.name).Nodup := by
  rw [insert, names_replaceIn]
  split
  · exact h
  · rename_i hnew
    rw [← List.concat_eq_append]
    exact h.concat hnew

theorem nodup_names_withOverrides {r : ModeRegistry} (h : (r.modes.map Mode.name).Nodup)
    (overrides : List Mode) : ((r.withOverrides overrides).modes.map Mode.name).Nodup := by
  induction overrides generalizing r with
  | nil => exact h
  | cons mode rest ih => exact ih (nodup_names_insert h mode)

end ModeRegistry

namespace Activation

open Text

/-- The part of a description in front of the first quoted text. -/
def opening : Activation → String
  | base => "Base"
  | media _ => "AutoOnly \x7b media_query: "
  | mediaOrManual _ _ => "AutoPlusManual \x7b media_query: "
  | manual _ => "ManualOnly \x7b attribute: "
  | motion _ => "Motion \x7b media_query: "

/-- The part of a description from the first quoted text on. -/
def details : Activation → List Char
  | base => []
  | media query => (shown query).toList ++ " \x7d".toList
  | mediaOrManual query pin =>
    (shown query).toList ++ (", attribute: ".toList ++ ((shown pin).toList ++ " \x7d".toList))
  | manual pin => (shown pin).toList ++ " \x7d".toList
  | motion query => (shown query).toList ++ " \x7d".toList

theorem toList_describe (a : Activation) :
    a.describe.toList = a.opening.toList ++ a.details := by
  cases a <;> simp [describe, opening, details, kindName, mediaQuery?, pin?, Text.join]

/-- Five characters tell the kind of an activation. -/
theorem take_describe (a : Activation) : a.describe.toList.take 5 = a.opening.toList.take 5 := by
  rw [toList_describe]
  cases a <;> simp [opening, details]

theorem opening_eq_of_describe {a b : Activation} (h : a.describe = b.describe) :
    a.opening = b.opening := by
  have hfive : a.opening.toList.take 5 = b.opening.toList.take 5 := by
    rw [← take_describe, ← take_describe, h]
  cases a <;> cases b <;> first | rfl | simp [opening] at hfive

theorem describe_injective : Function.Injective describe := by
  intro a b h
  have hopening := opening_eq_of_describe h
  have hdetails : a.details = b.details := by
    have htext := congrArg String.toList h
    rwa [toList_describe, toList_describe, hopening, List.append_cancel_left_eq] at htext
  -- only activations of one kind have the same opening
  cases a <;> cases b <;> simp [opening] at hopening
  · rfl
  · rw [(shown_append_inj hdetails).1]
  · obtain ⟨rfl, hrest⟩ := shown_append_inj hdetails
    rw [(shown_append_inj (List.append_cancel_left hrest)).1]
  · rw [(shown_append_inj hdetails).1]
  · rw [(shown_append_inj hdetails).1]

end Activation

end DesignTokens
