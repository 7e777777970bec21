import DesignTokens.Proofs.Text.Lines
import DesignTokens.Workspace.FileTree
import Mathlib.Data.List.DropRight
import Mathlib.Data.List.Infix

/-!
The names of paths that were joined or cut off. Single dots lead nowhere, so a path is followed by
its other names, here called its steps.
-/

namespace DesignTokens

/-- A name that a file or directory can have. -/
structure ProperName (name : String) : Prop where
  ne_empty : name ≠ ""
  no_slash : '/' ∉ name.toList
  ne_here : name ≠ "."
  ne_up : name ≠ ".."

instance (name : String) : Decidable (ProperName name) :=
  decidable_of_iff (name ≠ "" ∧ '/' ∉ name.toList ∧ name ≠ "." ∧ name ≠ "..")
    ⟨fun ⟨hempty, hslash, hhere, hup⟩ => ⟨hempty, hslash, hhere, hup⟩,
      fun ⟨hempty, hslash, hhere, hup⟩ => ⟨hempty, hslash, hhere, hup⟩⟩

namespace Path

/-- The names that a path is followed by. -/
def steps (p : Path) : List String :=
  p.names.filter (· ≠ ".")

theorem toList_ne_nil {s : String} (h : s ≠ "") : s.toList ≠ [] := fun hs =>
  h (String.toList_injective hs)

/-- The names of a path and of what was joined to it follow each other, unless that is absolute. -/
theorem names_join_relative (p : Path) {child : String} (hhead : child.toList.head? ≠ some '/') :
    (p.join child).names = p.names ++ names ⟨child⟩ := by
  have hsplit : ∀ front : List Char,
      ((Text.splitAt '/' (front ++ '/' :: child.toList)).filter (· ≠ [])).map String.ofList =
        ((Text.splitAt '/' front).filter (· ≠ [])).map String.ofList ++ names ⟨child⟩ := by
    intro front
    rw [Text.splitAt_append_mark, List.filter_append, List.map_append, names]
  rw [join, if_neg hhead]
  split
  · rename_i hlast
    rw [List.getLast?_eq_none_iff] at hlast
    simp [names, hlast, Text.splitAt]
  · rename_i hlast
    obtain ⟨front, hfront⟩ := List.getLast?_eq_some_iff.mp hlast
    have hp : p.names = ((Text.splitAt '/' front).filter (· ≠ [])).map String.ofList := by
      rw [names, hfront, Text.splitAt_append_mark]
      simp [Text.splitAt]
    rw [hp, ← hsplit front, names, String.toList_append, hfront, List.append_assoc,
      List.singleton_append]
  · change _ = ((Text.splitAt '/' p.text.toList).filter (· ≠ [])).map String.ofList ++ names ⟨child⟩
    rw [← hsplit p.text.toList, names, String.toList_append, String.toList_append,
      List.append_assoc]
    rfl

theorem names_join (p : Path) {name : String} (hne : name ≠ "") (hslash : '/' ∉ name.toList) :
    (p.join name).names = p.names ++ [name] := by
  rw [names_join_relative p fun h => hslash (List.mem_of_mem_head? h)]
  simp [names, Text.splitAt_of_not_mem hslash, toList_ne_nil hne]

theorem steps_join_relative (p : Path) {child : String} (hhead : child.toList.head? ≠ some '/') :
    (p.join child).steps = p.steps ++ steps ⟨child⟩ := by
  rw [steps, steps, names_join_relative p hhead, List.filter_append, ← steps, ← steps]

theorem steps_join (p : Path) {name : String} (h : ProperName name) :
    (p.join name).steps = p.steps ++ [name] := by
  rw [steps, steps, names_join p h.ne_empty h.no_slash, List.filter_append]
  simp [h.ne_here]

theorem isAbsolute_join_relative (p : Path) {child : String}
    (hhead : child.toList.head? ≠ some '/') : (p.join child).isAbsolute = p.isAbsolute := by
  rw [join, if_neg hhead]
  split
  · rename_i hlast
    rw [List.getLast?_eq_none_iff] at hlast
    simpa [isAbsolute, hlast] using hhead
  · rename_i hlast
    obtain ⟨front, hfront⟩ := List.getLast?_eq_some_iff.mp hlast
    cases front <;> simp [isAbsolute, hfront]
  · rename_i last _ hlast
    obtain ⟨front, hfront⟩ := List.getLast?_eq_some_iff.mp hlast
    cases front <;> simp [isAbsolute, hfront]

theorem isAbsolute_join (p : Path) {name : String} (hslash : '/' ∉ name.toList) :
    (p.join name).isAbsolute = p.isAbsolute :=
  isAbsolute_join_relative p fun h => hslash (List.mem_of_mem_head? h)

theorem getLast?_join (p : Path) {name : String} (hne : name ≠ "")
    (hslash : '/' ∉ name.toList) :
    (p.join name).text.toList.getLast? = name.toList.getLast? := by
  have hhead : name.toList.head? ≠ some '/' := fun h => hslash (List.mem_of_mem_head? h)
  have hlast : ∀ front : List Char, (front ++ name.toList).getLast? = name.toList.getLast? :=
    fun front => List.getLast?_append_of_ne_nil front (toList_ne_nil hne)
  rw [join, if_neg hhead]
  split
  · rfl
  · rw [String.toList_append, hlast]
  · rw [String.toList_append, hlast]

theorem endsInSlash_join (p : Path) {name : String} (hne : name ≠ "")
    (hslash : '/' ∉ name.toList) : (p.join name).endsInSlash = false := by
  have hlast : (p.join name).text.toList.getLast? ≠ some '/' := by
    rw [getLast?_join p hne hslash]
    exact fun h => hslash (List.mem_of_getLast? h)
  rw [endsInSlash, beq_false_of_ne hlast, Bool.false_and]

theorem join_ne_empty (p : Path) {name : String} (hne : name ≠ "") (hslash : '/' ∉ name.toList) :
    (p.join name).text ≠ "" := by
  intro h
  have hnames := names_join p hne hslash
  simp [names, h, Text.splitAt] at hnames

section Parent

theorem not_isFiller_iff {part : List Char} :
    (!isFiller part) = true ↔ part ≠ [] ∧ part ≠ ['.'] := by
  simp [isFiller]

/-- A start that a list of parts can stand behind. -/
def Fits (start : Option Component) (parts : List (List Char)) : Prop :=
  match start with
  | some .root => True
  | some .here => parts.head? = some []
  | some _ => False
  | none => ∃ part, parts.head? = some part ∧ (!isFiller part) = true

theorem start?_of_splitAt {p : Path} (hne : p.text ≠ "") (hstart : p.start? = none) :
    ∃ part, (Text.splitAt '/' p.text.toList).head? = some part ∧ (!isFiller part) = true := by
  have htext := toList_ne_nil hne
  rw [start?] at hstart
  split at hstart
  · exact absurd hstart nofun
  · exact absurd hstart nofun
  · exact absurd hstart nofun
  · rename_i hroot hdot hhere
    cases hcs : p.text.toList with
    | nil => exact absurd hcs htext
    | cons c cs =>
        have hc : c ≠ '/' := fun hc => hroot cs (hc ▸ hcs)
        cases hsplit : Text.splitAt '/' cs with
        | nil => exact absurd hsplit (Text.splitAt_ne_nil '/' cs)
        | cons part parts =>
            refine ⟨c :: part, by rw [Text.splitAt, if_neg hc, hsplit]; rfl, ?_⟩
            rw [not_isFiller_iff]
            refine ⟨List.cons_ne_nil c part, ?_⟩
            intro hdots
            obtain ⟨rfl, rfl⟩ := List.cons.inj hdots
            -- behind the dot the text would have to go on with a slash, or end
            cases cs with
            | nil => exact hdot hcs
            | cons d ds =>
                rw [Text.splitAt] at hsplit
                split at hsplit
                · rename_i hd
                  exact hhere ds (hd ▸ hcs)
                · split at hsplit <;> exact absurd (List.cons.inj hsplit).1 (List.cons_ne_nil _ _)

theorem fits_parts {p : Path} (hne : p.text ≠ "") : Fits p.start? p.parts := by
  rw [parts]
  cases hstart : p.start? with
  | none => exact start?_of_splitAt hne hstart
  | some component =>
      rw [start?] at hstart
      split at hstart
      · exact Option.some.inj hstart ▸ trivial
      · rename_i htext
        rw [← Option.some.inj hstart, htext]
        rfl
      · rename_i htext
        rw [← Option.some.inj hstart, htext]
        rfl
      · exact absurd hstart nofun

theorem names_eq (p : Path) :
    p.names = (if p.start? = some .here then ["."] else []) ++
      (p.parts.filter (· ≠ [])).map String.ofList := by
  rw [names, parts]
  cases hstart : p.start? with
  | none => rfl
  | some component =>
      rw [start?] at hstart
      split at hstart
      · rename_i htext
        rw [← Option.some.inj hstart, htext]
        rfl
      · rename_i htext
        rw [← Option.some.inj hstart, htext]
        rfl
      · rename_i htext
        rw [← Option.some.inj hstart, htext]
        rfl
      · exact absurd hstart nofun

theorem steps_eq (p : Path) :
    p.steps = (p.parts.filter fun part => !isFiller part).map String.ofList := by
  have hfilter : ∀ parts : List (List Char),
      ((parts.filter (· ≠ [])).map String.ofList).filter (· ≠ ".") =
        (parts.filter fun part => !isFiller part).map String.ofList := by
    intro parts
    rw [List.filter_map, List.filter_filter]
    congr 1
    apply List.filter_congr
    intro part hpart
    have hdot : String.ofList part = "." ↔ part = ['.'] :=
      ⟨fun h => by simpa using congrArg String.toList h, fun h => h ▸ rfl⟩
    simp [isFiller, hdot, Bool.and_comm]
  rw [steps, names_eq, List.filter_append, hfilter]
  split <;> rfl

theorem start?_ofParts {start : Option Component} {parts : List (List Char)}
    (hslash : ∀ part ∈ parts, '/' ∉ part) (hfits : Fits start parts) :
    (ofParts start parts).start? = start := by
  rcases start with _ | (_ | _ | _ | _)
  · obtain ⟨part, hpart, hproper⟩ := hfits
    obtain ⟨rest, rfl⟩ := List.head?_eq_some_iff.mp hpart
    obtain ⟨hne, hdot⟩ := not_isFiller_iff.mp hproper
    have hfree : '/' ∉ part := hslash part List.mem_cons_self
    obtain ⟨c, cs, rfl⟩ := List.exists_cons_of_ne_nil hne
    have hcdot : cs = [] → c ≠ '.' := fun hcs hc => hdot (by rw [hcs, hc])
    obtain ⟨tail, htail⟩ : ∃ tail, (ofParts none ((c :: cs) :: rest)).text.toList =
        c :: (cs ++ tail) := by
      cases rest with
      | nil => exact ⟨[], by simp [ofParts]⟩
      | cons next rest =>
          exact ⟨'/' :: ['/'].intercalate (next :: rest),
            by simp [ofParts, List.intercalate_cons_cons]⟩
    rw [start?]
    split
    · rename_i htext
      obtain ⟨rfl, -⟩ := List.cons.inj (htail.symm.trans htext)
      exact absurd List.mem_cons_self hfree
    · rename_i htext
      obtain ⟨hc, hcs⟩ := List.cons.inj (htail.symm.trans htext)
      exact absurd hc (hcdot (List.append_eq_nil_iff.mp hcs).1)
    · rename_i htext
      obtain ⟨hc, hcs⟩ := List.cons.inj (htail.symm.trans htext)
      cases cs with
      | nil => exact absurd hc (hcdot rfl)
      | cons d ds =>
          obtain ⟨rfl, -⟩ := List.cons.inj hcs
          exact absurd (List.mem_cons_of_mem _ List.mem_cons_self) hfree
    · rfl
  · simp [ofParts, start?]
  · obtain ⟨rest, rfl⟩ := List.head?_eq_some_iff.mp hfits
    cases rest with
    | nil => rfl
    | cons next rest => simp [ofParts, start?, List.intercalate_cons_cons]
  · exact hfits.elim
  · exact hfits.elim

theorem parts_ofParts {start : Option Component} {parts : List (List Char)} (hne : parts ≠ [])
    (hslash : ∀ part ∈ parts, '/' ∉ part) (hfits : Fits start parts) :
    (ofParts start parts).parts = parts := by
  obtain ⟨part, rest, rfl⟩ := List.exists_cons_of_ne_nil hne
  rw [Path.parts, start?_ofParts hslash hfits]
  rcases start with _ | (_ | _ | _ | _)
  · simpa [ofParts] using Text.splitAt_intercalate hslash
  · simpa [ofParts] using Text.splitAt_intercalate hslash
  · simpa [ofParts] using Text.splitAt_intercalate hslash
  · exact hfits.elim
  · exact hfits.elim

theorem dropFillerEnd_initial (parts : List (List Char)) : dropFillerEnd parts <+: parts :=
  List.rdropWhile_prefix isFiller parts

theorem filter_dropFillerEnd (parts : List (List Char)) :
    (dropFillerEnd parts).filter (fun part => !isFiller part) =
      parts.filter fun part => !isFiller part := by
  rw [dropFillerEnd, List.filter_reverse]
  have hdrop : ∀ qs : List (List Char), (qs.dropWhile isFiller).filter (fun part => !isFiller part) =
      qs.filter fun part => !isFiller part := by
    intro qs
    induction qs with
    | nil => rfl
    | cons q qs ih =>
        by_cases hq : isFiller q
        · rw [List.dropWhile_cons_of_pos hq, ih, List.filter_cons_of_neg (by simp [hq])]
        · rw [List.dropWhile_cons_of_neg hq]
  rw [hdrop, List.filter_reverse, List.reverse_reverse]

theorem not_isFiller_getLast {parts : List (List Char)} (h : dropFillerEnd parts ≠ []) :
    (!isFiller ((dropFillerEnd parts).getLast h)) = true := by
  have hlast : ¬ isFiller ((dropFillerEnd parts).getLast h) :=
    List.rdropWhile_last_not isFiller parts h
  simpa using hlast

theorem Fits.initial {start : Option Component} {parts front : List (List Char)}
    (h : Fits start parts) (hinit : front <+: parts) (hne : front ≠ []) : Fits start front := by
  obtain ⟨part, rest, rfl⟩ := List.exists_cons_of_ne_nil hne
  obtain ⟨more, rfl⟩ := hinit
  exact h

theorem steps_ofParts {start : Option Component} {parts : List (List Char)}
    (hslash : ∀ part ∈ parts, '/' ∉ part) (hfits : parts ≠ [] → Fits start parts) :
    (ofParts start parts).steps = (parts.filter fun part => !isFiller part).map String.ofList := by
  by_cases hne : parts = []
  · subst hne
    rcases start with _ | (_ | _ | _ | _) <;> rfl
  · rw [steps_eq, parts_ofParts hne hslash (hfits hne)]

theorem isAbsolute_iff {p : Path} : p.isAbsolute ↔ p.start? = some .root := by
  rw [isAbsolute, start?]
  split
  · rename_i htext
    simp [htext]
  · rename_i htext
    simp [htext]
  · rename_i htext
    simp [htext]
  · rename_i hroot _ _
    cases hcs : p.text.toList with
    | nil => simp
    | cons c cs =>
        have hc : c ≠ '/' := fun hc => hroot cs (hc ▸ hcs)
        simp [hc]

theorem isAbsolute_ofParts {start : Option Component} {parts : List (List Char)}
    (hslash : ∀ part ∈ parts, '/' ∉ part) (hfits : parts ≠ [] → Fits start parts) :
    (ofParts start parts).isAbsolute ↔ start = some .root := by
  by_cases hne : parts = []
  · subst hne
    rcases start with _ | (_ | _ | _ | _) <;> simp [ofParts, isAbsolute]
  · rw [isAbsolute_iff, start?_ofParts hslash (hfits hne)]

theorem getLast?_names_of_parts {p : Path} {front : List (List Char)} {last : List Char}
    (hparts : p.parts = front ++ [last]) (hlast : (!isFiller last) = true) :
    p.names.getLast? = some (String.ofList last) := by
  have hne : last ≠ [] := (not_isFiller_iff.mp hlast).1
  rw [names_eq, hparts, List.filter_append, List.filter_singleton, List.map_append,
    ← List.append_assoc]
  simp [hne]

/-- The directory above a path: the last step is missing, and nothing that leads nowhere stands at
the end. -/
theorem parent_spec {p up : Path} (h : p.parent = some up) :
    up.steps = p.steps.dropLast ∧ up.isAbsolute = p.isAbsolute ∧
      (up.steps = [] ∨ ∃ name, up.names.getLast? = some name ∧ name ≠ ".") := by
  rw [parent] at h
  split at h
  · rename_i hdrop
    obtain ⟨hhere, hup⟩ := Option.ite_none_right_eq_some.mp h
    have hsteps : p.steps = [] := by
      rw [steps_eq, ← filter_dropFillerEnd, hdrop]
      rfl
    obtain rfl := Option.some.inj hup
    have habs : ¬ p.isAbsolute := by
      rw [isAbsolute_iff, hhere]
      exact nofun
    refine ⟨by rw [hsteps]; rfl, ?_, .inl rfl⟩
    rw [Bool.eq_false_iff.mpr habs]
    rfl
  · rename_i hdrop
    have hne : dropFillerEnd p.parts ≠ [] := fun hnil => hdrop hnil
    have htext : p.text ≠ "" := by
      intro hempty
      exact hdrop (by rw [parts, start?, hempty]; rfl)
    obtain ⟨front, last, hfront, hlast⟩ : ∃ front last,
        dropFillerEnd p.parts = front ++ [last] ∧ (!isFiller last) = true :=
      ⟨_, _, (List.dropLast_append_getLast hne).symm, not_isFiller_getLast hne⟩
    have hinit : dropFillerEnd front <+: p.parts :=
      (dropFillerEnd_initial front).trans
        ((List.prefix_append front [last]).trans (hfront ▸ dropFillerEnd_initial p.parts))
    have hslash : ∀ part ∈ dropFillerEnd front, '/' ∉ part := fun part hpart =>
      Text.not_mem_of_mem_splitAt (hinit.subset hpart)
    have hfits : dropFillerEnd front ≠ [] → Fits p.start? (dropFillerEnd front) :=
      (fits_parts htext).initial hinit
    have hsteps : p.steps = (front.filter fun part => !isFiller part).map String.ofList ++
        [String.ofList last] := by
      rw [steps_eq, ← filter_dropFillerEnd, hfront, List.filter_append, List.filter_singleton,
        hlast, List.map_append]
      rfl
    obtain rfl := Option.some.inj h
    rw [hfront, List.dropLast_concat]
    refine ⟨?_, ?_, ?_⟩
    · rw [steps_ofParts hslash hfits, filter_dropFillerEnd, hsteps, List.dropLast_concat]
    · rw [Bool.eq_iff_iff, isAbsolute_ofParts hslash hfits, isAbsolute_iff]
    · by_cases hnil : dropFillerEnd front = []
      · left
        rw [steps_ofParts hslash hfits, hnil]
        rfl
      · right
        have hend := not_isFiller_getLast hnil
        have hparts := (parts_ofParts hnil hslash (hfits hnil)).trans
          (List.dropLast_append_getLast hnil).symm
        refine ⟨_, getLast?_names_of_parts hparts hend, ?_⟩
        intro hdot
        exact (not_isFiller_iff.mp hend).2 (by simpa using congrArg String.toList hdot)

theorem length_steps_le (p : Path) : p.steps.length ≤ p.parts.length := by
  rw [steps_eq, List.length_map]
  exact List.length_filter_le _ _

theorem steps_of_parent_eq_none {p : Path} (h : p.parent = none) : p.steps = [] := by
  rw [parent] at h
  split at h
  · rename_i hdrop
    rw [steps_eq, ← filter_dropFillerEnd, hdrop]
    rfl
  · exact absurd h nofun

end Parent

end Path

end DesignTokens
