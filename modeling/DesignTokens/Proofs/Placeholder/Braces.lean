import DesignTokens.Proofs.Placeholder.Pieces

/-!
The references of a text, read character by character.

Between two characters a reader knows only what stands behind the last open brace, if one is open.
What it finds in texts written one after the other is therefore what it finds in each of them, from
where the texts before have left it.
-/

namespace DesignTokens.Placeholder

variable {o : Option (List Char)} {cs ds body : List Char}

/-- What stands behind the open brace after one more character. -/
def advance (o : Option (List Char)) (c : Char) : Option (List Char) :=
  if c = '\x7b' then some [] else if c = '\x7d' then none else o.map (· ++ [c])

/-- What stands behind the open brace after more text. -/
def opened (o : Option (List Char)) (cs : List Char) : Option (List Char) :=
  cs.foldl advance o

/-- The reference that a character completes. -/
def completed (o : Option (List Char)) (c : Char) : List String :=
  if c = '\x7d' then (o.bind fun body => (closed body).path?).toList else []

/-- The references that are completed in a text. -/
def paths : Option (List Char) → List Char → List String
  | _, [] => []
  | o, c :: cs => completed o c ++ paths (advance o c) cs

@[simp] theorem advance_open : advance o '\x7b' = some [] := rfl

@[simp] theorem advance_close : advance o '\x7d' = none := rfl

theorem advance_of_ne {c : Char} (hopen : c ≠ '\x7b') (hclose : c ≠ '\x7d') :
    advance o c = o.map (· ++ [c]) := by
  rw [advance, if_neg hopen, if_neg hclose]

theorem completed_of_ne {c : Char} (hclose : c ≠ '\x7d') : completed o c = [] :=
  if_neg hclose

@[simp] theorem completed_close_none : completed none '\x7d' = [] := rfl

@[simp] theorem completed_close_some : completed (some body) '\x7d' = (closed body).path?.toList :=
  rfl

@[simp] theorem opened_nil : opened o [] = o := rfl

@[simp] theorem opened_cons (c : Char) : opened o (c :: cs) = opened (advance o c) cs := rfl

theorem opened_append : opened o (cs ++ ds) = opened (opened o cs) ds :=
  List.foldl_append

@[simp] theorem paths_nil : paths o [] = [] := rfl

theorem paths_cons (c : Char) : paths o (c :: cs) = completed o c ++ paths (advance o c) cs := rfl

theorem paths_append : paths o (cs ++ ds) = paths o cs ++ paths (opened o cs) ds := by
  induction cs generalizing o with
  | nil => rfl
  | cons c cs ih => rw [List.cons_append, paths_cons, paths_cons, ih, opened_cons, List.append_assoc]

theorem paths_of_not_close (h : '\x7d' ∉ cs) : paths o cs = [] := by
  induction cs generalizing o with
  | nil => rfl
  | cons c cs ih =>
      obtain ⟨hc, hcs⟩ := List.ne_and_not_mem_of_not_mem_cons h
      rw [paths_cons, completed_of_ne hc.symm, ih hcs, List.append_nil]

theorem paths_none_of_not_open (h : '\x7b' ∉ cs) : paths none cs = [] := by
  induction cs with
  | nil => rfl
  | cons c cs ih =>
      obtain ⟨hc, hcs⟩ := List.ne_and_not_mem_of_not_mem_cons h
      have hstays : advance none c = none := by
        rw [advance, if_neg hc.symm]
        exact ite_self _
      rw [paths_cons, hstays, ih hcs, List.append_nil, completed]
      exact ite_self _

mutual

theorem path?_outside (done cs : List Char) :
    (outside done cs).filterMap Segment.path? = paths none cs := by
  have hliteral : (literalOf done).filterMap Segment.path? = [] := by
    cases done <;> rfl
  cases cs with
  | nil => rw [outside, hliteral, paths_nil]
  | cons c cs =>
      rw [outside]
      split
      · rename_i hc
        subst hc
        rw [List.filterMap_append, hliteral, path?_inside [] cs]
        rfl
      · rename_i hc
        rw [path?_outside (done ++ [c]) cs, paths_cons, advance, if_neg hc, Option.map_none, ite_self,
          completed]
        simp

theorem path?_inside (done cs : List Char) :
    (inside done cs).filterMap Segment.path? = paths (some done) cs := by
  have hunclosed : ∀ body, (unclosed body).path? = none := fun _ => rfl
  cases cs with
  | nil => rfl
  | cons c cs =>
      rw [inside, paths_cons]
      split
      · rename_i hc
        subst hc
        rw [List.filterMap_cons, path?_outside [] cs, completed_close_some, advance_close]
        cases (closed done).path? <;> rfl
      · rename_i hclose
        rw [completed_of_ne hclose, List.nil_append]
        split
        · rename_i hopen
          subst hopen
          -- the program does not look behind a brace that nothing closes any more
          split
          · rw [List.filterMap_cons, hunclosed, path?_inside [] cs, advance_open]
          · rename_i hnone
            rw [List.filterMap_cons, hunclosed, advance_open, paths_of_not_close hnone,
              List.filterMap_nil]
        · rename_i hopen
          rw [path?_inside (done ++ [c]) cs, advance_of_ne hopen hclose, Option.map_some]

end

theorem path?_scan (text : String) :
    (scan text).filterMap Segment.path? = paths none text.toList :=
  path?_outside [] text.toList

/-- The references of a text are those that a reader finds in it. -/
theorem references_eq_paths (text : String) : references text = paths none text.toList := by
  rw [references, path?_scan]
  split
  · rfl
  · rename_i h
    exact (paths_none_of_not_open h).symm

theorem hasReference_iff_paths {text : String} :
    hasReference text = true ↔ paths none text.toList ≠ [] := by
  rw [hasReference_iff, ← path?_scan]
  constructor
  · rintro ⟨path, hpath⟩
    exact List.ne_nil_of_mem (List.mem_filterMap.mpr ⟨_, hpath, rfl⟩)
  · intro h
    obtain ⟨path, hpath⟩ := List.exists_mem_of_ne_nil _ h
    obtain ⟨s, hs, hsome⟩ := List.mem_filterMap.mp hpath
    cases s with
    | reference other => exact ⟨other, hs⟩
    | literal | malformed => exact absurd hsome nofun

/-- A text without braces. -/
def Smooth (cs : List Char) : Prop :=
  '\x7b' ∉ cs ∧ '\x7d' ∉ cs

theorem opened_of_smooth (h : Smooth cs) : opened o cs = o.map (· ++ cs) := by
  induction cs generalizing o with
  | nil => cases o <;> simp
  | cons c cs ih =>
      obtain ⟨hopen, hrest⟩ := List.ne_and_not_mem_of_not_mem_cons h.1
      obtain ⟨hclose, hrest'⟩ := List.ne_and_not_mem_of_not_mem_cons h.2
      rw [opened_cons, advance_of_ne hopen.symm hclose.symm, ih ⟨hrest, hrest'⟩]
      cases o <;> simp

/-- A text that holds a placeholder. -/
def Mentions (cs : List Char) : Prop :=
  ∃ front body back, cs = front ++ '\x7b' :: body ++ '\x7d' :: back ∧ Smooth body ∧
    (closed body).path?.isSome

theorem Mentions.within (h : Mentions cs) (hin : cs <:+: ds) : Mentions ds := by
  obtain ⟨front, body, back, rfl, hbody⟩ := h
  obtain ⟨before, after, rfl⟩ := hin
  exact ⟨before ++ front, body, back ++ after, by simp, hbody⟩

theorem Mentions.paths_ne_nil (h : Mentions cs) : paths o cs ≠ [] := by
  obtain ⟨front, body, back, rfl, hsmooth, hpath⟩ := h
  obtain ⟨path, hpath⟩ := Option.isSome_iff_exists.mp hpath
  rw [paths_append, opened_append, opened_cons, advance_open, opened_of_smooth hsmooth, paths_cons,
    Option.map_some, completed_close_some, List.nil_append, hpath]
  simp

theorem mentions_of_paths (h : paths o cs ≠ []) :
    Mentions cs ∨ ∃ body more back, o = some body ∧ cs = more ++ '\x7d' :: back ∧ Smooth more ∧
      (closed (body ++ more)).path?.isSome := by
  induction cs generalizing o with
  | nil => exact absurd rfl h
  | cons c cs ih =>
      have hsuffix : cs <:+: c :: cs := (List.suffix_cons c cs).isInfix
      by_cases hclose : c = '\x7d'
      · subst hclose
        by_cases hnow : completed o '\x7d' = []
        · rw [paths_cons, hnow, List.nil_append] at h
          rcases ih h with hin | ⟨_, _, _, hnone, -⟩
          · exact .inl (hin.within hsuffix)
          · exact absurd hnone nofun
        · cases o with
          | none => exact absurd rfl hnow
          | some body =>
              refine .inr ⟨body, [], cs, rfl, rfl, ⟨List.not_mem_nil, List.not_mem_nil⟩, ?_⟩
              rw [List.append_nil]
              cases hpath : (closed body).path? with
              | none => exact absurd (by rw [completed_close_some, hpath]; rfl) hnow
              | some path => rfl
      · rw [paths_cons, completed_of_ne hclose, List.nil_append] at h
        rcases ih h with hin | ⟨body, more, back, ho, rfl, hmore, hpath⟩
        · exact .inl (hin.within hsuffix)
        · by_cases hopen : c = '\x7b'
          · subst hopen
            obtain rfl := Option.some.inj ho
            exact .inl ⟨[], more, back, rfl, hmore, hpath⟩
          · rw [advance_of_ne hopen hclose] at ho
            obtain ⟨start, rfl, rfl⟩ := Option.map_eq_some_iff.mp ho
            refine .inr ⟨start, c :: more, back, rfl, rfl, ?_, by simpa using hpath⟩
            exact ⟨List.not_mem_cons_of_ne_of_not_mem (Ne.symm hopen) hmore.1,
              List.not_mem_cons_of_ne_of_not_mem (Ne.symm hclose) hmore.2⟩

/-- A text has a reference if it holds a placeholder, whatever stands around it. -/
theorem hasReference_iff_mentions {text : String} :
    hasReference text = true ↔ Mentions text.toList := by
  rw [hasReference_iff_paths]
  constructor
  · intro h
    rcases mentions_of_paths h with h | ⟨_, _, _, hnone, -⟩
    · exact h
    · exact absurd hnone nofun
  · exact Mentions.paths_ne_nil

/-- What stands behind the open brace cannot be the start of an end in `.value`. -/
def Guarded (o : Option (List Char)) : Prop :=
  ∀ body, o = some body → ∀ c ∈ body.getLast?, c ∉ valueSuffix

/-- What stands behind the open brace does not end in `.value`. -/
def Blunt (o : Option (List Char)) : Prop :=
  ∀ body, o = some body → ¬ valueSuffix <:+ body

/-- Whether the first brace of a text closes, right behind `.value`, given the text in front. -/
def closesEarly (done : List Char) : List Char → Bool
  | [] => false
  | c :: cs =>
    if c = '\x7b' then false
    else if c = '\x7d' then (Text.stripEnd valueSuffix done).isSome
    else closesEarly (done ++ [c]) cs

theorem isSome_stripEnd_iff {ending : List Char} :
    (Text.stripEnd ending cs).isSome = true ↔ ending <:+ cs := by
  constructor
  · intro h
    obtain ⟨rest, hrest⟩ := Option.isSome_iff_exists.mp h
    exact ⟨rest, (Text.eq_append_of_stripEnd hrest).symm⟩
  · rintro ⟨rest, rfl⟩
    rw [Text.stripEnd_append]
    rfl

theorem path?_closed_eq_none (h : ¬ valueSuffix <:+ body) : (closed body).path? = none := by
  rw [closed]
  split
  · rename_i path hpath
    exact absurd ⟨path, (Text.eq_append_of_stripEnd hpath).symm⟩ h
  · rfl

theorem Blunt.completed_close (h : Blunt o) : completed o '\x7d' = [] := by
  cases o with
  | none => rfl
  | some body => rw [completed_close_some, path?_closed_eq_none (h body rfl), Option.toList_none]

/-- An end in `.value` that reaches beyond a text starts with the end of what stands before. -/
theorem suffix_append_of_guarded (hguarded : Guarded (some body))
    (h : valueSuffix <:+ body ++ cs) : valueSuffix <:+ cs := by
  obtain ⟨front, hfront⟩ := h
  rcases List.append_eq_append_iff.mp hfront with ⟨more, rfl, hmore⟩ | ⟨more, -, rfl⟩
  · rcases List.eq_nil_or_concat more with rfl | ⟨start, last, rfl⟩
    · exact ⟨[], hmore⟩
    · refine absurd ?_ (hguarded _ rfl last (by simp))
      rw [hmore]
      simp
  · exact ⟨more, rfl⟩

theorem Guarded.blunt (h : Guarded o) : Blunt o := by
  rintro body rfl hsuffix
  have hnil : valueSuffix <:+ [] := suffix_append_of_guarded h (by rwa [List.append_nil])
  exact absurd (List.suffix_nil.mp hnil) (by decide)

theorem guarded_none : Guarded none := nofun

/-- Behind a character that `.value` does not have, nothing counts of what stands before. -/
theorem guarded_opened_concat {c : Char} (hc : c ∉ valueSuffix) :
    Guarded (opened o (cs ++ [c])) := by
  rw [opened_append, opened_cons, opened_nil, advance]
  split
  · rintro body hbody last hlast
    obtain rfl := Option.some.inj hbody
    exact absurd hlast nofun
  · split
    · exact guarded_none
    · rintro body hbody last hlast
      obtain ⟨start, -, rfl⟩ := Option.map_eq_some_iff.mp hbody
      rw [List.getLast?_concat, Option.mem_some_iff] at hlast
      exact hlast ▸ hc

/-- A text whose first brace opens says the same, whatever stands before. -/
theorem Guarded.paths_eq (h : Guarded o) (hearly : closesEarly [] cs = false) :
    paths o cs = paths none cs := by
  cases o with
  | none => rfl
  | some body =>
      have hstep : ∀ (cs done : List Char), Smooth done → closesEarly done cs = false →
          paths (some (body ++ done)) cs = paths none cs := by
        intro cs
        induction cs with
        | nil => exact fun _ _ _ => rfl
        | cons c cs ih =>
            intro done hdone hearly
            rw [closesEarly] at hearly
            by_cases hopen : c = '\x7b'
            · subst hopen
              rfl
            · rw [if_neg hopen] at hearly
              by_cases hclose : c = '\x7d'
              · subst hclose
                rw [if_pos rfl, ← Bool.not_eq_true, isSome_stripEnd_iff] at hearly
                have hblunt : ¬ valueSuffix <:+ body ++ done :=
                  fun hsuffix => hearly (suffix_append_of_guarded h hsuffix)
                rw [paths_cons, paths_cons, completed_close_some, path?_closed_eq_none hblunt]
                rfl
              · rw [if_neg hclose] at hearly
                rw [paths_cons, paths_cons, completed_of_ne hclose, completed_of_ne hclose,
                  advance_of_ne hopen hclose, advance_of_ne hopen hclose, Option.map_some,
                  Option.map_none, List.append_assoc]
                refine congrArg _ (ih (done ++ [c]) ?_ hearly)
                constructor
                · simpa using ⟨hdone.1, Ne.symm hopen⟩
                · simpa using ⟨hdone.2, Ne.symm hclose⟩
      have hall := hstep cs [] ⟨List.not_mem_nil, List.not_mem_nil⟩ hearly
      rwa [List.append_nil] at hall

/-- A word without braces completes nothing; if it does not have the letter `v`, nothing is
completed right behind it either. -/
theorem Guarded.blunt_opened (h : Guarded o) (hsmooth : Smooth cs) (hletter : 'v' ∉ cs) :
    Blunt (opened o cs) := by
  rw [opened_of_smooth hsmooth]
  rintro _ hbody hsuffix
  obtain ⟨start, rfl, rfl⟩ := Option.map_eq_some_iff.mp hbody
  have hin := suffix_append_of_guarded h hsuffix
  exact hletter (hin.subset (by decide))

end DesignTokens.Placeholder
