import DesignTokens.Proofs.Workspace.Tree

/-!
Walks through a tree. What a path means depends on the locations it visits; only these have to be
directories, and only these are made when the directories of a path are.
-/

namespace DesignTokens

theorem proper_of_mem_names {p : Path} {name : String} (h : name ∈ p.names) :
    name ≠ "" ∧ '/' ∉ name.toList := by
  rw [Path.names] at h
  obtain ⟨part, hpart, rfl⟩ := List.mem_map.mp h
  obtain ⟨hsplit, hne⟩ := List.mem_filter.mp hpart
  rw [String.toList_ofList]
  refine ⟨?_, Text.not_mem_of_mem_splitAt hsplit⟩
  intro hempty
  have hpart : part = [] := by simpa using congrArg String.toList hempty
  simp [hpart] at hne

/-- A step is a proper name, or it goes up. -/
theorem proper_of_mem_steps {p : Path} {name : String} (h : name ∈ p.steps) :
    name = ".." ∨ ProperName name := by
  obtain ⟨hname, hne⟩ := List.mem_filter.mp h
  obtain ⟨hempty, hslash⟩ := proper_of_mem_names hname
  by_cases hup : name = ".."
  · exact .inl hup
  · exact .inr ⟨hempty, hslash, by simpa using hne, hup⟩

namespace FileTree

/-- The location one name further. -/
def advance (l : Location) (name : String) : Location :=
  if name = "." then l else if name = ".." then l.dropLast else l ++ [name]

/-- The location that names lead to. -/
def descend (l : Location) (names : List String) : Location :=
  names.foldl advance l

/-- The locations that are left on the way along names. -/
def trail : Location → List String → List Location
  | _, [] => []
  | l, name :: names => l :: trail (advance l name) names

/-- The locations along names, the last one included. -/
def visits (l : Location) (names : List String) : List Location :=
  trail l names ++ [descend l names]

@[simp] theorem visits_nil (l : Location) : visits l [] = [l] := rfl

@[simp] theorem visits_cons (l : Location) (name : String) (names : List String) :
    visits l (name :: names) = l :: visits (advance l name) names := rfl

theorem descend_append (l : Location) (names more : List String) :
    descend l (names ++ more) = descend (descend l names) more :=
  List.foldl_append

theorem descend_concat (l : Location) (names : List String) (name : String) :
    descend l (names ++ [name]) = advance (descend l names) name :=
  descend_append l names [name]

theorem trail_concat (l : Location) (names : List String) (name : String) :
    trail l (names ++ [name]) = visits l names := by
  induction names generalizing l with
  | nil => rfl
  | cons first rest ih => exact congrArg (l :: ·) (ih (advance l first))

theorem visits_concat (l : Location) (names : List String) (name : String) :
    visits l (names ++ [name]) = visits l names ++ [advance (descend l names) name] := by
  rw [visits, trail_concat, descend_concat]

theorem mem_visits_self (l : Location) (names : List String) : l ∈ visits l names := by
  cases names with
  | nil => exact List.mem_singleton_self l
  | cons name names => exact List.mem_cons_self

theorem descend_mem_visits (l : Location) (names : List String) : descend l names ∈ visits l names :=
  List.mem_append_right _ (List.mem_singleton_self _)

theorem advance_of_proper (l : Location) {name : String} (h : ProperName name) :
    advance l name = l ++ [name] := by
  rw [advance, if_neg h.ne_here, if_neg h.ne_up]

theorem descend_of_proper (l : Location) {names : List String}
    (h : ∀ name ∈ names, ProperName name) : descend l names = l ++ names := by
  induction names generalizing l with
  | nil => exact (List.append_nil l).symm
  | cons name names ih =>
      obtain ⟨hname, hnames⟩ := List.forall_mem_cons.mp h
      have hrest := ih (l ++ [name]) hnames
      rw [descend, List.foldl_cons, advance_of_proper l hname, ← descend, hrest, List.append_assoc]
      rfl

/-- All of these locations are directories. -/
def Passable (t : FileTree) (ls : List Location) : Prop :=
  ∀ l ∈ ls, t.lookup l = some .directory

/-- The file at a location. -/
def IsFile (t : FileTree) (l : Location) : Prop :=
  ∃ content modified, t.lookup l = some (.file content modified)

/-- Why locations cannot be entered one after the other. -/
def blockage (t : FileTree) : List Location → Option FileError
  | [] => none
  | l :: ls =>
    match t.lookup l with
    | some .directory => t.blockage ls
    | some (.file ..) => some .notDirectory
    | none => some .notFound

variable {t : FileTree}

theorem blockage_eq_none_iff {ls : List Location} : t.blockage ls = none ↔ t.Passable ls := by
  induction ls with
  | nil => exact ⟨fun _ _ h => absurd h List.not_mem_nil, fun _ => rfl⟩
  | cons l ls ih =>
      rw [blockage, Passable, List.forall_mem_cons, ← Passable, ← ih]
      split
      · rename_i hl
        simp [hl]
      · rename_i hl
        simp [hl]
      · rename_i hl
        simp [hl]

theorem blockage_cons_of_directory {l : Location} (hl : t.lookup l = some .directory)
    (ls : List Location) : t.blockage (l :: ls) = t.blockage ls := by
  rw [blockage, hl]

theorem blockage_congr {u : FileTree} {ls : List Location}
    (h : ∀ l ∈ ls, t.requireDirectory l = u.requireDirectory l) : t.blockage ls = u.blockage ls := by
  have hcons : ∀ (t : FileTree) (l : Location) (ls : List Location), t.blockage (l :: ls) =
      match t.requireDirectory l with
      | .ok () => t.blockage ls
      | .error e => some e := by
    intro t l ls
    rw [blockage, requireDirectory]
    rcases t.lookup l with _ | ⟨_ | _⟩ <;> rfl
  induction ls with
  | nil => rfl
  | cons l ls ih =>
      obtain ⟨hl, hls⟩ := List.forall_mem_cons.mp h
      rw [hcons, hcons, hl, ih hls]

theorem walk_eq (t : FileTree) (l : Location) (names : List String) :
    t.walk l names =
      match t.blockage (trail l names) with
      | none => .ok (descend l names)
      | some e => .error e := by
  induction names generalizing l with
  | nil => rfl
  | cons name names ih =>
      have hnext : t.walk l (name :: names) =
          (t.requireDirectory l >>= fun _ => t.walk (advance l name) names) := by
        rw [walk, advance]
        split
        · rfl
        · split <;> rfl
      rw [hnext, ih, trail, blockage, requireDirectory]
      cases t.lookup l with
      | none => rfl
      | some n => cases n <;> rfl

/-- Dots that stand for the current directory visit nothing new. -/
theorem blockage_visits_filter (l : Location) (names : List String) :
    t.blockage (visits l (names.filter (· ≠ "."))) = t.blockage (visits l names) := by
  induction names generalizing l with
  | nil => rfl
  | cons name names ih =>
      by_cases hdot : name = "."
      · subst hdot
        have hagain : t.blockage (l :: visits l names) = t.blockage (visits l names) := by
          rcases hl : t.lookup l with _ | ⟨_ | _⟩
          · cases names <;> simp [blockage, hl]
          · rw [blockage_cons_of_directory hl]
          · cases names <;> simp [blockage, hl]
        rw [List.filter_cons_of_neg (by simp), ih, visits_cons, advance, if_pos rfl, hagain]
      · rw [List.filter_cons_of_pos (by simpa using hdot), visits_cons, visits_cons, blockage,
          blockage, ih]

theorem visits_subset_filter (l : Location) (names : List String) :
    visits l names ⊆ visits l (names.filter (· ≠ ".")) := by
  induction names generalizing l with
  | nil => exact List.Subset.refl _
  | cons name names ih =>
      by_cases hdot : name = "."
      · subst hdot
        rw [List.filter_cons_of_neg (by simp), visits_cons, advance, if_pos rfl]
        exact List.cons_subset.mpr ⟨mem_visits_self _ _, ih l⟩
      · rw [List.filter_cons_of_pos (by simpa using hdot), visits_cons, visits_cons]
        exact List.cons_subset_cons _ (ih _)

theorem descend_filter (l : Location) (names : List String) :
    descend l (names.filter (· ≠ ".")) = descend l names := by
  induction names generalizing l with
  | nil => rfl
  | cons name names ih =>
      by_cases hdot : name = "."
      · subst hdot
        rw [List.filter_cons_of_neg (by simp), ih]
        rfl
      · rw [List.filter_cons_of_pos (by simpa using hdot), descend, List.foldl_cons, ← descend, ih]
        rfl

end FileTree

namespace Place

open FileTree

variable (w : Place)

/-- The locations that a path visits. -/
@[irreducible] def route (p : Path) : List Location :=
  visits (w.origin p) p.steps

/-- The location that a path means. -/
@[irreducible] def target (p : Path) : Location :=
  descend (w.origin p) p.steps

/-- The locations that the directory above a path visits. -/
@[irreducible] def wayTo (p : Path) : List Location :=
  visits (w.origin p) p.steps.dropLast

variable {v w : Place}

theorem origin_congr (h : w.current = v.current) (p : Path) : w.origin p = v.origin p := by
  rw [origin, origin, h]

theorem route_congr (h : w.current = v.current) (p : Path) : w.route p = v.route p := by
  rw [route, route, origin_congr h]

theorem target_congr (h : w.current = v.current) (p : Path) : w.target p = v.target p := by
  rw [target, target, origin_congr h]

theorem wayTo_congr (h : w.current = v.current) (p : Path) : w.wayTo p = v.wayTo p := by
  rw [wayTo, wayTo, origin_congr h]

@[simp] theorem route_mk (t : FileTree) (w : Place) (p : Path) :
    (⟨t, w.current⟩ : Place).route p = w.route p :=
  route_congr (v := w) (w := ⟨t, w.current⟩) rfl p

@[simp] theorem target_mk (t : FileTree) (w : Place) (p : Path) :
    (⟨t, w.current⟩ : Place).target p = w.target p :=
  target_congr (v := w) (w := ⟨t, w.current⟩) rfl p

@[simp] theorem wayTo_mk (t : FileTree) (w : Place) (p : Path) :
    (⟨t, w.current⟩ : Place).wayTo p = w.wayTo p :=
  wayTo_congr (v := w) (w := ⟨t, w.current⟩) rfl p

theorem descend_mem_wayTo (p : Path) :
    descend (w.origin p) p.steps.dropLast ∈ w.wayTo p := by
  rw [wayTo]
  exact descend_mem_visits _ _

theorem origin_mem_route (p : Path) : w.origin p ∈ w.route p := by
  rw [route]
  exact mem_visits_self _ _

theorem target_mem_route (p : Path) : w.target p ∈ w.route p := by
  rw [route, target]
  exact descend_mem_visits _ _

theorem origin_join (p : Path) {name : String} (hname : ProperName name) :
    w.origin (p.join name) = w.origin p := by
  rw [origin, origin, Path.isAbsolute_join p hname.no_slash]

theorem target_join (p : Path) {name : String} (hname : ProperName name) :
    w.target (p.join name) = w.target p ++ [name] := by
  rw [target, Path.steps_join p hname, origin_join p hname, descend_concat, target,
    advance_of_proper _ hname]

theorem target_join_relative (p : Path) {child : String} (hhead : child.toList.head? ≠ some '/') :
    w.target (p.join child) = descend (w.target p) (Path.steps ⟨child⟩) := by
  rw [target, target, Path.steps_join_relative p hhead, descend_append, origin, origin,
    Path.isAbsolute_join_relative p hhead]

theorem route_join (p : Path) {name : String} (hname : ProperName name) :
    w.route (p.join name) = w.route p ++ [w.target p ++ [name]] := by
  rw [route, Path.steps_join p hname, origin_join p hname, visits_concat, ← route, ← target,
    advance_of_proper _ hname]

theorem wayTo_join (p : Path) {name : String} (hname : ProperName name) :
    w.wayTo (p.join name) = w.route p := by
  rw [wayTo, Path.steps_join p hname, origin_join p hname, List.dropLast_concat, route]

theorem passable_names_iff {t : FileTree} {p : Path} :
    t.Passable (visits (w.origin p) p.names) ↔ t.Passable (w.route p) := by
  rw [← blockage_eq_none_iff, ← blockage_eq_none_iff, route, Path.steps, blockage_visits_filter]

theorem descend_names (p : Path) : descend (w.origin p) p.names = w.target p := by
  rw [target, Path.steps, descend_filter]

theorem requireDirectory_eq_ok_iff {t : FileTree} {l : Location} :
    t.requireDirectory l = .ok () ↔ t.lookup l = some .directory := by
  rw [requireDirectory]
  rcases t.lookup l with _ | ⟨_ | _⟩ <;> simp

theorem locate_eq (p : Path) (hne : p.text ≠ "") :
    w.locate p =
      match w.tree.blockage (trail (w.origin p) p.names) with
      | none =>
        if p.endsInSlash then (w.tree.requireDirectory (w.target p)).map fun _ => w.target p
        else .ok (w.target p)
      | some e => .error e := by
  rw [locate, if_neg (by simpa using hne), walk_eq, descend_names]
  cases w.tree.blockage (trail (w.origin p) p.names) with
  | some e => rfl
  | none =>
      cases p.endsInSlash with
      | false => rfl
      | true =>
          change (w.tree.requireDirectory (w.target p) >>= fun _ => pure (w.target p)) =
            (w.tree.requireDirectory (w.target p)).map fun _ => w.target p
          cases w.tree.requireDirectory (w.target p) <;> rfl

theorem locate_eq_ok_iff {p : Path} {l : Location} :
    w.locate p = .ok l ↔ p.text ≠ "" ∧ w.tree.Passable (trail (w.origin p) p.names) ∧
      (p.endsInSlash → w.tree.lookup (w.target p) = some .directory) ∧ w.target p = l := by
  by_cases hne : p.text = ""
  · simp [locate, hne]
  · rw [locate_eq p hne, ← blockage_eq_none_iff, ← requireDirectory_eq_ok_iff]
    cases w.tree.blockage (trail (w.origin p) p.names) with
    | some e => simp
    | none =>
        cases p.endsInSlash with
        | false => simp [hne]
        | true => cases w.tree.requireDirectory (w.target p) <;> simp [hne, Except.map]

theorem node_eq (w : Place) (p : Path) :
    w.node p =
      match w.locate p with
      | .error e => .error e
      | .ok l =>
        match w.tree.lookup l with
        | some n => .ok n
        | none => .error .notFound := by
  rw [node]
  cases w.locate p <;> rfl

theorem node_eq_ok_iff {p : Path} {n : Node} :
    w.node p = .ok n ↔ w.locate p = .ok (w.target p) ∧ w.tree.lookup (w.target p) = some n := by
  rw [node_eq]
  cases hl : w.locate p with
  | error e => simp
  | ok l =>
      obtain ⟨-, -, -, rfl⟩ := locate_eq_ok_iff.mp hl
      dsimp only
      cases w.tree.lookup (w.target p) <;> simp

/-- Where a path leads to depends on the directories along it. -/
theorem locate_congr {p : Path} (hcurrent : w.current = v.current)
    (h : ∀ l ∈ w.route p, w.tree.requireDirectory l = v.tree.requireDirectory l) :
    w.locate p = v.locate p := by
  have hway : w.tree.blockage (trail (w.origin p) p.names) =
      v.tree.blockage (trail (w.origin p) p.names) := by
    refine blockage_congr fun l hl => h l ?_
    rw [route, Path.steps]
    exact visits_subset_filter _ _ (List.mem_append_left _ hl)
  by_cases htext : p.text = ""
  · rw [locate, locate, if_pos (by simpa using htext), if_pos (by simpa using htext)]
  · rw [locate_eq p htext, locate_eq p htext, hway, h _ (target_mem_route p),
      origin_congr hcurrent, target_congr hcurrent]

/-- What is found at a path depends on the way to it. -/
theorem node_congr {p : Path} (hcurrent : w.current = v.current)
    (h : ∀ l ∈ w.route p, w.tree.lookup l = v.tree.lookup l) : w.node p = v.node p := by
  have hlocate : w.locate p = v.locate p := by
    refine locate_congr hcurrent fun l hl => ?_
    rw [requireDirectory, requireDirectory, h l hl]
  rw [node_eq, node_eq, ← hlocate]
  cases hl : w.locate p with
  | error e => rfl
  | ok l =>
      obtain ⟨-, -, -, rfl⟩ := locate_eq_ok_iff.mp hl
      dsimp only
      rw [h _ (target_mem_route p)]

theorem read_eq_ok_iff {p : Path} {content : ByteArray} :
    w.read p = .ok content ↔ ∃ modified, w.node p = .ok (.file content modified) := by
  rw [read]
  rcases w.node p with e | ⟨_ | ⟨content', modified⟩⟩
  · exact ⟨nofun, fun ⟨_, h⟩ => absurd h nofun⟩
  · exact ⟨nofun, fun ⟨_, h⟩ => absurd h nofun⟩
  · constructor
    · intro h
      obtain rfl : content' = content := Except.ok.inj h
      exact ⟨modified, rfl⟩
    · rintro ⟨_, ⟨⟩⟩
      rfl

theorem readText_eq (w : Place) (p : Path) :
    w.readText p =
      match w.node p with
      | .error e => .error e
      | .ok .directory => .error .isDirectory
      | .ok (.file content _) =>
        match String.fromUTF8? content with
        | some text => .ok text
        | none => .error .notText := by
  rw [readText, read]
  rcases w.node p with _ | ⟨_ | _⟩ <;> rfl

theorem readText_congr {p : Path} (h : w.node p = v.node p) : w.readText p = v.readText p := by
  rw [readText_eq, readText_eq, h]

theorem readText_of_node {p : Path} {text : String} {modified : Nat}
    (h : w.node p = .ok (.file text.toUTF8 modified)) : w.readText p = .ok text := by
  have htext : String.fromUTF8? text.toUTF8 = some text := by
    rw [String.fromUTF8?, dif_pos]
    rfl
  rw [readText_eq, h]
  dsimp only
  rw [htext]

/-- A text that is read is that of the file which the path means. -/
theorem exists_of_readText {p : Path} {text : String} (h : w.readText p = .ok text) :
    ∃ content modified, w.tree.lookup (w.target p) = some (.file content modified) ∧
      String.fromUTF8? content = some text := by
  rw [readText_eq] at h
  rcases hnode : w.node p with e | ⟨_ | ⟨content, modified⟩⟩
  · rw [hnode] at h
    cases h
  · rw [hnode] at h
    cases h
  · rw [hnode] at h
    refine ⟨content, modified, (node_eq_ok_iff.mp hnode).2, ?_⟩
    cases htext : String.fromUTF8? content with
    | none =>
        simp only [htext] at h
        cases h
    | some found =>
        simp only [htext] at h
        rw [Except.ok.inj h]

theorem isDirectory_iff_node {p : Path} : w.isDirectory p ↔ w.node p = .ok .directory := by
  rw [isDirectory]
  cases w.node p with
  | error e => simp
  | ok n => cases n <;> simp

theorem locate_of_isDirectory {p : Path} (h : w.isDirectory p) :
    w.locate p = .ok (w.target p) :=
  (node_eq_ok_iff.mp (isDirectory_iff_node.mp h)).1

theorem isDirectory_iff {p : Path} :
    w.isDirectory p ↔ p.text ≠ "" ∧ w.tree.Passable (w.route p) := by
  rw [isDirectory_iff_node, node_eq_ok_iff, locate_eq_ok_iff, ← passable_names_iff, visits, Passable, Passable,
    List.forall_mem_append, List.forall_mem_singleton, descend_names]
  constructor
  · rintro ⟨⟨hne, htrail, -, -⟩, hl⟩
    exact ⟨hne, htrail, hl⟩
  · rintro ⟨hne, htrail, hl⟩
    exact ⟨⟨hne, htrail, fun _ => hl, rfl⟩, hl⟩

/-- Reading the name in a directory: the way there has to be made of directories. -/
theorem node_join_eq_ok_iff {p : Path} {name : String} (hname : ProperName name) {n : Node} :
    w.node (p.join name) = .ok n ↔
      w.tree.Passable (w.route p) ∧ w.tree.lookup (w.target p ++ [name]) = some n := by
  rw [node_eq_ok_iff, locate_eq_ok_iff, Path.names_join p hname.ne_empty hname.no_slash,
    trail_concat, origin_join p hname, passable_names_iff, target_join p hname,
    Path.endsInSlash_join p hname.ne_empty hname.no_slash]
  simp [Path.join_ne_empty p hname.ne_empty hname.no_slash]

end Place

/-- The path of something below a directory. -/
def Path.joinAll (p : Path) (names : List String) : Path :=
  names.foldl Path.join p

theorem Path.joinAll_concat (p : Path) (names : List String) (name : String) :
    p.joinAll (names ++ [name]) = (p.joinAll names).join name :=
  List.foldl_concat _ _ _ _

namespace Place

open FileTree

variable {w v : Place} {names : List String}

theorem target_joinAll (p : Path) (hnames : ∀ name ∈ names, ProperName name) :
    w.target (p.joinAll names) = w.target p ++ names := by
  induction names using List.reverseRecOn with
  | nil => rw [List.append_nil]; rfl
  | append_singleton names name ih =>
      rw [List.forall_mem_append, List.forall_mem_singleton] at hnames
      rw [Path.joinAll_concat, target_join _ hnames.2, ih hnames.1, List.append_assoc]

theorem origin_joinAll (p : Path) (hnames : ∀ name ∈ names, ProperName name) :
    w.origin (p.joinAll names) = w.origin p := by
  induction names using List.reverseRecOn with
  | nil => rfl
  | append_singleton names name ih =>
      rw [List.forall_mem_append, List.forall_mem_singleton] at hnames
      rw [Path.joinAll_concat, origin_join _ hnames.2, ih hnames.1]

/-- The way to something below a directory goes through the directory. -/
theorem route_joinAll (p : Path) (hnames : ∀ name ∈ names, ProperName name) :
    ∃ more, w.route (p.joinAll names) = w.route p ++ more ∧
      ∀ l ∈ more, ∃ front, front ≠ [] ∧ front <+: names ∧ l = w.target p ++ front := by
  induction names using List.reverseRecOn with
  | nil => exact ⟨[], (List.append_nil _).symm, fun l hl => absurd hl List.not_mem_nil⟩
  | append_singleton names name ih =>
      rw [List.forall_mem_append, List.forall_mem_singleton] at hnames
      obtain ⟨more, hroute, hmore⟩ := ih hnames.1
      refine ⟨more ++ [w.target p ++ (names ++ [name])], ?_, ?_⟩
      · rw [Path.joinAll_concat, route_join _ hnames.2, hroute, target_joinAll p hnames.1,
          List.append_assoc, List.append_assoc]
      · intro l hl
        rcases List.mem_append.mp hl with hl | hl
        · obtain ⟨front, hne, hfront, rfl⟩ := hmore l hl
          exact ⟨front, hne, hfront.trans (List.prefix_append _ _), rfl⟩
        · exact ⟨names ++ [name], List.append_ne_nil_of_right_ne_nil _ (List.cons_ne_nil _ _),
            List.prefix_rfl, List.mem_singleton.mp hl⟩

end Place

end DesignTokens
