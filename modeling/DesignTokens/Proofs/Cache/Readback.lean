import DesignTokens.Cache.File
import DesignTokens.Proofs.Json.Readback
import DesignTokens.Proofs.Keyed

/-!
A cache file holds what the store held that wrote it: reading its text gives the same entries, and
whatever is read has the form of such entries.
-/

namespace DesignTokens

namespace CacheFile

open Json

theorem nextKey_end (first : Bool) {blank : List Char} (h : ∀ c ∈ blank, isSpace c = true)
    (rest : List Char) :
    nextKey first (blank ++ '\x7d' :: rest) = .ok (none, '\x7d' :: rest) := by
  rw [nextKey, skipSpace_blank h, skipSpace_cons rfl]
  rfl

theorem nextKey_quote (first : Bool) {blank : List Char} (h : ∀ c ∈ blank, isSpace c = true)
    (key : String) (rest : List Char) :
    nextKey first ((if first then [] else [',']) ++ (blank ++ ((quote key).toList ++ rest))) =
      .ok (some key, rest) := by
  obtain ⟨cs, hquote, hread⟩ := string_quote key rest
  have hspace : skipSpace (blank ++ '"' :: cs) = '"' :: cs := by
    rw [skipSpace_blank h, skipSpace_cons rfl]
  rw [hquote]
  cases first with
  | true =>
      rw [if_pos rfl, List.nil_append, nextKey, hspace]
      change (string cs).map (fun r => (some r.1, r.2)) = _
      rw [hread]
      rfl
  | false =>
      rw [if_neg Bool.false_ne_true, List.singleton_append]
      simp [nextKey, skipSpace_cons, isSpace, hspace, hread, Except.map]

theorem colon_cons (rest : List Char) : colon (':' :: rest) = .ok rest := by
  rw [colon, skipSpace_cons rfl]
  rfl

theorem nextKey_membersText (depth : Nat) (first : Bool) (m : String × String)
    (members : List (String × String)) (rest : List Char) :
    ∃ behind, nextKey first (membersText depth first (m :: members) ++ rest) =
        .ok (some m.1, behind) ∧
      colon behind = .ok (' ' :: m.2.toList ++ (membersText depth false members ++ rest)) := by
  obtain ⟨key, text⟩ := m
  refine ⟨_, ?_, colon_cons _⟩
  rw [membersText, List.append_assoc, List.append_assoc, List.append_assoc,
    nextKey_quote first (isSpace_lineStart (depth + 1))]
  simp

theorem nextKey_membersText_nil (depth : Nat) (first : Bool) (rest : List Char) :
    nextKey first (membersText depth first [] ++ rest) = .ok (none, '\x7d' :: rest) := by
  rw [membersText, List.append_assoc]
  exact nextKey_end first (isSpace_lineStart depth) rest

section Members

variable {α β : Type} {read : List Char → Reading α} {written : β → String} {value : β → α}

theorem mapMembers_of_key {first : Bool} {cs behind text rest : List Char} {key : String} {a : α}
    (hkey : nextKey first cs = .ok (some key, behind)) (hcolon : colon behind = .ok text)
    (hread : read text = .ok (a, rest)) (steps : Nat) (done : List (String × α)) :
    mapMembers read (steps + 1) first done cs =
      mapMembers read steps false (Keyed.putSorted key a done) rest := by
  simp only [mapMembers, hkey, hcolon, hread, bind, Except.bind]

/-- The members of an object are read back if each value is. -/
theorem mapMembers_membersText (depth : Nat) {entries : List (String × β)}
    (hread : ∀ entry ∈ entries, ∀ rest, Ended rest →
      read (' ' :: (written entry.2).toList ++ rest) = .ok (value entry.2, rest))
    (first : Bool) (done : List (String × α)) {steps : Nat} (hsteps : entries.length < steps)
    (rest : List Char) :
    mapMembers read steps first done
        (membersText depth first (entries.map fun e => (e.1, written e.2)) ++ rest) =
      .ok ((entries.map (Prod.map id value)).foldl
        (fun acc entry => Keyed.putSorted entry.1 entry.2 acc) done, rest) := by
  obtain ⟨steps, rfl⟩ := Nat.exists_eq_add_one_of_ne_zero (Nat.ne_zero_of_lt hsteps)
  induction entries generalizing first done steps with
  | nil =>
      rw [mapMembers, List.map_nil, nextKey_membersText_nil]
      rfl
  | cons entry entries ih =>
      obtain ⟨hentry, hentries⟩ := List.forall_mem_cons.mp hread
      rw [List.length_cons, Nat.add_lt_add_iff_right] at hsteps
      obtain ⟨steps, rfl⟩ := Nat.exists_eq_add_one_of_ne_zero (Nat.ne_zero_of_lt hsteps)
      obtain ⟨behind, hkey, hcolon⟩ := nextKey_membersText depth first
        (entry.1, written entry.2) (entries.map fun e => (e.1, written e.2)) rest
      rw [List.map_cons, mapMembers_of_key hkey hcolon
        (hentry _ (ended_membersText depth _ rest))]
      exact ih hentries false _ steps hsteps

theorem length_le_membersText (depth : Nat) (first : Bool) (members : List (String × String)) :
    members.length ≤ (membersText depth first members).length := by
  induction members generalizing first with
  | nil => exact Nat.zero_le _
  | cons m members ih =>
      have hrest := ih false
      rw [membersText]
      simp only [List.length_append, List.length_cons]
      omega

/-- An object of values that are read back is read back. -/
theorem mapOf_indentedObject (depth : Nat) {entries : List (String × β)}
    (hread : ∀ entry ∈ entries, ∀ rest, Ended rest →
      read (' ' :: (written entry.2).toList ++ rest) = .ok (value entry.2, rest))
    (hascending : Keyed.Ascending entries) {blank : List Char}
    (hblank : ∀ c ∈ blank, isSpace c = true) (rest : List Char) :
    mapOf read (blank ++ ((indentedObject depth (entries.map fun e => (e.1, written e.2))).toList ++
      rest)) = .ok (entries.map (Prod.map id value), rest) := by
  have hvalues : Keyed.Ascending (entries.map (Prod.map id value)) := by
    rw [Keyed.Ascending, Keyed.keys, List.map_map]
    exact hascending
  rw [← hvalues.sortedOf]
  cases entries with
  | nil =>
      rw [mapOf, skipSpace_blank hblank, List.map_nil, toList_indentedObject_nil]
      rfl
  | cons entry entries =>
      have hlength : (entry :: entries).length < (membersText depth true
          ((entry :: entries).map fun e => (e.1, written e.2)) ++ rest).length + 1 := by
        have hmembers := length_le_membersText depth true
          ((entry :: entries).map fun e => (e.1, written e.2))
        rw [List.length_map] at hmembers
        rw [List.length_append]
        omega
      rw [mapOf, skipSpace_blank hblank, List.map_cons, toList_indentedObject_cons,
        List.cons_append, skipSpace_cons rfl]
      exact mapMembers_membersText depth hread true [] hlength rest

end Members

/-- A text is read back. -/
theorem text_quote (s : String) (rest : List Char) :
    text (' ' :: (quote s).toList ++ rest) = .ok (s, rest) := by
  obtain ⟨cs, hquote, hread⟩ := string_quote s rest
  have hspace : skipSpace (' ' :: '"' :: cs) = '"' :: cs := rfl
  rw [text, List.cons_append, hquote, hspace]
  exact hread

/-- A timestamp of 64 bits is read back. -/
theorem timestamp_repr {n : Nat} (hn : n < 2 ^ 64) {rest : List Char} (hrest : Ended rest) :
    timestamp (' ' :: n.repr.toList ++ rest) = .ok (n, rest) := by
  have hread := number_repr hn hrest
  have hdigits : ∀ c ∈ n.repr.toList, c.isDigit = true := by
    rw [Nat.toList_repr]
    exact fun c hc => Nat.isDigit_of_mem_toDigits (by decide) (by decide) hc
  cases hcs : n.repr.toList with
  | nil => exact absurd (Nat.toList_repr ▸ hcs) Nat.toDigits_ne_nil
  | cons c cs =>
      rw [hcs] at hread hdigits
      have hc := hdigits c List.mem_cons_self
      have hspace : skipSpace (' ' :: c :: (cs ++ rest)) = c :: (cs ++ rest) := by
        rw [← List.singleton_append, skipSpace_blank (List.forall_mem_singleton.mpr rfl),
          skipSpace_cons]
        rw [isSpace]
        simp only [Bool.or_eq_false_iff, decide_eq_false_iff_not]
        refine ⟨⟨⟨?_, ?_⟩, ?_⟩, ?_⟩
        all_goals
          rintro rfl
          exact Bool.noConfusion hc
      rw [timestamp, List.cons_append, List.cons_append, hspace]
      split
      · rename_i h
        cases h
      · rename_i h
        rw [(List.cons.inj h).1] at hc
        exact Bool.noConfusion hc
      · rename_i h
        obtain ⟨rfl, rfl⟩ := List.cons.inj h
        rw [List.cons_append] at hread
        simp [Text.digit?_of_isDigit hc, hread]

/-- Hashes are read back. -/
theorem hashes_indentedObject {h : Fingerprint} (hascending : Keyed.Ascending h) (depth : Nat)
    (rest : List Char) :
    hashes (' ' :: (indentedObject depth (h.map fun e => (e.1, quote e.2))).toList ++ rest) =
      .ok (h, rest) := by
  have hvalues : h.map (Prod.map id id) = h := by
    rw [Prod.map_id, List.map_id]
  have hblank : ∀ c ∈ [' '], isSpace c = true := List.forall_mem_singleton.mpr rfl
  conv_rhs => rw [← hvalues]
  exact mapOf_indentedObject depth (fun entry _ rest _ => text_quote entry.2 rest) hascending
    hblank rest

theorem fieldsOf_timestamp {first : Bool} {done : Fields} {cs behind value rest : List Char}
    {t : Nat} (hkey : nextKey first cs = .ok (some "timestamp", behind))
    (hcolon : colon behind = .ok value) (hread : timestamp value = .ok (t, rest))
    (hdone : done.timestamp = none) (steps : Nat) :
    fieldsOf (steps + 1) first done cs =
      fieldsOf steps false { done with timestamp := some t } rest := by
  simp [fieldsOf, hkey, hcolon, hread, hdone, bind, Except.bind]

theorem fieldsOf_files {first : Bool} {done : Fields} {cs behind value rest : List Char}
    {h : Fingerprint} (hkey : nextKey first cs = .ok (some "files", behind))
    (hcolon : colon behind = .ok value) (hread : hashes value = .ok (h, rest))
    (hdone : done.hashes = none) (steps : Nat) :
    fieldsOf (steps + 1) first done cs =
      fieldsOf steps false { done with hashes := some h } rest := by
  simp [fieldsOf, hkey, hcolon, hread, hdone, bind, Except.bind]

theorem fieldsOf_end {first : Bool} {done : Fields} {cs rest : List Char} {e : Nat × Fingerprint}
    (hkey : nextKey first cs = .ok (none, '\x7d' :: rest)) (hdone : done.complete = .ok e)
    (steps : Nat) : fieldsOf (steps + 1) first done cs = .ok (e, rest) := by
  simp [fieldsOf, hkey, hdone, bind, Except.bind, pure, Except.pure]

end CacheFile

/-- An entry that a cache file can hold: the timestamp has 64 bits, and no path stands twice. -/
structure CacheEntry.Storable (e : CacheEntry) : Prop where
  timestamp : e.timestamp < 2 ^ 64
  ascending : Keyed.Ascending e.hashes

namespace CacheFile

open Json CacheStore

/-- An entry is read back. -/
theorem entry_entryText {e : CacheEntry} (he : e.Storable) {rest : List Char} :
    entry (' ' :: (entryText e).toList ++ rest) = .ok ((e.timestamp, e.hashes), rest) := by
  have hopen : ∀ cs, entry (' ' :: '\x7b' :: cs) = fieldsOf (cs.length + 1) true ⟨none, none⟩ cs :=
    fun _ => rfl
  obtain ⟨behind, hkey, hcolon⟩ := nextKey_membersText 1 true ("timestamp", e.timestamp.repr)
    [("files", indentedObject 2 (e.hashes.map fun h => (h.1, quote h.2)))] rest
  obtain ⟨behind', hkey', hcolon'⟩ := nextKey_membersText 1 false
    ("files", indentedObject 2 (e.hashes.map fun h => (h.1, quote h.2))) [] rest
  have hend := nextKey_membersText_nil 1 false rest
  have hlength : 2 ≤ (membersText 1 true [("timestamp", e.timestamp.repr),
      ("files", indentedObject 2 (e.hashes.map fun h => (h.1, quote h.2)))] ++ rest).length := by
    have hmembers := length_le_membersText 1 true [("timestamp", e.timestamp.repr),
      ("files", indentedObject 2 (e.hashes.map fun h => (h.1, quote h.2)))]
    rw [List.length_append]
    exact le_trans hmembers (Nat.le_add_right _ _)
  obtain ⟨steps, hsteps⟩ := Nat.exists_eq_add_of_le' hlength
  rw [entryText, toList_indentedObject_cons, List.cons_append, List.cons_append, hopen, hsteps,
    fieldsOf_timestamp hkey hcolon (timestamp_repr he.timestamp (ended_membersText 1 _ rest)) rfl,
    fieldsOf_files hkey' hcolon' (hashes_indentedObject he.ascending 2 _) rfl,
    fieldsOf_end hend rfl]

end CacheFile

/-- The entries of a store as they can be filed: in ascending order, each under its own layer. -/
structure CacheStore.Filed (entries : List (String × CacheEntry)) : Prop where
  ascending : Keyed.Ascending entries
  named : ∀ e ∈ entries, e.2.layer = e.1
  storable : ∀ e ∈ entries, e.2.Storable

namespace CacheStore.Filed

variable {found : List (String × CacheEntry)}

theorem nil : Filed [] :=
  ⟨.nil, fun _ h => absurd h List.not_mem_nil, fun _ h => absurd h List.not_mem_nil⟩

theorem replace (h : Filed found) {e : CacheEntry} (he : e.Storable) :
    Filed (Keyed.putSorted e.layer e found) := by
  refine ⟨h.ascending.putSorted, ?_, ?_⟩
  · intro other hother
    rcases Keyed.mem_of_mem_putSorted hother with rfl | hother
    · rfl
    · exact h.named other hother
  · intro other hother
    rcases Keyed.mem_of_mem_putSorted hother with rfl | hother
    · exact he
    · exact h.storable other hother

theorem remove (h : Filed found) (layer : String) : Filed (Keyed.erase layer found) := by
  have hsub := fun e (he : e ∈ Keyed.erase layer found) => Keyed.mem_of_mem_erase he
  exact ⟨h.ascending.erase, fun e he => h.named e (hsub e he), fun e he => h.storable e (hsub e he)⟩

end CacheStore.Filed

namespace CacheFile

open Json CacheStore

/-- Reading the text of a store gives its entries. -/
theorem parse_text {s : CacheStore} (h : Filed s.entries) : parse s.text = .ok s.entries := by
  have hread : mapOf entry ([] ++ ((indentedObject 0
      (s.entries.map fun e => (e.1, entryText e.2))).toList ++ [])) =
      .ok (s.entries.map (Prod.map id fun e : CacheEntry => (e.timestamp, e.hashes)), []) :=
    mapOf_indentedObject 0 (fun e he _ _ => entry_entryText (h.storable e he)) h.ascending
      (fun c hc => absurd hc List.not_mem_nil) []
  rw [List.nil_append, List.append_nil] at hread
  have hback : (s.entries.map (Prod.map id fun e : CacheEntry => (e.timestamp, e.hashes))).map
      (fun e => (e.1, (⟨e.1, e.2.1, e.2.2⟩ : CacheEntry))) = s.entries := by
    rw [List.map_map]
    refine (List.map_congr_left fun e he => ?_).trans (List.map_id _)
    exact Prod.ext rfl (congrArg (fun layer => (⟨layer, e.2.timestamp, e.2.hashes⟩ : CacheEntry))
      (h.named e he).symm)
  have hentries : CacheFile.entries s.text.toList = .ok s.entries := by
    rw [CacheFile.entries, CacheStore.text, hread]
    exact congrArg Except.ok hback
  rw [parse, hentries]
  rfl

theorem timestamp_lt {cs rest : List Char} {t : Nat} (h : timestamp cs = .ok (t, rest)) :
    t < 2 ^ 64 := by
  have hnat : ∀ {negative digits n after} {fault : Fault},
      Json.number negative digits = .ok (.integer n, after) →
      (if 0 ≤ n then .ok (n.toNat, after) else .error fault : Reading Nat) = .ok (t, rest) →
      t < 2 ^ 64 := by
    intro negative digits n after fault hn h
    have hlt := number_lt hn
    split at h
    · cases h
      omega
    · cases h
  rw [timestamp.eq_def] at h
  dsimp only at h
  split at h
  · cases h
  · split at h
    · cases h
    · rename_i hn
      exact hnat hn h
    · cases h
  · split at h
    · split at h
      · cases h
      · rename_i hn
        exact hnat hn h
      · cases h
    · cases h

theorem bind_eq_ok {ε α β : Type} {x : Except ε α} {f : α → Except ε β} {b : β} :
    x >>= f = .ok b ↔ ∃ a, x = .ok a ∧ f a = .ok b := by
  cases x with
  | error e => exact ⟨nofun, fun ⟨_, h, _⟩ => absurd h nofun⟩
  | ok a => exact ⟨fun h => ⟨a, rfl, h⟩, fun ⟨_, ha, h⟩ => Except.ok.inj ha ▸ h⟩

/-- The keys of an object that is read are in order, and its values are values that were read. -/
theorem mapMembers_found {α : Type} {read : List Char → Reading α} {P : α → Prop}
    (hread : ∀ cs a rest, read cs = .ok (a, rest) → P a) {steps : Nat} {first : Bool}
    {done found : List (String × α)} {cs rest : List Char}
    (h : mapMembers read steps first done cs = .ok (found, rest))
    (hascending : Keyed.Ascending done) (hdone : ∀ e ∈ done, P e.2) :
    Keyed.Ascending found ∧ ∀ e ∈ found, P e.2 := by
  induction steps generalizing first done cs with
  | zero => cases h
  | succ steps ih =>
      obtain ⟨⟨_ | key, behind⟩, -, h⟩ := bind_eq_ok.mp h
      · cases h
        exact ⟨hascending, hdone⟩
      · obtain ⟨value, -, h⟩ := bind_eq_ok.mp h
        obtain ⟨⟨a, after⟩, hvalue, h⟩ := bind_eq_ok.mp h
        refine ih h hascending.putSorted ?_
        intro e he
        rcases Keyed.mem_of_mem_putSorted he with rfl | he
        · exact hread _ _ _ hvalue
        · exact hdone e he

theorem mapOf_found {α : Type} {read : List Char → Reading α} {P : α → Prop}
    (hread : ∀ cs a rest, read cs = .ok (a, rest) → P a) {found : List (String × α)}
    {cs rest : List Char} (h : mapOf read cs = .ok (found, rest)) :
    Keyed.Ascending found ∧ ∀ e ∈ found, P e.2 := by
  rw [mapOf.eq_def] at h
  split at h
  · cases h
  · exact mapMembers_found hread h .nil fun _ he => absurd he List.not_mem_nil
  · cases h

theorem hashes_ascending {cs rest : List Char} {h : Fingerprint}
    (hread : hashes cs = .ok (h, rest)) : Keyed.Ascending h :=
  (mapOf_found (P := fun _ => True) (fun _ _ _ _ => trivial) hread).1

/-- The fields that were read so far can be stored. -/
def Fields.Sound (f : Fields) : Prop :=
  (∀ t ∈ f.timestamp, t < 2 ^ 64) ∧ ∀ h ∈ f.hashes, Keyed.Ascending h

theorem Fields.Sound.complete {f : Fields} (hf : f.Sound) {e : Nat × Fingerprint}
    (h : f.complete = .ok e) : e.1 < 2 ^ 64 ∧ Keyed.Ascending e.2 := by
  obtain ⟨_ | t, _ | h'⟩ := f
  · cases h
  · cases h
  · cases h
  · cases h
    exact ⟨hf.1 t rfl, hf.2 h' rfl⟩

theorem fieldsOf_found {steps : Nat} {first : Bool} {done : Fields} {e : Nat × Fingerprint}
    {cs rest : List Char} (h : fieldsOf steps first done cs = .ok (e, rest)) (hdone : done.Sound) :
    e.1 < 2 ^ 64 ∧ Keyed.Ascending e.2 := by
  induction steps generalizing first done cs with
  | zero => cases h
  | succ steps ih =>
      obtain ⟨⟨key, behind⟩, -, h⟩ := bind_eq_ok.mp h
      dsimp only at h
      split at h
      · rename_i heq
        obtain ⟨rfl, rfl⟩ := Prod.mk.inj heq
        split at h
        · rename_i hcomplete
          cases h
          exact hdone.complete hcomplete
        · cases h
      · split at h
        · cases h
        · obtain ⟨value, -, h⟩ := bind_eq_ok.mp h
          obtain ⟨⟨t, after⟩, hvalue, h⟩ := bind_eq_ok.mp h
          refine ih h ⟨?_, hdone.2⟩
          rintro _ ⟨⟩
          exact timestamp_lt hvalue
      · split at h
        · cases h
        · obtain ⟨value, -, h⟩ := bind_eq_ok.mp h
          obtain ⟨⟨t, after⟩, hvalue, h⟩ := bind_eq_ok.mp h
          refine ih h ⟨hdone.1, ?_⟩
          rintro _ ⟨⟩
          exact hashes_ascending hvalue
      · obtain ⟨value, -, h⟩ := bind_eq_ok.mp h
        obtain ⟨after, -, h⟩ := bind_eq_ok.mp h
        exact ih h hdone

theorem entry_found {cs rest : List Char} {e : Nat × Fingerprint}
    (h : entry cs = .ok (e, rest)) : e.1 < 2 ^ 64 ∧ Keyed.Ascending e.2 := by
  rw [entry.eq_def] at h
  split at h
  · cases h
  · refine fieldsOf_found h ⟨?_, ?_⟩
    · rintro _ ⟨⟩
    · rintro _ ⟨⟩
  · obtain ⟨⟨_ | _, after⟩, -, h⟩ := bind_eq_ok.mp h
    · cases h
    · obtain ⟨⟨t, between⟩, ht, h⟩ := bind_eq_ok.mp h
      obtain ⟨⟨_ | _, behind⟩, -, h⟩ := bind_eq_ok.mp h
      · cases h
      · obtain ⟨⟨found, last⟩, hfound, h⟩ := bind_eq_ok.mp h
        obtain ⟨_, -, h⟩ := bind_eq_ok.mp h
        cases h
        exact ⟨timestamp_lt ht, hashes_ascending hfound⟩
  · cases h

/-- Whatever text is read as a cache file, its entries can be filed. -/
theorem filed_of_parse {text : String} {found : List (String × CacheEntry)}
    (h : parse text = .ok found) : Filed found := by
  rw [parse] at h
  cases hentries : CacheFile.entries text.toList with
  | error fault =>
      rw [hentries] at h
      cases h
  | ok found' =>
      rw [hentries] at h
      obtain rfl : found' = found := Except.ok.inj h
      obtain ⟨⟨bare, rest⟩, hbare, h⟩ := bind_eq_ok.mp hentries
      obtain ⟨_, -, h⟩ := bind_eq_ok.mp h
      obtain ⟨hascending, hvalues⟩ := mapOf_found (fun _ _ _ => entry_found) hbare
      obtain rfl := Except.ok.inj h
      refine ⟨?_, ?_, ?_⟩
      · rw [Keyed.Ascending, Keyed.keys, List.map_map]
        exact hascending
      · intro e he
        obtain ⟨b, -, rfl⟩ := List.mem_map.mp he
        rfl
      · intro e he
        obtain ⟨b, hb, rfl⟩ := List.mem_map.mp he
        exact ⟨(hvalues b hb).1, (hvalues b hb).2⟩

end CacheFile

end DesignTokens
