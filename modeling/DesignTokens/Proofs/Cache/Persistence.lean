import DesignTokens.Proofs.Cache.Readback
import DesignTokens.Proofs.Workspace.Operations

/-!
A store is kept in its file: whatever is done with it, loading it again gives it as it was last
flushed.
-/

namespace DesignTokens

open FileTree

namespace CacheStore

theorem load?_of_node {w : Place} {p : Path} {s : CacheStore} {modified : Nat}
    (hpath : s.path = some p) (hfiled : Filed s.entries)
    (hnode : w.node p = .ok (.file s.text.toUTF8 modified)) : load? w p = .ok s := by
  have hexists : w.pathExists p = true := by
    rw [Place.pathExists, hnode]
    rfl
  rw [load?, if_pos hexists, Place.readText_of_node hnode]
  dsimp only
  rw [CacheFile.parse_text hfiled, ← hpath]

theorem filed_load (w : Place) (p : Path) : Filed (load w p).entries := by
  have hload : ∀ s, load? w p = .ok s → Filed s.entries := by
    intro s hs
    rw [load?] at hs
    split at hs
    · split at hs
      · cases hs
      · split at hs
        · cases hs
        · rename_i hparse
          cases hs
          exact CacheFile.filed_of_parse hparse
    · cases hs
      exact .nil
  rw [load]
  split
  · rename_i hs
    exact hload _ hs
  · exact .nil

theorem path_load (w : Place) (p : Path) : (load w p).path = some p := by
  rw [load, load?]
  split
  · rename_i s hs
    split at hs
    · split at hs
      · cases hs
      · split at hs
        · cases hs
        · cases hs
          rfl
    · cases hs
      rfl
  · rfl

/-- What can be done with a store. -/
inductive Operation where
  | replace (entry : CacheEntry)
  | remove (layer : String)
  | flush

/-- A store in use, the files around it, and the store as it was when it was last flushed without
an error. -/
structure Session where
  store : CacheStore
  workspace : Workspace
  flushed : Option CacheStore

namespace Session

/-- A store that was just loaded from a file. -/
def start (p : Path) (w : Workspace) : Session :=
  ⟨load w.place p, w, none⟩

def step (s : Session) : Operation → Session
  | .replace entry => { s with store := s.store.replace entry }
  | .remove layer => { s with store := s.store.remove layer }
  | .flush =>
    let (result, after) := Job.exec s.store.flush s.workspace
    ⟨s.store, after, if result.isOk then some s.store else s.flushed⟩

def run (s : Session) (operations : List Operation) : Session :=
  operations.foldl step s

/-- The store has a file and can be filed, and the file holds the store that was last flushed. -/
structure Kept (p : Path) (s : Session) : Prop where
  path : s.store.path = some p
  filed : Filed s.store.entries
  file : ∀ kept ∈ s.flushed, kept.path = some p ∧ Filed kept.entries ∧
    ∃ modified, s.workspace.place.node p = .ok (.file kept.text.toUTF8 modified)

variable {p : Path} {s : Session}

theorem kept_start (p : Path) (w : Workspace) : Kept p (start p w) :=
  ⟨path_load w.place p, filed_load w.place p, fun _ h => absurd h nofun⟩

theorem Kept.flush (h : Kept p s) : Kept p (s.step .flush) := by
  have hflush : s.store.flush = Job.writeText (fun _ => .file p) (.file p) p s.store.text := by
    rw [CacheStore.flush, h.path]
  have hcases := Job.exec_writeText_cases (fun _ => CacheError.file p) (.file p) p s.store.text
    s.workspace
  rw [← hflush] at hcases
  rcases hcases with ⟨modified, hdone, hfile⟩ | ⟨e, hfailed, hsame⟩
  · refine ⟨h.path, h.filed, ?_⟩
    rw [step]
    dsimp only
    rw [hdone]
    rintro _ ⟨⟩
    exact ⟨h.path, h.filed, modified, hfile⟩
  · refine ⟨h.path, h.filed, ?_⟩
    rw [step]
    dsimp only
    rw [hfailed]
    intro kept hkept
    obtain ⟨hpath, hfiled, modified, hnode⟩ := h.file kept hkept
    exact ⟨hpath, hfiled, modified, hsame p _ hnode⟩

theorem Kept.step (h : Kept p s) {operation : Operation}
    (hstorable : ∀ entry, operation = .replace entry → entry.Storable) :
    Kept p (s.step operation) := by
  cases operation with
  | replace entry => exact ⟨h.path, h.filed.replace (hstorable entry rfl), h.file⟩
  | remove layer => exact ⟨h.path, h.filed.remove layer, h.file⟩
  | flush => exact h.flush

theorem Kept.run (h : Kept p s) {operations : List Operation}
    (hstorable : ∀ entry, .replace entry ∈ operations → entry.Storable) :
    Kept p (s.run operations) := by
  induction operations generalizing s with
  | nil => exact h
  | cons operation operations ih =>
      refine ih (h.step ?_) fun entry hentry => hstorable entry (List.mem_cons_of_mem _ hentry)
      rintro entry rfl
      exact hstorable entry List.mem_cons_self

/-- Loading a store gives it as it was last flushed, whatever was done with it before and after. -/
theorem load_run (p : Path) (w : Workspace) {operations : List Operation}
    (hstorable : ∀ entry, .replace entry ∈ operations → entry.Storable) {kept : CacheStore}
    (hkept : ((start p w).run operations).flushed = some kept) :
    load? ((start p w).run operations).workspace.place p = .ok kept ∧
      ∀ layer, CacheStore.entry? (load ((start p w).run operations).workspace.place p) layer =
        kept.entry? layer := by
  obtain ⟨hpath, hfiled, modified, hnode⟩ :=
    ((kept_start p w).run hstorable).file kept hkept
  have hload := load?_of_node hpath hfiled hnode
  refine ⟨hload, fun layer => ?_⟩
  rw [load, hload]

/-- A path with a quote, a line break and a control character, stamped with the last of all
timestamps. -/
def oddEntry : CacheEntry :=
  ⟨"ingredients", 2 ^ 64 - 1, [("/a\"b\n\x01é.json", "ab12")]⟩

/-- The entry is flushed and dropped, and it is there when the store is loaded again. -/
def oddOperations : List Operation :=
  [.replace oddEntry, .flush, .remove "ingredients"]

theorem load_run_odd :
    load? ((start ⟨"cache/c.json"⟩ ⟨⟨.empty, []⟩, 0, 0, []⟩).run oddOperations).workspace.place
        ⟨"cache/c.json"⟩ = .ok ⟨some ⟨"cache/c.json"⟩, [("ingredients", oddEntry)]⟩ ∧
      ∀ layer, CacheStore.entry? (load ((start ⟨"cache/c.json"⟩ ⟨⟨.empty, []⟩, 0, 0, []⟩).run
          oddOperations).workspace.place ⟨"cache/c.json"⟩) layer =
        CacheStore.entry? ⟨some ⟨"cache/c.json"⟩, [("ingredients", oddEntry)]⟩ layer := by
  refine load_run ⟨"cache/c.json"⟩ ⟨⟨.empty, []⟩, 0, 0, []⟩ ?_ (by decide +kernel)
  intro entry hentry
  obtain rfl : entry = oddEntry := by simpa [oddOperations] using hentry
  exact ⟨by decide, List.pairwise_singleton _ _⟩

end Session

end CacheStore

end DesignTokens
