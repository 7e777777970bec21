/-!
Association lists: one kind keeps its keys in order of first insertion, the other in ascending
order. Both hold a key at most once if they are built with their own insertion.
-/

namespace DesignTokens.Keyed

variable {κ α : Type} [DecidableEq κ]

/-- The value stored under a key. -/
def get? (key : κ) : List (κ × α) → Option α
  | [] => none
  | (k, a) :: rest => if k = key then some a else get? key rest

/-- The keys in order. -/
def keys (entries : List (κ × α)) : List κ :=
  entries.map Prod.fst

/-- Stores a value under a key: a known key keeps its place, a new one goes to the end. -/
def put (key : κ) (value : α) : List (κ × α) → List (κ × α)
  | [] => [(key, value)]
  | (k, a) :: rest => if k = key then (key, value) :: rest else (k, a) :: put key value rest

/-- Drops a key. -/
def erase (key : κ) : List (κ × α) → List (κ × α)
  | [] => []
  | (k, a) :: rest => if k = key then rest else (k, a) :: erase key rest

theorem get?_put (key other : κ) (value : α) (entries : List (κ × α)) :
    get? other (put key value entries) =
      if other = key then some value else get? other entries := by
  induction entries with
  | nil => by_cases h : other = key <;> simp [put, get?, h, Ne.symm]
  | cons entry rest ih =>
    obtain ⟨k, a⟩ := entry
    by_cases hk : k = key <;> by_cases ho : other = key
    · simp [put, get?, hk, ho]
    · simp [put, get?, hk, ho, Ne.symm ho]
    · subst ho; simp [put, get?, hk, ih]
    · by_cases hko : k = other <;> simp [put, get?, hk, ho, hko, ih]

theorem keys_put (key : κ) (value : α) (entries : List (κ × α)) :
    keys (put key value entries) =
      if key ∈ keys entries then keys entries else keys entries ++ [key] := by
  induction entries with
  | nil => simp [put, keys]
  | cons entry rest ih =>
    obtain ⟨k, a⟩ := entry
    by_cases hk : k = key
    · simp [put, keys, hk]
    · simp only [keys] at ih ⊢
      by_cases hm : key ∈ rest.map Prod.fst <;> simp [put, hk, Ne.symm hk, hm, ih]

variable [LT κ] [DecidableLT κ]

/-- Stores a value under a key, in front of the first greater key. -/
def putSorted (key : κ) (value : α) : List (κ × α) → List (κ × α)
  | [] => [(key, value)]
  | (k, a) :: rest =>
    if k = key then (key, value) :: rest
    else if key < k then (key, value) :: (k, a) :: rest
    else (k, a) :: putSorted key value rest

/-- Entries in ascending order of their keys; of several under one key the last. -/
def sortedOf (entries : List (κ × α)) : List (κ × α) :=
  entries.foldl (fun acc entry => putSorted entry.1 entry.2 acc) []

end DesignTokens.Keyed
