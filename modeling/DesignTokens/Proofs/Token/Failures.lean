import DesignTokens.Proofs.Token.Loading
import DesignTokens.Proofs.Token.Sequencing
import Mathlib.Data.List.Chain

/-!
What a failed resolution tells. The tokens that are being resolved form a path of references in which
none occurs twice; it leads to the token asked for. Cut at a token that is met again, the path is a
circle, and a name that leads nowhere stands in the last token of the path.
-/

namespace DesignTokens

open Job

theorem run_bind_eq_error {α β : Type} {x : Resolving α} {f : α → Resolving β} {memo : Memo}
    {e : ReferenceError} :
    (x >>= f).run memo = .error e ↔
      x.run memo = .error e ∨
        ∃ a between, x.run memo = .ok (a, between) ∧ (f a).run between = .error e := by
  rw [StateT.run_bind]
  cases hx : x.run memo with
  | error e => simp [bind, Except.bind]
  | ok result =>
      obtain ⟨a, between⟩ := result
      simp [bind, Except.bind]

theorem mapError_eq_error {ε ε' α : Type} {f : ε → ε'} {x : Except ε α} {e' : ε'} :
    x.mapError f = .error e' ↔ ∃ e, x = .error e ∧ e' = f e := by
  cases x with
  | error e => simp [Except.mapError, eq_comm]
  | ok a => simp [Except.mapError]

/-- Whatever the memo, a computation fails with errors of one kind only. -/
def FailsWith {α : Type} (P : ReferenceError → Prop) (x : Resolving α) : Prop :=
  ∀ memo e, x.run memo = .error e → P e

namespace FailsWith

variable {α β : Type} {P : ReferenceError → Prop} {follow : String → Resolving Json.Value}

theorem pure (a : α) : FailsWith P (pure a : Resolving α) := by
  intro memo e h
  cases h

theorem modify (f : Memo → Memo) : FailsWith P (modify f : Resolving Unit) := by
  intro memo e h
  cases h

theorem throw {e : ReferenceError} (he : P e) : FailsWith P (throw e : Resolving α) := by
  intro memo e' h
  obtain rfl := Except.error.inj h
  exact he

theorem bind {x : Resolving α} {f : α → Resolving β} (hx : FailsWith P x)
    (hf : ∀ a, FailsWith P (f a)) : FailsWith P (x >>= f) := by
  intro memo e h
  rcases run_bind_eq_error.mp h with h | ⟨a, between, -, h⟩
  · exact hx memo e h
  · exact hf a between e h

/-- Substitution fails only if following one of the placeholders does. -/
theorem substitute (v : Json.Value) (h : ∀ path ∈ v.placeholders, FailsWith P (follow path)) :
    FailsWith P (substitute follow v) := by
  have hsequential : Sequential fun α (x _ : Resolving α) => FailsWith P x :=
    ⟨fun a => pure a, fun hx hf => bind hx hf⟩
  exact @Sequential.substitute _ _ _ _ _ follow follow hsequential v h

end FailsWith

namespace RawTokens

variable {tokens : RawTokens}

/-- A chain of references from a path back to it that meets no path twice on the way. -/
def Circle (tokens : RawTokens) (chain : List String) : Prop :=
  ∃ path others, chain = path :: others ++ [path] ∧ (path :: others).Nodup ∧
    chain.IsChain tokens.Refers

/-- What an error says is so: the chain is a circle of references, or the token refers to a path
that no token has. -/
def Witnessed (tokens : RawTokens) : ReferenceError → Prop
  | .circular chain => tokens.Circle chain
  | .unknown token reference =>
    tokens.Refers token reference ∧ Keyed.get? reference tokens = none

/-- The tokens being resolved are a path of references that leads to the path asked for, and the
token that asks for it refers to it, unless it is known. -/
structure Pending (tokens : RawTokens) (stack : List String) (owner path : String) : Prop where
  nodup : stack.Nodup
  chain : (stack ++ [path]).IsChain tokens.Refers
  asked : Keyed.get? path tokens = none → tokens.Refers owner path

theorem Pending.start {key : String} (h : (Keyed.get? key tokens).isSome) :
    tokens.Pending [] key key where
  nodup := .nil
  chain := .singleton key
  asked hnone := absurd h (by simp [hnone])

theorem Pending.push {stack : List String} {owner path target : String}
    (h : tokens.Pending stack owner path) (hfresh : path ∉ stack)
    (hrefers : tokens.Refers path target) : tokens.Pending (stack ++ [path]) path target where
  nodup := by
    rw [List.nodup_append]
    refine ⟨h.nodup, List.nodup_singleton path, ?_⟩
    rintro waiting hwaiting _ hpath rfl
    exact hfresh (List.mem_singleton.mp hpath ▸ hwaiting)
  chain := by
    rw [List.append_assoc, List.singleton_append, List.isChain_split]
    exact ⟨h.chain, List.isChain_pair.mpr hrefers⟩
  asked _ := hrefers

/-- The stack from a token on that is asked for again, with it once more, is a circle. -/
theorem Pending.circle {stack : List String} {owner path : String}
    (h : tokens.Pending stack owner path) (hmem : path ∈ stack) :
    tokens.Circle (stack.dropWhile (· ≠ path) ++ [path]) := by
  obtain ⟨front, others, rfl, hfront⟩ := List.eq_append_cons_of_mem hmem
  have hcut : (front ++ path :: others).dropWhile (· ≠ path) = path :: others := by
    rw [List.dropWhile_append_of_pos, List.dropWhile_cons_of_neg (by simp)]
    intro waiting hwaiting
    have hne : waiting ≠ path := fun heq => hfront (heq ▸ hwaiting)
    simpa using hne
  rw [hcut]
  refine ⟨path, others, rfl, h.nodup.sublist (List.sublist_append_right _ _), ?_⟩
  refine h.chain.suffix ?_
  rw [List.append_assoc]
  exact List.suffix_append _ _

theorem resolvePath_failsWith {stack : List String} {owner path : String}
    (h : tokens.Pending stack owner path) :
    FailsWith tokens.Witnessed (resolvePath tokens stack owner path) := by
  induction hn : freeCount tokens stack using Nat.strong_induction_on
    generalizing stack owner path with
  | _ n ih =>
      intro memo e herror
      rw [resolvePath, run_get_bind] at herror
      split at herror
      · exact FailsWith.pure _ memo e herror
      · split at herror
        · rename_i hmem
          exact FailsWith.throw (h.circle hmem) memo e herror
        · rename_i hfresh
          split at herror
          · rename_i hnone
            exact FailsWith.throw ⟨h.asked hnone, hnone⟩ memo e herror
          · rename_i raw hraw
            have hlt := freeCount_push_lt hraw hfresh
            have htargets : ∀ target ∈ raw.value.placeholders, FailsWith tokens.Witnessed
                (resolvePath tokens (stack ++ [path]) path target) :=
              fun target htarget => ih _ (hn ▸ hlt) (h.push hfresh ⟨raw, hraw, htarget⟩) rfl
            exact FailsWith.bind (FailsWith.substitute raw.value htargets)
              (fun _ => FailsWith.bind (FailsWith.modify _) fun _ => FailsWith.pure _) memo e herror

theorem resolveEach_failsWith {visits : RawTokens}
    (h : ∀ entry ∈ visits, (Keyed.get? entry.1 tokens).isSome) :
    FailsWith tokens.Witnessed (resolveEach tokens visits) := by
  induction visits with
  | nil => exact FailsWith.pure _
  | cons entry rest ih =>
      obtain ⟨hentry, hrest⟩ := List.forall_mem_cons.mp h
      exact FailsWith.bind (resolvePath_failsWith (Pending.start hentry)) fun _ =>
        FailsWith.bind (ih hrest) fun _ => FailsWith.pure _

theorem resolve_eq_error {e : ReferenceError} :
    tokens.resolve = .error e ↔ (resolveEach tokens tokens).run [] = .error e := by
  change (Prod.fst <$> (resolveEach tokens tokens).run []).map Dictionary.mk = .error e ↔ _
  cases (resolveEach tokens tokens).run [] with
  | error e' => simp [Except.map, Functor.map]
  | ok result => simp [Except.map, Functor.map]

/-- An error of resolving collected tokens tells the truth about them: a chain is a circle of
references that starts and ends with one path, repeats no other and goes on from each path to one
that its value has a placeholder for; an unknown reference stands in the value of the collected token
it is reported for, and no token has that path. Reading files whose tokens could be collected fails
in no other way, and with these errors exactly. -/
theorem resolve_error_witnessed (tokens : RawTokens) :
    (∀ chain, tokens.resolve = .error (.circular chain) →
        ∃ path others, chain = path :: others ++ [path] ∧ (path :: others).Nodup ∧
          chain.IsChain tokens.Refers) ∧
      (∀ token reference, tokens.resolve = .error (.unknown token reference) →
        (∃ raw, Keyed.get? token tokens = some raw ∧ reference ∈ raw.value.placeholders) ∧
          Keyed.get? reference tokens = none) ∧
      ∀ (dependencies sources : List Path) (w : Workspace),
        w.place.collected dependencies sources = .ok tokens →
        ∀ cause after, exec (resolveFiles dependencies sources) w = (.error cause, after) ↔
          after = w ∧ ∃ e, tokens.resolve = .error e ∧ cause = .reference e := by
  have hall : ∀ e, tokens.resolve = .error e → tokens.Witnessed e := by
    have hvisits : ∀ entry ∈ tokens, (Keyed.get? entry.1 tokens).isSome := fun entry hentry =>
      Keyed.isSome_get?_iff.mpr (List.mem_map_of_mem hentry)
    exact fun e h => resolveEach_failsWith hvisits [] e (resolve_eq_error.mp h)
  refine ⟨fun chain => hall (.circular chain),
    fun token reference => hall (.unknown token reference), ?_⟩
  intro dependencies sources w hcollected cause after
  have hdictionary :
      w.place.dictionary dependencies sources = tokens.resolve.mapError .reference := by
    rw [Place.dictionary, hcollected]
  rw [exec_resolveFiles, hdictionary, Prod.mk.injEq, mapError_eq_error, and_comm, eq_comm]

/-- Two token files. In the first `a` leads into a circle that it does not belong to, and `ink` is
met again on the way; in the second `gap` refers to a name that nothing has. -/
def brokenWorkspace : Workspace :=
  let circle := "\x7b\"ink\": \x7b\"value\": \"#000\"\x7d, " ++
    "\"a\": \x7b\"value\": \"\x7bink.value\x7d \x7bb.value\x7d\"\x7d, " ++
    "\"b\": \x7b\"value\": [\"\x7bc.value\x7d\"]\x7d, " ++
    "\"c\": \x7b\"value\": \"\x7bink.value\x7d \x7bb.value\x7d\"\x7d\x7d"
  let dangling := "\x7b\"inset\": \x7b\"value\": \"\x7bgap.value\x7d\"\x7d, " ++
    "\"gap\": \x7b\"value\": \"calc(2 * \x7bspace.value\x7d)\"\x7d\x7d"
  ⟨⟨⟨[(["circle.json"], .file circle.toUTF8 0), (["dangling.json"], .file dangling.toUTF8 0)]⟩, []⟩,
    0, 0, []⟩

theorem exists_of_collected_map (w : Place) (sources : List Path) (e : ReferenceError)
    (h : (w.collected [] sources).map (fun tokens => tokens.resolve.map fun _ => ()) =
      .ok (.error e)) :
    ∃ tokens, w.collected [] sources = .ok tokens ∧ tokens.resolve = .error e := by
  cases hcollected : w.collected [] sources with
  | error cause =>
      rw [hcollected] at h
      cases h
  | ok tokens =>
      rw [hcollected] at h
      have hmap : tokens.resolve.map (fun _ => ()) = .error e := Except.ok.inj h
      refine ⟨tokens, rfl, ?_⟩
      cases hresolve : tokens.resolve with
      | error e' =>
          rw [hresolve] at hmap
          exact congrArg _ (Except.error.inj hmap)
      | ok d =>
          rw [hresolve] at hmap
          cases hmap

theorem resolve_error_witnessed_broken :
    (∃ tokens, brokenWorkspace.place.collected [] [⟨"circle.json"⟩] = .ok tokens ∧
      tokens.resolve = .error (.circular ["b", "c", "b"]) ∧
      ["b", "c", "b"].IsChain tokens.Refers ∧
      exec (resolveFiles [] [⟨"circle.json"⟩]) brokenWorkspace =
        (.error (.reference (.circular ["b", "c", "b"])), brokenWorkspace)) ∧
    ∃ tokens, brokenWorkspace.place.collected [] [⟨"dangling.json"⟩] = .ok tokens ∧
      tokens.resolve = .error (.unknown "gap" "space") ∧
      tokens.Refers "gap" "space" ∧ Keyed.get? "space" tokens = none := by
  obtain ⟨tokens, hcollected, hcircle⟩ := exists_of_collected_map brokenWorkspace.place
    [⟨"circle.json"⟩] (.circular ["b", "c", "b"]) (by decide +kernel)
  obtain ⟨others, hothers, hdangling⟩ := exists_of_collected_map brokenWorkspace.place
    [⟨"dangling.json"⟩] (.unknown "gap" "space") (by decide +kernel)
  obtain ⟨hcircular, -, hfiles⟩ := resolve_error_witnessed tokens
  obtain ⟨-, hunknown, -⟩ := resolve_error_witnessed others
  obtain ⟨-, -, -, -, hchain⟩ := hcircular _ hcircle
  refine ⟨⟨tokens, hcollected, hcircle, hchain, ?_⟩, others, hothers, hdangling,
    hunknown _ _ hdangling⟩
  exact (hfiles [] [⟨"circle.json"⟩] brokenWorkspace hcollected _ _).mpr ⟨rfl, _, hcircle, rfl⟩

end RawTokens

end DesignTokens
