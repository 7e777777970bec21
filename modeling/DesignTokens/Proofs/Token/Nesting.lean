import DesignTokens.Proofs.Keyed
import DesignTokens.Proofs.Token.Sequencing
import Mathlib.Data.List.Nodup
import Mathlib.Data.List.Perm.Subperm

/-!
Why resolving ends. The recursion is cut off here at a given depth, with nothing said about its end,
and whenever it begins a token it notes the stack of those that are being resolved. They are different
tokens of the dictionary each time; so with room for one call more than there are tokens the cut is
never reached, and the recursion gives what resolving gives.
-/

namespace DesignTokens

open Placeholder

/-- Why a recursion that is cut off stops. -/
inductive Halt where
  | failed (cause : ReferenceError)
  | tooDeep
deriving DecidableEq, Repr

/-- A computation that may add to the values found so far and notes stacks, also if it stops. -/
abbrev Tracing (α : Type) := StateT Memo (ExceptT Halt (StateM (List (List String)))) α

namespace Tracing

/-- The outcome of a computation with its stacks noted behind those of a list. -/
def outcome {α : Type} (x : Tracing α) (memo : Memo) (noted : List (List String)) :
    Except Halt (α × Memo) × List (List String) :=
  (x.run memo).run.run noted

variable {α β : Type} {memo : Memo} {noted : List (List String)}

theorem outcome_bind (x : Tracing α) (f : α → Tracing β) :
    (x >>= f).outcome memo noted =
      match x.outcome memo noted with
      | (.ok (a, memo'), noted') => (f a).outcome memo' noted'
      | (.error halt, noted') => (.error halt, noted') := by
  rw [outcome, outcome, StateT.run_bind, ExceptT.run_bind, StateT.run_bind]
  rcases (x.run memo).run.run noted with ⟨_ | ⟨_, _⟩, _⟩ <;> rfl

/-- Notes a stack. -/
def note (stack : List String) : Tracing Unit :=
  modifyThe (List (List String)) (· ++ [stack])

end Tracing

/-- What one call does, given how the calls inside it are answered, what failing is and what happens
where a token is put on the stack. -/
def resolveStep {m : Type → Type} [Monad m] [MonadStateOf Memo m]
    (fail : ReferenceError → m Json.Value) (push : List String → m Unit) (tokens : RawTokens)
    (follow : List String → String → String → m Json.Value) (stack : List String)
    (owner path : String) : m Json.Value := do
  match Keyed.get? path (← getThe Memo) with
  | some value => pure value
  | none =>
    if path ∈ stack then fail (.circular (stack.dropWhile (· ≠ path) ++ [path]))
    else match Keyed.get? path tokens with
      | none => fail (.unknown owner path)
      | some raw =>
        push (stack ++ [path])
        let value ← substitute (follow (stack ++ [path]) path) raw.value
        modifyThe Memo (Keyed.put path value)
        pure value

/-- Resolving a path is one step, with the paths inside it resolved in the same way. -/
theorem resolvePath_eq_step (tokens : RawTokens) (stack : List String) (owner path : String) :
    resolvePath tokens stack owner path =
      resolveStep throw (fun _ => pure ()) tokens (resolvePath tokens) stack owner path := by
  rw [resolvePath]
  refine congrArg (get >>= ·) (funext fun memo => ?_)
  cases Keyed.get? path memo with
  | some value => rfl
  | none =>
      by_cases hmem : path ∈ stack
      · rw [dif_pos hmem, if_pos hmem]
      · rw [dif_neg hmem, if_neg hmem]
        cases Keyed.get? path tokens <;> rfl

namespace RawTokens

/-- The recursion of such steps with room for a number of calls inside one another. -/
def traced (tokens : RawTokens) : Nat → List String → String → String → Tracing Json.Value
  | 0, _, _, _ => throw .tooDeep
  | room + 1, stack, owner, path =>
    resolveStep (fun cause => throw (.failed cause)) Tracing.note tokens (traced tokens room) stack
      owner path

/-- Different tokens. -/
structure Distinct (tokens : RawTokens) (stack : List String) : Prop where
  nodup : stack.Nodup
  known : stack ⊆ Keyed.keys tokens

variable {tokens : RawTokens} {stack : List String} {owner path : String} {raw : RawToken}

theorem Distinct.nil : tokens.Distinct [] :=
  ⟨List.nodup_nil, List.nil_subset _⟩

theorem Distinct.push (h : tokens.Distinct stack) (hfresh : path ∉ stack)
    (hraw : Keyed.get? path tokens = some raw) : tokens.Distinct (stack ++ [path]) where
  nodup := List.nodup_append_comm.mp (List.nodup_cons.mpr ⟨hfresh, h.nodup⟩)
  known := by
    have hpath : path ∈ Keyed.keys tokens := Keyed.isSome_get?_iff.mp (by rw [hraw]; rfl)
    exact List.append_subset.mpr ⟨h.known, List.cons_subset.mpr ⟨hpath, List.nil_subset _⟩⟩

theorem Distinct.length_le (h : tokens.Distinct stack) : stack.length ≤ tokens.length := by
  have hle := (h.nodup.subperm h.known).length_le
  rwa [Keyed.keys, List.length_map] at hle

/-- A computation that is cut off comes to the outcome of one that is not, from every memo, and the
stacks that it notes hold different tokens. -/
def Traces (tokens : RawTokens) (α : Type) (x : Tracing α) (y : Resolving α) : Prop :=
  ∀ memo noted, (x.outcome memo noted).1 = (y.run memo).mapError .failed ∧
    ∃ more, (x.outcome memo noted).2 = noted ++ more ∧ ∀ stack ∈ more, tokens.Distinct stack

theorem sequential_traces (tokens : RawTokens) : Sequential tokens.Traces where
  pure a := fun _ noted => ⟨rfl, [], (List.append_nil noted).symm, by simp⟩
  bind {α β x y f g} hx hf := by
    intro memo noted
    obtain ⟨hfirst, more, hmore, hdistinct⟩ := hx memo noted
    rw [Tracing.outcome_bind, StateT.run_bind]
    rcases hout : x.outcome memo noted with ⟨halt | ⟨a, memo'⟩, noted'⟩
    · rw [hout] at hfirst hmore
      cases hy : y.run memo with
      | error e =>
          rw [hy] at hfirst
          obtain rfl := Except.error.inj hfirst
          exact ⟨rfl, more, hmore, hdistinct⟩
      | ok result =>
          rw [hy] at hfirst
          cases hfirst
    · rw [hout] at hfirst hmore
      cases hy : y.run memo with
      | error e =>
          rw [hy] at hfirst
          cases hfirst
      | ok result =>
          rw [hy] at hfirst
          obtain rfl := Except.ok.inj hfirst
          obtain rfl := hmore
          obtain ⟨hsecond, others, hothers, hdistinct'⟩ := hf a memo' (noted ++ more)
          refine ⟨hsecond, more ++ others, by rw [hothers, List.append_assoc], ?_⟩
          exact List.forall_mem_append.mpr ⟨hdistinct, hdistinct'⟩

theorem traces_throw (e : ReferenceError) :
    tokens.Traces Json.Value (throw (.failed e)) (throw e) :=
  fun _ noted => ⟨rfl, [], (List.append_nil noted).symm, by simp⟩

theorem traces_modify (f : Memo → Memo) : tokens.Traces Unit (modify f) (modify f) :=
  fun _ noted => ⟨rfl, [], (List.append_nil noted).symm, by simp⟩

theorem traces_note (h : tokens.Distinct stack) :
    tokens.Traces Unit (Tracing.note stack) (pure ()) :=
  fun _ _ => ⟨rfl, [stack], rfl, List.forall_mem_singleton.mpr h⟩

/-- One step is traced if the calls inside it are. These are made for a token that is not being
resolved yet. -/
theorem traces_step (hstack : tokens.Distinct stack)
    {follow : List String → String → String → Tracing Json.Value}
    {follow' : List String → String → String → Resolving Json.Value}
    (h : ∀ raw, path ∉ stack → Keyed.get? path tokens = some raw → ∀ target,
      tokens.Traces Json.Value (follow (stack ++ [path]) path target)
        (follow' (stack ++ [path]) path target)) :
    tokens.Traces Json.Value
      (resolveStep (fun cause => throw (.failed cause)) Tracing.note tokens follow stack owner path)
      (resolveStep throw (fun _ => pure ()) tokens follow' stack owner path) := by
  have hseq := sequential_traces tokens
  refine hseq.bind (fun _ noted => ⟨rfl, [], (List.append_nil noted).symm, by simp⟩) fun memo => ?_
  split
  · exact hseq.pure _
  · split
    · exact traces_throw _
    · rename_i hfresh
      split
      · exact traces_throw _
      · rename_i raw hraw
        have hvalue := hseq.substitute raw.value fun target _ => h raw hfresh hraw target
        exact hseq.bind (traces_note (hstack.push hfresh hraw)) fun _ =>
          hseq.bind hvalue fun _ => hseq.bind (traces_modify _) fun _ => hseq.pure _

theorem traces_traced {room : Nat} (hstack : tokens.Distinct stack)
    (hroom : freeCount tokens stack < room) :
    tokens.Traces Json.Value (tokens.traced room stack owner path)
      (resolvePath tokens stack owner path) := by
  induction room generalizing stack owner path with
  | zero => exact absurd hroom (Nat.not_lt_zero _)
  | succ room ih =>
      rw [traced, resolvePath_eq_step]
      refine traces_step hstack fun raw hfresh hraw target => ih (hstack.push hfresh hraw) ?_
      exact Nat.lt_of_lt_of_le (freeCount_push_lt hraw hfresh) (Nat.le_of_lt_succ hroom)

/-- Resolving ends for all tokens, whatever values are known and whichever path is asked for: with
room for one call more than there are tokens, the recursion is never cut off and comes to the outcome
of resolving. The tokens that are being resolved are different ones at all times. -/
theorem resolvePath_nests (tokens : RawTokens) (owner path : String) (memo : Memo) (more : Nat) :
    let traced := (tokens.traced (tokens.length + 1 + more) [] owner path).outcome memo []
    traced.1 = ((resolvePath tokens [] owner path).run memo).mapError .failed ∧
      ∀ stack ∈ traced.2, stack.Nodup ∧ (∀ key ∈ stack, key ∈ Keyed.keys tokens) ∧
        stack.length ≤ tokens.length := by
  have hroom : freeCount tokens [] < tokens.length + 1 + more := by
    have hle : freeCount tokens [] ≤ tokens.length := List.countP_le_length
    omega
  have htraces : tokens.Traces Json.Value (tokens.traced (tokens.length + 1 + more) [] owner path)
      (resolvePath tokens [] owner path) := traces_traced Distinct.nil hroom
  obtain ⟨hout, noted, hnoted, hdistinct⟩ := htraces memo []
  refine ⟨hout, fun stack hstack => ?_⟩
  rw [hnoted, List.nil_append] at hstack
  have hdifferent := hdistinct stack hstack
  exact ⟨hdifferent.nodup, fun key hkey => hdifferent.known hkey, hdifferent.length_le⟩

/-- Two tokens that refer to each other. -/
def pairTokens : RawTokens :=
  [("a", ⟨["a"], .array [.string "\x7bb.value\x7d"], ⟨"pair.json"⟩, true⟩),
   ("b", ⟨["b"], .string "2 * \x7ba.value\x7d", ⟨"pair.json"⟩, true⟩)]

/-- The third call inside one another meets the first token again, so room for two is not enough. -/
example :
    ((pairTokens.traced 3 [] "a" "a").outcome [] []).1.map (fun _ => ()) =
        .error (.failed (.circular ["a", "b", "a"])) ∧
      ((pairTokens.traced 3 [] "a" "a").outcome [] []).2 =
        [["a"], ["a", "b"]] ∧
      ((pairTokens.traced 2 [] "a" "a").outcome [] []).1.map (fun _ => ()) = .error .tooDeep := by
  decide +kernel

end RawTokens

end DesignTokens
