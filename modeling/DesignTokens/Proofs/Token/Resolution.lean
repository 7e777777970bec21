import DesignTokens.Layer.Build
import DesignTokens.Proofs.Keyed
import DesignTokens.Proofs.Token.Substitution

/-!
Resolving with a memo gives what plain substitution gives. Every memo entry is what its path means,
and the tokens being resolved form a chain of references, so that without a circle none of them is
met again. The order in which tokens are visited plays no part.
-/

namespace DesignTokens

open Placeholder

theorem run_bind_eq_ok {α β : Type} {x : Resolving α} {f : α → Resolving β} {memo memo' : Memo}
    {b : β} :
    (x >>= f).run memo = .ok (b, memo') ↔
      ∃ a between, x.run memo = .ok (a, between) ∧ (f a).run between = .ok (b, memo') := by
  rw [StateT.run_bind]
  cases hx : x.run memo with
  | error e => simp [bind, Except.bind]
  | ok result =>
      obtain ⟨a, between⟩ := result
      simp [bind, Except.bind]

theorem run_pure_eq_ok {α : Type} {a b : α} {memo memo' : Memo} :
    (pure a : Resolving α).run memo = .ok (b, memo') ↔ a = b ∧ memo = memo' := by
  rw [StateT.run_pure]
  simp [pure, Except.pure]

section Faithful

variable {holds : Memo → Prop} {known : String → Prop} {meaning : String → Json.Value}
variable {follow : String → Resolving Json.Value}

/-- If following a path gives a value, the value is the right one and the memo stays good. -/
def Faithful (holds : Memo → Prop) (known : String → Prop) (meaning : String → Json.Value)
    (follow : String → Resolving Json.Value) : Prop :=
  ∀ path memo v memo', holds memo → (follow path).run memo = .ok (v, memo') →
    holds memo' ∧ known path ∧ v = meaning path

theorem substitutePieces_faithful (hfollow : Faithful holds known meaning follow)
    {pieces : List Segment} {memo memo' : Memo} {text : String} (hmemo : holds memo)
    (h : (substitutePieces follow pieces).run memo = .ok (text, memo')) :
    holds memo' ∧ (∀ path ∈ pieces.filterMap Segment.path?, known path) ∧
      text = filledPieces meaning pieces := by
  induction pieces generalizing memo text with
  | nil =>
      obtain ⟨rfl, rfl⟩ := run_pure_eq_ok.mp h
      exact ⟨hmemo, by simp, rfl⟩
  | cons s rest ih =>
      cases s with
      | literal part | malformed part =>
          obtain ⟨more, between, hrest, hreturn⟩ := run_bind_eq_ok.mp h
          obtain ⟨rfl, rfl⟩ := run_pure_eq_ok.mp hreturn
          obtain ⟨hbetween, hknown, rfl⟩ := ih hmemo hrest
          exact ⟨hbetween, by simpa using hknown, rfl⟩
      | reference path =>
          obtain ⟨v, between, hpath, hnext⟩ := run_bind_eq_ok.mp h
          obtain ⟨more, last, hrest, hreturn⟩ := run_bind_eq_ok.mp hnext
          obtain ⟨rfl, rfl⟩ := run_pure_eq_ok.mp hreturn
          obtain ⟨hbetween, hv, rfl⟩ := hfollow path memo v between hmemo hpath
          obtain ⟨hlast, hknown, rfl⟩ := ih hbetween hrest
          refine ⟨hlast, ?_, rfl⟩
          simpa using ⟨hv, by simpa using hknown⟩

theorem substituteText_faithful (hfollow : Faithful holds known meaning follow) {text : String}
    {memo memo' : Memo} {v : Json.Value} (hmemo : holds memo)
    (h : (substituteText follow text).run memo = .ok (v, memo')) :
    holds memo' ∧ (∀ path ∈ (scan text).filterMap Segment.path?, known path) ∧
      v = filledText meaning text := by
  unfold substituteText at h
  split at h
  · split at h
    · rename_i path hscan
      obtain ⟨hlast, hknown, rfl⟩ := hfollow path memo v memo' hmemo h
      exact ⟨hlast, by simpa [hscan] using hknown, (filledText_of_lone meaning hscan).symm⟩
    · rename_i hlone
      obtain ⟨out, last, hpieces, hreturn⟩ := run_bind_eq_ok.mp h
      obtain ⟨rfl, rfl⟩ := run_pure_eq_ok.mp hreturn
      obtain ⟨hlast, hknown, rfl⟩ := substitutePieces_faithful hfollow hmemo hpieces
      exact ⟨hlast, hknown, (filledText_of_pieces meaning hlone).symm⟩
  · rename_i hreference
    obtain ⟨rfl, rfl⟩ := run_pure_eq_ok.mp h
    refine ⟨hmemo, ?_, (filledText_of_not_hasReference meaning (by simpa using hreference)).symm⟩
    intro path hpath
    obtain ⟨s, hs, hsegment⟩ := List.mem_filterMap.mp hpath
    cases s with
    | reference p => exact absurd (hasReference_iff.mpr ⟨p, hs⟩) hreference
    | literal | malformed => simp at hsegment

mutual

theorem substitute_faithful (hfollow : Faithful holds known meaning follow) :
    (v : Json.Value) → {memo memo' : Memo} → {out : Json.Value} → holds memo →
      (substitute follow v).run memo = .ok (out, memo') →
      holds memo' ∧ (∀ path ∈ v.placeholders, known path) ∧ out = v.filled meaning
  | .string text, _, _, _, hmemo, h => by
      simp only [Json.Value.placeholders, Json.Value.filled]
      exact substituteText_faithful hfollow hmemo (by simpa only [substitute] using h)
  | .array items, _, _, _, hmemo, h => by
      simp only [substitute] at h
      obtain ⟨out, last, hitems, hreturn⟩ := run_bind_eq_ok.mp h
      obtain ⟨rfl, rfl⟩ := run_pure_eq_ok.mp hreturn
      obtain ⟨hlast, hknown, rfl⟩ := substituteItems_faithful hfollow items hmemo hitems
      exact ⟨hlast, by simpa only [Json.Value.placeholders] using hknown, by
        simp only [Json.Value.filled]⟩
  | .object members, _, _, _, hmemo, h => by
      simp only [substitute] at h
      obtain ⟨out, last, hmembers, hreturn⟩ := run_bind_eq_ok.mp h
      obtain ⟨rfl, rfl⟩ := run_pure_eq_ok.mp hreturn
      obtain ⟨hlast, hknown, rfl⟩ := substituteMembers_faithful hfollow members hmemo hmembers
      exact ⟨hlast, by simpa only [Json.Value.placeholders] using hknown, by
        simp only [Json.Value.filled]⟩
  | .null, _, _, _, hmemo, h => by
      obtain ⟨rfl, rfl⟩ := run_pure_eq_ok.mp h
      exact ⟨hmemo, by simp [Json.Value.placeholders], rfl⟩
  | .boolean _, _, _, _, hmemo, h => by
      obtain ⟨rfl, rfl⟩ := run_pure_eq_ok.mp h
      exact ⟨hmemo, by simp [Json.Value.placeholders], rfl⟩
  | .number _, _, _, _, hmemo, h => by
      obtain ⟨rfl, rfl⟩ := run_pure_eq_ok.mp h
      exact ⟨hmemo, by simp [Json.Value.placeholders], rfl⟩

theorem substituteItems_faithful (hfollow : Faithful holds known meaning follow) :
    (items : List Json.Value) → {memo memo' : Memo} → {out : List Json.Value} → holds memo →
      (substituteItems follow items).run memo = .ok (out, memo') →
      holds memo' ∧ (∀ path ∈ itemPlaceholders items, known path) ∧
        out = filledItems meaning items
  | [], _, _, _, hmemo, h => by
      obtain ⟨rfl, rfl⟩ := run_pure_eq_ok.mp h
      exact ⟨hmemo, by simp [itemPlaceholders], rfl⟩
  | v :: rest, _, _, _, hmemo, h => by
      simp only [substituteItems] at h
      obtain ⟨first, between, hv, hnext⟩ := run_bind_eq_ok.mp h
      obtain ⟨more, last, hrest, hreturn⟩ := run_bind_eq_ok.mp hnext
      obtain ⟨rfl, rfl⟩ := run_pure_eq_ok.mp hreturn
      obtain ⟨hbetween, hfirst, rfl⟩ := substitute_faithful hfollow v hmemo hv
      obtain ⟨hlast, hmore, rfl⟩ := substituteItems_faithful hfollow rest hbetween hrest
      refine ⟨hlast, ?_, rfl⟩
      intro path hpath
      rcases List.mem_append.mp (by simpa only [itemPlaceholders] using hpath) with hpath | hpath
      · exact hfirst path hpath
      · exact hmore path hpath

theorem substituteMembers_faithful (hfollow : Faithful holds known meaning follow) :
    (members : List (String × Json.Value)) → {memo memo' : Memo} →
      {out : List (String × Json.Value)} → holds memo →
      (substituteMembers follow members).run memo = .ok (out, memo') →
      holds memo' ∧ (∀ path ∈ memberPlaceholders members, known path) ∧
        out = filledMembers meaning members
  | [], _, _, _, hmemo, h => by
      obtain ⟨rfl, rfl⟩ := run_pure_eq_ok.mp h
      exact ⟨hmemo, by simp [memberPlaceholders], rfl⟩
  | (key, v) :: rest, _, _, _, hmemo, h => by
      simp only [substituteMembers] at h
      obtain ⟨first, between, hv, hnext⟩ := run_bind_eq_ok.mp h
      obtain ⟨more, last, hrest, hreturn⟩ := run_bind_eq_ok.mp hnext
      obtain ⟨rfl, rfl⟩ := run_pure_eq_ok.mp hreturn
      obtain ⟨hbetween, hfirst, rfl⟩ := substitute_faithful hfollow v hmemo hv
      obtain ⟨hlast, hmore, rfl⟩ := substituteMembers_faithful hfollow rest hbetween hrest
      refine ⟨hlast, ?_, rfl⟩
      intro path hpath
      rcases List.mem_append.mp (by simpa only [memberPlaceholders] using hpath) with hpath | hpath
      · exact hfirst path hpath
      · exact hmore path hpath

end

/-- Following a path gives a value from every good memo. -/
def Reaches (holds : Memo → Prop) (meaning : String → Json.Value)
    (follow : String → Resolving Json.Value) (path : String) : Prop :=
  ∀ memo, holds memo → ∃ memo', (follow path).run memo = .ok (meaning path, memo') ∧ holds memo'

theorem substitutePieces_reaches {pieces : List Segment} {memo : Memo}
    (hfollow : ∀ path ∈ pieces.filterMap Segment.path?, Reaches holds meaning follow path)
    (hmemo : holds memo) :
    ∃ memo', (substitutePieces follow pieces).run memo =
      .ok (filledPieces meaning pieces, memo') ∧ holds memo' := by
  induction pieces generalizing memo with
  | nil => exact ⟨memo, rfl, hmemo⟩
  | cons s rest ih =>
      cases s with
      | literal part | malformed part =>
          obtain ⟨last, hrest, hlast⟩ := ih (by simpa using hfollow) hmemo
          exact ⟨last, run_bind_eq_ok.mpr ⟨_, last, hrest, rfl⟩, hlast⟩
      | reference path =>
          obtain ⟨between, hpath, hbetween⟩ := hfollow path (by simp) memo hmemo
          obtain ⟨last, hrest, hlast⟩ := ih
            (fun p hp => hfollow p (by simpa using .inr (by simpa using hp))) hbetween
          exact ⟨last, run_bind_eq_ok.mpr ⟨_, between, hpath,
            run_bind_eq_ok.mpr ⟨_, last, hrest, rfl⟩⟩, hlast⟩

theorem substituteText_reaches {text : String} {memo : Memo}
    (hfollow : ∀ path ∈ (scan text).filterMap Segment.path?, Reaches holds meaning follow path)
    (hmemo : holds memo) :
    ∃ memo', (substituteText follow text).run memo = .ok (filledText meaning text, memo') ∧
      holds memo' := by
  unfold substituteText
  split
  · split
    · rename_i path hscan
      rw [filledText_of_lone meaning hscan]
      exact hfollow path (by simp [hscan]) memo hmemo
    · rename_i hlone
      rw [filledText_of_pieces meaning hlone]
      obtain ⟨last, hpieces, hlast⟩ := substitutePieces_reaches hfollow hmemo
      exact ⟨last, run_bind_eq_ok.mpr ⟨_, last, hpieces, rfl⟩, hlast⟩
  · rename_i hreference
    rw [filledText_of_not_hasReference meaning (by simpa using hreference)]
    exact ⟨memo, rfl, hmemo⟩

mutual

theorem substitute_reaches :
    (v : Json.Value) → (∀ path ∈ v.placeholders, Reaches holds meaning follow path) →
      {memo : Memo} → holds memo →
      ∃ memo', (substitute follow v).run memo = .ok (v.filled meaning, memo') ∧ holds memo'
  | .string text, hfollow, _, hmemo => by
      simp only [substitute, Json.Value.filled]
      exact substituteText_reaches (by simpa only [Json.Value.placeholders] using hfollow) hmemo
  | .array items, hfollow, _, hmemo => by
      simp only [substitute, Json.Value.filled]
      obtain ⟨last, hitems, hlast⟩ := substituteItems_reaches items
        (by simpa only [Json.Value.placeholders] using hfollow) hmemo
      exact ⟨last, run_bind_eq_ok.mpr ⟨_, last, hitems, rfl⟩, hlast⟩
  | .object members, hfollow, _, hmemo => by
      simp only [substitute, Json.Value.filled]
      obtain ⟨last, hmembers, hlast⟩ := substituteMembers_reaches members
        (by simpa only [Json.Value.placeholders] using hfollow) hmemo
      exact ⟨last, run_bind_eq_ok.mpr ⟨_, last, hmembers, rfl⟩, hlast⟩
  | .null, _, memo, hmemo => ⟨memo, rfl, hmemo⟩
  | .boolean _, _, memo, hmemo => ⟨memo, rfl, hmemo⟩
  | .number _, _, memo, hmemo => ⟨memo, rfl, hmemo⟩

theorem substituteItems_reaches :
    (items : List Json.Value) → (∀ path ∈ itemPlaceholders items, Reaches holds meaning follow path) →
      {memo : Memo} → holds memo →
      ∃ memo', (substituteItems follow items).run memo = .ok (filledItems meaning items, memo') ∧
        holds memo'
  | [], _, memo, hmemo => ⟨memo, rfl, hmemo⟩
  | v :: rest, hfollow, _, hmemo => by
      simp only [itemPlaceholders, List.mem_append] at hfollow
      obtain ⟨between, hv, hbetween⟩ :=
        substitute_reaches v (fun path hpath => hfollow path (.inl hpath)) hmemo
      obtain ⟨last, hrest, hlast⟩ :=
        substituteItems_reaches rest (fun path hpath => hfollow path (.inr hpath)) hbetween
      exact ⟨last, run_bind_eq_ok.mpr ⟨_, between, hv,
        run_bind_eq_ok.mpr ⟨_, last, hrest, rfl⟩⟩, hlast⟩

theorem substituteMembers_reaches :
    (members : List (String × Json.Value)) →
      (∀ path ∈ memberPlaceholders members, Reaches holds meaning follow path) →
      {memo : Memo} → holds memo →
      ∃ memo', (substituteMembers follow members).run memo =
        .ok (filledMembers meaning members, memo') ∧ holds memo'
  | [], _, memo, hmemo => ⟨memo, rfl, hmemo⟩
  | (key, v) :: rest, hfollow, _, hmemo => by
      simp only [memberPlaceholders, List.mem_append] at hfollow
      obtain ⟨between, hv, hbetween⟩ :=
        substitute_reaches v (fun path hpath => hfollow path (.inl hpath)) hmemo
      obtain ⟨last, hrest, hlast⟩ :=
        substituteMembers_reaches rest (fun path hpath => hfollow path (.inr hpath)) hbetween
      exact ⟨last, run_bind_eq_ok.mpr ⟨_, between, hv,
        run_bind_eq_ok.mpr ⟨_, last, hrest, rfl⟩⟩, hlast⟩

end

end Faithful

theorem run'_eq_ok {α : Type} {x : Resolving α} {memo : Memo} {a : α} :
    x.run' memo = .ok a ↔ ∃ memo', x.run memo = .ok (a, memo') := by
  change (Prod.fst <$> x.run memo) = .ok a ↔ _
  cases x.run memo with
  | error e => simp [Functor.map, Except.map]
  | ok result => simp [Functor.map, Except.map, Prod.ext_iff]

theorem run_get_bind {β : Type} (f : Memo → Resolving β) (memo : Memo) :
    (get >>= f).run memo = (f memo).run memo := rfl

namespace RawTokens

variable {tokens : RawTokens}

/-- What each path means; null where it means nothing. -/
noncomputable def meaning (tokens : RawTokens) (path : String) : Json.Value := by
  classical
  exact if h : ∃ v, tokens.Means path v then h.choose else .null

theorem Means.meaning_eq {path : String} {v : Json.Value} (h : tokens.Means path v) :
    tokens.meaning path = v := by
  have hex : ∃ v, tokens.Means path v := ⟨v, h⟩
  rw [meaning, dif_pos hex]
  exact hex.choose_spec.unique h

theorem Means.self {path : String} {v : Json.Value} (h : tokens.Means path v) :
    tokens.Means path (tokens.meaning path) := by
  rw [h.meaning_eq]
  exact h

/-- Every entry is what its path means. -/
def GoodMemo (tokens : RawTokens) (memo : Memo) : Prop :=
  ∀ path v, Keyed.get? path memo = some v → tokens.Means path v

theorem GoodMemo.put {memo : Memo} {path : String} {v : Json.Value} (hmemo : tokens.GoodMemo memo)
    (hv : tokens.Means path v) : tokens.GoodMemo (Keyed.put path v memo) := by
  intro other w hw
  rw [Keyed.get?_put] at hw
  split at hw
  · rename_i hother
    subst hother
    exact Option.some.inj hw ▸ hv
  · exact hmemo other w hw

theorem goodMemo_nil : tokens.GoodMemo [] := by
  intro path v h
  simp [Keyed.get?] at h

theorem means_filled_meaning {path : String} {raw : RawToken}
    (found : Keyed.get? path tokens = some raw)
    (targets : ∀ target ∈ raw.value.placeholders, tokens.Means target (tokens.meaning target)) :
    tokens.Means path (raw.value.filled tokens.meaning) :=
  .intro tokens.meaning found targets

/-- What the resolver finds for a path is what the path means. -/
theorem resolvePath_faithful (tokens : RawTokens) (stack : List String) (owner : String) :
    Faithful tokens.GoodMemo (fun path => tokens.Means path (tokens.meaning path)) tokens.meaning
      (resolvePath tokens stack owner) := by
  induction hn : freeCount tokens stack using Nat.strong_induction_on generalizing stack owner with
  | _ n ih =>
      intro path memo v memo' hmemo h
      rw [resolvePath, run_get_bind] at h
      split at h
      · rename_i value hvalue
        obtain ⟨rfl, rfl⟩ := run_pure_eq_ok.mp h
        have hmeans := hmemo path value hvalue
        exact ⟨hmemo, hmeans.self, hmeans.meaning_eq.symm⟩
      · split at h
        · exact absurd h (by simp [throw, throwThe, MonadExceptOf.throw, StateT.run, StateT.lift,
            bind, Except.bind])
        · rename_i hstack
          split at h
          · exact absurd h (by simp [throw, throwThe, MonadExceptOf.throw, StateT.run, StateT.lift,
              bind, Except.bind])
          · rename_i raw found
            obtain ⟨value, between, hvalue, hnext⟩ := run_bind_eq_ok.mp h
            have hlt := freeCount_push_lt found hstack
            have hfollow := ih _ (hn ▸ hlt) (stack ++ [path]) path rfl
            obtain ⟨hbetween, htargets, rfl⟩ :=
              substitute_faithful hfollow raw.value hmemo hvalue
            have hmeans := means_filled_meaning found htargets
            obtain ⟨_, last, hmodify, hreturn⟩ := run_bind_eq_ok.mp hnext
            obtain ⟨rfl, rfl⟩ := run_pure_eq_ok.mp hreturn
            have hlast : last = Keyed.put path (raw.value.filled tokens.meaning) between := by
              cases hmodify
              rfl
            subst hlast
            exact ⟨hbetween.put hmeans, hmeans.self, hmeans.meaning_eq.symm⟩

/-- Without circles and unknown names the resolver finds every token, as long as the tokens that
are being resolved lead to the one asked for. -/
theorem resolvePath_reaches (hclosed : tokens.Closed) (hacyclic : tokens.Acyclic)
    {stack : List String} {owner path : String} (hpath : (Keyed.get? path tokens).isSome)
    (hstack : ∀ waiting ∈ stack, Relation.TransGen tokens.Refers waiting path) :
    Reaches tokens.GoodMemo tokens.meaning (resolvePath tokens stack owner) path := by
  induction hn : freeCount tokens stack using Nat.strong_induction_on
    generalizing stack owner path with
  | _ n ih =>
      intro memo hmemo
      rw [resolvePath, run_get_bind]
      have hfresh : path ∉ stack := fun hmem => hacyclic path (hstack path hmem)
      obtain ⟨raw, found⟩ := Option.isSome_iff_exists.mp hpath
      split
      · rename_i value hvalue
        rw [(hmemo path value hvalue).meaning_eq]
        exact ⟨memo, rfl, hmemo⟩
      · rw [dif_neg hfresh]
        split
        · rename_i hnone
          exact absurd (found.symm.trans hnone) (by simp)
        · rename_i raw' found'
          have hraw : raw' = raw := Option.some.inj (found'.symm.trans found)
          subst hraw
          have hlt := freeCount_push_lt found hfresh
          have htargets : ∀ target ∈ raw'.value.placeholders,
              Reaches tokens.GoodMemo tokens.meaning
                (fun target => resolvePath tokens (stack ++ [path]) path target) target := by
            intro target htarget
            have hrefers : tokens.Refers path target := ⟨raw', found, htarget⟩
            refine ih _ (hn ▸ hlt) (hclosed path target hrefers) ?_ rfl
            intro waiting hwaiting
            rcases List.mem_append.mp hwaiting with hwaiting | hwaiting
            · exact (hstack waiting hwaiting).tail hrefers
            · rw [List.mem_singleton.mp hwaiting]
              exact .single hrefers
          obtain ⟨between, hvalue, hbetween⟩ := substitute_reaches raw'.value htargets hmemo
          have hfaithful := substitute_faithful
            (resolvePath_faithful tokens (stack ++ [path]) path) raw'.value hmemo hvalue
          have hmeans := means_filled_meaning found hfaithful.2.1
          rw [hmeans.meaning_eq]
          exact ⟨_, run_bind_eq_ok.mpr ⟨_, between, hvalue,
            run_bind_eq_ok.mpr ⟨_, _, rfl, rfl⟩⟩, hbetween.put hmeans⟩

/-- A collected token with its value, as the dictionary lists it. -/
noncomputable def resolvedToken (tokens : RawTokens) (entry : String × RawToken) : Token :=
  ⟨entry.2.path, tokens.meaning entry.1, entry.2.value.sourceText, entry.2.file, entry.2.isSource⟩

theorem resolveEach_faithful {visits : RawTokens} {memo memo' : Memo} {found : List Token}
    (hmemo : tokens.GoodMemo memo)
    (h : (resolveEach tokens visits).run memo = .ok (found, memo')) :
    found = visits.map tokens.resolvedToken ∧
      ∀ entry ∈ visits, tokens.Means entry.1 (tokens.meaning entry.1) := by
  induction visits generalizing memo found with
  | nil =>
      obtain ⟨rfl, rfl⟩ := run_pure_eq_ok.mp h
      exact ⟨rfl, by simp⟩
  | cons entry rest ih =>
      obtain ⟨v, between, hv, hnext⟩ := run_bind_eq_ok.mp h
      obtain ⟨more, last, hrest, hreturn⟩ := run_bind_eq_ok.mp hnext
      obtain ⟨rfl, rfl⟩ := run_pure_eq_ok.mp hreturn
      obtain ⟨hbetween, hmeans, rfl⟩ :=
        resolvePath_faithful tokens [] entry.1 entry.1 memo v between hmemo hv
      obtain ⟨rfl, hmore⟩ := ih hbetween hrest
      exact ⟨rfl, List.forall_mem_cons.mpr ⟨hmeans, hmore⟩⟩

theorem resolveEach_reaches (hclosed : tokens.Closed) (hacyclic : tokens.Acyclic)
    {visits : RawTokens} (hvisits : ∀ entry ∈ visits, (Keyed.get? entry.1 tokens).isSome)
    {memo : Memo} (hmemo : tokens.GoodMemo memo) :
    ∃ memo', (resolveEach tokens visits).run memo =
      .ok (visits.map tokens.resolvedToken, memo') := by
  induction visits generalizing memo with
  | nil => exact ⟨memo, rfl⟩
  | cons entry rest ih =>
      obtain ⟨hentry, hrest⟩ := List.forall_mem_cons.mp hvisits
      have hreaches : Reaches tokens.GoodMemo tokens.meaning (resolvePath tokens [] entry.1) entry.1 :=
        resolvePath_reaches hclosed hacyclic hentry fun waiting hwaiting =>
          absurd hwaiting List.not_mem_nil
      obtain ⟨between, hv, hbetween⟩ := hreaches memo hmemo
      obtain ⟨last, hmore⟩ := ih hrest hbetween
      exact ⟨last, run_bind_eq_ok.mpr ⟨_, between, hv, run_bind_eq_ok.mpr ⟨_, last, hmore, rfl⟩⟩⟩

theorem resolve_eq_ok {d : Dictionary} :
    tokens.resolve = .ok d ↔ ∃ memo, (resolveEach tokens tokens).run [] = .ok (d.tokens, memo) := by
  rw [← run'_eq_ok, resolve]
  cases (resolveEach tokens tokens).run' [] with
  | error e => simp [Except.map]
  | ok found =>
      obtain ⟨listed⟩ := d
      simp [Except.map]

/-- Tokens can be resolved exactly if every placeholder names one of them and no circle of references
goes through them. -/
theorem resolve_isOk_iff :
    (∃ d, tokens.resolve = .ok d) ↔ tokens.Closed ∧ tokens.Acyclic := by
  have hmem : ∀ entry ∈ tokens, (Keyed.get? entry.1 tokens).isSome := fun entry hentry =>
    Keyed.isSome_get?_iff.mpr (List.mem_map_of_mem hentry)
  constructor
  · rintro ⟨d, hd⟩
    obtain ⟨memo, hrun⟩ := resolve_eq_ok.mp hd
    have hmeans : ∀ path, (Keyed.get? path tokens).isSome → ∃ v, tokens.Means path v := by
      intro path hpath
      obtain ⟨raw, hraw⟩ := Option.isSome_iff_exists.mp hpath
      exact ⟨_, (resolveEach_faithful goodMemo_nil hrun).2 _ (Keyed.mem_of_get? hraw)⟩
    exact ⟨closed_of_means hmeans, acyclic_of_means hmeans⟩
  · rintro ⟨hclosed, hacyclic⟩
    obtain ⟨memo, hrun⟩ := resolveEach_reaches hclosed hacyclic hmem goodMemo_nil
    exact ⟨⟨tokens.map tokens.resolvedToken⟩, resolve_eq_ok.mpr ⟨memo, hrun⟩⟩

end RawTokens

end DesignTokens
