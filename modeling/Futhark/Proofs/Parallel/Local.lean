import Futhark.Proofs.Nesting.Limit
import Futhark.Proofs.Parallel.Program

/-!
# Errors are local

Where a reading fails depends on little: on the tokens before the failure and on the three that are
in view there. If other tokens follow, the reading still fails, with the same error
(`errors_are_local`). So the parser never goes back to try something else, and never looks further
ahead.

Both readings are made of the same operations (`Sides.Parallel`), and these look at kinds and spans
only. As long as the tokens in view are the same on both sides, the two readings do the same
(`Parallel.local`). What is left are the bounds of the loops, which count all tokens ahead: the end
of the input is repeated until both sides have as many tokens, which changes no reading
(`TokenStream.PaddedBy`).
-/

namespace Futhark

open Futhark.Parser Futhark.Parser.Pairing

variable {σ τ α : Type}

/-! ### Tokens that agree -/

/-- **What is read of a token** itself: its kind and its place, and no trivia. -/
def Token.face (t : Token) : TokenKind × Span := (t.kind, t.span)

namespace TokenStream

/-- Kinds and places of all tokens, the end of the input included. -/
def faces (stream : TokenStream) : List (TokenKind × Span) := stream.toList.map Token.face

theorem faces_getElem? (stream : TokenStream) (i : Nat) :
    stream.faces[i]? =
      if i ≤ stream.tokens.length then some (stream.tokenAt i).face else none := by
  unfold faces toList
  rw [List.getElem?_map]
  rcases Nat.lt_trichotomy i stream.tokens.length with hi | rfl | hi
  · rw [List.getElem?_append_left hi, List.getElem?_eq_getElem hi, if_pos (Nat.le_of_lt hi),
      tokenAt_of_lt hi]
    rfl
  · rw [List.getElem?_concat_length, if_pos le_rfl, tokenAt_of_le le_rfl]
    rfl
  · have hlength : (stream.tokens ++ [stream.finish]).length ≤ i := by
      rw [List.length_append]
      exact hi
    rw [List.getElem?_eq_none hlength, if_neg (Nat.not_le.mpr hi)]
    rfl

variable {stream stream' : TokenStream} {n : Nat}

/-- Where the first tokens agree, so do the tokens at each place, also behind the end. -/
theorem face_eq_of_take (h : stream'.faces.take n = stream.faces.take n) {i : Nat} (hi : i < n) :
    (stream'.tokenAt i).face = (stream.tokenAt i).face := by
  have hget : ∀ k < n, stream'.faces[k]? = stream.faces[k]? := by
    intro k hk
    have hk' := congrArg (fun faces => faces[k]?) h
    simpa only [List.getElem?_take_of_lt hk] using hk'
  have hface := hget i hi
  rw [faces_getElem?, faces_getElem?] at hface
  split_ifs at hface with hi' hi₁ hi₁
  · exact Option.some.inj hface
  -- Behind the end of one side the other side has ended as well, at the same place.
  · have hlast := hget stream.tokens.length (by omega)
    have hbehind := hget (stream.tokens.length + 1) (by omega)
    rw [faces_getElem?, faces_getElem?, if_pos le_rfl] at hlast
    rw [faces_getElem?, faces_getElem?, if_neg (Nat.not_succ_le_self _)] at hbehind
    split_ifs at hlast hbehind with hle hlt
    have hlength : stream'.tokens.length = stream.tokens.length := by omega
    rw [tokenAt_of_le (by omega), ← tokenAt_of_le hlength.le, tokenAt_of_le (i := i) (by omega),
      ← tokenAt_of_le le_rfl]
    exact Option.some.inj hlast

/-- **The end of the input repeated.** -/
def pad (stream : TokenStream) (extra : Nat) : TokenStream where
  tokens := stream.tokens ++ List.replicate extra stream.finish
  finish := stream.finish

theorem length_pad (stream : TokenStream) (extra : Nat) :
    (stream.pad extra).tokens.length = stream.tokens.length + extra := by
  unfold pad
  rw [List.length_append, List.length_replicate]

theorem paddedBy_pad (stream : TokenStream) (extra : Nat) :
    stream.PaddedBy (stream.pad extra) extra := ⟨rfl, rfl⟩

variable (stream stream' n) in
/-- **Tokens that agree** in the first `n` places, and as many of them. -/
structure SameStart : Prop where
  length : stream'.tokens.length = stream.tokens.length
  face : ∀ i < n, (stream'.tokenAt i).face = (stream.tokenAt i).face

namespace SameStart

variable (h : stream.SameStart stream' n)

include h

theorem kindAt {i : Nat} (hi : i < n) : stream'.kindAt i = stream.kindAt i :=
  congrArg Prod.fst (h.face i hi)

theorem span {i : Nat} (hi : i < n) : (stream'.tokenAt i).span = (stream.tokenAt i).span :=
  congrArg Prod.snd (h.face i hi)

theorem touchesAt {i : Nat} (hi : i < n) : stream'.touchesAt i = stream.touchesAt i := by
  cases i with
  | zero => rfl
  | succ i =>
    rw [TokenStream.touchesAt, TokenStream.touchesAt]
    rcases Nat.lt_or_ge i stream.tokens.length with hlt | hge
    · have hlt' : i < stream'.tokens.length := h.length ▸ hlt
      have hspan := h.span (Nat.lt_of_succ_lt hi)
      rw [tokenAt_of_lt hlt, tokenAt_of_lt hlt'] at hspan
      rw [List.getElem?_eq_getElem hlt, List.getElem?_eq_getElem hlt', h.span hi]
      dsimp only
      rw [hspan]
    · rw [List.getElem?_eq_none hge, List.getElem?_eq_none (h.length.trans_le hge)]

end SameStart

end TokenStream

namespace Parser

variable {stream stream' : TokenStream} {horizon i : Nat}

/-- **The same view** at places of the same index, before the horizon. -/
theorem View.ofStream_eq (hsame : stream.SameStart stream' (horizon + 3)) (hi : i ≤ horizon) :
    View.ofStream stream' i = View.ofStream stream i := by
  unfold View.ofStream
  rw [hsame.kindAt (by omega), hsame.kindAt (by omega), hsame.kindAt (by omega),
    hsame.span (by omega), hsame.touchesAt (by omega), hsame.touchesAt (by omega)]

theorem State.At.view_before {s : State σ} {t : State τ}
    (hsame : stream.SameStart stream' (horizon + 3)) (hs : s.At stream i) (ht : t.At stream' i)
    (hi : i ≤ horizon) : t.view = s.view := by
  rw [hs.view_eq, ht.view_eq]
  exact View.ofStream_eq hsame hi

/-- **The same outcome**, at token `j` of the right side. -/
def SameOutcome (stream' : TokenStream) (j : Nat) (R : α → α → Prop) :
    EStateM.Result SyntaxError (State σ) α → EStateM.Result SyntaxError (State τ) α → Prop
  | .ok a _, .ok b t => R a b ∧ t.At stream' j
  | .error e _, .error e' t => e' = e ∧ t.At stream' j
  | _, _ => False

/-- What an import does without a resolver. -/
theorem importFile_local (hsame : stream.SameStart stream' (horizon + 3)) {s : State σ}
    {t : State τ} (hs : s.At stream i) (ht : t.At stream' i) {j : Nat}
    (hj : (lastState (Grammar.importFile none s)).At stream j) (hjh : j ≤ horizon) :
    SameOutcome stream' j (fun _ _ => True) (Grammar.importFile none s)
      (Grammar.importFile none t) := by
  have hs₁ := hs.advanced
  have ht₁ := hsame.length ▸ ht.advanced
  -- In both cases the cursor has come past the keyword, where the view decides.
  have hview : ∀ l ≤ j, s.advance.At stream l → t.advance.At stream' l →
      (t.advance.tokenAt 0).kind = (s.advance.tokenAt 0).kind := fun l hl hs ht =>
    congrArg View.kind (hs.view_before hsame ht (hl.trans hjh))
  rcases Grammar.importFile_cases none s with ⟨raw, path, hkind, hrun⟩ | ⟨hkind, hrun⟩
  · rw [hrun] at hj ⊢
    obtain rfl := hs₁.advanced.unique hj
    have hle : min (i + 1) stream.tokens.length ≤
        min (min (i + 1) stream.tokens.length + 1) stream.tokens.length := by omega
    rcases Grammar.importFile_cases none t with ⟨raw', path', -, hrun'⟩ | ⟨hkind', -⟩
    · rw [hrun']
      exact ⟨trivial, hsame.length ▸ ht₁.advanced⟩
    · exact absurd ((hview _ hle hs₁ ht₁).trans hkind) (hkind' raw path)
  · rw [hrun] at hj ⊢
    obtain rfl := hs₁.unique hj
    have hkindEq := hview _ le_rfl hs₁ ht₁
    rcases Grammar.importFile_cases none t with ⟨raw', path', hkind', -⟩ | ⟨-, hrun'⟩
    · exact absurd (hkindEq.symm.trans hkind') (hkind raw' path')
    · rw [hrun']
      have hhere := congrArg View.here (hs₁.view_before hsame ht₁ hjh)
      refine ⟨?_, ht₁⟩
      show SyntaxError.mk (.unexpectedToken _ (t.advance.tokenAt 0).kind.describe)
        (t.advance.tokenAt 0).span = ⟨.unexpectedToken _ (s.advance.tokenAt 0).kind.describe, _⟩
      rw [hkindEq]
      exact congrArg _ hhere

/-- **Locality.** A run that ends before the horizon, as the view goes, ends the same where the
tokens in view are the same. -/
theorem Sides.Parallel.local (hsame : stream.SameStart stream' (horizon + 3)) {R : α → α → Prop}
    {p : Parser σ α} {q : Parser τ α} (h : (Sides.unresolved σ τ).Parallel R p q) {s : State σ}
    {t : State τ} (hs : s.At stream i) (ht : t.At stream' i) {j : Nat}
    (hj : (lastState (p s)).At stream j) (hjh : j ≤ horizon) :
    SameOutcome stream' j R (p s) (q t) := by
  induction h generalizing i s t j with
  | pure hR =>
    obtain rfl := hs.unique hj
    exact ⟨hR, ht⟩
  | @bind α β R Q p q f g hrefl hp hf ihp ihf =>
    obtain ⟨k, -, hk⟩ := hp.cursor_le hs
    cases hrun : p s with
    | ok a s₁ =>
      rw [hrun] at hk
      rw [run_bind_ok hrun] at hj ⊢
      -- The cursor only moves on, so the first part has ended before the horizon, too.
      obtain ⟨l, hkl, hl⟩ := (hf a a (hrefl a)).cursor_le hk
      obtain rfl := hl.unique hj
      have hfirst := ihp hs ht (by rw [hrun]; exact hk) (hkl.trans hjh)
      rw [hrun] at hfirst
      cases hrun' : q t with
      | error e t₁ =>
        rw [hrun'] at hfirst
        exact hfirst.elim
      | ok b t₁ =>
        rw [hrun'] at hfirst
        obtain ⟨hab, ht₁⟩ := hfirst
        rw [run_bind_ok hrun']
        exact ihf a b hab hk ht₁ hj hjh
    | error e s₁ =>
      rw [run_bind_error hrun] at hj ⊢
      have hfirst := ihp hs ht (by rw [hrun]; exact hj) hjh
      rw [hrun] at hfirst
      cases hrun' : q t with
      | ok b t₁ =>
        rw [hrun'] at hfirst
        exact hfirst.elim
      | error e' t₁ =>
        rw [hrun'] at hfirst
        rw [run_bind_error hrun']
        exact hfirst
  | look seen hp hq =>
    rw [hp] at hj ⊢
    rw [hq]
    obtain rfl := hs.unique hj
    exact ⟨congrArg seen (hs.view_before hsame ht hjh).symm, ht⟩
  | fail e hp hq =>
    rw [hp] at hj ⊢
    rw [hq]
    obtain rfl := hs.unique hj
    exact ⟨congrArg e (hs.view_before hsame ht hjh), ht⟩
  | advance =>
    have hs₁ : s.advance.At stream j := hj
    obtain rfl := hs.advanced.unique hs₁
    have hi : i ≤ horizon := by
      have hbound := hs.bound
      omega
    refine ⟨?_, hsame.length ▸ ht.advanced⟩
    exact congrArg View.here (hs.view_before hsame ht hi)
  | @docCommentOr doc doc' _ =>
    obtain ⟨found, s₁, hfound, -, hs₁⟩ := docCommentOr_run doc s
    obtain ⟨found', t₁, hfound', -, ht₁⟩ := docCommentOr_run doc' t
    rw [hfound] at hj ⊢
    rw [hfound']
    obtain rfl := (hs₁ stream i hs).unique hj
    exact ⟨trivial, ht₁ stream' i ht⟩
  | importFile => exact importFile_local hsame hs ht hj hjh
  | bounded _ ih =>
    refine ih s.after t.after ?_ hs ht hj hjh
    rw [hs.after, ht.after, List.length_drop, List.length_drop, hsame.length]

end Parser

/-! ### Failing readings -/

/-- **A reading fails locally**: with the tokens up to the failure, and the three in view there, it
fails the same. -/
def FailsLocally (p : Parser σ α) (imports : σ) (stream stream' : TokenStream) : Prop :=
  ∀ e s, p (.start stream imports) = .error e s →
    stream'.faces.take (s.before.length + 3) = stream.faces.take (s.before.length + 3) →
    ∃ s', p (.start stream' imports) = .error e s'

section

variable {stream stream' : TokenStream} (hend : stream.EndsProperly) (hend' : stream'.EndsProperly)

include hend hend'

/-- **Parallel readings fail locally**, if the bounds of their loops decide nothing. -/
theorem failsLocally_of_parallel {p : Parser σ α} {imports : σ} {R : α → α → Prop}
    (hparallel : (Sides.unresolved σ σ).Parallel R p p)
    (hpad : ∀ {stream stream' : TokenStream} {extra : Nat}, stream.PaddedBy stream' extra →
      stream.EndsProperly → ∃ Q, (rereading stream stream' (fun s t : σ => t = s) (fun _ => False)
        fun _ => True).Lockstep 0 p p Q) : FailsLocally p imports stream stream' := by
  intro e s hrun hfaces
  -- The end of the input is repeated until both sides have as many tokens.
  have hpadded := stream.paddedBy_pad stream'.tokens.length
  have hpadded' := stream'.paddedBy_pad stream.tokens.length
  obtain ⟨Q, hlockstep⟩ := hpad hpadded hend
  obtain ⟨t, j, ht, hs, hj⟩ := fails_of_lockstep hlockstep (rfl : imports = imports) hrun
  have hsame : (stream.pad stream'.tokens.length).SameStart (stream'.pad stream.tokens.length)
      (s.before.length + 3) := by
    refine ⟨?_, fun i hi => ?_⟩
    · rw [TokenStream.length_pad, TokenStream.length_pad, Nat.add_comm]
    · rw [hpadded.tokenAt, hpadded'.tokenAt]
      exact TokenStream.face_eq_of_take hfaces hi
  have hright := hparallel.local hsame (State.at_start _ imports)
    (State.at_start (stream'.pad stream.tokens.length) imports) (by rw [ht]; exact hj)
    hs.position.ge
  rw [ht] at hright
  -- Without what has been repeated, the right side fails as it does with it.
  obtain ⟨Q, hlockstep⟩ := hpad hpadded' hend'
  rcases ends_of_lockstep hlockstep (rfl : imports = imports) with
    ⟨-, -, b, t', -, hok⟩ | ⟨e', s', herror, hends⟩
  · rw [hok] at hright
    exact hright.elim
  · obtain ⟨t', -, ht', -⟩ := hends.resolve_left id
    rw [ht'] at hright
    obtain ⟨rfl, -⟩ := hright
    exact ⟨s', herror⟩

/-- **Fragments fail locally.** -/
theorem fragment_failsLocally {n : Nonterminal} [Labeled n.Tree] {E : n.Tree → Prop} (limit : Nat)
    (hparallel : (Sides.unresolved Unit Unit).Agree (Grammar.nestWithin none limit limit n)
      (Grammar.nestWithin none limit limit n))
    (hn : ∀ {P : Pairing Unit Unit} {nest nest' : Nest Unit}, P.NestsAt 0 nest nest' →
      P.ReadsOr 0 (nest n) (nest' n) E) :
    FailsLocally (Grammar.fragment limit n) () stream stream' := by
  refine failsLocally_of_parallel hend hend' (Grammar.fragment_agrees limit hparallel) ?_
  intro stream stream' extra hpad hend
  exact ⟨_, Grammar.fragment_lockstep (rereading_sound _ _ hpad hend fun _ _ => trivial)
    (rereading_next hpad hend) (hn (nestWithin_alike hend hpad .none limit 0))⟩

end

end Futhark
