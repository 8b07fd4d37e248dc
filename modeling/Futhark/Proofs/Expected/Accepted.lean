import Futhark.Proofs.Expected.Program
import Futhark.Proofs.Parallel.Local

/-!
# Expected tokens are accepted

If a reading fails because none of certain tokens has been found, and one of these is put in the place
of the one that was found, the reading comes past it, or fails there for another reason than that it
is unexpected (`expected_tokens_are_accepted`). That does not depend on what comes after the place.

The exceptions are known by the list (`Expectation.DoubtfulIn`): between brackets, `=` and `:` are
listed even where one of them has been taken already.

Two readings go along together whatever is put in the place (`Grammar.nestWithin_nested`). What is
left to do is to look at their ends, and to repeat the end of the input until both sides have as many
tokens.
-/

namespace Futhark

open Futhark.Parser Futhark.Parser.Pairing

variable {σ α : Type}

namespace Parser

variable {r : Replacement} {L R : Prop} {j : Nat}

/-- **A reading that fails after all.** What comes to its end has not failed at any place. -/
def thenFails (p : Parser σ α) : Parser σ Unit := p >>= fun _ => Grammar.tooDeep 0

namespace Replacement.Follows

/-- **An expected token is accepted** by readings that go along together: if the left one fails at
the place, where it lists the new token, the right one does not find it unexpected there. -/
theorem accepted {p : Parser σ α} {Q : Unit → Nat → Prop} (h : r.Follows L R 0 (thenFails p) Q)
    {imports : σ} {e e' : SyntaxError} {s t : State σ} {expected : List Expectation}
    {found : String} (hfails : p (.start r.original imports) = .error e s)
    (hs : s.At r.original r.place) (hcause : e.cause = .unexpectedToken ⟨expected⟩ found)
    (hlists : r.Lists expected)
    (hfails' : p (.start r.replaced imports) = .error e' t) (ht : t.At r.replaced r.place)
    (expected' : List Expectation) (found' : String) :
    e'.cause ≠ .unexpectedToken ⟨expected'⟩ found' := by
  have houtcome := h.level (Nat.zero_le _) (.start r.original imports) (.start r.replaced imports)
    (State.at_start _ _) (State.at_start _ _) rfl
  unfold thenFails at houtcome
  rw [run_bind_error hfails, run_bind_error hfails'] at houtcome
  cases houtcome with
  | left hclear =>
    obtain ⟨i, hi, hclear⟩ := hclear
    exact absurd hlists (hclear (hi.unique hs) expected found hcause)
  | right hclear =>
    obtain ⟨i, hi, hclear⟩ := hclear
    exact fun hcause' => hclear (hi.unique ht) expected' found' hcause' trivial

end Replacement.Follows

end Parser

namespace Grammar

open Futhark.Parser.Replacement

variable {r : Replacement} {nest : Nest σ} {j : Nat}

/-- **Fragments**, up to the end of the input. -/
theorem fragment_follows {n : Nonterminal} {limit : Nat} {L R : Prop} {Q : n.Tree → Nat → Prop}
    (h : r.Follows L R j (nestWithin none limit limit n : Parser Unit n.Tree) Q) :
    r.Follows L R j (thenFails (fragment limit n)) fun _ _ => True := by
  unfold thenFails fragment
  rw [bind_assoc]
  refine h.bind fun tree k _ _ => ?_
  unfold expectFinish
  rw [bind_assoc, bind_assoc]
  refine Follows.kindAfter fun κ => ?_
  split
  · exact .fails fun _ => ⟨_, rfl, nofun⟩
  · exact Follows.bind (Q := fun _ _ => True) (.unexpectedPhrase id)
      fun _ _ _ _ => .fails fun _ => ⟨_, rfl, nofun⟩

/-- **Programs.** A declaration may start wherever the program does not end. -/
theorem program_follows (hn : r.Nested nest) (resolver : Option (Resolver σ)) :
    r.Follows False False j (thenFails (program resolver nest)) fun _ _ => True := by
  unfold thenFails program
  rw [bind_assoc]
  refine Follows.manyUntil (fun v => v.kind.isFinish) declStart (fun _ => rfl) (fun k hk => ?_)
    (fun k _ => declaration_follows hn resolver none) (fun _ _ _ _ => ?_)
    (fun _ _ => ?_) fun _ _ => ?_
  · exact congrArg TokenKind.isFinish (kindAt_eq hk).symm
  · exact .fails fun _ => ⟨_, rfl, nofun⟩
  · exact .fails fun _ => ⟨_, rfl, nofun⟩
  · exact .fails fun _ => ⟨_, rfl, nofun⟩

end Grammar

/-! ### Any two streams -/

namespace TokenStream

variable {stream stream' : TokenStream} {i : Nat} {k : TokenKind}

variable (stream stream' i k) in
/-- **Another token in a place.** The tokens before it stay, it touches them if the other one did,
and whatever follows. -/
structure Replaces : Prop where
  before : stream'.tokens.take i = stream.tokens.take i
  kindAt : stream'.kindAt i = k
  touchesAt : stream'.touchesAt i = stream.touchesAt i

/-- The tokens before the place are the same. -/
theorem Replaces.tokenAt (h : stream.Replaces stream' i k) (hi : i ≤ stream.tokens.length) {j : Nat}
    (hj : j < i) : stream'.tokenAt j = stream.tokenAt j := by
  have hget : (stream'.tokens.take i)[j]? = (stream.tokens.take i)[j]? :=
    congrArg (fun tokens : List Token => tokens[j]?) h.before
  rw [List.getElem?_take_of_lt hj, List.getElem?_take_of_lt hj] at hget
  unfold TokenStream.tokenAt
  have hj' : j < stream.tokens.length := hj.trans_le hi
  rw [List.getD_eq_getElem?_getD, List.getD_eq_getElem?_getD, hget, List.getElem?_eq_getElem hj']
  rfl

theorem Replaces.le (h : stream.Replaces stream' i k) (hi : i ≤ stream.tokens.length) :
    i ≤ stream'.tokens.length := by
  have hlength := congrArg List.length h.before
  rw [List.length_take, List.length_take] at hlength
  omega

end TokenStream

/-- **A replacement**, after the end of the input has been repeated until both streams are as long
and the place is among their tokens. -/
def Parser.Replacement.ofReplaces {stream stream' : TokenStream} {i : Nat} {k : TokenKind}
    (h : stream.Replaces stream' i k) (hi : i ≤ stream.tokens.length) (e : Expectation)
    (he : e.kind? = some k) : Replacement where
  original := stream.pad (stream'.tokens.length + 1)
  replaced := stream'.pad (stream.tokens.length + 1)
  place := i
  lt := by rw [TokenStream.length_pad]; omega
  length := by rw [TokenStream.length_pad, TokenStream.length_pad]; omega
  tokenAt j hj := by
    rw [(stream'.paddedBy_pad _).tokenAt, (stream.paddedBy_pad _).tokenAt, h.tokenAt hi hj]
  touchesAt := by
    rw [(stream'.paddedBy_pad _).touchesAt (h.le hi), (stream.paddedBy_pad _).touchesAt hi,
      h.touchesAt]
  expectation := e
  kind? := by
    rw [he, TokenStream.kindAt, (stream'.paddedBy_pad _).tokenAt]
    exact congrArg some h.kindAt.symm

/-- **What is expected is accepted.** If a reading fails because none of certain tokens has been
found, and one of these is put in the place, the reading does not find it unexpected there. Only a
doubtful one may be listed in vain. -/
def AcceptsExpected (p : Parser σ α) (imports : σ) (stream stream' : TokenStream) : Prop :=
  ∀ e s expected found, p (.start stream imports) = .error e s →
    e.cause = .unexpectedToken ⟨expected⟩ found →
    ∀ expectation ∈ expected, ¬ expectation.DoubtfulIn expected →
    ∀ k, expectation.kind? = some k → stream.Replaces stream' s.before.length k →
    ∀ e' s', p (.start stream' imports) = .error e' s' → s'.before.length = s.before.length →
    ∀ expected' found', e'.cause ≠ .unexpectedToken expected' found'

section

variable {stream stream' : TokenStream} (hend : stream.EndsProperly) (hend' : stream'.EndsProperly)

include hend hend'

/-- **Readings that go along together accept what is expected**, if the bounds of their loops decide
nothing. -/
theorem acceptsExpected_of_follows {p : Parser σ α} {imports : σ}
    (hfollows : ∀ r : Replacement, ∃ L R Q, r.Follows L R 0 (thenFails p) Q)
    (hpad : ∀ {stream stream' : TokenStream} {extra : Nat}, stream.PaddedBy stream' extra →
      stream.EndsProperly → ∃ Q, (rereading stream stream' (fun s t : σ => t = s) (fun _ => False)
        fun _ => True).Lockstep 0 p p Q) : AcceptsExpected p imports stream stream' := by
  intro e s expected found hrun hcause x hx hdoubt k hk hreplaces e' s' hrun' hposition
  -- The end of the input is repeated until both sides have as many tokens.
  obtain ⟨Q, hlockstep⟩ := hpad (stream.paddedBy_pad (stream'.tokens.length + 1)) hend
  obtain ⟨Q', hlockstep'⟩ := hpad (stream'.paddedBy_pad (stream.tokens.length + 1)) hend'
  obtain ⟨t, i, ht, hs, hti⟩ := fails_of_lockstep hlockstep (rfl : imports = imports) hrun
  obtain ⟨t', i', ht', hs', hti'⟩ := fails_of_lockstep hlockstep' (rfl : imports = imports) hrun'
  rw [hs.position] at hreplaces hposition
  obtain rfl := hs'.position.symm.trans hposition
  obtain ⟨L, R, Q, hfollows⟩ := hfollows (.ofReplaces hreplaces hs.bound x hk)
  rintro ⟨expected'⟩ found'
  exact hfollows.accepted ht hti hcause ⟨hx, hdoubt⟩ ht' hti' expected' found'

theorem fragment_acceptsExpected {n : Nonterminal} [Labeled n.Tree] {E : n.Tree → Prop}
    (limit : Nat)
    (hfollows : ∀ r : Replacement, ∃ Q, r.Follows True False 0
      (Grammar.nestWithin none limit limit n : Parser Unit n.Tree) Q)
    (hn : ∀ {P : Pairing Unit Unit} {nest nest' : Nest Unit}, P.NestsAt 0 nest nest' →
      P.ReadsOr 0 (nest n) (nest' n) E) :
    AcceptsExpected (Grammar.fragment limit n) () stream stream' := by
  refine acceptsExpected_of_follows hend hend' (fun r => ?_)
    fun {stream stream' extra} hpad hend => ?_
  · obtain ⟨Q, hfollows⟩ := hfollows r
    exact ⟨_, _, _, Grammar.fragment_follows hfollows⟩
  · exact ⟨_, Grammar.fragment_lockstep (rereading_sound _ _ hpad hend fun _ _ => trivial)
      (rereading_next hpad hend) (hn (nestWithin_alike hend hpad .none limit 0))⟩

/-- **Expected tokens are accepted**, unless they are doubtful, by all entry points. -/
theorem expected_tokens_are_accepted (limit : Nat) :
    (∀ (σ : Type) (resolver : Option (Resolver σ)) (imports : σ),
      AcceptsExpected (Grammar.programWith ⟨limit, resolver⟩) imports stream stream') ∧
    AcceptsExpected (Grammar.fragment limit .expression) () stream stream' ∧
    AcceptsExpected (Grammar.fragment limit .type) () stream stream' ∧
    AcceptsExpected (Grammar.fragment limit .pattern) () stream stream' := by
  have hnested : ∀ r : Replacement, r.Nested (Grammar.nestWithin none limit limit : Nest Unit) :=
    fun r => Grammar.nestWithin_nested none limit limit
  refine ⟨fun σ resolver imports => ?_,
    fragment_acceptsExpected hend hend' limit (fun r => ⟨_, (hnested r).expression⟩) (·.expression),
    fragment_acceptsExpected hend hend' limit (fun r => ⟨_, (hnested r).type⟩) (·.type),
    fragment_acceptsExpected hend hend' limit (fun r => ⟨_, (hnested r).pattern⟩) (·.pattern)⟩
  refine acceptsExpected_of_follows hend hend' (fun r => ?_)
    fun {stream stream' extra} hpad hend => ?_
  · have hnested := Grammar.nestWithin_nested (r := r) resolver limit limit
    exact ⟨_, _, _, Grammar.program_follows hnested resolver⟩
  · exact ⟨_, rereading_program hpad hend (fun _ _ => trivial) (.refl resolver)
      (nestWithin_alike hend hpad (.refl resolver) limit)⟩

end

/-- An `=` after the value of a field is refused, and listed among what would have been accepted. -/
example :
    (match Grammar.fragment 4 .expression (.start (.scan "\x7ba = 1 = 2\x7d") ()) with
      | .ok _ _ => none
      | .error e s => some (e.cause, s.before.length)) =
      some (.unexpectedToken ⟨[.punct .rightBrace, .punct .comma, .punct .equal]⟩ "`=`", 4) := by
  decide +kernel

end Futhark
