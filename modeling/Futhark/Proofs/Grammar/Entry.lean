import Futhark.Parse

/-!
# Entry points

All entry points tokenize a text and run a parser on its tokens: `resultOf` is what they share. What
is shown of a run over the tokens of any text is thereby shown of the answers of the entry points
(`exists_run_of_resultOf`, `resultOf_of_run`).

Fragments are read under the usual nesting limit; `parseFragmentWithin` takes another one.
-/

namespace Futhark

open Futhark.Parser

variable {σ α : Type}

/-- **Reads a fragment** under a nesting limit. -/
def parseFragmentWithin (limit : Nat) (n : Nonterminal) (source : String) :
    Except SyntaxError n.Tree := do
  let stream ← TokenStream.tokenize source
  let parser : Parser Unit n.Tree := do
    let tree ← Grammar.nestWithin none limit limit n
    Parser.expectFinish
    return tree
  match parser (.start stream ()) with
  | .ok tree _ => return tree
  | .error e _ => throw e

/-- Without further notice, the limit is the usual one. -/
theorem parseFragment_eq_within (n : Nonterminal) (source : String) :
    parseFragment n source = parseFragmentWithin defaultNestingLimit n source := rfl

/-- **The result of a reading** that starts at the beginning of a text. -/
def resultOf (p : Parser σ α) (imports : σ) (source : String) : Except SyntaxError α :=
  match TokenStream.tokenize source with
  | .error e => .error e
  | .ok stream =>
    match p (.start stream imports) with
    | .ok a _ => .ok a
    | .error e _ => .error e

namespace Grammar

/-- **Reads a fragment** up to the end of the input. -/
def fragment (limit : Nat) (n : Nonterminal) : Parser Unit n.Tree := do
  let tree ← nestWithin none limit limit n
  expectFinish
  return tree

/-- **Reads a program** under options. -/
def programWith (options : ParseOptions σ) : Parser σ Program :=
  program options.resolver
    (nestWithin options.resolver options.nestingLimit options.nestingLimit)

end Grammar

theorem parseFragmentWithin_eq_resultOf (limit : Nat) (n : Nonterminal) (source : String) :
    parseFragmentWithin limit n source = resultOf (Grammar.fragment limit n) () source := by
  unfold parseFragmentWithin resultOf
  cases TokenStream.tokenize source with
  | error e => rfl
  | ok stream =>
    show (match Grammar.fragment limit n (.start stream ()) with
      | .ok tree _ => Except.ok tree
      | .error e _ => Except.error e) = _
    dsimp only
    cases Grammar.fragment limit n (.start stream ()) <;> rfl

theorem parseFragment_eq_resultOf (n : Nonterminal) (source : String) :
    parseFragment n source = resultOf (Grammar.fragment defaultNestingLimit n) () source := by
  rw [parseFragment_eq_within, parseFragmentWithin_eq_resultOf]

theorem parseWith_eq_resultOf (options : ParseOptions σ) (imports : σ) (source : String) :
    (Program.parseWith options imports source).result =
      resultOf (Grammar.programWith options) imports source := by
  unfold Program.parseWith resultOf Grammar.programWith
  cases TokenStream.tokenize source with
  | error e => rfl
  | ok stream =>
    dsimp only
    split <;> rename_i h <;> rw [h]

/-- **An answer** comes from a run on the tokens of the text. -/
theorem exists_run_of_resultOf {p : Parser σ α} {imports : σ} {source : String} {a : α}
    (h : resultOf p imports source = .ok a) :
    ∃ stream s, TokenStream.tokenize source = .ok stream ∧ p (.start stream imports) = .ok a s := by
  unfold resultOf at h
  split at h
  · cases h
  · rename_i stream htokens
    split at h
    · rename_i a' s hok
      obtain rfl : a' = a := Except.ok.inj h
      exact ⟨stream, s, htokens, hok⟩
    · cases h

/-- A run on the tokens of the text gives the answer. -/
theorem resultOf_of_run {p : Parser σ α} {imports : σ} {source : String} {a : α}
    {stream : TokenStream} {s : State σ} (htokens : TokenStream.tokenize source = .ok stream)
    (h : p (.start stream imports) = .ok a s) : resultOf p imports source = .ok a := by
  unfold resultOf
  rw [htokens]
  dsimp only
  rw [h]

end Futhark
