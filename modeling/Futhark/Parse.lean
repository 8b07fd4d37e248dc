import Futhark.Grammar.Nesting

/-!
# Reading programs and fragments

The entry points: `Program.parse` for a whole text, `Expr.parse`, `TypeExpr.parse` and
`Pattern.parse` for a single expression, type or pattern. `Program.parseWith` does what
`Program.parse` does under given options, and reports all that came of it.
-/

namespace Futhark

/-- The number of levels to which syntax may nest unless told otherwise. -/
def defaultNestingLimit : Nat := 1024

/-- **How to read a program**: how deeply it may nest, and what its imports stand for. Without a
resolver, imports are left alone. -/
structure ParseOptions (σ : Type) where
  nestingLimit : Nat := defaultNestingLimit
  resolver : Option (Resolver σ) := none

/-- **What came of reading a program**: the program or the error, all diagnostics in order, and the
state that the imports left behind. -/
structure ParseOutcome (σ : Type) where
  result : Except SyntaxError Program
  diagnostics : List Diagnostic
  imports : σ

namespace Program

/-- **Reads a program** under options. The diagnostics are the warnings, in the order of the text,
and then the error if there is one. A text with a faulty token is not looked at any further. -/
def parseWith {σ : Type} (options : ParseOptions σ) (imports : σ) (source : String) :
    ParseOutcome σ :=
  match TokenStream.tokenize source with
  | .error e => ⟨.error e, [e.diagnostic], imports⟩
  | .ok stream =>
    let limit := options.nestingLimit
    let nest := Grammar.nestWithin options.resolver limit limit
    match Grammar.program options.resolver nest (.start stream imports) with
    | .ok program s => ⟨.ok program, s.warnings, s.imports⟩
    | .error e s => ⟨.error e, s.warnings ++ [e.diagnostic], s.imports⟩

/-- **Reads a program** with the usual nesting limit, leaving imports alone. -/
def parse (source : String) : Except SyntaxError Program :=
  (parseWith {} () source).result

end Program

/-- **Reads a fragment**, which has to make up the whole text. -/
def parseFragment (n : Nonterminal) (source : String) : Except SyntaxError n.Tree := do
  let stream ← TokenStream.tokenize source
  let limit := defaultNestingLimit
  let parser : Parser Unit n.Tree := do
    let tree ← Grammar.nestWithin none limit limit n
    Parser.expectFinish
    return tree
  match parser (.start stream ()) with
  | .ok tree _ => return tree
  | .error e _ => throw e

/-- **Reads an expression.** -/
def Expr.parse (source : String) : Except SyntaxError Expr := parseFragment .expression source

/-- **Reads a type.** -/
def TypeExpr.parse (source : String) : Except SyntaxError TypeExpr := parseFragment .type source

/-- **Reads a pattern.** -/
def Pattern.parse (source : String) : Except SyntaxError Pattern := parseFragment .pattern source

end Futhark
