import Futhark.Grammar.Nonterminal

/-!
# Grammar of attributes

An attribute is written `#[word]`, `#[3]` or `#[word(argument, …)]`. Reserved words are words here.
-/

namespace Futhark.Grammar

open Futhark.Parser

variable {σ : Type}

/-- The word that an attribute may be or start with. -/
def attributeWord? : TokenKind → Option String
  | .identifier name => some name
  | .keyword word => some word.text
  | _ => none

/-- **Inside of an attribute**: a number, a word, or a word with arguments. -/
def attributeInfo (nest : Nest σ) : Parser σ Attribute := do
  let k ← kind
  match k, attributeWord? k with
  | .integer literal, _ => return .integer literal (← advanceSpan)
  | _, some name =>
    let start ← advanceSpan
    match ← opening? .leftParen with
    | none => return .word name start
    | some o =>
      let arguments ← commaSeparatedUntil .rightParen nest.attr
      let stop ← close o [.punct .comma]
      return .call name arguments (start.merge stop)
  | _, none => unexpected [.phrase "an attribute"]

/-- **An attribute** in its brackets. -/
def attr (nest : Nest σ) : Parser σ Attribute := do
  let o : Opening := ⟨.attributeOpen, ← expect .attributeOpen⟩
  let info ← attributeInfo nest
  let stop ← close o []
  return info.withSpan (o.span.merge stop)

end Futhark.Grammar
