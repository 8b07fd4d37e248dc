import Futhark.Document
import Futhark.Text.Quoted
import Futhark.Tree.Expr

/-!
# Rendering names, literals and attributes

Rendered text is canonical. Parentheses of the tree are dropped, and every compound expression or
type gets exactly one pair of its own. Reading the text again and rendering the result gives the
same text.
-/

namespace Futhark.Render

open Document

/-- The separator between items of a list. -/
def comma : Document := .text ", "

/-- A document in parentheses. -/
def parenthesized (d : Document) : Document := row [.text "(", d, .text ")"]

/-- A document in parentheses where they are needed. -/
def parenthesizedIf (needed : Bool) (d : Document) : Document :=
  if needed then parenthesized d else d

/-- A document in brackets. -/
def bracketed (d : Document) : Document := row [.text "[", d, .text "]"]

/-- A document in braces, on one line. -/
def braced (d : Document) : Document := row [.text "\x7b", d, .text "\x7d"]

/-- Each document after a piece of text. -/
def eachAfter (mark : String) (parts : List Document) : Document :=
  .seq (parts.flatMap fun d => [.text mark, d])

/-- A document after a piece of text, or nothing. -/
def optionalAfter (mark : String) : Option Document → Document
  | some d => row [.text mark, d]
  | none => .nil

/-- A name, by its spelling. -/
def identifier (i : Identifier) : Document := .text i.name

/-- A name in a module. -/
def qualName (q : QualName) : Document :=
  .seq (q.qualifiers.flatMap (fun i => [identifier i, .text "."]) ++ [identifier q.name])

/-- A literal. -/
def literal : Literal → Document
  | .integer value => .built value.text
  | .float value => .built value.text
  | .string value => .built (Text.quoted value)
  | .character value => .built (Text.quotedChar value)
  | .bool true => .text "true"
  | .bool false => .text "false"

mutual

/-- The inside of an attribute. -/
def attributeInfo : Attribute → Document
  | .word name _ => .text name
  | .integer value _ => .built value.text
  | .call name arguments _ =>
    row [.text name, .text "(", join (attributeInfos arguments) comma, .text ")"]

/-- The insides of several attributes. -/
def attributeInfos : List Attribute → List Document
  | [] => []
  | a :: as => attributeInfo a :: attributeInfos as

end

/-- An attribute in its brackets. -/
def attr (a : Attribute) : Document := row [.text "#[", attributeInfo a, .text "]"]

end Futhark.Render
