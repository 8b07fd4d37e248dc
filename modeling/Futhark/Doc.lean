import Futhark.Token.Basic

/-!
# Documentation comments

A documentation comment is a line `-- | text` together with the plain comment lines that follow it.
It belongs to the token after it, unless an empty line comes between: then it is detached, belongs
to nothing, and deserves a warning.
-/

namespace Futhark

/-- **What the trivia before a token document**: the lines of the comment that is still attached, if
there is one, and whether some comment has been detached. -/
structure DocComment where
  lines : Option (List String)
  detached : Bool
deriving DecidableEq, Repr, Inhabited

namespace DocComment

/-- A comment without the marker it starts with and without one space after that. -/
def strip (marker text : String) : String :=
  let withoutMarker :=
    if marker.toList.isPrefixOf text.toList then text.toList.drop marker.length else text.toList
  match withoutMarker with
  | ' ' :: rest => String.ofList rest
  | rest => String.ofList rest

/-- **One more piece of trivia.** A documentation comment starts anew, a plain comment continues the
comment that is attached, and an empty line detaches it. -/
def add (d : DocComment) (piece : Trivia) : DocComment :=
  match piece, d.lines with
  | .docComment text, _ => { d with lines := some [strip "-- |" text] }
  | .lineComment text, some lines => { d with lines := some (lines ++ [strip "--" text]) }
  | .lineComment _, none => d
  | .whitespace _, none => d
  | .whitespace _, some _ => if piece.hasBlankLine then ⟨none, true⟩ else d

/-- The documentation in a list of trivia. -/
def ofTrivia (trivia : List Trivia) : DocComment := trivia.foldl add ⟨none, false⟩

/-- The text of a comment that is attached. -/
def text? (d : DocComment) : Option String := d.lines.map (String.intercalate "\n")

/-- The warning about a detached comment. -/
def detachedMessage : String :=
  "doc comment is not attached to a declaration; remove the blank line after it"

end DocComment

end Futhark
