/-!
# Splitting text

A text with `n` separators has `n + 1` parts; the separators themselves belong to none of them.
-/

namespace Futhark.Text

/-- **Parts between separators.** There is always at least one, which may be empty. -/
def splitChars (separator : Char) : List Char → List (List Char)
  | [] => [[]]
  | c :: cs =>
    if c = separator then
      [] :: splitChars separator cs
    else
      match splitChars separator cs with
      | [] => [[c]]
      | part :: parts => (c :: part) :: parts

/-- The parts of a string between separators. -/
def split (separator : Char) (text : String) : List String :=
  (splitChars separator text.toList).map String.ofList

end Futhark.Text
