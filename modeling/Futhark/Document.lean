/-!
# Documents

Rendering a tree does not write text; it builds a `Document`, which is laid out at the end. Layout
is fixed: the only line breaks are those written as `line`, and `nest` says how far the lines that
start inside a document are indented.
-/

namespace Futhark

/-- **A document.** `text` holds words taken as they are from the tree or the grammar, `built` words
put together for the purpose; they are laid out alike. -/
inductive Document where
  | text (words : String)
  | built (words : String)
  | line
  | nest (indent : Int) (body : Document)
  | seq (parts : List Document)
  | nil
deriving Inhabited

namespace Document

/-- How much further the body of a module is indented than its braces. -/
def indentWidth : Int := 2

/-- **Row of documents.** The parts one after the other; when there are several and the first is
itself a sequence, the others are put at its end instead of beside it. -/
def row : List Document → Document
  | [] => .seq []
  | [d] => .seq [d]
  | .seq parts :: rest => .seq (parts ++ rest)
  | d :: rest => .seq (d :: rest)

/-- **Separated documents**: `separator` between each two; nothing at all when there are none. -/
def join (parts : List Document) (separator : Document) : Document :=
  match parts with
  | [] => .nil
  | parts => .seq (parts.intersperse separator)

/-! ### Layout -/

mutual

/-- **Layout** of a document whose lines start `indent` columns in. A negative indentation counts
as none. -/
def layoutAt (indent : Int) : Document → String
  | .text words => words
  | .built words => words
  | .line => "\n" ++ String.ofList (List.replicate indent.toNat ' ')
  | .nest extra body => layoutAt (indent + extra) body
  | .seq parts => layoutAllAt indent parts
  | .nil => ""

/-- The layouts of documents, one after the other. -/
def layoutAllAt (indent : Int) : List Document → String
  | [] => ""
  | d :: ds => layoutAt indent d ++ layoutAllAt indent ds

end

/-- The text of a document. -/
def layout (d : Document) : String := layoutAt 0 d

end Document

end Futhark
