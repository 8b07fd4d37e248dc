import Futhark.Text.Bytes

/-!
# Source spans

Tokens, tree nodes and errors all carry a `Span`: a range of byte offsets, its end exclusive. Line
and column numbers are not stored; `Span.position` works them out from the text on demand.
-/

namespace Futhark

/-- **A range of byte offsets** into a source text, `stop` exclusive. Offsets are meant to
fit into 32 bits, so texts of more than 4 GiB are not supported. In such a text, offsets of 32 bits
would wrap around (`Span.ofRange`), and these do not. -/
structure Span where
  start : Nat
  stop : Nat
deriving DecidableEq, Repr, Inhabited

/-- **A place in a text** as people read it: line and column, both counted from one. Columns count
characters, not bytes. -/
structure Position where
  line : Nat
  column : Nat
deriving DecidableEq, Repr, Inhabited

namespace Position

/-- Written `line:column`. -/
def describe (p : Position) : String := toString p.line ++ ":" ++ toString p.column

end Position

namespace Span

/-! ### Building spans -/

/-- **The empty span** at an offset, the place of the end of input. -/
def point (offset : Nat) : Span := ⟨offset, offset⟩

/-- **A span from a range of any size.** Offsets are 32 bits wide, so larger ones lose their high
bits. -/
def ofRange (start stop : Nat) : Span := ⟨start % UInt32.size, stop % UInt32.size⟩

/-- **Cover.** The smallest span that covers both. -/
def merge (s t : Span) : Span := ⟨min s.start t.start, max s.stop t.stop⟩

/-! ### Asking about spans -/

/-- The number of bytes covered; a span that ends before it starts has none. -/
def length? (s : Span) : Option Nat :=
  if s.start ≤ s.stop then some (s.stop - s.start) else none

/-- Whether the span covers nothing at all. -/
def isEmpty (s : Span) : Bool := s.start == s.stop

/-- Whether `t` lies inside `s`. -/
def contains (s t : Span) : Bool := s.start ≤ t.start && t.stop ≤ s.stop

/-- **Covered text.** The text a span covers, if its ends lie between characters of the source. -/
def text? (s : Span) (source : String) : Option String :=
  if s.start ≤ s.stop then do
    let (_, after) ← Text.splitAtByte? s.start source.toList
    let (inside, _) ← Text.splitAtByte? (s.stop - s.start) after
    return String.ofList inside
  else
    none

/-- **Position of the start.** The line is one more than the line breaks before the start, the
column one more than the characters since the last of them. -/
def position (s : Span) (source : String) : Position :=
  let before := Text.upToByte s.start source.toList
  { line := before.count '\n' + 1
    column := (before.reverse.takeWhile (· != '\n')).length + 1 }

end Span

end Futhark
