/-!
# Byte offsets into text

Source text is a list of characters, while positions in it are offsets into its UTF-8 encoding.
This module relates the two: `byteLength` measures characters in bytes, `splitAtByte?` cuts at an
offset that has to fall between two characters, and `upToByte` takes the characters that end at or
below an offset, whatever the offset is.
-/

namespace Futhark.Text

/-- **Encoded length.** The number of bytes the characters take in UTF-8. -/
def byteLength : List Char → Nat
  | [] => 0
  | c :: cs => c.utf8Size + byteLength cs

/-- **Exact cut.** The characters before and after byte `n`, or `none` when byte `n` is past the
end or inside a character. -/
def splitAtByte? : Nat → List Char → Option (List Char × List Char)
  | 0, cs => some ([], cs)
  | _ + 1, [] => none
  | n + 1, c :: cs =>
    if c.utf8Size ≤ n + 1 then
      (splitAtByte? (n + 1 - c.utf8Size) cs).map fun (before, after) => (c :: before, after)
    else
      none

/-- **Rounded cut.** The longest run of leading characters that takes at most `n` bytes. An offset
inside a character is thereby rounded down to where that character starts, and an offset past the
end to the end. -/
def upToByte : Nat → List Char → List Char
  | _, [] => []
  | n, c :: cs => if c.utf8Size ≤ n then c :: upToByte (n - c.utf8Size) cs else []

end Futhark.Text
