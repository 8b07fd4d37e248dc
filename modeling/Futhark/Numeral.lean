/-!
# Numeric literals

A literal keeps the digits it was written with, in its own base and without the `_` separators, and
its type suffix. Nothing is rounded: an integer has a value only when asked for one, and a
floating-point literal never has.
-/

namespace Futhark

/-! ### Bases -/

/-- The base of a numeric literal. -/
inductive Radix where
  | binary
  | decimal
  | hexadecimal
deriving DecidableEq, Repr, Inhabited

namespace Radix

/-- What a literal of this base starts with in source text. -/
def marker : Radix → String
  | binary => "0b"
  | decimal => ""
  | hexadecimal => "0x"

/-- The base as a number. -/
def base : Radix → Nat
  | binary => 2
  | decimal => 10
  | hexadecimal => 16

end Radix

namespace Numeral

/-- **Value of a digit** among `0`–`9`, `a`–`z` and `A`–`Z`, if it is below the base. -/
def digitValue? (base : Nat) (c : Char) : Option Nat :=
  let value? :=
    if '0' ≤ c ∧ c ≤ '9' then some (c.toNat - '0'.toNat)
    else if 'a' ≤ c ∧ c ≤ 'z' then some (c.toNat - 'a'.toNat + 10)
    else if 'A' ≤ c ∧ c ≤ 'Z' then some (c.toNat - 'A'.toNat + 10)
    else none
  value?.filter (· < base)

/-- Whether `c` is a digit of the base. -/
def isDigitOf (base : Nat) (c : Char) : Bool := (digitValue? base c).isSome

/-- **Positional value** of a digit sequence read after a number already read as `acc`. -/
def valueFrom? (base : Nat) : Nat → List Char → Option Nat
  | acc, [] => some acc
  | acc, c :: cs => do
    let d ← digitValue? base c
    valueFrom? base (acc * base + d) cs

/-- **Value of a number's text**: an optional `+` and at least one digit. -/
def value? (base : Nat) : List Char → Option Nat
  | [] => none
  | '+' :: c :: cs => valueFrom? base 0 (c :: cs)
  | cs => valueFrom? base 0 cs

end Numeral

/-! ### Integers -/

/-- Type suffix of an integer literal, as in `42i64`. -/
inductive IntSuffix where
  | i8 | i16 | i32 | i64
  | u8 | u16 | u32 | u64
deriving DecidableEq, Repr, Inhabited

namespace IntSuffix

/-- The spelling of a suffix. -/
def text : IntSuffix → String
  | i8 => "i8"
  | i16 => "i16"
  | i32 => "i32"
  | i64 => "i64"
  | u8 => "u8"
  | u16 => "u16"
  | u32 => "u32"
  | u64 => "u64"

/-- Every integer suffix. -/
def all : List IntSuffix := [i8, i16, i32, i64, u8, u16, u32, u64]

/-- The suffix with a given spelling. -/
def ofText? (text : String) : Option IntSuffix := all.find? (·.text == text)

end IntSuffix

/-- **An integer literal.** `digits` stand in the literal's own base, without its marker and
without separators: `0xff_ffu8` has digits `ffff`. -/
structure IntLiteral where
  digits : String
  radix : Radix
  suffix : Option IntSuffix
deriving DecidableEq, Repr, Inhabited

namespace IntLiteral

/-- The decimal literal with these digits and no suffix. -/
def plain (digits : String) : IntLiteral := ⟨digits, .decimal, none⟩

/-- Whether the literal is decimal with no suffix, as in `[3]` or `p.1`. -/
def isPlain (n : IntLiteral) : Bool := n.radix == .decimal && n.suffix.isNone

/-- The literal's value, if it fits in 64 bits. -/
def value? (n : IntLiteral) : Option Nat :=
  (Numeral.value? n.radix.base n.digits.toList).filter (· < UInt64.size)

/-- **Normalised spelling**: the base's marker, the digits, the suffix. -/
def text (n : IntLiteral) : String :=
  n.radix.marker ++ n.digits ++ (n.suffix.map IntSuffix.text).getD ""

end IntLiteral

/-! ### Floating point -/

/-- Type suffix of a floating-point literal, as in `1.5f32`. -/
inductive FloatSuffix where
  | f16 | f32 | f64
deriving DecidableEq, Repr, Inhabited

namespace FloatSuffix

/-- The spelling of a suffix. -/
def text : FloatSuffix → String
  | f16 => "f16"
  | f32 => "f32"
  | f64 => "f64"

/-- Every floating-point suffix. -/
def all : List FloatSuffix := [f16, f32, f64]

/-- The suffix with a given spelling. -/
def ofText? (text : String) : Option FloatSuffix := all.find? (·.text == text)

end FloatSuffix

/-- **A floating-point literal.** The exponent keeps its sign; no part holds separators. -/
structure FloatLiteral where
  radix : Radix
  whole : String
  fraction : Option String
  exponent : Option String
  suffix : Option FloatSuffix
deriving DecidableEq, Repr, Inhabited

namespace FloatLiteral

/-- **Normalised spelling.** A hexadecimal exponent is marked by `p`, any other by `e`. -/
def text (x : FloatLiteral) : String :=
  let exponentMarker := if x.radix = .hexadecimal then "p" else "e"
  x.radix.marker ++ x.whole
    ++ (x.fraction.map ("." ++ ·)).getD ""
    ++ (x.exponent.map (exponentMarker ++ ·)).getD ""
    ++ (x.suffix.map FloatSuffix.text).getD ""

end FloatLiteral

end Futhark
