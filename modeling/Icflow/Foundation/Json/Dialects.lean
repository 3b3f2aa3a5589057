import Icflow.Foundation.Json.Printer

set_option autoImplicit false

/-!
# JSON: two decoders

`byteDialect` is the strict decoder of the vendored C++ library: a string is a
sequence of UTF-8 bytes (one `Char` below 256 stands for one byte), every byte
sequence has to be well formed, and a surrogate needs its partner.
`codePointDialect` is Python's `json`: a string is a sequence of code points, lone
surrogates are kept, and the non-finite literals are numbers.

The C++ library also rejects a number that overflows, wherever it stands (`isFinite`).
-/

namespace Icflow.Foundation.Json

/-- The byte decoder of `json.hpp`. -/
def byteDialect : Dialect Char where
  raw := id
  continuation := utf8Continuation
  emit := utf8Bytes
  loneSurrogate := fun _ => none
  nonFinite := false

/-- Python's `json` decoder. -/
def codePointDialect : Dialect Nat where
  raw := Char.toNat
  continuation := fun _ => some []
  emit := fun point => [point]
  loneSurrogate := fun unit => some [unit]
  nonFinite := true

theorem byteDialect_asciiLawful : byteDialect.AsciiLawful where
  continuation := by
    intro c _ hc
    exact utf8Continuation_ascii hc
  emit := by
    intro c hc
    simp [byteDialect, utf8Bytes, hc]

theorem codePointDialect_asciiLawful : codePointDialect.AsciiLawful where
  continuation := by
    intro c _ _
    rfl
  emit := by
    intro c _
    rfl

/-! ## The numbers of `json.hpp` -/

/-- From here on `std::strtod` rounds to infinity: half a unit above the largest double. -/
def overflowBound : Nat := 2 ^ 1024 - 2 ^ 970

/-- The power of ten behind a number; nothing else follows its digits. -/
def exponentOf : List Char → Int
  | _ :: '-' :: digits => -(readDigits 10 0 0 digits).1
  | _ :: '+' :: digits => (readDigits 10 0 0 digits).1
  | _ :: digits => (readDigits 10 0 0 digits).1
  | [] => 0

/-- `std::isfinite` of what `std::strtod` reads. -/
def isFinite (lexeme : List Char) : Bool :=
  let unsigned := if lexeme.head? = some '-' then lexeme.tail else lexeme
  let (integer, _, behind) := readDigits 10 0 0 unsigned
  let (significand, decimals, rest) :=
    if behind.head? = some '.' then readDigits 10 integer 0 behind.tail else (integer, 0, behind)
  let exponent := exponentOf rest - decimals
  if 0 ≤ exponent then significand * 10 ^ exponent.toNat < overflowBound
  else significand < overflowBound * 10 ^ (-exponent).toNat

/-! ## The byte order mark -/

/-- `skip_bom` of `json.hpp`: a UTF-8 byte order mark is dropped.  A partial one
is left in place, where no token starts with it. -/
def skipBom : List Char → List Char
  | '\xEF' :: '\xBB' :: '\xBF' :: rest => rest
  | text => text

end Icflow.Foundation.Json
