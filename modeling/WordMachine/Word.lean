/-
WordMachine/Word.lean

The 256-bit words the machine computes with, and every operation an opcode
performs on them.  Words are bit vectors, so addition, subtraction,
multiplication and the bitwise operations are those of the library, reduced
modulo `2^256`; the signed reading of a word is its two's-complement value
`BitVec.toInt`.

Three conventions hold throughout.  Division and remainder by zero give zero.
A shift by `256` bits or more shifts everything out, whatever the amount.  A
comparison answers with the word one or the word zero.
-/
namespace WordMachine

/-- A machine word: 256 bits. -/
abbrev Word := BitVec 256

namespace Word

/-- A truth value as a word: one or zero. -/
def flag (b : Bool) : Word := if b then 1 else 0

/-! ### Words as offsets -/

/-- Offsets are 64-bit numbers: they lie below this bound, `2^64`. -/
def offsetBound : Nat := 18446744073709551616

/-- The word as an offset, when it is small enough to be one. -/
def toOffset? (w : Word) : Option Nat :=
  if w.toNat < offsetBound then some w.toNat else none

/-- The word as an offset, with every larger word read as the last offset. -/
def toOffsetClamped (w : Word) : Nat :=
  w.toOffset?.getD (offsetBound - 1)

/-- The sum of two offsets, or the last offset if that is less. -/
def offsetAdd (a b : Nat) : Nat := min (a + b) (offsetBound - 1)

/-! ### Division -/

/-- Unsigned quotient, zero for a zero divisor. -/
def div (a b : Word) : Word := if b = 0 then 0 else a / b

/-- Unsigned remainder, zero for a zero divisor. -/
def mod (a b : Word) : Word := if b = 0 then 0 else a % b

/-- Signed quotient truncated toward zero, zero for a zero divisor: that of the
absolute values, negated if the signs differ.  The one quotient out of range,
`-2^255 / -1`, wraps back to `-2^255`. -/
def sdiv (a b : Word) : Word :=
  if b = 0 then 0
  else
    let quotient := a.abs / b.abs
    if a.msb != b.msb then -quotient else quotient

/-- Signed remainder, zero for a zero divisor: that of the absolute values, with
the sign of the dividend. -/
def smod (a b : Word) : Word :=
  if b = 0 then 0
  else
    let remainder := a.abs % b.abs
    if a.msb then -remainder else remainder

/-- The sum modulo `n`, computed without losing the carry; zero for `n = 0`. -/
def addMod (a b n : Word) : Word :=
  if n = 0 then 0 else BitVec.ofNat 256 ((a.toNat + b.toNat) % n.toNat)

/-- The product modulo `n`, computed at full width; zero for `n = 0`. -/
def mulMod (a b n : Word) : Word :=
  if n = 0 then 0 else BitVec.ofNat 256 (a.toNat * b.toNat % n.toNat)

/-! ### Powers -/

/-- Power by repeated squaring, for exponents of at most `bits` bits. -/
def powBits : (bits : Nat) → Word → Nat → Word
  | 0, _, _ => 1
  | bits + 1, base, e =>
    let rest := powBits bits (base * base) (e / 2)
    if e % 2 = 1 then base * rest else rest

/-- The power of one word by another. -/
def exp (base exponent : Word) : Word :=
  powBits 256 base exponent.toNat

/-! ### Comparisons -/

/-- Unsigned "less than". -/
def lt (a b : Word) : Word := flag (a.ult b)

/-- Unsigned "greater than". -/
def gt (a b : Word) : Word := flag (b.ult a)

/-- Signed "less than". -/
def slt (a b : Word) : Word := flag (BitVec.slt a b)

/-- Signed "greater than". -/
def sgt (a b : Word) : Word := flag (BitVec.slt b a)

/-- Equality. -/
def eq (a b : Word) : Word := flag (a == b)

/-- Equality with zero. -/
def isZero (a : Word) : Word := flag (a == 0)

/-! ### Shifts, bytes and sign extension -/

/-- Left shift. -/
def shl (shift value : Word) : Word :=
  if shift.toNat < 256 then value <<< shift.toNat else 0

/-- Logical right shift. -/
def shr (shift value : Word) : Word :=
  if shift.toNat < 256 then value >>> shift.toNat else 0

/-- Arithmetic right shift: the sign bit fills the places that fall free, and
from `256` bits on nothing but the sign is left.  Ones are filled in where the
complement is filled with zeros. -/
def sar (shift value : Word) : Word :=
  if shift.toNat < 256 then
    if value.msb then ~~~(~~~value >>> shift.toNat) else value >>> shift.toNat
  else if value.msb then BitVec.allOnes 256 else 0

/-- Byte `index` of a word counted from the most significant; zero past the
thirty-second. -/
def byteAt (index value : Word) : Word :=
  if index.toNat < 32 then (value >>> (8 * (31 - index.toNat))) &&& 0xff else 0

/-- The low `size + 1` bytes of a word read as a signed number and widened
again: their highest bit says whether the places above are cleared or filled.  A
size of `31` or more already names the whole word. -/
def signExtend (size value : Word) : Word :=
  if size.toNat < 31 then
    let signBit := (1 : Word) <<< (8 * size.toNat + 7)
    let mask := signBit - 1
    if value &&& signBit = 0 then value &&& mask else value ||| ~~~mask
  else value

/-- The number of bits of a word without its leading zeros. -/
def bitLength (w : Word) : Nat :=
  if w = 0 then 0 else w.toNat.log2 + 1

end Word

end WordMachine
