/-
WordMachine/Text/Hex.lean

Byte strings as hexadecimal text.  A byte is written as two digits, high half
first, in lower case; a reader takes digits of either case, two for each byte
and nothing else.

Input text may carry white space around the digits and one `0x` or `0X` in
front of them; `payload` is what is left without these.
-/
import WordMachine.Bytes
import WordMachine.Text.Blank

namespace WordMachine.Text.Hex

/-! ### Writing -/

/-- The two digits of a byte. -/
def pair (b : UInt8) : List Char :=
  [Nat.digitChar (b.toNat / 16), Nat.digitChar (b.toNat % 16)]

/-- The digits of a byte string, without a marker in front. -/
def digits (b : Bytes) : List Char := b.toList.flatMap pair

/-- The text of a byte string: the marker `0x` and its digits. -/
def encode (b : Bytes) : String := String.ofList ('0' :: 'x' :: digits b)

/-- The digits of a number in base sixteen, with zeros in front up to `width`. -/
def number (width n : Nat) : String :=
  let ds := Nat.toDigits 16 n
  String.ofList (List.replicate (width - ds.length) '0' ++ ds)

/-! ### Reading -/

/-- The value of a digit of either case. -/
def digit? (c : Char) : Option Nat :=
  if '0' ≤ c ∧ c ≤ '9' then some (c.toNat - '0'.toNat)
  else if 'a' ≤ c ∧ c ≤ 'f' then some (c.toNat - 'a'.toNat + 10)
  else if 'A' ≤ c ∧ c ≤ 'F' then some (c.toNat - 'A'.toNat + 10)
  else none

/-- Appends to `done` the bytes that the digits stand for, two digits a byte. -/
def decodeOnto (done : Bytes) : List Char → Option Bytes
  | [] => some done
  | [_] => none
  | hi :: lo :: rest =>
    match digit? hi, digit? lo with
    | some h, some l => decodeOnto (done.push (UInt8.ofNat (16 * h + l))) rest
    | _, _ => none

/-- The bytes that a text of digits stands for. -/
def decode (s : List Char) : Option Bytes := decodeOnto #[] s

/-- A text without one marker `0x` or `0X` in front. -/
def dropMarker : List Char → List Char
  | '0' :: 'x' :: rest => rest
  | '0' :: 'X' :: rest => rest
  | s => s

/-- The digits of an input text: white space and marker taken off. -/
def payload (s : String) : List Char := dropMarker (trim s.toList)

end WordMachine.Text.Hex
