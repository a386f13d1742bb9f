/-
WordMachine/Text/Grouped.lean

Numbers with their digits grouped by threes, and the reader for numbers that
people type, which does not mind where the separators stand.
-/
import WordMachine.Word

namespace WordMachine.Text.Grouped

/-- What stands before the digit that comes after `i` of all digits: a comma if
the digit is not the first and the number of digits from it on is a multiple of
three. -/
def comma (total i : Nat) : List Char :=
  if 0 < i ∧ (total - i) % 3 = 0 then [','] else []

/-- Digits with the commas between them. -/
def separate (digits : List Char) : List Char :=
  digits.zipIdx.flatMap fun (c, i) => comma digits.length i ++ [c]

/-- The text of a number with separators. -/
def text (n : Nat) : String := String.ofList (separate (toString n).toList)

/-- The value of a string of decimal digits, at least one. -/
def digits? (s : List Char) : Option Nat :=
  if s.isEmpty || !s.all Char.isDigit then none
  else some (s.foldl (fun n c => 10 * n + (c.toNat - '0'.toNat)) 0)

/-- The number of 64 bits that a text stands for: commas do not count, and a
plus sign may stand in front of the digits. -/
def read? (s : String) : Option Nat :=
  let typed := s.toList.filter (· != ',')
  let unsigned := match typed with
    | '+' :: rest => rest
    | rest => rest
  (digits? unsigned).filter (· < Word.offsetBound)

end WordMachine.Text.Grouped
