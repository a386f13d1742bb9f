/-
WordMachine/Text/Align.lean

Text brought to a width.  A text that is already as wide stays as it is, so
nothing is ever cut off by aligning; cutting is `take`, and is asked for
separately.
-/
namespace WordMachine.Text

/-- Where a text stands within its width. -/
inductive Align where
  | left
  | right
  | centre
  deriving DecidableEq

/-- A text of `n` equal characters. -/
def repeated (n : Nat) (c : Char) : String := String.ofList (List.replicate n c)

/-- The text brought to a width by a filling character.  In the centre, an odd
filling character goes to the right. -/
def pad (align : Align) (fill : Char) (width : Nat) (s : String) : String :=
  let missing := width - s.length
  match align with
  | .left => s ++ repeated missing fill
  | .right => repeated missing fill ++ s
  | .centre => repeated (missing / 2) fill ++ s ++ repeated (missing - missing / 2) fill

/-- The text cut to its first `n` characters. -/
def cut (n : Nat) (s : String) : String := String.ofList (s.toList.take n)

/-- A number in decimal, with zeros in front up to a width. -/
def decimal (width n : Nat) : String := pad .right '0' width (toString n)

end WordMachine.Text
