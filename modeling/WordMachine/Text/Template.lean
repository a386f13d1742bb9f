/-
WordMachine/Text/Template.lean

Templates of messages: texts with placeholders in braces.  A placeholder names
its argument, or gives its number, and may carry a format behind a colon.

Both functions look for placeholders by their spelling alone: `{name}`, or
`{name:` for one with a format.  `named` turns the numbers below a bound into
names, replacing every occurrence of one spelling after the other, the highest
number first.
-/
namespace WordMachine.Text.Template

/-! ### Searching and replacing -/

/-- Whether a pattern occurs in a text. -/
def occurs (pattern : List Char) : List Char → Bool
  | [] => pattern.isEmpty
  | c :: cs => pattern.isPrefixOf (c :: cs) || occurs pattern cs

/-- Replaces the occurrences of a pattern from left to right; an occurrence
begins only after the one before it has ended.  The pattern is not empty. -/
def replace (pattern new : List Char) : List Char → List Char
  | [] => []
  | c :: cs =>
    if pattern.isPrefixOf (c :: cs) then
      new ++ replace pattern new (cs.drop (pattern.length - 1))
    else c :: replace pattern new cs
  termination_by s => s.length
  decreasing_by
    · simp only [List.length_drop, List.length_cons]; omega
    · simp

/-! ### Placeholders -/

/-- The spelling of a placeholder without a format. -/
def plain (name : List Char) : List Char := '{' :: name ++ ['}']

/-- The beginning of a placeholder with a format. -/
def formatted (name : List Char) : List Char := '{' :: name ++ [':']

/-- Whether a template contains a placeholder for a name. -/
def mentions (template name : String) : Bool :=
  occurs (plain name.toList) template.toList
    || occurs (formatted name.toList) template.toList

/-- The digits of a number. -/
def digits (i : Nat) : List Char := (toString i).toList

/-- The name given to the argument with a number. -/
def fieldName (i : Nat) : List Char := 'f' :: digits i

/-- Names the argument with one number. -/
def nameField (s : List Char) (i : Nat) : List Char :=
  replace (formatted (digits i)) (formatted (fieldName i))
    (replace (plain (digits i)) (plain (fieldName i)) s)

/-- Names the arguments with the numbers below `count`, the last one first. -/
def named (template : String) (count : Nat) : String :=
  String.ofList ((List.range count).reverse.foldl nameField template.toList)

end WordMachine.Text.Template
