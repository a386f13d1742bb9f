/-
WordMachine/Tracer/GasTable.lean

The table of the gas spent: a line for each category in which any was spent,
its amount and its share of the total, and the total.
-/
import WordMachine.Binary64
import WordMachine.Gas
import WordMachine.Text.Align
import WordMachine.Text.Grouped

namespace WordMachine.Tracer.GasTable

/-- What stands in the column of names on the last line. -/
def totalName : String := "total"

/-- The share of an amount in a total, in tenths of a percent.  Quotient and
percentage are both rounded to 53 bits before the tenths are. -/
def share (amount total : Nat) : Nat :=
  if amount = 0 then 0
  else
    (((Binary64.ofNat amount).div (Binary64.ofNat total)).mul (Binary64.ofNat 100)).tenths

/-- A percentage with one decimal place, in parentheses. -/
def percent (tenths : Nat) : String :=
  let number := toString (tenths / 10) ++ "." ++ toString (tenths % 10)
  "(" ++ Text.pad .right ' ' 5 number ++ "%)"

/-- The width of the column of names: two more than the longest name. -/
def nameWidth : Nat :=
  2 + (Category.all.map fun c => c.text.length).foldl max totalName.length

/-- The width of the column of amounts: that of the longest amount. -/
def amountWidth (p : Profile) : Nat :=
  (p.entries.map fun entry => (Text.Grouped.text entry.2).length).foldl max
    (Text.Grouped.text p.total).length

/-- A line of the table. -/
def row (width : Nat) (name : String) (amount tenths : Nat) : String :=
  Text.pad .left ' ' nameWidth name ++ " "
    ++ Text.pad .right ' ' width (Text.Grouped.text amount) ++ " " ++ percent tenths

/-- The lines of the table. -/
def lines (p : Profile) : List String :=
  let width := amountWidth p
  let rule := Text.repeated (nameWidth + 1 + width + 2 + "( 100.0%)".length) '-'
  let spent := p.entries.filter fun entry => entry.2 != 0
  ["Gas Profile:", rule]
    ++ spent.map (fun entry => row width entry.1.text entry.2 (share entry.2 p.total))
    ++ [rule, row width totalName p.total (if p.total = 0 then 0 else 1000)]

end WordMachine.Tracer.GasTable
