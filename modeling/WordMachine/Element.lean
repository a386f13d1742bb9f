/-
WordMachine/Element.lean

The items on the operand stack.  An item is a byte string of any length: a
machine working on its own only ever pushes 32-byte words, but a caller may
push anything, and an item is handed on byte for byte until an operation asks
for its number.  The number is that of the last 32 bytes.
-/
import WordMachine.Text.Hex

namespace WordMachine

/-- An item of the operand stack. -/
structure Element where
  /-- The bytes of the item, most significant first. -/
  bytes : Bytes
  deriving DecidableEq

namespace Element

/-- A word as an item of 32 bytes. -/
def ofWord (w : Word) : Element := ⟨Bytes.ofWord w⟩

/-- The item pushed for zero. -/
def zero : Element := ofWord 0

/-- The item read as a word. -/
def word (e : Element) : Word := e.bytes.toWord

/-- Whether the item has the length of a word. -/
def isWord (e : Element) : Bool := e.bytes.size == Bytes.wordSize

theorem isWord_iff (e : Element) : e.isWord = true ↔ e.bytes.size = Bytes.wordSize :=
  beq_iff_eq

@[simp] theorem isWord_ofWord (w : Word) : (ofWord w).isWord = true :=
  (isWord_iff _).mpr (Bytes.size_ofWord w)

/-- The hexadecimal text of the item. -/
def text (e : Element) : String := Text.Hex.encode e.bytes

end Element

/-- The text of a byte string labelled with what it is. -/
def Bytes.labelled (label : String) (b : Bytes) : String :=
  label ++ "(" ++ Text.Hex.encode b ++ ")"

end WordMachine
