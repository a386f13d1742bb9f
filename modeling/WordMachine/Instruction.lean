/-
WordMachine/Instruction.lean

What an instruction is: a number of operands and a function of them.

Design.  An instruction never sees the stack.  It is handed exactly the
operands it takes and the rest of the machine to look at, and it answers with
a fault or with an `Effect`, a description of what is to happen: the elements
to push, the range of memory to read or write, where the program counter goes,
whether the machine stops.  Nothing has happened yet when it answers.  So what
holds for all instructions, such as that elements below the operands stay as
they are or that a fault leaves memory alone, holds by the shape of the type,
and one place carries effects out.
-/
import WordMachine.Gas
import WordMachine.Memory
import WordMachine.Stack

namespace WordMachine

/-- The parts of a machine that an instruction may look at. -/
structure Context where
  /-- The program. -/
  code : Bytes
  /-- The input of the call. -/
  calldata : Bytes
  /-- The position of the current instruction in the code. -/
  pc : Nat
  memory : Memory

/-- A value that an instruction consumed or produced, kept for the trace. -/
inductive Operand where
  /-- An element as it was taken from the stack. -/
  | element (e : Element)
  /-- An operand already read as a number. -/
  | number (w : Word)
  /-- The words by which memory grew. -/
  | words (n : Nat)
  deriving DecidableEq

/-- The text of an operand in a trace. -/
def Operand.text : Operand → String
  | element e => e.text
  | number w => toString w.toNat
  | words n => "+" ++ toString n ++ "w"

/-- The use an instruction makes of memory. -/
inductive Access where
  | none
  /-- The range is read, and memory grows to cover it. -/
  | read {size : Nat} (span : Span size)
  /-- The range is overwritten. -/
  | write {size : Nat} (span : Span size) (data : Vector UInt8 size)

/-- The memory that an access leaves. -/
def Memory.after (m : Memory) : Access → Memory
  | .none => m
  | .read span => m.touch span
  | .write span data => m.write span data

/-- What an instruction does to the machine. -/
structure Effect where
  /-- The gas spent. -/
  gas : Nat
  /-- The elements pushed, the first of them ending on top. -/
  results : List Element := []
  /-- What the trace shows of the instruction. -/
  operands : List Operand := []
  access : Access := .none
  /-- Where the program counter goes, if it moves. -/
  goto? : Option Nat := Option.none
  /-- Whether the machine stops. -/
  stops : Bool := false

/-- An instruction: how many elements it takes, and what it does given them,
top first. -/
structure Instruction where
  arity : Nat
  act : Vector Element arity → Context → Except Fault Effect

namespace Instruction

/-! ### Instructions by their number of operands -/

/-- An instruction without operands. -/
def nullary (act : Context → Except Fault Effect) : Instruction where
  arity := 0
  act _ := act

/-- An instruction of one operand. -/
def unary (act : Element → Context → Except Fault Effect) : Instruction where
  arity := 1
  act x := act (x.get ⟨0, Nat.zero_lt_one⟩)

/-- An instruction of two operands, the upper one first. -/
def binary (act : Element → Element → Context → Except Fault Effect) :
    Instruction where
  arity := 2
  act x := act (x.get ⟨0, by decide⟩) (x.get ⟨1, by decide⟩)

/-- An instruction of three operands, the topmost first. -/
def ternary (act : Element → Element → Element → Context → Except Fault Effect) :
    Instruction where
  arity := 3
  act x := act (x.get ⟨0, by decide⟩) (x.get ⟨1, by decide⟩) (x.get ⟨2, by decide⟩)

theorem unary_act (act : Element → Context → Except Fault Effect) (a : Element)
    (ctx : Context) : (unary act).act #v[a] ctx = act a ctx := rfl

theorem binary_act (act : Element → Element → Context → Except Fault Effect)
    (a b : Element) (ctx : Context) : (binary act).act #v[a, b] ctx = act a b ctx := rfl

theorem ternary_act (act : Element → Element → Element → Context → Except Fault Effect)
    (a b c : Element) (ctx : Context) :
    (ternary act).act #v[a, b, c] ctx = act a b c ctx := rfl

/-! ### Instructions on the stack alone -/

/-- Pushes a word that depends on the machine only. -/
def constant (w : Context → Word) : Instruction :=
  nullary fun ctx => .ok { gas := Gas.base, results := [.ofWord (w ctx)] }

/-- Replaces two elements by a function of their words. -/
def combine (gas : Nat) (f : Word → Word → Word) : Instruction :=
  binary fun a b _ => .ok
    { gas
      results := [.ofWord (f a.word b.word)]
      operands := [.element a, .element b] }

/-- Replaces three elements by a function of their words. -/
def combineModulo (gas : Nat) (f : Word → Word → Word → Word) : Instruction :=
  ternary fun a b n _ => .ok
    { gas
      results := [.ofWord (f a.word b.word n.word)]
      operands := [.element a, .element b, .element n] }

/-- The power, whose price depends on the exponent. -/
def power : Instruction :=
  binary fun base exponent _ => .ok
    { gas := Gas.exp exponent.word
      results := [.ofWord (Word.exp base.word exponent.word)]
      operands := [.element base, .element exponent] }

/-- Sign extension; the trace shows the size as a number. -/
def signExtend : Instruction :=
  binary fun size value _ => .ok
    { gas := Gas.low
      results := [.ofWord (Word.signExtend size.word value.word)]
      operands := [.number size.word, .element value] }

/-- Comparison with zero. -/
def isZero : Instruction :=
  unary fun value _ => .ok
    { gas := Gas.veryLow
      results := [.ofWord (Word.isZero value.word)]
      operands := [.element value] }

/-- The complement, which the trace shows nothing of. -/
def complement : Instruction :=
  unary fun value _ => .ok
    { gas := Gas.veryLow, results := [.ofWord (~~~value.word)] }

/-- Drops the top element. -/
def drop : Instruction :=
  unary fun _ _ => .ok { gas := Gas.base }

/-- Copies the element `below` places below the top to the top. -/
def duplicate (below : Nat) : Instruction where
  arity := below + 1
  act x _ := .ok
    { gas := Gas.veryLow
      results := x.get ⟨below, Nat.lt_add_one below⟩ :: x.toList }

/-- Exchanges the top with the element `below + 1` places below it. -/
def exchange (below : Nat) : Instruction where
  arity := below + 2
  act x _ := .ok { gas := Gas.veryLow, results := (x.swap 0 (below + 1)).toList }

/-- Pushes the number written in the next `size` bytes of the code, as many of
them as there are, and moves onto the last of the `size`. -/
def immediate (size : Nat) : Instruction :=
  nullary fun ctx =>
    let digits := ctx.code.extract (ctx.pc + 1) (ctx.pc + 1 + size)
    .ok
      { gas := if size = 0 then Gas.base else Gas.veryLow
        results := [.ofWord (BitVec.ofNat 256 (Bytes.value digits))]
        goto? := some (ctx.pc + size) }

/-! ### Input, storage and memory -/

/-- Reads a word of the call's input. -/
def inputWord : Instruction :=
  unary fun offset ctx => .ok
    { gas := Gas.veryLow
      results := [⟨ctx.calldata.window offset.word.toOffsetClamped Bytes.wordSize⟩]
      operands := [.element offset] }

/-- The largest number of bytes one copy may move. -/
def copyLimit : Nat := 256

/-- Copies a range of a source, continued by zeros, into memory.  The size is
checked before anything else. -/
def copy (opcode : UInt8) (source : Context → Bytes) : Instruction :=
  ternary fun destination start size ctx =>
    if size.word.toNat ≤ copyLimit then do
      let data := (source ctx).window start.word.toOffsetClamped size.word.toNat
      let span ← Span.ofRange destination.word data.size
      return {
        gas := Gas.copy
        operands := [.words (ctx.memory.growth span)]
        access := .write span data.toVector }
    else .error (.copyTooLarge opcode size.word copyLimit)

/-- Reads a word of memory. -/
def loadWord : Instruction :=
  unary fun offset ctx => do
    let span ← Span.ofWord offset.word Bytes.wordSize
    return {
      gas := Gas.memoryLoad
      results := [⟨(ctx.memory.slice span).toArray⟩]
      operands := [.words (ctx.memory.growth span)]
      access := .read span }

/-- Writes an element to memory byte for byte. -/
def storeElement : Instruction :=
  binary fun offset value _ => do
    let span ← Span.ofWord offset.word value.bytes.size
    return { gas := Gas.veryLow, access := .write span value.bytes.toVector }

/-- Writes the lowest byte of a word to memory. -/
def storeLowByte : Instruction :=
  binary fun offset value _ => do
    let span ← Span.ofWord offset.word 1
    return {
      gas := Gas.veryLow
      access := .write span #v[UInt8.ofNat value.word.toNat] }

/-- Replaces a range of memory by its digest.  A size beyond the capacity of
memory is reported as the largest size there is. -/
def hash (digest : Bytes → Vector UInt8 32) : Instruction :=
  binary fun offset size ctx =>
    if size.word.toNat ≤ Memory.capacity then do
      let span ← Span.ofRange offset.word size.word.toNat
      return {
        gas := Gas.keccak size.word.toNat
        results := [⟨(digest (ctx.memory.slice span).toArray).toArray⟩]
        operands := [.words (ctx.memory.growth span)]
        access := .read span }
    else
      .error (.memoryLimitExceeded offset.word (Word.offsetBound - 1) Memory.capacity)

/-- Reads a storage slot.  No storage is kept, so every slot holds zero. -/
def storageSlot : Instruction :=
  unary fun _ _ => .ok { gas := Gas.storageLoad, results := [.zero] }

/-! ### Control flow -/

/-- Stops the machine. -/
def stop (gas : Nat) : Instruction :=
  nullary fun _ => .ok { gas, stops := true }

/-- The marker of a jump destination does nothing. -/
def marker : Instruction :=
  nullary fun _ => .ok { gas := Gas.jumpDestination }

/-- The byte that marks a jump destination. -/
def markerByte : UInt8 := 0x5b

/-- The position in the code that a word names, if the byte there is a marker.
It does not matter whether the marker is data behind a push. -/
def target? (ctx : Context) (destination : Word) : Option Nat :=
  destination.toOffset?.filter fun position => ctx.code[position]? == some markerByte

/-- Moves the program counter to a marked position. -/
def jumpTo (opcode : UInt8) (gas : Nat) (destination : Word) (ctx : Context) :
    Except Fault Effect :=
  match target? ctx destination with
  | some position => .ok { gas, goto? := some position }
  | none => .error (.invalidJump opcode ctx.pc destination)

/-- Jumps. -/
def jump (opcode : UInt8) : Instruction :=
  unary fun destination ctx => jumpTo opcode Gas.mid destination.word ctx

/-- Jumps unless the condition is zero, and then moves on to the next byte
without a look at the destination. -/
def jumpIf (opcode : UInt8) : Instruction :=
  binary fun destination condition ctx =>
    if condition.word = 0 then .ok { gas := Gas.high, goto? := some (ctx.pc + 1) }
    else jumpTo opcode Gas.high destination.word ctx

end Instruction

end WordMachine
