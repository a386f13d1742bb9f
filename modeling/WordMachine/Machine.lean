/-
WordMachine/Machine.lean

The machine: the context that instructions look at, a stack, and a flag that
says whether it has stopped.  Code and call data never change.  The flag is
only ever raised.
-/
import WordMachine.Instruction
import WordMachine.Opcode

namespace WordMachine

/-- A machine. -/
structure Machine extends Context where
  stack : Stack
  /-- Whether the machine has come to a halt. -/
  stopped : Bool

namespace Machine

/-- A machine at the start of its code.  Without code it has stopped. -/
def start (code calldata : Bytes) : Machine where
  code
  calldata
  pc := 0
  memory := .empty
  stack := .empty
  stopped := code.isEmpty

/-- A machine whose code is given as hexadecimal text. -/
def ofHexText (code : String) (calldata : Bytes) : Except Fault Machine :=
  (Bytes.ofHexText code).map fun code => start code calldata

/-- The machine stopped. -/
def halt (m : Machine) : Machine := { m with stopped := true }

/-- The machine stopped if its program counter is past the end of the code. -/
def haltAtEnd (m : Machine) : Machine :=
  if m.code.size ≤ m.pc then m.halt else m

/-- The machine with its program counter moved. -/
def setPc (pc : Nat) (m : Machine) : Machine := haltAtEnd { m with pc }

@[simp] theorem code_haltAtEnd (m : Machine) : m.haltAtEnd.code = m.code := by
  unfold haltAtEnd
  split <;> rfl

@[simp] theorem calldata_haltAtEnd (m : Machine) : m.haltAtEnd.calldata = m.calldata := by
  unfold haltAtEnd
  split <;> rfl

@[simp] theorem pc_haltAtEnd (m : Machine) : m.haltAtEnd.pc = m.pc := by
  unfold haltAtEnd
  split <;> rfl

@[simp] theorem stack_haltAtEnd (m : Machine) : m.haltAtEnd.stack = m.stack := by
  unfold haltAtEnd
  split <;> rfl

theorem stopped_haltAtEnd_iff (m : Machine) :
    m.haltAtEnd.stopped = true ↔ m.stopped = true ∨ m.code.size ≤ m.pc := by
  unfold haltAtEnd
  split
  · next hend => exact iff_of_true rfl (.inr hend)
  · next hend => exact (or_iff_left hend).symm

/-- The byte at the program counter, if there is one. -/
def currentOp? (m : Machine) : Option UInt8 := m.code[m.pc]?

/-- The dump of a machine. -/
def text (m : Machine) : String :=
  let op := (m.currentOp?.map Opcode.nameOfByte).getD "-"
  "Vm:\n .pc = 0x" ++ Text.Hex.number 1 m.pc ++ " | " ++ op
    ++ "\n .stopped = " ++ (if m.stopped then "true" else "false")
    ++ "\n .stack = " ++ m.stack.text
    ++ "\n .memory = " ++ m.memory.text

end Machine

end WordMachine
