/-
WordMachine/Proofs/Surroundings.lean

How much of its surroundings an instruction looks at.

Every instruction is handed code and input in full, and hardly any of them
looks.  `Opcode.readsCode` and `Opcode.readsInput` name the opcodes that do.  To
all others a context is its program counter and its memory (`act_congr`), so
what is to be shown of a machine whose code or whose input is replaced comes
down to a handful of opcodes.
-/
import WordMachine.Proofs.Effects

namespace WordMachine

namespace Opcode

/-- The opcodes whose instruction looks at the code. -/
def readsCode : Opcode → Bool
  | push _ | jump | jumpi | codesize | codecopy => true
  | _ => false

/-- The opcodes whose instruction looks at the input. -/
def readsInput : Opcode → Bool
  | calldataload | calldatasize | calldatacopy => true
  | _ => false

end Opcode

/-- A jump looks at the code and, for its fault, at the program counter. -/
theorem Instruction.jumpTo_congr {ctx ctx' : Context} (hpc : ctx'.pc = ctx.pc)
    (hcode : ctx'.code = ctx.code) (opcode : UInt8) (gas : Nat) (destination : Word) :
    jumpTo opcode gas destination ctx' = jumpTo opcode gas destination ctx := by
  simp only [jumpTo, target?, hpc, hcode]

/-- **An instruction does the same wherever it finds the same.**  Only for the
opcodes that look at them do code and input have to agree. -/
theorem act_congr {op : Opcode} {i : Instruction} (hi : op.instruction? = some i)
    (es : Vector Element i.arity) {ctx ctx' : Context} (hpc : ctx'.pc = ctx.pc)
    (hmemory : ctx'.memory = ctx.memory)
    (hcode : op.readsCode = true → ctx'.code = ctx.code)
    (hinput : op.readsInput = true → ctx'.calldata = ctx.calldata) :
    i.act es ctx' = i.act es ctx := by
  obtain ⟨code, calldata, pc, memory⟩ := ctx
  obtain ⟨code', calldata', pc', memory'⟩ := ctx'
  obtain rfl : pc' = pc := hpc
  obtain rfl : memory' = memory := hmemory
  cases op with
  | jump =>
    cases hi
    simp only [Instruction.jump, Instruction.unary]
    rw [Instruction.jumpTo_congr]
    · rfl
    · exact hcode rfl
  | jumpi =>
    cases hi
    simp only [Instruction.jumpIf, Instruction.binary]
    rw [Instruction.jumpTo_congr]
    · rfl
    · exact hcode rfl
  | push _ | codesize | codecopy =>
    obtain rfl : code' = code := hcode rfl
    cases hi
    rfl
  | calldataload | calldatasize | calldatacopy =>
    obtain rfl : calldata' = calldata := hinput rfl
    cases hi
    rfl
  | _ =>
    -- no instruction at all, or one whose definition mentions neither
    cases hi <;> rfl

end WordMachine
