/-
WordMachine/Machine/Step.lean

One step of a machine.

`exec` carries out one opcode: it finds the instruction, takes its operands
and carries out the effect.  `stepWith` is a whole step.  It fetches the
opcode, lets a hook have it first, and afterwards moves the program counter on
and stops the machine at the end of its code; jumps have moved the program
counter themselves.  Any fault stops the machine.

Design.  Results and machines are kept side by side, `Except Fault α ×
Machine`, so that a fault does not lose the machine it leaves behind.  A hook
is a function with a state of its own: it may answer for the opcode, with
whatever it has made of the machine, or leave it to `exec`.
-/
import WordMachine.Instruction.Table
import WordMachine.Machine

namespace WordMachine

/-- What carrying out an opcode reports. -/
structure Receipt where
  gas : Nat
  operands : List Operand
  deriving DecidableEq

/-- The record of a completed step. -/
structure Step extends Receipt where
  opcode : UInt8
  deriving DecidableEq

/-- The text of a step in a trace: name, gas and operands. -/
def Step.text (s : Step) : String :=
  let operands := ", ".intercalate (s.operands.map Operand.text)
  Opcode.nameOfByte s.opcode ++ " (gas " ++ toString s.gas ++ ")"
    ++ (if s.operands.isEmpty then "" else " " ++ operands)

/-- Consulted before every step, with a state of its own: given the opcode and
the machine, a hook answers for the step or leaves it to the machine. -/
abbrev Hook (σ : Type) :=
  UInt8 → σ → Machine → Option (Except Fault Receipt) × σ × Machine

/-- The hook that leaves every opcode to the machine. -/
def Hook.none : Hook Unit := fun _ s m => (.none, s, m)

namespace Machine

/-- The machine after an effect.  `rest` is the stack below the operands.  The
machine is taken apart first, so that its memory can be changed in place. -/
def apply (m : Machine) (e : Effect) (rest : Stack) : Machine :=
  let ⟨⟨code, calldata, pc, memory⟩, _, stopped⟩ := m
  { code
    calldata
    pc := e.goto?.getD pc
    memory := memory.after e.access
    stack := rest.pushAll e.results
    stopped := stopped || e.stops }

/-- Carries out an opcode where the program counter stands.  Operands are
taken first, so a fault of the instruction itself leaves the stack without
them. -/
def exec (op : UInt8) (m : Machine) : Except Fault Receipt × Machine :=
  match (Opcode.ofByte? op).bind Opcode.instruction? with
  | none => (.error (.unsupportedOpcode op m.pc), m)
  | some i =>
    match m.stack.split? i.arity with
    | none => (.error (m.stack.underflow i.arity), m)
    | some (operands, rest) =>
      match i.act operands m.toContext with
      | .error f => (.error f, { m with stack := rest })
      | .ok e => (.ok ⟨e.gas, e.operands⟩, m.apply e rest)

/-- Whether an opcode moves the program counter by itself. -/
def isJump (op : UInt8) : Bool :=
  op == Opcode.jump.toByte || op == Opcode.jumpi.toByte

/-- The machine moved on from an opcode that has been carried out. -/
def advance (op : UInt8) (m : Machine) : Machine :=
  haltAtEnd (if isJump op then m else { m with pc := m.pc + 1 })

@[simp] theorem code_advance (op : UInt8) (m : Machine) : (m.advance op).code = m.code := by
  unfold advance
  rw [code_haltAtEnd]
  split <;> rfl

@[simp] theorem calldata_advance (op : UInt8) (m : Machine) :
    (m.advance op).calldata = m.calldata := by
  unfold advance
  rw [calldata_haltAtEnd]
  split <;> rfl

@[simp] theorem stack_advance (op : UInt8) (m : Machine) : (m.advance op).stack = m.stack := by
  unfold advance
  rw [stack_haltAtEnd]
  split <;> rfl

theorem pc_advance (op : UInt8) (m : Machine) :
    (m.advance op).pc = if isJump op then m.pc else m.pc + 1 := by
  unfold advance
  rw [pc_haltAtEnd]
  split <;> rfl

theorem stopped_advance_iff (op : UInt8) (m : Machine) :
    (m.advance op).stopped = true ↔
      m.stopped = true ∨ m.code.size ≤ (m.advance op).pc := by
  unfold advance
  rw [pc_haltAtEnd, stopped_haltAtEnd_iff]
  split <;> rfl

/-- The answer of a hook, or the machine's own where the hook has none. -/
def settle (op : UInt8) (m : Machine) :
    Option (Except Fault Receipt) → Except Fault Receipt × Machine
  | some answer => (answer, m)
  | none => m.exec op

/-- A step, with a hook consulted first. -/
def stepWith {σ : Type} (hook : Hook σ) (s : σ) (m : Machine) :
    Except Fault Step × σ × Machine :=
  if m.stopped then (.error (.halted m.pc), s, m)
  else
    match m.currentOp? with
    | none => (.error (.halted m.pc), s, m.halt)
    | some op =>
      match hook op s m with
      | (answer?, s, m) =>
        match m.settle op answer? with
        | (.error f, m) => (.error f, s, m.halt)
        | (.ok receipt, m) => (.ok { receipt with opcode := op }, s, m.advance op)

/-- A step. -/
def step (m : Machine) : Except Fault Step × Machine :=
  match m.stepWith Hook.none () with
  | (result, _, m) => (result, m)

end Machine

end WordMachine
