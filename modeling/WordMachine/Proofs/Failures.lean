/-
WordMachine/Proofs/Failures.lean

What a failure leaves behind.

An opcode fails in one of three ways.  It has no instruction, or the stack is
too short for it: then nothing has happened.  Or its instruction refuses the
operands: then these are gone from the stack, and that is all.  Only eight
opcodes can refuse operands, and `Opcode.lossOnRefusal?` says how many each of
them loses (`loss_of_act`).

A step that fails is a failed opcode with the machine stopped afterwards
(`step_of_pc_lt`).  Main result: `exec_failure`.
-/
import WordMachine.Proofs.Execution

namespace WordMachine

/-- The number of elements that are gone from the stack when an opcode has
refused its operands; none for the opcodes that accept all operands. -/
def Opcode.lossOnRefusal? : Opcode → Option Nat
  | jump | mload => some 1
  | jumpi | mstore | mstore8 | keccak256 => some 2
  | calldatacopy | codecopy => some 3
  | _ => none

/-- Only these opcodes refuse operands, and all of their operands are lost. -/
theorem loss_of_act {op : Opcode} {i : Instruction} (hi : op.instruction? = some i)
    {es : Vector Element i.arity} {ctx : Context} {f : Fault}
    (h : i.act es ctx = .error f) : op.lossOnRefusal? = some i.arity := by
  cases op with
  | keccak256 | calldatacopy | codecopy | mload | mstore | mstore8 | jump | jumpi =>
    cases hi
    rfl
  | _ => cases hi <;> cases h

section Opcodes

variable {op : UInt8} {m m' : Machine} {f : Fault}

/-- An opcode that fails has done nothing, or has lost the operands that its
instruction refused. -/
theorem exec_error_cases (h : m.exec op = (.error f, m')) :
    (f = .unsupportedOpcode op m.pc ∧ m' = m) ∨
      (∃ n, f = .stackUnderflow n m.stack.depth ∧ m' = m) ∨
      Refusal op m.toContext f ∧ ∃ code lost rest, Opcode.ofByte? op = some code ∧
        code.lossOnRefusal? = some lost.length ∧
        m.stack.items = lost ++ rest.items ∧ m' = { m with stack := rest } := by
  cases exec_eq_iff.mp h with
  | unsupported _ => exact .inl ⟨rfl, rfl⟩
  | underflow _ _ => exact .inr (.inl ⟨_, rfl, rfl⟩)
  | @refused i es rest f hi hitems ha =>
    obtain ⟨code, hcode, hi⟩ := Option.bind_eq_some_iff.mp hi
    have hrefusal := refusal_of_act hi ha
    rw [Opcode.toByte_of_ofByte? hcode] at hrefusal
    have hloss : code.lossOnRefusal? = some es.toList.length := by
      rw [Vector.length_toList, loss_of_act hi ha]
    exact .inr (.inr ⟨hrefusal, code, es.toList, rest, hcode, hloss, hitems, rfl⟩)

/-- A fault blames no opcode but the one that failed. -/
theorem opcode?_of_exec (h : m.exec op = (.error f, m')) :
    f.opcode? = none ∨ f.opcode? = some op := by
  rcases exec_error_cases h with ⟨rfl, _⟩ | ⟨_, rfl, _⟩ | ⟨hrefusal, _⟩
  · exact .inr rfl
  · exact .inl rfl
  · cases hrefusal with
    | jump _ => exact .inr rfl
    | copy _ => exact .inr rfl
    | memory _ _ => exact .inl rfl

/-- A failure touches nothing but the stack. -/
theorem machine_of_exec_error (h : m.exec op = (.error f, m')) :
    m' = { m with stack := m'.stack } := by
  rcases exec_error_cases h with ⟨_, rfl⟩ | ⟨_, _, rfl⟩ | ⟨_, _, _, _, _, _, _, rfl⟩
  · rfl
  · rfl
  · rfl

/-- The stack has lost what the opcode refused, if it refused anything. -/
theorem stack_of_exec_error (h : m.exec op = (.error f, m')) :
    (f = .unsupportedOpcode op m.pc ∧ m'.stack = m.stack) ∨
      (∃ n, f = .stackUnderflow n m.stack.depth ∧ m'.stack = m.stack) ∨
      Refusal op m.toContext f ∧ ∃ code lost, Opcode.ofByte? op = some code ∧
        code.lossOnRefusal? = some lost.length ∧
        m.stack.items = lost ++ m'.stack.items := by
  rcases exec_error_cases h with
    ⟨hf, rfl⟩ | ⟨n, hf, rfl⟩ | ⟨hf, code, lost, _, hcode, hloss, hitems, rfl⟩
  · exact .inl ⟨hf, rfl⟩
  · exact .inr (.inl ⟨n, hf, rfl⟩)
  · exact .inr (.inr ⟨hf, code, lost, hcode, hloss, hitems⟩)

end Opcodes

/-! ### Steps -/

/-- A step in terms of its opcode. -/
theorem step_of_pc_lt {m : Machine} (hm : m.stopped = false) (hpc : m.pc < m.code.size) :
    m.step =
      match m.exec m.code[m.pc] with
      | (.error f, m') => (.error f, m'.halt)
      | (.ok receipt, m') =>
        (.ok { receipt with opcode := m.code[m.pc] }, m'.advance m.code[m.pc]) := by
  have hop : m.currentOp? = some m.code[m.pc] := Array.getElem?_eq_getElem hpc
  unfold Machine.step
  rw [stepWith_eq () hm hop, consult_none]
  rcases m.exec m.code[m.pc] with ⟨f | receipt, m'⟩
  · rfl
  · rfl

/-- A step whose report is known, with what it leaves. -/
theorem Machine.step_of_fst {m : Machine} {r : Except Fault Step} (h : m.step.1 = r) :
    m.step = (r, m.step.2) :=
  Prod.ext h rfl

/-- A step fails just as its opcode does. -/
theorem step_error_iff {m left : Machine} {f : Fault} (hm : m.stopped = false)
    (hpc : m.pc < m.code.size) :
    m.step = (.error f, left) ↔
      ∃ m', m.exec m.code[m.pc] = (.error f, m') ∧ left = { m' with stopped := true } := by
  rw [step_of_pc_lt hm hpc]
  rcases m.exec m.code[m.pc] with ⟨f' | receipt, m'⟩
  · constructor
    · rintro ⟨⟩
      exact ⟨m', rfl, rfl⟩
    · rintro ⟨_, ⟨⟩, rfl⟩
      rfl
  · constructor
    · rintro ⟨⟩
    · rintro ⟨_, ⟨⟩, _⟩

/-- A step succeeds just as its opcode does. -/
theorem step_ok_iff {m left : Machine} {step : Step} (hm : m.stopped = false)
    (hpc : m.pc < m.code.size) :
    m.step = (.ok step, left) ↔
      ∃ receipt m', m.exec m.code[m.pc] = (.ok receipt, m') ∧
        step = { receipt with opcode := m.code[m.pc] } ∧
        left = m'.advance m.code[m.pc] := by
  rw [step_of_pc_lt hm hpc]
  rcases m.exec m.code[m.pc] with ⟨f | receipt, m'⟩
  · constructor
    · rintro ⟨⟩
    · rintro ⟨_, _, ⟨⟩, _⟩
  · constructor
    · rintro ⟨⟩
      exact ⟨receipt, m', rfl, rfl, rfl⟩
    · rintro ⟨_, _, ⟨⟩, rfl, rfl⟩
      rfl

/-- **What a failing opcode leaves behind.**  Whatever the opcode and the
machine, a failure leaves memory, program counter, code, input and the flag as
they were, and blames no other opcode.  The opcode is unknown, or the stack
too short for it, and then the stack is as it was as well; or it has refused
its operands, and then just these are gone.

A step fails just as the opcode at the program counter does, and stops the
machine that this has left. -/
theorem exec_failure (m : Machine) :
    (∀ op f m', m.exec op = (.error f, m') →
      m'.memory = m.memory ∧ m'.pc = m.pc ∧ m'.stopped = m.stopped ∧
      m'.code = m.code ∧ m'.calldata = m.calldata ∧
      (f.opcode? = none ∨ f.opcode? = some op) ∧
      ((f = .unsupportedOpcode op m.pc ∧ m'.stack = m.stack) ∨
        (∃ n, f = .stackUnderflow n m.stack.depth ∧ m'.stack = m.stack) ∨
        Refusal op m.toContext f ∧ ∃ code lost, Opcode.ofByte? op = some code ∧
          code.lossOnRefusal? = some lost.length ∧
          m.stack.items = lost ++ m'.stack.items)) ∧
    (m.stopped = false → ∀ (hpc : m.pc < m.code.size) f left,
      m.step = (.error f, left) ↔
        ∃ m', m.exec m.code[m.pc] = (.error f, m') ∧
          left = { m' with stopped := true }) := by
  constructor
  · intro op f m' h
    have hm := machine_of_exec_error h
    have hopcode := opcode?_of_exec h
    have hstack := stack_of_exec_error h
    rw [hm]
    exact ⟨rfl, rfl, rfl, rfl, rfl, hopcode, hstack⟩
  · intro hgo hpc f left
    exact step_error_iff hgo hpc

/-- A copy of more bytes than one copy may move, above an element that it
leaves alone. -/
theorem exec_failure_copy :
    let m : Machine :=
      { Machine.start #[0x39] #[] with
        stack := ⟨[.ofWord 0, .ofWord 0, .ofWord 257, .ofWord 5]⟩ }
    (m.exec 0x39).1 = .error (.copyTooLarge 0x39 257 256) ∧
      (m.exec 0x39).2.memory = m.memory ∧ (m.exec 0x39).2.stopped = false ∧
      m.step = (.error (.copyTooLarge 0x39 257 256),
        { (m.exec 0x39).2 with stopped := true }) := by
  intro m
  have hf : (m.exec 0x39).1 = .error (.copyTooLarge 0x39 257 256) := by decide +kernel
  have hex := Machine.exec_of_fst hf
  have hpc : m.pc < m.code.size := by decide
  have hop : m.code[m.pc] = 0x39 := rfl
  have hgo : m.stopped = false := by decide
  have h := (exec_failure m).1 _ _ _ hex
  have hstep := (exec_failure m).2 hgo hpc
  rw [hop] at hstep
  exact ⟨hf, h.1, h.2.2.1.trans hgo, (hstep _ _).mpr ⟨_, hex, rfl⟩⟩

end WordMachine
