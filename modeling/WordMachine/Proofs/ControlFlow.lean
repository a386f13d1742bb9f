/-
WordMachine/Proofs/ControlFlow.lean

Where a machine goes on after a step, and when the step stops it.

The program counter is moved in two places.  A push moves it onto its last
immediate byte and a jump to its destination, by the effect of the instruction;
whatever was not a jump then moves it on by one.  `Successor` says what both
come to for each opcode, with the operands that decide about it.

The flag is raised in two places as well, by the opcodes that halt and at the
end of the code.  Main result: `step_control_flow`.
-/
import WordMachine.Proofs.Effects
import WordMachine.Proofs.Failures

namespace WordMachine

namespace Opcode

/-- The opcodes that stop the machine. -/
def halts : Opcode → Bool
  | stop | ret | revert => true
  | _ => false

/-- The opcodes that have a say in where the machine goes on. -/
def redirects : Opcode → Bool
  | push _ | jump | jumpi => true
  | _ => false

/-- The opcodes that move the program counter by themselves. -/
theorem isJump_iff {b : UInt8} {op : Opcode} (hop : ofByte? b = some op) :
    Machine.isJump b = true ↔ op = jump ∨ op = jumpi := by
  have hbyte : ∀ op', b = toByte op' ↔ op = op' := by
    intro op'
    constructor
    · rintro rfl
      exact Option.some.inj (hop.symm.trans (ofByte?_toByte op'))
    · rintro rfl
      exact (toByte_of_ofByte? hop).symm
  simp only [Machine.isJump, Bool.or_eq_true, beq_iff_eq, hbyte]

end Opcode

/-- After `op`, `m` goes on at a position. -/
inductive Machine.Successor (m : Machine) : Opcode → Nat → Prop
  /-- Behind the immediate bytes, even if the code ends before them. -/
  | push (size : Fin 33) : m.Successor (.push size) (m.pc + 1 + size.val)
  | jump {destination : Element} {rest : List Element} :
      m.stack.items = destination :: rest → m.Successor .jump destination.word.toNat
  | jumpTaken {destination condition : Element} {rest : List Element} :
      m.stack.items = destination :: condition :: rest → condition.word ≠ 0 →
      m.Successor .jumpi destination.word.toNat
  | jumpNotTaken {destination condition : Element} {rest : List Element} :
      m.stack.items = destination :: condition :: rest → condition.word = 0 →
      m.Successor .jumpi (m.pc + 1)
  | next {op : Opcode} : op.redirects = false → m.Successor op (m.pc + 1)

/-! ### Effects on program counter and flag -/

section Acts

variable {m : Machine} {op : Opcode} {i : Instruction} {es : Vector Element i.arity}
  {rest : List Element} {e : Effect}

/-- Just the halting opcodes have the machine stop, and an opcode without a say
leaves the program counter where it is. -/
theorem control_of_act {ctx : Context} (hi : op.instruction? = some i)
    (ha : i.act es ctx = .ok e) :
    e.stops = op.halts ∧ (op.redirects = false → e.goto? = none) := by
  cases op with
  | push _ =>
    cases hi
    cases ha
    exact ⟨rfl, nofun⟩
  | jump =>
    cases hi
    obtain ⟨_, rfl⟩ := Instruction.effect_of_jump ha
    exact ⟨rfl, nofun⟩
  | jumpi =>
    cases hi
    rcases Instruction.effect_of_jumpIf ha with ⟨_, rfl⟩ | ⟨_, _, rfl⟩
    · exact ⟨rfl, nofun⟩
    · exact ⟨rfl, nofun⟩
  | keccak256 =>
    cases hi
    obtain ⟨_, _, _, rfl⟩ := Instruction.effect_of_hash ha
    exact ⟨rfl, fun _ => rfl⟩
  | calldatacopy | codecopy =>
    cases hi
    obtain ⟨_, _, _, rfl⟩ := Instruction.effect_of_copy ha
    exact ⟨rfl, fun _ => rfl⟩
  | mload =>
    cases hi
    obtain ⟨_, _, rfl⟩ := Instruction.effect_of_loadWord ha
    exact ⟨rfl, fun _ => rfl⟩
  | mstore =>
    cases hi
    obtain ⟨_, _, rfl⟩ := Instruction.effect_of_storeElement ha
    exact ⟨rfl, fun _ => rfl⟩
  | mstore8 =>
    cases hi
    obtain ⟨_, _, rfl⟩ := Instruction.effect_of_storeLowByte ha
    exact ⟨rfl, fun _ => rfl⟩
  | _ =>
    -- no instruction at all, or one whose effect stands in its definition
    cases hi <;> (cases ha; exact ⟨rfl, fun _ => rfl⟩)

/-- The place to which an effect and the move after it lead. -/
theorem successor_of_act (hi : op.instruction? = some i)
    (hitems : m.stack.items = es.toList ++ rest) (ha : i.act es m.toContext = .ok e) :
    m.Successor op (e.goto?.getD m.pc + if op = .jump ∨ op = .jumpi then 0 else 1) := by
  cases op with
  | push size =>
    cases hi
    cases ha
    -- the effect goes to the last immediate byte, the move after it one further
    have hpc : m.pc + size.val + 1 = m.pc + 1 + size.val := by omega
    show m.Successor (.push size) (m.pc + size.val + 1)
    rw [hpc]
    exact .push size
  | jump =>
    cases hi
    obtain ⟨_, he⟩ := Instruction.effect_of_jump ha
    have hgoto : e.goto? = some (Instruction.first es).word.toNat := congrArg Effect.goto? he
    rw [hgoto, Option.getD_some, if_pos (.inl rfl), Nat.add_zero]
    exact .jump (hitems.trans (Instruction.toList_unary es rest))
  | jumpi =>
    cases hi
    have hfront := hitems.trans (Instruction.toList_binary es rest)
    rw [if_pos (.inr rfl), Nat.add_zero]
    rcases Instruction.effect_of_jumpIf ha with ⟨hzero, he⟩ | ⟨hnonzero, _, he⟩
    · -- an untaken jump steps over its own byte, since no move comes after it
      have hgoto : e.goto? = some (m.pc + 1) := congrArg Effect.goto? he
      rw [hgoto, Option.getD_some]
      exact .jumpNotTaken hfront hzero
    · have hgoto : e.goto? = some (Instruction.first es).word.toNat := congrArg Effect.goto? he
      rw [hgoto, Option.getD_some]
      exact .jumpTaken hfront hnonzero
  | _ =>
    have hgoto := (control_of_act hi ha).2 rfl
    rw [hgoto]
    exact .next rfl

end Acts

/-! ### Opcodes and steps -/

section Steps

variable {m m' : Machine} {b : UInt8} {op : Opcode}

/-- Moving on from an opcode, with where the opcode itself has gone. -/
theorem pc_advance_of_ofByte? (hop : Opcode.ofByte? b = some op) :
    (m.advance b).pc = m.pc + if op = .jump ∨ op = .jumpi then 0 else 1 := by
  rw [Machine.pc_advance]
  by_cases hjump : op = .jump ∨ op = .jumpi
  · rw [if_pos ((Opcode.isJump_iff hop).mpr hjump), if_pos hjump]
    rfl
  · rw [if_neg (mt (Opcode.isJump_iff hop).mp hjump), if_neg hjump]

/-- An opcode that succeeds leads to its successor. -/
theorem control_of_exec {r : Receipt} (h : m.exec b = (.ok r, m')) :
    ∃ op, Opcode.ofByte? b = some op ∧ m.Successor op (m'.advance b).pc ∧
      ((m'.advance b).stopped = true ↔
        m.stopped = true ∨ op.halts = true ∨ m.code.size ≤ (m'.advance b).pc) := by
  cases exec_eq_iff.mp h with
  | @done i es rest e hi hitems ha =>
    obtain ⟨op, hop, hi⟩ := Option.bind_eq_some_iff.mp hi
    have hcode : (m.apply e rest).code = m.code := rfl
    have hstopped : (m.apply e rest).stopped = (m.stopped || op.halts) := by
      rw [← (control_of_act hi ha).1]
      rfl
    refine ⟨op, hop, ?_, ?_⟩
    · rw [pc_advance_of_ofByte? hop]
      exact successor_of_act hi hitems ha
    · rw [Machine.stopped_advance_iff, hstopped, hcode, Bool.or_eq_true, or_assoc]

/-- **Control flow of a step.**  A step that succeeds reports the opcode at the
program counter and leads to its successor: behind the immediate bytes of a
push, to the destination of a jump that is taken, and to the next byte after
anything else.  It stops the machine just if the opcode halts or the code does
not reach that far. -/
theorem step_control_flow {step : Step} (hm : m.stopped = false) (hpc : m.pc < m.code.size)
    (h : m.step = (.ok step, m')) :
    step.opcode = m.code[m.pc] ∧
      ∃ op, Opcode.ofByte? m.code[m.pc] = some op ∧ m.Successor op m'.pc ∧
        (m'.stopped = true ↔ op.halts = true ∨ m.code.size ≤ m'.pc) := by
  obtain ⟨receipt, m₁, hex, rfl, rfl⟩ := (step_ok_iff hm hpc).mp h
  obtain ⟨op, hop, hsucc, hstopped⟩ := control_of_exec hex
  rw [hm] at hstopped
  refine ⟨rfl, op, hop, hsucc, ?_⟩
  simpa using hstopped

end Steps

/-- A conditional jump in the last byte of the code, not taken and taken. -/
theorem step_control_flow_last_byte :
    let m : Machine :=
      { Machine.start #[0x5b, 0x57] #[] with pc := 1, stack := ⟨[.ofWord 0, .ofWord 0]⟩ }
    let m₁ : Machine := { m with stack := ⟨[.ofWord 0, .ofWord 1]⟩ }
    (m.step.1 = .ok ⟨⟨10, []⟩, 0x57⟩ ∧ m.Successor .jumpi m.step.2.pc ∧
      m.step.2.pc = 2 ∧ m.step.2.stopped = true) ∧
    m₁.step.1 = .ok ⟨⟨10, []⟩, 0x57⟩ ∧ m₁.Successor .jumpi m₁.step.2.pc ∧
      m₁.step.2.pc = 0 ∧ m₁.step.2.stopped = false := by
  intro m m₁
  have hjumpi : Opcode.ofByte? 0x57 = some .jumpi := by decide +kernel
  have hok : m.step.1 = .ok ⟨⟨10, []⟩, 0x57⟩ := by decide +kernel
  have hok₁ : m₁.step.1 = .ok ⟨⟨10, []⟩, 0x57⟩ := by decide +kernel
  have hpc : m.step.2.pc = 2 := by decide +kernel
  have hpc₁ : m₁.step.2.pc = 0 := by decide +kernel
  obtain ⟨_, op, hop, hsucc, hstopped⟩ :=
    step_control_flow rfl (by decide) (Machine.step_of_fst hok)
  obtain ⟨_, op₁, hop₁, hsucc₁, hstopped₁⟩ :=
    step_control_flow rfl (by decide) (Machine.step_of_fst hok₁)
  obtain rfl := Option.some.inj (hop.symm.trans hjumpi)
  obtain rfl := Option.some.inj (hop₁.symm.trans hjumpi)
  refine ⟨⟨hok, hsucc, hpc, hstopped.mpr (.inr ?_)⟩, hok₁, hsucc₁, hpc₁, ?_⟩
  · rw [hpc]
    decide
  · rw [← Bool.not_eq_true, hstopped₁, hpc₁]
    decide

end WordMachine
