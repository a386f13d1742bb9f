/-
WordMachine/Proofs/Execution.lean

What carrying out one opcode, and what one step, can come to.

`Executes op m r m'` lists the four ways of an opcode: it has no instruction,
the stack is too short, the instruction refuses its operands, or it does its
work.  The operands appear in it as the front of the stack,
`es.toList ++ rest.items`, and an instruction is given nothing else of the
stack.  `Stepped hook s m r s' m'` does the same for a step.

Main results: `exec_eq_iff` and `stepWith_eq_iff`, which say that `exec` and
`stepWith` are exactly these relations, so that later proofs split into their
cases and leave both functions folded; and `fault_of_step`, which lists the
faults of a step.
-/
import WordMachine.Machine.Step

namespace WordMachine

/-- Results can be compared, so statements about single machines can be
evaluated. -/
instance decidableEqExcept {α β : Type} [DecidableEq α] [DecidableEq β] :
    DecidableEq (Except α β)
  | .ok a, .ok b => decidable_of_iff (a = b) ⟨congrArg _, Except.ok.inj⟩
  | .error a, .error b => decidable_of_iff (a = b) ⟨congrArg _, Except.error.inj⟩
  | .ok _, .error _ => .isFalse nofun
  | .error _, .ok _ => .isFalse nofun

/-! ### The cases of an execution -/

/-- The instruction behind a byte, if there is one. -/
abbrev instructionOfByte? (op : UInt8) : Option Instruction :=
  (Opcode.ofByte? op).bind Opcode.instruction?

theorem instructionOfByte?_of_ofByte? {b : UInt8} {op : Opcode}
    (h : Opcode.ofByte? b = some op) : instructionOfByte? b = op.instruction? := by
  rw [instructionOfByte?, h]
  rfl

theorem instructionOfByte?_toByte (op : Opcode) :
    instructionOfByte? op.toByte = op.instruction? :=
  instructionOfByte?_of_ofByte? (Opcode.ofByte?_toByte op)

/-- Carrying out `op` on `m` reports `r` and leaves `m'`. -/
inductive Executes (op : UInt8) (m : Machine) : Except Fault Receipt → Machine → Prop
  | unsupported :
      instructionOfByte? op = none →
      Executes op m (.error (.unsupportedOpcode op m.pc)) m
  | underflow {i : Instruction} :
      instructionOfByte? op = some i → m.stack.depth < i.arity →
      Executes op m (.error (.stackUnderflow i.arity m.stack.depth)) m
  /-- The operands are gone, and nothing else has happened. -/
  | refused {i : Instruction} {es : Vector Element i.arity} {rest : Stack} {f : Fault} :
      instructionOfByte? op = some i → m.stack.items = es.toList ++ rest.items →
      i.act es m.toContext = .error f →
      Executes op m (.error f) { m with stack := rest }
  | done {i : Instruction} {es : Vector Element i.arity} {rest : Stack} {e : Effect} :
      instructionOfByte? op = some i → m.stack.items = es.toList ++ rest.items →
      i.act es m.toContext = .ok e →
      Executes op m (.ok ⟨e.gas, e.operands⟩) (m.apply e rest)

/-- A stack splits as its list of items does. -/
theorem Stack.split?_of_items {s rest : Stack} {n : Nat} {es : Vector Element n}
    (h : s.items = es.toList ++ rest.items) : s.split? n = some (es, rest) := by
  have hs : s = rest.pushAll es.toList := by
    cases s
    exact congrArg Stack.mk h
  rw [hs, split?_pushAll]

theorem executes_exec (op : UInt8) (m : Machine) :
    Executes op m (m.exec op).1 (m.exec op).2 := by
  unfold Machine.exec
  rcases hi : instructionOfByte? op with _ | i
  · simp only [hi]
    exact .unsupported hi
  · rcases hs : m.stack.split? i.arity with _ | ⟨es, rest⟩
    · simp only [hi, hs]
      exact .underflow hi ((Stack.split?_eq_none_iff _ _).mp hs)
    · have hitems := Stack.items_of_split? hs
      rcases ha : i.act es m.toContext with f | e
      · simp only [hi, hs, ha]
        exact .refused hi hitems ha
      · simp only [hi, hs, ha]
        exact .done hi hitems ha

/-- Carrying out an opcode is the relation `Executes`. -/
theorem exec_eq_iff {op : UInt8} {m m' : Machine} {r : Except Fault Receipt} :
    m.exec op = (r, m') ↔ Executes op m r m' := by
  constructor
  · intro h
    have hex := executes_exec op m
    rw [h] at hex
    exact hex
  · intro h
    unfold Machine.exec
    cases h with
    | unsupported hi =>
      simp only [hi]
    | underflow hi hlt =>
      simp only [hi, (Stack.split?_eq_none_iff _ _).mpr hlt, Stack.underflow]
    | refused hi hitems ha =>
      simp only [hi, Stack.split?_of_items hitems, ha]
    | done hi hitems ha =>
      simp only [hi, Stack.split?_of_items hitems, ha]

/-- An execution whose report is known, with what it leaves. -/
theorem Machine.exec_of_fst {op : UInt8} {m : Machine} {r : Except Fault Receipt}
    (h : (m.exec op).1 = r) : m.exec op = (r, (m.exec op).2) :=
  Prod.ext h rfl

/-- An effect on the stack and the program counter leaves the rest as it was. -/
theorem Machine.apply_moves (m : Machine) (gas : Nat) (results : List Element)
    (operands : List Operand) (goto? : Option Nat) (rest : Stack) :
    m.apply { gas, results, operands, goto? } rest =
      { m with pc := goto?.getD m.pc, stack := rest.pushAll results } := by
  rw [apply, Bool.or_false]
  rfl

/-- An instruction that only pushes leaves the rest of the machine alone. -/
theorem Machine.apply_push (m : Machine) (gas : Nat) (results : List Element)
    (operands : List Operand) (rest : Stack) :
    m.apply { gas, results, operands } rest = { m with stack := rest.pushAll results } :=
  m.apply_moves gas results operands none rest

/-- An effect on memory leaves the rest as it was. -/
theorem Machine.apply_access (m : Machine) (gas : Nat) (operands : List Operand)
    (access : Access) (rest : Stack) :
    m.apply { gas, operands, access } rest =
      { m with memory := m.memory.after access, stack := rest } := by
  rw [apply, Bool.or_false]
  rfl

section Acts

variable {op : UInt8} {m : Machine} {i : Instruction} {es : Vector Element i.arity}
  {rest : List Element}

/-- What an instruction does with its operands, its opcode does. -/
theorem exec_of_act_ok {e : Effect} (hi : instructionOfByte? op = some i)
    (hitems : m.stack.items = es.toList ++ rest) (ha : i.act es m.toContext = .ok e) :
    m.exec op = (.ok ⟨e.gas, e.operands⟩, m.apply e ⟨rest⟩) :=
  exec_eq_iff.mpr (.done hi hitems ha)

/-- An instruction that refuses its operands has its opcode fail. -/
theorem exec_of_act_error {f : Fault} (hi : instructionOfByte? op = some i)
    (hitems : m.stack.items = es.toList ++ rest) (ha : i.act es m.toContext = .error f) :
    m.exec op = (.error f, { m with stack := ⟨rest⟩ }) :=
  exec_eq_iff.mpr (.refused hi hitems ha)

/-- An opcode that succeeds has had its instruction do its work. -/
theorem act_of_exec_ok {r : Receipt} {m' : Machine} (hi : instructionOfByte? op = some i)
    (h : m.exec op = (.ok r, m')) :
    ∃ (es : Vector Element i.arity) (rest : Stack) (e : Effect),
      m.stack.items = es.toList ++ rest.items ∧ i.act es m.toContext = .ok e ∧
        m' = m.apply e rest := by
  cases exec_eq_iff.mp h with
  | done hi' hitems ha =>
    obtain rfl := Option.some.inj (hi'.symm.trans hi)
    exact ⟨_, _, _, hitems, ha, rfl⟩

end Acts

/-! ### The cases of a step -/

section Steps

variable {σ : Type} {hook : Hook σ}

/-- The answer for an opcode, given by the hook or else by the machine, with
what they leave. -/
def Machine.consult (hook : Hook σ) (op : UInt8) (s : σ) (m : Machine) :
    Except Fault Receipt × σ × Machine :=
  match hook op s m with
  | (answer?, s, m) => ((m.settle op answer?).1, s, (m.settle op answer?).2)

/-- Without a hook the machine answers. -/
theorem consult_none (op : UInt8) (m : Machine) :
    m.consult Hook.none op () = ((m.exec op).1, (), (m.exec op).2) := rfl

theorem consult_none_iff {op : UInt8} {m m' : Machine} {r : Except Fault Receipt} :
    m.consult Hook.none op () = (r, (), m') ↔ m.exec op = (r, m') := by
  rw [consult_none]
  constructor
  · intro h
    simp only [Prod.mk.injEq, true_and] at h
    exact Prod.ext h.1 h.2
  · intro h
    rw [h]

/-- A step on `s` and `m` reports `r` and leaves `s'` and `m'`. -/
inductive Stepped (hook : Hook σ) (s : σ) (m : Machine) :
    Except Fault Step → σ → Machine → Prop
  | stopped :
      m.stopped = true → Stepped hook s m (.error (.halted m.pc)) s m
  | pastEnd :
      m.stopped = false → m.currentOp? = none →
      Stepped hook s m (.error (.halted m.pc)) s m.halt
  | failed {op : UInt8} {f : Fault} {s' : σ} {m' : Machine} :
      m.stopped = false → m.currentOp? = some op →
      m.consult hook op s = (.error f, s', m') →
      Stepped hook s m (.error f) s' m'.halt
  | completed {op : UInt8} {receipt : Receipt} {s' : σ} {m' : Machine} :
      m.stopped = false → m.currentOp? = some op →
      m.consult hook op s = (.ok receipt, s', m') →
      Stepped hook s m (.ok { receipt with opcode := op }) s' (m'.advance op)

/-- A step in terms of the answer for its opcode. -/
theorem stepWith_eq (s : σ) {m : Machine} {op : UInt8} (hm : m.stopped = false)
    (hop : m.currentOp? = some op) :
    m.stepWith hook s =
      match m.consult hook op s with
      | (.error f, s', m') => (.error f, s', m'.halt)
      | (.ok receipt, s', m') =>
        (.ok { receipt with opcode := op }, s', m'.advance op) := by
  rcases hh : hook op s m with ⟨answer?, s₁, m₁⟩
  rcases hset : m₁.settle op answer? with ⟨f | receipt, m₂⟩ <;>
    simp [Machine.stepWith, Machine.consult, hm, hop, hh, hset]

theorem stepped_stepWith (hook : Hook σ) (s : σ) (m : Machine) :
    Stepped hook s m (m.stepWith hook s).1 (m.stepWith hook s).2.1
      (m.stepWith hook s).2.2 := by
  rcases hm : m.stopped with _ | _
  · rcases hop : m.currentOp? with _ | op
    · simp only [Machine.stepWith, hm, hop]
      exact .pastEnd hm hop
    · rw [stepWith_eq s hm hop]
      rcases hc : m.consult hook op s with ⟨f | receipt, s', m'⟩
      · exact .failed hm hop hc
      · exact .completed hm hop hc
  · simp only [Machine.stepWith, hm]
    exact .stopped hm

/-- A step is the relation `Stepped`. -/
theorem stepWith_eq_iff {s s' : σ} {m m' : Machine} {r : Except Fault Step} :
    m.stepWith hook s = (r, s', m') ↔ Stepped hook s m r s' m' := by
  constructor
  · intro h
    have hst := stepped_stepWith hook s m
    rw [h] at hst
    exact hst
  · intro h
    cases h with
    | stopped hm => simp [Machine.stepWith, hm]
    | pastEnd hm hop => simp [Machine.stepWith, hm, hop]
    | failed hm hop hc => rw [stepWith_eq s hm hop, hc]
    | completed hm hop hc => rw [stepWith_eq s hm hop, hc]

end Steps

section PlainSteps

variable {m m' : Machine} {op : UInt8}

/-- A step without a hook is the step with the hook that does nothing. -/
theorem Machine.step_of_stepWith {r : Except Fault Step}
    (h : m.stepWith Hook.none () = (r, (), m')) : m.step = (r, m') := by
  unfold step
  rw [h]

/-- A step on an opcode that is executed moves the machine on. -/
theorem Machine.step_of_exec_ok {receipt : Receipt} (hm : m.stopped = false)
    (hop : m.currentOp? = some op) (h : m.exec op = (.ok receipt, m')) :
    m.step = (.ok { receipt with opcode := op }, m'.advance op) :=
  step_of_stepWith (stepWith_eq_iff.mpr (.completed hm hop (consult_none_iff.mpr h)))

/-- A step on an opcode that fails stops the machine. -/
theorem Machine.step_of_exec_error {f : Fault} (hm : m.stopped = false)
    (hop : m.currentOp? = some op) (h : m.exec op = (.error f, m')) :
    m.step = (.error f, m'.halt) :=
  step_of_stepWith (stepWith_eq_iff.mpr (.failed hm hop (consult_none_iff.mpr h)))

end PlainSteps

/-! ### Faults -/

/-- The faults with which the instruction of `op` can refuse its operands. -/
inductive Refusal (op : UInt8) (ctx : Context) : Fault → Prop
  | jump (destination : Word) : Refusal op ctx (.invalidJump op ctx.pc destination)
  | copy (size : Word) : Refusal op ctx (.copyTooLarge op size Instruction.copyLimit)
  | memory (offset : Word) (size : Nat) :
      Refusal op ctx (.memoryLimitExceeded offset size Memory.capacity)

namespace Span

theorem fault_of_ofWord {offset : Word} {size : Nat} {f : Fault}
    (h : ofWord offset size = .error f) :
    f = .memoryLimitExceeded offset size Memory.capacity := by
  unfold ofWord at h
  split at h
  · cases h
  · exact (Except.error.inj h).symm

theorem fault_of_ofRange {offset : Word} {size : Nat} {f : Fault}
    (h : ofRange offset size = .error f) :
    f = .memoryLimitExceeded offset size Memory.capacity := by
  unfold ofRange at h
  split at h
  · cases h
  · exact fault_of_ofWord h

end Span

/-- What only computes with a result fails as that does. -/
theorem error_of_bind_pure {α β : Type} {x : Except Fault α} {g : α → β} {f : Fault}
    (h : (do let a ← x; return g a) = .error f) : x = .error f := by
  cases x with
  | error f' => exact congrArg Except.error (Except.error.inj h)
  | ok a => cases h

/-- What only computes with a result succeeds with what it computes. -/
theorem ok_of_bind_pure {α β : Type} {x : Except Fault α} {g : α → β} {b : β}
    (h : (do let a ← x; return g a) = .ok b) : ∃ a, x = .ok a ∧ g a = b := by
  cases x with
  | error f => cases h
  | ok a => exact ⟨a, rfl, Except.ok.inj h⟩

namespace Instruction

variable {op : UInt8} {ctx : Context} {f : Fault}

theorem refusal_of_ofWord {offset : Word} {size : Nat} {g : Span size → Effect}
    (h : (do let span ← Span.ofWord offset size; return g span) = .error f) :
    Refusal op ctx f := by
  rw [Span.fault_of_ofWord (error_of_bind_pure h)]
  exact .memory _ _

theorem refusal_of_ofRange {offset : Word} {size : Nat} {g : Span size → Effect}
    (h : (do let span ← Span.ofRange offset size; return g span) = .error f) :
    Refusal op ctx f := by
  rw [Span.fault_of_ofRange (error_of_bind_pure h)]
  exact .memory _ _

theorem refusal_of_loadWord {es : Vector Element 1}
    (h : loadWord.act es ctx = .error f) : Refusal op ctx f := by
  simp only [loadWord, unary] at h
  exact refusal_of_ofWord h

theorem refusal_of_storeElement {es : Vector Element 2}
    (h : storeElement.act es ctx = .error f) : Refusal op ctx f := by
  simp only [storeElement, binary] at h
  exact refusal_of_ofWord h

theorem refusal_of_storeLowByte {es : Vector Element 2}
    (h : storeLowByte.act es ctx = .error f) : Refusal op ctx f := by
  simp only [storeLowByte, binary] at h
  exact refusal_of_ofWord h

theorem refusal_of_hash {digest : Bytes → Vector UInt8 32} {es : Vector Element 2}
    (h : (hash digest).act es ctx = .error f) : Refusal op ctx f := by
  simp only [hash, binary] at h
  split at h
  · exact refusal_of_ofRange h
  · rw [← Except.error.inj h]
    exact .memory _ _

theorem refusal_of_copy {source : Context → Bytes} {es : Vector Element 3}
    (h : (copy op source).act es ctx = .error f) : Refusal op ctx f := by
  simp only [copy, ternary] at h
  split at h
  · exact refusal_of_ofRange h
  · rw [← Except.error.inj h]
    exact .copy _

theorem fault_of_jumpTo {gas : Nat} {destination : Word}
    (h : jumpTo op gas destination ctx = .error f) :
    f = .invalidJump op ctx.pc destination := by
  unfold jumpTo at h
  split at h
  · cases h
  · exact (Except.error.inj h).symm

theorem refusal_of_jumpTo {gas : Nat} {destination : Word}
    (h : jumpTo op gas destination ctx = .error f) : Refusal op ctx f := by
  rw [fault_of_jumpTo h]
  exact .jump _

theorem refusal_of_jump {es : Vector Element 1}
    (h : (jump op).act es ctx = .error f) : Refusal op ctx f := by
  simp only [jump, unary] at h
  exact refusal_of_jumpTo h

theorem refusal_of_jumpIf {es : Vector Element 2}
    (h : (jumpIf op).act es ctx = .error f) : Refusal op ctx f := by
  simp only [jumpIf, binary] at h
  split at h
  · cases h
  · exact refusal_of_jumpTo h

end Instruction

/-- An instruction refuses its operands with one of three faults. -/
theorem refusal_of_act {op : Opcode} {i : Instruction} (hi : op.instruction? = some i)
    {es : Vector Element i.arity} {ctx : Context} {f : Fault}
    (h : i.act es ctx = .error f) : Refusal op.toByte ctx f := by
  cases op with
  | keccak256 =>
    cases hi
    exact Instruction.refusal_of_hash h
  | calldatacopy | codecopy =>
    cases hi
    exact Instruction.refusal_of_copy h
  | mload =>
    cases hi
    exact Instruction.refusal_of_loadWord h
  | mstore =>
    cases hi
    exact Instruction.refusal_of_storeElement h
  | mstore8 =>
    cases hi
    exact Instruction.refusal_of_storeLowByte h
  | jump =>
    cases hi
    exact Instruction.refusal_of_jump h
  | jumpi =>
    cases hi
    exact Instruction.refusal_of_jumpIf h
  | _ =>
    -- no instruction at all, or one that accepts whatever it is given
    cases hi <;> cases h

/-- The faults of carrying out an opcode. -/
theorem fault_of_exec {op : UInt8} {m m' : Machine} {f : Fault}
    (h : m.exec op = (.error f, m')) :
    f = .unsupportedOpcode op m.pc ∨ (∃ n, f = .stackUnderflow n m.stack.depth) ∨
      Refusal op m.toContext f := by
  cases exec_eq_iff.mp h with
  | unsupported _ => exact .inl rfl
  | underflow _ _ => exact .inr (.inl ⟨_, rfl⟩)
  | refused hi _ ha =>
    -- the instruction tells its byte from the opcode, the machine from the code
    obtain ⟨code, hcode, hi⟩ := Option.bind_eq_some_iff.mp hi
    rw [← Opcode.toByte_of_ofByte? hcode]
    exact .inr (.inr (refusal_of_act hi ha))

/-- The faults of a step without a hook. -/
theorem fault_of_step {m m' : Machine} {f : Fault}
    (h : m.stepWith Hook.none () = (.error f, (), m')) :
    f = .halted m.pc ∨ ∃ op m₁, m.currentOp? = some op ∧ m.exec op = (.error f, m₁) := by
  cases stepWith_eq_iff.mp h with
  | stopped _ => exact .inl rfl
  | pastEnd _ _ => exact .inl rfl
  | failed _ hop hc =>
    exact .inr ⟨_, _, hop, consult_none_iff.mp hc⟩

/-- No step says that a budget is used up. -/
theorem ne_stepLimitExceeded_of_step {m m' : Machine} {f : Fault}
    (h : m.stepWith Hook.none () = (.error f, (), m')) (limit : Nat) :
    f ≠ .stepLimitExceeded limit := by
  rintro rfl
  rcases fault_of_step h with hf | ⟨op, m₁, _, hex⟩
  · cases hf
  · rcases fault_of_exec hex with hf | ⟨_, hf⟩ | hf
    · cases hf
    · cases hf
    · cases hf

end WordMachine
