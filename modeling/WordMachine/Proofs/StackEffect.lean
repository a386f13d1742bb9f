/-
WordMachine/Proofs/StackEffect.lean

What opcodes take off the stack and what they put on it.

`Opcode.operandCount` and `Opcode.resultCount` say so for each opcode.  The
first is the arity of the instruction behind it (`arity_of_instruction?`); the
second is not written in an instruction, so each of them is shown to push a
fixed number of elements whenever it does its work (`Yields`), the families
once for all their members.

An instruction is given its operands and never the stack, which leaves two
cases: a stack that is too short, of which nothing is touched, and one that
splits into operands and a rest, of which the rest is kept.  Main result:
`exec_stack_effect`.
-/
import WordMachine.Proofs.Effects

namespace WordMachine

namespace Opcode

/-- The number of elements an opcode takes. -/
def operandCount : Opcode → Nat
  | iszero | not | pop | calldataload | mload | sload | jump => 1
  | add | mul | sub | div | sdiv | mod | smod | exp | signextend
  | lt | gt | slt | sgt | eq | and | or | xor | byte | shl | shr | sar
  | keccak256 | mstore | mstore8 | jumpi => 2
  | addmod | mulmod | calldatacopy | codecopy => 3
  | dup below => below.val + 1
  | swap below => below.val + 2
  | _ => 0

/-- The number of elements an opcode puts in their place. -/
def resultCount : Opcode → Nat
  | pop | mstore | mstore8 | calldatacopy | codecopy | jump | jumpi | jumpdest
  | stop | ret | revert => 0
  | dup below | swap below => below.val + 2
  | _ => 1

/-- What an instruction takes is what its opcode takes. -/
theorem arity_of_instruction? {op : Opcode} {i : Instruction}
    (hi : op.instruction? = some i) : i.arity = op.operandCount := by
  cases op <;> cases hi <;> rfl

end Opcode

/-! ### Results -/

namespace Instruction

/-- Whenever it does its work, the instruction pushes `n` elements. -/
def Yields (i : Instruction) (n : Nat) : Prop :=
  ∀ es ctx e, i.act es ctx = .ok e → e.results.length = n

theorem yields_duplicate (below : Nat) : (duplicate below).Yields (below + 2) := by
  rintro es ctx _ ⟨⟩
  show (_ :: es.toList).length = below + 2
  rw [List.length_cons, Vector.length_toList]
  rfl

theorem yields_exchange (below : Nat) : (exchange below).Yields (below + 2) := by
  rintro es ctx _ ⟨⟩
  exact Vector.length_toList

theorem yields_hash (digest : Bytes → Vector UInt8 32) : (hash digest).Yields 1 := by
  intro es ctx e h
  obtain ⟨_, _, _, rfl⟩ := effect_of_hash h
  rfl

theorem yields_copy (opcode : UInt8) (source : Context → Bytes) :
    (copy opcode source).Yields 0 := by
  intro es ctx e h
  obtain ⟨_, _, _, rfl⟩ := effect_of_copy h
  rfl

theorem yields_loadWord : loadWord.Yields 1 := by
  intro es ctx e h
  obtain ⟨_, _, rfl⟩ := effect_of_loadWord h
  rfl

theorem yields_storeElement : storeElement.Yields 0 := by
  intro es ctx e h
  obtain ⟨_, _, rfl⟩ := effect_of_storeElement h
  rfl

theorem yields_storeLowByte : storeLowByte.Yields 0 := by
  intro es ctx e h
  obtain ⟨_, _, rfl⟩ := effect_of_storeLowByte h
  rfl

theorem yields_jump (opcode : UInt8) : (jump opcode).Yields 0 := by
  intro es ctx e h
  obtain ⟨_, rfl⟩ := effect_of_jump h
  rfl

theorem yields_jumpIf (opcode : UInt8) : (jumpIf opcode).Yields 0 := by
  intro es ctx e h
  rcases effect_of_jumpIf h with ⟨_, rfl⟩ | ⟨_, _, rfl⟩
  · rfl
  · rfl

end Instruction

/-- What an instruction pushes is what its opcode pushes. -/
theorem yields_of_instruction? {op : Opcode} {i : Instruction}
    (hi : op.instruction? = some i) : i.Yields op.resultCount := by
  cases op with
  | dup below =>
    cases hi
    exact Instruction.yields_duplicate below.val
  | swap below =>
    cases hi
    exact Instruction.yields_exchange below.val
  | keccak256 =>
    cases hi
    exact Instruction.yields_hash _
  | calldatacopy | codecopy =>
    cases hi
    exact Instruction.yields_copy _ _
  | mload =>
    cases hi
    exact Instruction.yields_loadWord
  | mstore =>
    cases hi
    exact Instruction.yields_storeElement
  | mstore8 =>
    cases hi
    exact Instruction.yields_storeLowByte
  | jump =>
    cases hi
    exact Instruction.yields_jump _
  | jumpi =>
    cases hi
    exact Instruction.yields_jumpIf _
  | _ =>
    -- no instruction at all, or one whose results stand in its definition
    cases hi <;> (rintro es ctx _ ⟨⟩; rfl)

/-! ### Places exchanged -/

/-- Where an element is found after the top and the one `n` places below it
have been exchanged. -/
def swapped (n j : Nat) : Nat := if j = 0 then n else if j = n then 0 else j

theorem swapped_of_lt {n j : Nat} (h : n < j) : swapped n j = j := by
  unfold swapped
  rw [if_neg (by omega), if_neg (by omega)]

theorem swapped_lt {n j : Nat} (h : j < n + 1) : swapped n j < n + 1 := by
  unfold swapped
  split
  · exact Nat.lt_add_one n
  · split
    · exact Nat.succ_pos n
    · exact h

/-- An exchange in the upper part of a stack, place by place. -/
theorem getElem?_swap_append {n : Nat} (es : Vector Element (n + 1)) (rest : List Element)
    (j : Nat) :
    ((es.swap 0 n (Nat.succ_pos n) (Nat.lt_add_one n)).toList ++ rest)[j]? =
      (es.toList ++ rest)[swapped n j]? := by
  have hlen : es.toList.length = n + 1 := Vector.length_toList
  have hlen' : (es.swap 0 n).toList.length = n + 1 := Vector.length_toList
  by_cases hj : j < n + 1
  · have hswapped := swapped_lt hj
    rw [List.getElem?_append_left (by omega), List.getElem?_append_left (by omega),
      Vector.getElem?_toList, Vector.getElem?_toList, Vector.getElem?_swap]
    unfold swapped
    by_cases hlast : j = n
    · subst hlast
      by_cases hzero : j = 0 <;> simp [hzero]
    · by_cases hzero : j = 0
      · subst hzero
        rw [if_neg (Ne.symm hlast), if_pos rfl, if_pos rfl]
        exact (Vector.getElem?_eq_getElem (Nat.lt_add_one n)).symm
      · rw [if_neg (Ne.symm hlast), if_neg (Ne.symm hzero), if_neg hzero, if_neg hlast]
  · rw [swapped_of_lt (by omega), List.getElem?_append_right (by omega),
      List.getElem?_append_right (by omega), hlen, hlen']

/-! ### Stacks that are too short -/

section Effects

variable {m m' : Machine} {b : UInt8} {op : Opcode} {i : Instruction} {r : Receipt}

/-- An underflow says how many elements the opcode takes and how many there
are, and is all that happens. -/
theorem underflow_of_exec {n d : Nat} (hi : instructionOfByte? b = some i)
    (h : m.exec b = (.error (.stackUnderflow n d), m')) :
    m.stack.depth < i.arity ∧ n = i.arity ∧ d = m.stack.depth ∧ m' = m := by
  cases exec_eq_iff.mp h with
  | underflow hi' hlt =>
    obtain rfl := Option.some.inj (hi'.symm.trans hi)
    exact ⟨hlt, rfl, rfl, rfl⟩
  | refused hi' _ ha =>
    -- instructions do not speak of the stack
    obtain ⟨_, _, hop⟩ := Option.bind_eq_some_iff.mp hi'
    cases refusal_of_act hop ha

/-! ### Stacks that suffice -/

/-- Results come in place of operands. -/
theorem items_of_exec (hop : op.instruction? = some i) (hi : instructionOfByte? b = some i)
    (h : m.exec b = (.ok r, m')) :
    ∃ taken pushed rest, m.stack.items = taken ++ rest ∧ m'.stack.items = pushed ++ rest ∧
      taken.length = op.operandCount ∧ pushed.length = op.resultCount := by
  obtain ⟨es, rest, e, hitems, ha, rfl⟩ := act_of_exec_ok hi h
  have htaken : es.toList.length = op.operandCount := by
    rw [Vector.length_toList, Opcode.arity_of_instruction? hop]
  have hpushed : e.results.length = op.resultCount := yields_of_instruction? hop _ _ _ ha
  exact ⟨es.toList, e.results, rest.items, hitems, rfl, htaken, hpushed⟩

/-- A duplication puts a copy on top of what was there. -/
theorem items_of_exec_dup {below : Fin 16} (hop : Opcode.ofByte? b = some (.dup below))
    (h : m.exec b = (.ok r, m')) :
    m'.stack.items.head? = m.stack.items[below.val]? ∧
      m'.stack.items.tail = m.stack.items := by
  obtain ⟨es, rest, _, hitems, ⟨⟩, rfl⟩ :=
    act_of_exec_ok (instructionOfByte?_of_ofByte? hop) h
  have hlt : below.val < es.toList.length := by
    rw [Vector.length_toList]
    exact Nat.lt_add_one below.val
  constructor
  · rw [hitems, List.getElem?_append_left hlt, List.getElem?_eq_getElem hlt]
    rfl
  · exact hitems.symm

/-- An exchange moves two elements and no others. -/
theorem items_of_exec_swap {below : Fin 16} (hop : Opcode.ofByte? b = some (.swap below))
    (h : m.exec b = (.ok r, m')) (j : Nat) :
    m'.stack.items[j]? = m.stack.items[swapped (below.val + 1) j]? := by
  obtain ⟨es, rest, _, hitems, ⟨⟩, rfl⟩ :=
    act_of_exec_ok (instructionOfByte?_of_ofByte? hop) h
  rw [hitems]
  exact getElem?_swap_append es rest.items j

/-- **The stack effect of every opcode.**  An opcode that the machine has fails
with an underflow just if there are fewer elements than it takes; it says how
many it takes and how many there are, and nothing is changed.  If it succeeds,
its results have come in the place of its operands, and below them everything
is as it was.  Of a duplication these are a copy of an element on top of what
was there, of an exchange all that was there but for two elements in each
other's places. -/
theorem exec_stack_effect (m : Machine) (hop : Opcode.ofByte? b = some op)
    (hi : op.instruction? = some i) :
    ((∃ n d, (m.exec b).1 = .error (.stackUnderflow n d)) ↔
      m.stack.depth < op.operandCount) ∧
    (∀ n d, (m.exec b).1 = .error (.stackUnderflow n d) →
      n = op.operandCount ∧ d = m.stack.depth ∧ (m.exec b).2 = m) ∧
    ∀ r m', m.exec b = (.ok r, m') →
      m'.stack.depth = m.stack.depth - op.operandCount + op.resultCount ∧
      m'.stack.items.drop op.resultCount = m.stack.items.drop op.operandCount ∧
      (∀ n, op.dupDepth? = some n →
        m'.stack.items.head? = m.stack.items[n - 1]? ∧
          m'.stack.items.tail = m.stack.items) ∧
      ∀ n, op.swapDepth? = some n → ∀ j,
        m'.stack.items[j]? = m.stack.items[swapped n j]? := by
  have hbyte : instructionOfByte? b = some i :=
    (instructionOfByte?_of_ofByte? hop).trans hi
  have harity := Opcode.arity_of_instruction? hi
  have hunder : ∀ {n d}, (m.exec b).1 = .error (.stackUnderflow n d) →
      m.stack.depth < i.arity ∧ n = i.arity ∧ d = m.stack.depth ∧ (m.exec b).2 = m :=
    fun h => underflow_of_exec hbyte (Machine.exec_of_fst h)
  rw [← harity]
  refine ⟨⟨?_, ?_⟩, fun n d h => (hunder h).2, ?_⟩
  · rintro ⟨n, d, h⟩
    exact (hunder h).1
  · intro hlt
    have hex := exec_eq_iff.mpr (.underflow hbyte hlt)
    exact ⟨_, _, congrArg Prod.fst hex⟩
  · intro r m' h
    obtain ⟨taken, pushed, rest, hitems, hitems', htaken, hpushed⟩ := items_of_exec hi hbyte h
    rw [← harity] at htaken
    refine ⟨?_, ?_, ?_, ?_⟩
    · unfold Stack.depth
      rw [hitems, hitems', List.length_append, List.length_append, htaken, hpushed]
      omega
    · rw [hitems, hitems', List.drop_left' htaken, List.drop_left' hpushed]
    · intro n hn
      cases op with
      | dup below =>
        cases hn
        exact items_of_exec_dup hop h
      | _ => cases hn
    · intro n hn
      cases op with
      | swap below =>
        cases hn
        exact items_of_exec_swap hop h
      | _ => cases hn

end Effects

/-- An exchange with the third element, on a stack of four and on one of two. -/
theorem exec_stack_effect_swap :
    let m : Machine :=
      { Machine.start #[0x91] #[] with
        stack := ⟨[.ofWord 1, .ofWord 2, .ofWord 3, .ofWord 4]⟩ }
    let short : Machine := { m with stack := ⟨[.ofWord 1, .ofWord 2]⟩ }
    Opcode.ofByte? 0x91 = some (.swap 1) ∧
      (Opcode.swap 1).instruction? = some (.exchange 1) ∧
      (m.exec 0x91).1 = .ok ⟨3, []⟩ ∧
      (∀ j, (m.exec 0x91).2.stack.items[j]? = m.stack.items[swapped 2 j]?) ∧
      (short.exec 0x91).1 = .error (.stackUnderflow 3 2) ∧
      (short.exec 0x91).2 = short := by
  intro m short
  have hop : Opcode.ofByte? 0x91 = some (.swap 1) := by decide +kernel
  have hok : (m.exec 0x91).1 = .ok ⟨3, []⟩ := by decide +kernel
  have hunder : (short.exec 0x91).1 = .error (.stackUnderflow 3 2) := by decide +kernel
  have h := (exec_stack_effect m hop rfl).2.2 _ _ (Machine.exec_of_fst hok)
  have h' := (exec_stack_effect short hop rfl).2.1 _ _ hunder
  exact ⟨hop, rfl, hok, h.2.2.2 2 rfl, hunder, h'.2.2⟩

end WordMachine
