/-
WordMachine/Proofs/MemoryFaults.lean

What a refused access to memory says of itself.

Six opcodes get at memory, and `Opcode.request?` is the range that each of them
asks for, read off its operands.  A fault names a range as well.  It begins where
the request does, all 256 bits of the offset, and has as many bytes
(`Span.refused_of_ofWord`), with one exception: a digest of more bytes than memory
can hold is refused before its range is looked at, and then the size that the
fault names is the largest number of 64 bits, whatever the one asked for
(`Opcode.sizeNamed`).

Main result: `memory_fault_names_request`.  That the exception is one also for
sizes that have 64 bits is `digest_misnames_size`.
-/
import WordMachine.Proofs.MemoryOpcodes
import WordMachine.Proofs.Effects

namespace WordMachine

open Memory

namespace Opcode

/-- The range of memory that an opcode asks for with its operands, the topmost
first: where it begins and how many bytes it has. -/
def request? : Opcode → List Element → Option (Word × Nat)
  | mload, [offset] => some (offset.word, 32)
  | mstore, [offset, value] => some (offset.word, value.bytes.size)
  | mstore8, [offset, _] => some (offset.word, 1)
  | keccak256, [offset, size] => some (offset.word, size.word.toNat)
  | calldatacopy, [destination, _, size] => some (destination.word, size.word.toNat)
  | codecopy, [destination, _, size] => some (destination.word, size.word.toNat)
  | _, _ => none

/-- The size that a fault names when an opcode has asked for `n` bytes. -/
def sizeNamed (op : Opcode) (n : Nat) : Nat :=
  if op = keccak256 ∧ 2 ^ 24 < n then 2 ^ 64 - 1 else n

theorem sizeNamed_of_ne {op : Opcode} (h : op ≠ keccak256) (n : Nat) : op.sizeNamed n = n :=
  if_neg fun hand => h hand.1

theorem sizeNamed_of_le {op : Opcode} {n : Nat} (h : n ≤ 2 ^ 24) : op.sizeNamed n = n :=
  if_neg fun hand => Nat.not_le_of_lt hand.2 h

end Opcode

/-- The fault of a range of `n` bytes from `offset` on, given out as a range of
`named` bytes.  No range is refused that memory could hold. -/
structure Fault.Refuses (f : Fault) (offset : Word) (n named : Nat) : Prop where
  eq_fault : f = .memoryLimitExceeded offset named (2 ^ 24)
  lt_end : n ≠ 0 → 2 ^ 24 < offset.toNat + n

theorem Fault.Refuses.of_ne {f : Fault} {op : Opcode} {offset : Word} {n : Nat}
    (h : f.Refuses offset n n) (hop : op ≠ .keccak256) :
    f.Refuses offset n (op.sizeNamed n) := by
  rwa [Opcode.sizeNamed_of_ne hop]

theorem Span.refused_of_ofWord {offset : Word} {size : Nat} {f : Fault}
    (h : Span.ofWord offset size = .error f) : f.Refuses offset size size := by
  refine ⟨Span.fault_of_ofWord h, ?_⟩
  intro hsize
  apply Nat.lt_of_not_le
  intro hle
  rw [Span.ofWord_of_fits hsize (.inr hle)] at h
  cases h

theorem Span.refused_of_ofRange {offset : Word} {size : Nat} {f : Fault}
    (h : Span.ofRange offset size = .error f) : f.Refuses offset size size := by
  unfold Span.ofRange at h
  split at h
  · cases h
  · exact Span.refused_of_ofWord h

/-- The fault refuses the range that an opcode asks for with the operands taken. -/
def Fault.Answers (f : Fault) (op : Opcode) (taken : List Element) : Prop :=
  ∃ offset n, op.request? taken = some (offset, n) ∧ f.Refuses offset n (op.sizeNamed n)

/-- What looks for the range that was asked for, and for no other first. -/
theorem Fault.Answers.of_ofWord {f : Fault} {op : Opcode} {taken : List Element}
    {offset : Word} {n : Nat} {g : Span n → Effect}
    (hasked : op.request? taken = some (offset, n)) (hop : op ≠ .keccak256)
    (h : (do let span ← Span.ofWord offset n; return g span) = .error f) :
    f.Answers op taken :=
  ⟨offset, n, hasked, (Span.refused_of_ofWord (error_of_bind_pure h)).of_ne hop⟩

/-! ### The instructions -/

namespace Instruction

variable {ctx : Context} {f : Fault}

theorem answers_of_loadWord {es : Vector Element 1} (h : loadWord.act es ctx = .error f) :
    f.Answers .mload es.toList := by
  simp only [loadWord, unary] at h
  rw [← List.append_nil es.toList, toList_unary]
  exact .of_ofWord rfl (by decide) h

theorem answers_of_storeElement {es : Vector Element 2}
    (h : storeElement.act es ctx = .error f) : f.Answers .mstore es.toList := by
  simp only [storeElement, binary] at h
  rw [← List.append_nil es.toList, toList_binary]
  exact .of_ofWord rfl (by decide) h

theorem answers_of_storeLowByte {es : Vector Element 2}
    (h : storeLowByte.act es ctx = .error f) : f.Answers .mstore8 es.toList := by
  simp only [storeLowByte, binary] at h
  rw [← List.append_nil es.toList, toList_binary]
  exact .of_ofWord rfl (by decide) h

/-- The size of a range that is digested is tested before its end is. -/
theorem answers_of_hash {digest : Bytes → Vector UInt8 32} {es : Vector Element 2}
    (h : (hash digest).act es ctx = .error f) : f.Answers .keccak256 es.toList := by
  simp only [hash, binary] at h
  rw [← List.append_nil es.toList, toList_binary]
  refine ⟨_, _, rfl, ?_⟩
  split at h
  · next hle =>
    rw [Opcode.sizeNamed_of_le hle]
    exact Span.refused_of_ofRange (error_of_bind_pure h)
  · next hlarge =>
    have hlt : 2 ^ 24 < (second es).word.toNat := Nat.lt_of_not_le hlarge
    have hnamed : Opcode.keccak256.sizeNamed (second es).word.toNat = 2 ^ 64 - 1 :=
      if_pos ⟨rfl, hlt⟩
    rw [hnamed]
    exact ⟨(Except.error.inj h).symm, fun _ => Nat.lt_add_left _ hlt⟩

/-- A copy that is too large asks for no memory yet. -/
theorem answers_of_copy {op : Opcode} {source : Context → Bytes} {es : Vector Element 3}
    (hop : op = .calldatacopy ∨ op = .codecopy)
    (h : (copy op.toByte source).act es ctx = .error f) :
    f = .copyTooLarge op.toByte (third es).word copyLimit ∨ f.Answers op es.toList := by
  simp only [copy, ternary] at h
  split at h
  · have hrefused := Span.refused_of_ofRange (error_of_bind_pure h)
    rw [Bytes.size_window] at hrefused
    rw [← List.append_nil es.toList, toList_ternary]
    rcases hop with rfl | rfl
    · exact .inr ⟨_, _, rfl, hrefused.of_ne (by decide)⟩
    · exact .inr ⟨_, _, rfl, hrefused.of_ne (by decide)⟩
  · exact .inl (Except.error.inj h).symm

end Instruction

/-! ### The opcodes -/

/-- An instruction that refuses a range has been asked for it. -/
theorem answers_of_act {op : Opcode} {i : Instruction} (hi : op.instruction? = some i)
    {es : Vector Element i.arity} {ctx : Context} {offset : Word} {size limit : Nat}
    (h : i.act es ctx = .error (.memoryLimitExceeded offset size limit)) :
    Fault.Answers (.memoryLimitExceeded offset size limit) op es.toList := by
  cases op with
  | keccak256 =>
    cases hi
    exact Instruction.answers_of_hash h
  | mload =>
    cases hi
    exact Instruction.answers_of_loadWord h
  | mstore =>
    cases hi
    exact Instruction.answers_of_storeElement h
  | mstore8 =>
    cases hi
    exact Instruction.answers_of_storeLowByte h
  | calldatacopy =>
    cases hi
    exact (Instruction.answers_of_copy (.inl rfl) h).resolve_left nofun
  | codecopy =>
    cases hi
    exact (Instruction.answers_of_copy (.inr rfl) h).resolve_left nofun
  | jump =>
    cases hi
    simp only [Instruction.jump, Instruction.unary] at h
    cases Instruction.fault_of_jumpTo h
  | jumpi =>
    cases hi
    simp only [Instruction.jumpIf, Instruction.binary] at h
    split at h
    · cases h
    · cases Instruction.fault_of_jumpTo h
  | _ =>
    -- no instruction at all, or one that accepts whatever it is given
    cases hi <;> cases h

/-- **What a memory fault names is what was asked for**, but for one case.

Whatever the machine and the opcode, if that fails with a memory fault it is one of
the six that get at memory.  The fault repeats all of the operand that says where the
range begins, and the number of bytes: of a word, of the element or of the one byte
to be written, or else the size that is an operand.  Only of a digest of more bytes
than memory can hold it names the largest number of 64 bits instead.  The range that
was asked for, if it is not empty, does end beyond the capacity. -/
theorem memory_fault_names_request (m : Machine) {b : UInt8} {offset : Word}
    {size limit : Nat} {m' : Machine}
    (h : m.exec b = (.error (.memoryLimitExceeded offset size limit), m')) :
    ∃ op taken asked, Opcode.ofByte? b = some op ∧
      m.stack.items = taken ++ m'.stack.items ∧
      op.request? taken = some (offset, asked) ∧
      size = (if op = .keccak256 ∧ 2 ^ 24 < asked then 2 ^ 64 - 1 else asked) ∧
      limit = 2 ^ 24 ∧ (asked ≠ 0 → 2 ^ 24 < offset.toNat + asked) := by
  cases exec_eq_iff.mp h with
  | refused hi hitems ha =>
    obtain ⟨op, hop, hi⟩ := Option.bind_eq_some_iff.mp hi
    obtain ⟨_, asked, hasked, hfault, hend⟩ := answers_of_act hi ha
    cases hfault
    exact ⟨op, _, asked, hop, hitems, hasked, rfl, rfl, hend⟩

/-- Two bytes, of which memory could hold the first. -/
theorem memory_fault_names_request_copy :
    let m : Machine :=
      { Machine.start #[0x39] #[] with
        stack := ⟨[.ofWord 16777215, .ofWord 0, .ofWord 2, .ofWord 9]⟩ }
    (m.exec 0x39).1 = .error (.memoryLimitExceeded 16777215 2 16777216) ∧
      ∃ op taken asked, Opcode.ofByte? 0x39 = some op ∧
        m.stack.items = taken ++ (m.exec 0x39).2.stack.items ∧
        op.request? taken = some (16777215, asked) ∧
        2 = (if op = .keccak256 ∧ 2 ^ 24 < asked then 2 ^ 64 - 1 else asked) := by
  intro m
  have hf : (m.exec 0x39).1 = .error (.memoryLimitExceeded 16777215 2 16777216) := by
    decide +kernel
  obtain ⟨op, taken, asked, hop, hitems, hasked, hsize, _⟩ :=
    memory_fault_names_request m (Machine.exec_of_fst hf)
  exact ⟨hf, op, taken, asked, hop, hitems, hasked, hsize⟩

/-- A digest of one byte more than memory can hold: the fault names another size, and
the one that was asked for has 64 bits. -/
theorem digest_misnames_size :
    let m : Machine :=
      { Machine.start #[0x20] #[] with stack := ⟨[.ofWord 0, .ofWord 16777217]⟩ }
    (m.exec 0x20).1 = .error (.memoryLimitExceeded 0 18446744073709551615 16777216) ∧
      Opcode.ofByte? 0x20 = some .keccak256 ∧
      Opcode.keccak256.request? m.stack.items = some (0, 16777217) ∧
      16777217 < 2 ^ 64 ∧ 18446744073709551615 ≠ 16777217 := by
  decide +kernel

end WordMachine
