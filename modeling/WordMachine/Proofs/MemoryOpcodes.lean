/-
WordMachine/Proofs/MemoryOpcodes.lean

The opcodes that work on memory, on the endless string that memory shows.

Each of them gets at one range, and what becomes of the machine is said in the
same words for all: `MemoryAccess`.  Between an operand and its range stand
three tests, for words too large to be an offset, for ranges that are empty
and for the capacity; together they come down to the one question whether the
range fits, asked of the operands as numbers without a bound
(`Span.ofWord_of_fits`, `Span.ofRange_of_fits`).

`MemoryAccess.of_act` carries an instruction's answer over to the opcode, so
that for each opcode only its instruction is left to be looked at.  Nothing is
assumed of the digest of a range.  Main result: `exec_memory_opcodes`.
-/
import WordMachine.Proofs.BigEndian
import WordMachine.Proofs.FlatMemory

namespace WordMachine

open Memory

/-! ### Ranges given by words -/

namespace Span

variable {offset : Word} {size : Nat}

/-- A range that fits and is not empty begins at an offset. -/
theorem ofWord_of_fits (hsize : size ≠ 0) (h : Fits offset.toNat size) :
    ofWord offset size = .ok ⟨offset.toNat, h⟩ := by
  have hle : offset.toNat + size ≤ capacity := h.resolve_left hsize
  have hlt : offset.toNat < Word.offsetBound := by
    simp only [capacity] at hle
    simp only [Word.offsetBound]
    omega
  exact dif_pos ⟨hlt, h⟩

theorem ofWord_of_not_fits (h : ¬Fits offset.toNat size) :
    ofWord offset size = .error (.memoryLimitExceeded offset size capacity) :=
  dif_neg fun hand => h hand.2

/-- A range that fits is accepted.  Where it is does not matter if it is
empty. -/
theorem ofRange_of_fits (h : Fits offset.toNat size) :
    ∃ s, ofRange offset size = .ok s ∧ (size ≠ 0 → s.offset = offset.toNat) := by
  by_cases hsize : size = 0
  · exact ⟨_, dif_pos hsize, fun hne => absurd hsize hne⟩
  · refine ⟨⟨offset.toNat, h⟩, ?_, fun _ => rfl⟩
    unfold ofRange
    rw [dif_neg hsize, ofWord_of_fits hsize h]

theorem ofRange_of_not_fits (h : ¬Fits offset.toNat size) :
    ofRange offset size = .error (.memoryLimitExceeded offset size capacity) := by
  have hsize : size ≠ 0 := fun hzero => h (.inl hzero)
  unfold ofRange
  rw [dif_neg hsize, ofWord_of_not_fits h]

end Span

namespace Memory

/-- Of an empty range it does not matter where it is. -/
theorem Flat.cut_congr (M : Flat) {a b size : Nat} (h : size ≠ 0 → a = b) :
    M.cut a size = M.cut b size := by
  by_cases hsize : size = 0
  · subst hsize
    rfl
  · rw [h hsize]

theorem coverage_congr {a b size : Nat} (h : size ≠ 0 → a = b) :
    coverage a size = coverage b size := by
  by_cases hsize : size = 0
  · subst hsize
    rfl
  · rw [h hsize]

end Memory

/-! ### What an opcode that gets at a range comes to -/

/-- What carrying out an opcode on `m` comes to that gets at the `size` bytes
of memory from `offset` on.  If it succeeds, it leaves `stack`, and memory
shows `shown`. -/
structure MemoryAccess (m : Machine) (offset size : Nat) (stack : List Element)
    (shown : Flat) (outcome : Except Fault Receipt × Machine) : Prop where
  isOk_iff : outcome.1.isOk = true ↔ size = 0 ∨ offset + size ≤ 2 ^ 24
  /-- A range that memory cannot hold is refused and leaves memory alone. -/
  refused : outcome.1.isOk = false →
    (∃ o n, outcome.1 = .error (.memoryLimitExceeded o n (2 ^ 24))) ∧
      outcome.2.memory = m.memory
  stack_items : outcome.1.isOk = true → outcome.2.stack.items = stack
  memory_flat : outcome.1.isOk = true → outcome.2.memory.flat = shown
  /-- Memory grows to the end of the word in which the range ends. -/
  memory_size : outcome.1.isOk = true →
    outcome.2.memory.size =
      if size = 0 then m.memory.size
      else max m.memory.size (32 * ((offset + size + 31) / 32))

/-- The size of memory that covers a range, written out. -/
theorem max_coverage (n offset size : Nat) :
    max n (coverage offset size) =
      if size = 0 then n else max n (32 * ((offset + size + 31) / 32)) := by
  unfold coverage
  split
  · exact Nat.max_zero n
  · rw [Nat.mul_comm]

/-- The effect pushes `results`, grows `memory` to cover a range and makes it
show `shown`. -/
structure Effect.Covers (e : Effect) (memory : Memory) (offset size : Nat)
    (results : List Element) (shown : Flat) : Prop where
  results_eq : e.results = results
  flat_after : (memory.after e.access).flat = shown
  size_after : (memory.after e.access).size = max memory.size (coverage offset size)

/-- An opcode gets at a range if its instruction does. -/
theorem MemoryAccess.of_act {m : Machine} {op : Opcode} {rest : List Element}
    {offset size : Nat} {shown : Flat} (i : Instruction) (es : Vector Element i.arity)
    (results : List Element) (hi : op.instruction? = some i)
    (hitems : m.stack.items = es.toList ++ rest)
    (hfits : Fits offset size →
      ∃ e, i.act es m.toContext = .ok e ∧ e.Covers m.memory offset size results shown)
    (hnot : ¬Fits offset size →
      ∃ o n, i.act es m.toContext = .error (.memoryLimitExceeded o n capacity)) :
    MemoryAccess m offset size (results ++ rest) shown (m.exec op.toByte) := by
  have hbyte : instructionOfByte? op.toByte = some i :=
    (instructionOfByte?_toByte op).trans hi
  by_cases hfit : Fits offset size
  · obtain ⟨e, ha, he⟩ := hfits hfit
    rw [exec_of_act_ok hbyte hitems ha]
    exact {
      isOk_iff := iff_of_true rfl hfit
      refused := nofun
      stack_items := fun _ => congrArg (· ++ rest) he.results_eq
      memory_flat := fun _ => he.flat_after
      memory_size := fun _ => he.size_after.trans (max_coverage _ _ _) }
  · obtain ⟨o, n, ha⟩ := hnot hfit
    rw [exec_of_act_error hbyte hitems ha]
    exact {
      isOk_iff := iff_of_false Bool.false_ne_true hfit
      refused := fun _ => ⟨⟨o, n, rfl⟩, rfl⟩
      stack_items := nofun
      memory_flat := nofun
      memory_size := nofun }

/-! ### The instructions -/

namespace Instruction

variable {ctx : Context} {offset size value : Element}

theorem loadWord_of_fits (h : Fits offset.word.toNat Bytes.wordSize) :
    ∃ e, loadWord.act #v[offset] ctx = .ok e ∧
      e.Covers ctx.memory offset.word.toNat Bytes.wordSize
        [⟨ctx.memory.flat.cut offset.word.toNat Bytes.wordSize⟩] ctx.memory.flat := by
  unfold loadWord
  rw [unary_act, Span.ofWord_of_fits (by decide) h, ← toArray_slice ctx.memory ⟨_, h⟩]
  exact ⟨_, rfl, rfl, flat_touch _ _, size_touch _ _⟩

theorem loadWord_of_not_fits (h : ¬Fits offset.word.toNat Bytes.wordSize) :
    loadWord.act #v[offset] ctx =
      .error (.memoryLimitExceeded offset.word Bytes.wordSize capacity) := by
  unfold loadWord
  rw [unary_act, Span.ofWord_of_not_fits h]
  rfl

theorem storeElement_of_fits (hsize : value.bytes.size ≠ 0)
    (h : Fits offset.word.toNat value.bytes.size) :
    ∃ e, storeElement.act #v[offset, value] ctx = .ok e ∧
      e.Covers ctx.memory offset.word.toNat value.bytes.size []
        (ctx.memory.flat.put offset.word.toNat value.bytes) := by
  unfold storeElement
  rw [binary_act, Span.ofWord_of_fits hsize h]
  exact ⟨_, rfl, rfl, flat_write _ _ _, size_write _ _ _⟩

theorem storeElement_of_not_fits (h : ¬Fits offset.word.toNat value.bytes.size) :
    storeElement.act #v[offset, value] ctx =
      .error (.memoryLimitExceeded offset.word value.bytes.size capacity) := by
  unfold storeElement
  rw [binary_act, Span.ofWord_of_not_fits h]
  rfl

theorem storeLowByte_of_fits (h : Fits offset.word.toNat 1) :
    ∃ e, storeLowByte.act #v[offset, value] ctx = .ok e ∧
      e.Covers ctx.memory offset.word.toNat 1 []
        (ctx.memory.flat.put offset.word.toNat #[UInt8.ofNat value.word.toNat]) := by
  unfold storeLowByte
  rw [binary_act, Span.ofWord_of_fits Nat.one_ne_zero h]
  exact ⟨_, rfl, rfl, flat_write _ _ _, size_write _ _ _⟩

theorem storeLowByte_of_not_fits (h : ¬Fits offset.word.toNat 1) :
    storeLowByte.act #v[offset, value] ctx =
      .error (.memoryLimitExceeded offset.word 1 capacity) := by
  unfold storeLowByte
  rw [binary_act, Span.ofWord_of_not_fits h]
  rfl

variable {digest : Bytes → Vector UInt8 32}

theorem hash_of_fits (h : Fits offset.word.toNat size.word.toNat) :
    ∃ e, (hash digest).act #v[offset, size] ctx = .ok e ∧
      e.Covers ctx.memory offset.word.toNat size.word.toNat
        [⟨(digest (ctx.memory.flat.cut offset.word.toNat size.word.toNat)).toArray⟩]
        ctx.memory.flat := by
  have hle : size.word.toNat ≤ capacity := by
    rcases h with hzero | hend
    · omega
    · omega
  -- the span of an empty range may lie elsewhere, which changes nothing
  obtain ⟨s, hspan, hoffset⟩ := Span.ofRange_of_fits h
  have hcover : (ctx.memory.touch s).size =
      max ctx.memory.size (coverage offset.word.toNat size.word.toNat) := by
    rw [size_touch, coverage_congr hoffset]
  unfold hash
  rw [binary_act, if_pos hle, hspan, ← Flat.cut_congr _ hoffset, ← toArray_slice]
  exact ⟨_, rfl, rfl, flat_touch _ _, hcover⟩

theorem hash_of_not_fits (h : ¬Fits offset.word.toNat size.word.toNat) :
    ∃ o n, (hash digest).act #v[offset, size] ctx =
      .error (.memoryLimitExceeded o n capacity) := by
  unfold hash
  rw [binary_act]
  by_cases hle : size.word.toNat ≤ capacity
  · rw [if_pos hle, Span.ofRange_of_not_fits h]
    exact ⟨_, _, rfl⟩
  · rw [if_neg hle]
    exact ⟨_, _, rfl⟩

end Instruction

/-! ### The opcodes -/

/-- **The memory opcodes work on the endless string.**

On a stack of words, the top one being `o`, all of them succeed just if their
range is empty or ends within 16 MiB, and nothing else is asked of `o`.  Then
one of them pushes the word shown in the 32 bytes from `o` on, one writes a
word to them, one writes the lowest byte of a word to the byte at `o`, and one
pushes the digest of the bytes from `o` on, as many of them as the second
operand says.  Reading changes no byte. -/
theorem exec_memory_opcodes (m : Machine) (hwords : ∀ e ∈ m.stack.items, e.isWord = true) :
    (∀ o rest, m.stack.items = o :: rest →
      MemoryAccess m o.word.toNat 32
        (.ofWord (BitVec.ofNat 256 (m.memory.flat.cut o.word.toNat 32).value) :: rest)
        m.memory.flat (m.exec Opcode.mload.toByte)) ∧
    (∀ o v rest, m.stack.items = o :: v :: rest →
      MemoryAccess m o.word.toNat 32 rest
        (m.memory.flat.put o.word.toNat (Bytes.ofWord v.word))
        (m.exec Opcode.mstore.toByte)) ∧
    (∀ o v rest, m.stack.items = o :: v :: rest →
      MemoryAccess m o.word.toNat 1 rest
        (m.memory.flat.put o.word.toNat #[UInt8.ofNat (v.word.toNat % 256)])
        (m.exec Opcode.mstore8.toByte)) ∧
    ∀ o s rest, m.stack.items = o :: s :: rest →
      MemoryAccess m o.word.toNat s.word.toNat
        (⟨(Keccak.digest (m.memory.flat.cut o.word.toNat s.word.toNat)).toArray⟩ :: rest)
        m.memory.flat (m.exec Opcode.keccak256.toByte) := by
  refine ⟨?_, ?_, ?_, ?_⟩
  · intro o rest hitems
    have hcut : (m.memory.flat.cut o.word.toNat 32).size = Bytes.wordSize := Array.size_ofFn
    have hpushed : Element.ofWord
        (BitVec.ofNat 256 (m.memory.flat.cut o.word.toNat 32).value) =
          ⟨m.memory.flat.cut o.word.toNat 32⟩ := by
      rw [← Bytes.toWord_of_size hcut]
      exact Element.ofWord_word hcut
    rw [hpushed]
    exact .of_act Instruction.loadWord #v[o] [_] rfl hitems Instruction.loadWord_of_fits
      fun h => ⟨_, _, Instruction.loadWord_of_not_fits h⟩
  · intro o v rest hitems
    have hv : v.bytes.size = 32 := by
      have hmem : v ∈ m.stack.items := by simp [hitems]
      simpa [Element.isWord, Bytes.wordSize] using hwords v hmem
    have hsize : v.bytes.size ≠ 0 := by omega
    have hbytes : Bytes.ofWord v.word = v.bytes := Bytes.ofWord_toWord hv
    rw [hbytes, ← hv]
    exact .of_act Instruction.storeElement #v[o, v] [] rfl hitems
      (Instruction.storeElement_of_fits hsize)
      fun h => ⟨_, _, Instruction.storeElement_of_not_fits h⟩
  · intro o v rest hitems
    have hlow : UInt8.ofNat (v.word.toNat % 256) = UInt8.ofNat v.word.toNat := by
      apply UInt8.toNat_inj.mp
      simp
    rw [hlow]
    exact .of_act Instruction.storeLowByte #v[o, v] [] rfl hitems
      Instruction.storeLowByte_of_fits
      fun h => ⟨_, _, Instruction.storeLowByte_of_not_fits h⟩
  · intro o s rest hitems
    exact .of_act (Instruction.hash Keccak.digest) #v[o, s] [_] rfl hitems
      Instruction.hash_of_fits Instruction.hash_of_not_fits

/-- The last word that memory can hold is written, and memory grows to its
capacity for it. -/
theorem exec_memory_opcodes_last_word :
    let m : Machine :=
      { Machine.start #[0x52] #[] with stack := ⟨[.ofWord 16777184, .ofWord 7]⟩ }
    (∀ e ∈ m.stack.items, e.isWord = true) ∧
      (m.exec Opcode.mstore.toByte).1.isOk = true ∧
      (m.exec Opcode.mstore.toByte).2.memory.size = 2 ^ 24 ∧
      (m.exec Opcode.mstore.toByte).2.memory.flat =
        m.memory.flat.put 16777184 (Bytes.ofWord 7) := by
  intro m
  have hwords : ∀ e ∈ m.stack.items, e.isWord = true := by decide +kernel
  have hoffset : (Element.ofWord 16777184).word.toNat = 16777184 := by decide +kernel
  have hvalue : (Element.ofWord 7).word = 7 := by decide +kernel
  have hsize : m.memory.size = 0 := rfl
  have h := (exec_memory_opcodes m hwords).2.1 _ _ [] rfl
  rw [hoffset, hvalue] at h
  have hok := h.isOk_iff.mpr (.inr (by decide))
  refine ⟨hwords, hok, ?_, h.memory_flat hok⟩
  rw [h.memory_size hok, hsize]
  rfl

end WordMachine
