/-
WordMachine/Proofs/Copies.lean

Copies of the input and of the code into memory.

A copy takes three numbers of 256 bits, and each of them is narrowed in a way
of its own.  The size is tested before anything else, and all of it counts.
The destination has to be the beginning of a range that memory can hold,
unless there is nothing to copy.  The start is never refused: one that is too
large for an offset is read as the last offset, and behind a source that is
short enough there are zeros at the one as at the other
(`Bytes.window_toOffsetClamped`).

So nothing of the narrowing shows.  `CopiesTo` says what a copy comes to in
terms of the numbers as they stand on the stack and of the endless strings that
source and memory are.  Main result: `exec_copies`.
-/
import WordMachine.Proofs.MemoryOpcodes
import WordMachine.Proofs.Windows

namespace WordMachine

open Memory

/-! ### Writing a window -/

namespace Memory

variable (M : Flat) (source : Bytes) (offset start size : Nat)

/-- A window that has been written is found at its place. -/
theorem Flat.put_window (hsource : source.size < 2 ^ 64) {i : Nat} (h : i < size) :
    M.put offset (source.window start size) (offset + i) = source.byteAt (start + i) := by
  unfold Flat.put
  rw [Bytes.size_window, if_pos ⟨Nat.le_add_right _ _, Nat.add_lt_add_left h _⟩,
    Nat.add_sub_cancel_left, Bytes.byteAt_window hsource start h]

/-- Nothing else is written. -/
theorem Flat.put_of_outside {data : Bytes} {a : Nat}
    (h : a < offset ∨ offset + data.size ≤ a) : M.put offset data a = M a :=
  if_neg (by omega)

/-- Writing to an empty range changes nothing, wherever that is. -/
theorem Flat.put_congr {a b : Nat} {data : Bytes} (h : data.size ≠ 0 → a = b) :
    M.put a data = M.put b data := by
  by_cases hsize : data.size = 0
  · funext i
    rw [Flat.put_of_outside M a (by omega), Flat.put_of_outside M b (by omega)]
  · rw [h hsize]

/-- `after` is `before` with `size` bytes of a source copied into it, those from
`start` on to the addresses from `destination` on.  Behind its end the source has
zeros. -/
structure Copied (before : Memory) (source : Bytes) (destination start size : Nat)
    (after : Memory) : Prop where
  copied : ∀ i < size, after.flat (destination + i) = source.byteAt (start + i)
  frame : ∀ a, a < destination ∨ destination + size ≤ a → after.flat a = before.flat a
  /-- Memory has grown to the end of the word in which the copy ends. -/
  size_eq : after.size =
    if size = 0 then before.size
    else max before.size (32 * ((destination + size + 31) / 32))

/-- Writing a window copies it.  Where an empty one is written does not matter. -/
theorem copied_write (m : Memory) {source : Bytes} (hsource : source.size < 2 ^ 64)
    {destination start size : Nat} (s : Span (source.window start size).size)
    (hoffset : (source.window start size).size ≠ 0 → s.offset = destination) :
    Copied m source destination start size (m.write s (source.window start size).toVector) := by
  have hflat : (m.write s (source.window start size).toVector).flat =
      m.flat.put destination (source.window start size) := by
    rw [flat_write, ← Flat.put_congr m.flat hoffset]
  constructor
  · intro i hi
    rw [hflat]
    exact Flat.put_window _ _ _ _ _ hsource hi
  · intro a ha
    rw [hflat]
    exact Flat.put_of_outside _ _ (by rwa [Bytes.size_window])
  · rw [size_write, coverage_congr hoffset, max_coverage, Bytes.size_window]

end Memory

/-! ### The instruction -/

namespace Instruction

variable {b : UInt8} {source : Context → Bytes} {destination start size : Element}
  {ctx : Context}

theorem copy_of_too_large (h : ¬size.word.toNat ≤ copyLimit) :
    (copy b source).act #v[destination, start, size] ctx =
      .error (.copyTooLarge b size.word copyLimit) := by
  unfold copy
  rw [ternary_act]
  exact if_neg h

section Sizes

variable (hsource : (source ctx).size < 2 ^ 64) (hsize : size.word.toNat ≤ copyLimit)

include hsource hsize

/-- A copy that is not too large writes the window at its start, wherever that
is. -/
theorem copy_of_le :
    (copy b source).act #v[destination, start, size] ctx = (do
      let span ← Span.ofRange destination.word
        ((source ctx).window start.word.toNat size.word.toNat).size
      return {
        gas := Gas.copy
        operands := [.words (ctx.memory.growth span)]
        access := .write span
          ((source ctx).window start.word.toNat size.word.toNat).toVector }) := by
  unfold copy
  rw [ternary_act, if_pos hsize, ← Bytes.window_toOffsetClamped hsource]

theorem copy_of_not_fits (h : ¬Fits destination.word.toNat size.word.toNat) :
    (copy b source).act #v[destination, start, size] ctx =
      .error (.memoryLimitExceeded destination.word size.word.toNat capacity) := by
  have hspan : Span.ofRange destination.word
      ((source ctx).window start.word.toNat size.word.toNat).size =
        .error (.memoryLimitExceeded destination.word size.word.toNat capacity) := by
    rw [Span.ofRange_of_not_fits (by rwa [Bytes.size_window]), Bytes.size_window]
  rw [copy_of_le hsource hsize, hspan]
  rfl

theorem copy_of_fits (h : Fits destination.word.toNat size.word.toNat) :
    ∃ span : Span ((source ctx).window start.word.toNat size.word.toNat).size,
      (((source ctx).window start.word.toNat size.word.toNat).size ≠ 0 →
        span.offset = destination.word.toNat) ∧
      (copy b source).act #v[destination, start, size] ctx = .ok {
        gas := Gas.copy
        operands := [.words (ctx.memory.growth span)]
        access := .write span
          ((source ctx).window start.word.toNat size.word.toNat).toVector } := by
  rw [← Bytes.size_window (source ctx) start.word.toNat size.word.toNat] at h
  obtain ⟨span, hspan, hoffset⟩ := Span.ofRange_of_fits h
  refine ⟨span, hoffset, ?_⟩
  rw [copy_of_le hsource hsize, hspan]
  rfl

end Sizes

end Instruction

/-! ### The opcodes -/

/-- What it comes to when `m` copies by the opcode `b`: so many bytes of `source`
from a start on to memory from a destination on, with `rest` left on the stack. -/
structure CopiesTo (m : Machine) (b : UInt8) (source : Bytes) (destination start size : Word)
    (rest : List Element) (outcome : Except Fault Receipt × Machine) : Prop where
  /-- A size above the limit is refused, whatever else was asked. -/
  tooLarge : 256 < size.toNat →
    outcome = (.error (.copyTooLarge b size 256), { m with stack := ⟨rest⟩ })
  /-- Then a range that memory cannot hold is. -/
  refused : size.toNat ≤ 256 → 0 < size.toNat → 2 ^ 24 < destination.toNat + size.toNat →
    outcome = (.error (.memoryLimitExceeded destination size.toNat (2 ^ 24)),
      { m with stack := ⟨rest⟩ })
  /-- Nothing else is, and the words reported are those that memory has grown by. -/
  done : size.toNat ≤ 256 → size.toNat = 0 ∨ destination.toNat + size.toNat ≤ 2 ^ 24 →
    ∃ memory words,
      outcome = (.ok ⟨Gas.copy, [.words words]⟩,
        { m with memory := memory, stack := ⟨rest⟩ }) ∧
      Copied m.memory source destination.toNat start.toNat size.toNat memory ∧
      memory.wordCount = m.memory.wordCount + words

open Instruction in
/-- An opcode whose instruction copies. -/
theorem copiesTo_exec {m : Machine} {op : Opcode} {source : Context → Bytes}
    {destination start size : Element} {rest : List Element}
    (hi : op.instruction? = some (copy op.toByte source))
    (hsource : (source m.toContext).size < 2 ^ 64)
    (hitems : m.stack.items = destination :: start :: size :: rest) :
    CopiesTo m op.toByte (source m.toContext) destination.word start.word size.word rest
      (m.exec op.toByte) := by
  have hbyte : instructionOfByte? op.toByte = some (copy op.toByte source) :=
    (instructionOfByte?_toByte op).trans hi
  have htaken : m.stack.items = #v[destination, start, size].toList ++ rest := hitems
  constructor
  · intro hlarge
    exact exec_of_act_error hbyte htaken (copy_of_too_large (Nat.not_le_of_lt hlarge))
  · intro hle hpos hend
    have hnot : ¬Fits destination.word.toNat size.word.toNat := by
      rintro (hzero | hin)
      · omega
      · exact Nat.not_le_of_lt hend hin
    exact exec_of_act_error hbyte htaken (copy_of_not_fits hsource hle hnot)
  · intro hle hfits
    obtain ⟨span, hoffset, ha⟩ := copy_of_fits hsource hle hfits
    rw [exec_of_act_ok hbyte htaken ha, Machine.apply_access]
    exact ⟨_, _, rfl, copied_write _ hsource span hoffset, wordCount_write _ span _⟩

/-- **What the two copying opcodes do.**  Let there be three elements on the stack,
of any lengths, and on top of them the destination.

A size of more than 256 is refused, with the opcode and all of the size in the
fault, whatever the other two numbers are.  Otherwise a range that is not empty and
ends beyond 16 MiB is refused.  All else is copied, from whatever start: memory then
shows the bytes of the source at the destination, with zeros for those past its end,
and is otherwise unchanged, and it has grown by the words that are reported.  A copy
of no bytes is refused nowhere. -/
theorem exec_copies (m : Machine) {destination start size : Element} {rest : List Element}
    (hitems : m.stack.items = destination :: start :: size :: rest) :
    (m.calldata.size < 2 ^ 63 →
      CopiesTo m Opcode.calldatacopy.toByte m.calldata destination.word start.word size.word
        rest (m.exec Opcode.calldatacopy.toByte)) ∧
    (m.code.size < 2 ^ 63 →
      CopiesTo m Opcode.codecopy.toByte m.code destination.word start.word size.word
        rest (m.exec Opcode.codecopy.toByte)) := by
  have hbound : 2 ^ 63 < 2 ^ 64 := by decide
  constructor
  · intro hcalldata
    exact copiesTo_exec rfl (Nat.lt_trans hcalldata hbound) hitems
  · intro hcode
    exact copiesTo_exec rfl (Nat.lt_trans hcode hbound) hitems

/-- Four bytes from the last of three on, to the end of the first word of memory: one
of them there is to copy, and memory grows by two words.  And one byte too many, from
nowhere to nowhere. -/
theorem exec_copies_straddling :
    let m : Machine :=
      { Machine.start #[0x37, 0x39] #[1, 2, 3] with
        stack := ⟨[.ofWord 31, .ofWord 2, .ofWord 4]⟩ }
    let large : Machine :=
      { m with stack := ⟨[.ofWord (-1), .ofWord (-1), .ofWord 257]⟩ }
    (m.calldata.size < 2 ^ 63 ∧
      ∃ memory, m.exec 0x37 =
          (.ok ⟨Gas.copy, [.words 2]⟩, { m with memory := memory, stack := ⟨[]⟩ }) ∧
        memory.size = 64 ∧ memory.flat 31 = 3 ∧ memory.flat 32 = 0) ∧
    large.code.size < 2 ^ 63 ∧
      large.exec 0x39 = (.error (.copyTooLarge 0x39 257 256), { m with stack := ⟨[]⟩ }) := by
  intro m large
  have hcalldata : m.calldata.size < 2 ^ 63 := by decide
  have hcode : large.code.size < 2 ^ 63 := by decide
  have hdestination : (Element.ofWord 31).word = 31 := by decide +kernel
  have hstart : (Element.ofWord 2).word = 2 := by decide +kernel
  have hsize : (Element.ofWord 4).word = 4 := by decide +kernel
  have hlarge : (Element.ofWord 257).word = 257 := by decide +kernel
  have h := (exec_copies m rfl).1 hcalldata
  have hrefused := (exec_copies large rfl).2 hcode
  rw [hdestination, hstart, hsize] at h
  rw [hlarge] at hrefused
  obtain ⟨memory, words, hexec, hcopied, hwords⟩ := h.done (by decide) (.inr (by decide))
  have hgrown : memory.size = 64 := hcopied.size_eq
  obtain rfl : words = 2 := by
    have hcount : memory.wordCount = 2 := by rw [wordCount, hgrown]
    have hnone : m.memory.wordCount = 0 := by decide
    omega
  exact ⟨⟨hcalldata, memory, hexec, hgrown, hcopied.copied 0 (by decide),
    hcopied.copied 1 (by decide)⟩, hcode, hrefused.tooLarge (by decide)⟩

end WordMachine
