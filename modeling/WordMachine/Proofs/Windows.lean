/-
WordMachine/Proofs/Windows.lean

Reading the input.

What is read of the input or the code is a window, and two numbers of a window are
narrowed to offsets, which end at 64 bits.  A word that is no offset is taken for the
last one.  The position behind the last byte is a sum of two offsets, and if that is
none it stops at the last one as well.  Neither makes a difference to a string that
ends before the last offset: it has nothing but zeros there and beyond
(`window_toOffsetClamped`, `byteAt_window`).

So an opcode reads the endless string at the number that is on the stack, of all its
256 bits.  Main result: `input_reads`.
-/
import WordMachine.Proofs.Execution
import Mathlib.Algebra.Group.Nat.Defs

namespace WordMachine

namespace Bytes

/-- Of a string that ends before the last offset, the zeros are read that stand at a
start beyond it. -/
theorem window_toOffsetClamped {b : Bytes} (hb : b.size < 2 ^ 64) (start : Word) (size : Nat) :
    b.window start.toOffsetClamped size = b.window start.toNat size := by
  unfold Word.toOffsetClamped Word.toOffset?
  split
  · rfl
  · next hfar =>
    have hend : b.size ≤ Word.offsetBound - 1 := Nat.le_pred_of_lt hb
    apply ext_byteAt
    · rw [size_window, size_window]
    · intro i hi
      rw [size_window] at hi
      rw [byteAt_window hb _ hi, byteAt_window hb _ hi, byteAt_of_size_le, byteAt_of_size_le]
      · exact Nat.le_trans hend (by omega)
      · exact Nat.le_trans hend (Nat.le_add_right _ _)

/-- Each byte of a window is the one that stands there, or zero past the end. -/
theorem getElem_window {b : Bytes} (hb : b.size < 2 ^ 64) (offset size i : Nat)
    (hi : i < (b.window offset size).size) :
    (b.window offset size)[i] = if h : offset + i < b.size then b[offset + i] else 0 := by
  have hsize : i < size := by rwa [size_window] at hi
  rw [getElem_eq_byteAt, byteAt_window hb offset hsize]
  split
  · next hin => exact (getElem_eq_byteAt b _ hin).symm
  · next hpast => exact byteAt_of_size_le (Nat.le_of_not_lt hpast)

end Bytes

/-- Loading a word of the input pushes the window at the number of the offset. -/
theorem exec_calldataload {m : Machine} (hcalldata : m.calldata.size < 2 ^ 64)
    {offset : Element} {rest : List Element} (hitems : m.stack.items = offset :: rest) :
    m.exec Opcode.calldataload.toByte =
      (.ok ⟨Gas.veryLow, [.element offset]⟩,
        { m with stack := ⟨⟨m.calldata.window offset.word.toNat 32⟩ :: rest⟩ }) := by
  have hact : Instruction.inputWord.act #v[offset] m.toContext = .ok
      { gas := Gas.veryLow
        results := [⟨m.calldata.window offset.word.toNat 32⟩]
        operands := [.element offset] } := by
    rw [← Bytes.window_toOffsetClamped hcalldata]
    rfl
  have hexec := exec_of_act_ok (instructionOfByte?_toByte .calldataload) hitems hact
  rwa [Machine.apply_push] at hexec

/-- **Reads of the input are reads of the endless string.**  A window of a string that
is shorter than `2^63` bytes has the size that was asked for, at any offset, and its
bytes are those of the string, or zero where the sum of offset and index, taken
exactly, is not in it.

So a word of the input can be loaded from wherever the element on top of the stack says,
with all of its 256 bits.  It is put in that element's place, in 32 bytes, and the
element itself is all that is reported. -/
theorem input_reads :
    (∀ (b : Bytes) (offset size : Nat), b.size < 2 ^ 63 →
      (b.window offset size).size = size ∧
      ∀ i (hi : i < (b.window offset size).size),
        (b.window offset size)[i] = if h : offset + i < b.size then b[offset + i] else 0) ∧
    ∀ (m : Machine) (offset : Element) (rest : List Element), m.calldata.size < 2 ^ 63 →
      m.stack.items = offset :: rest →
      ∃ word : Element,
        m.exec Opcode.calldataload.toByte =
          (.ok ⟨Gas.veryLow, [.element offset]⟩, { m with stack := ⟨word :: rest⟩ }) ∧
        word.bytes.size = 32 ∧
        ∀ i < 32, word.bytes.byteAt i = m.calldata.byteAt (offset.word.toNat + i) := by
  have hbound : 2 ^ 63 < 2 ^ 64 := by decide
  constructor
  · intro b offset size hb
    exact ⟨b.size_window offset size,
      Bytes.getElem_window (Nat.lt_trans hb hbound) offset size⟩
  · intro m offset rest hcalldata hitems
    have hsize := Nat.lt_trans hcalldata hbound
    exact ⟨_, exec_calldataload hsize hitems, Bytes.size_window _ _ _,
      fun _ hi => Bytes.byteAt_window hsize _ hi⟩

/-- Bytes from the last offset on, whose sum with a size is none, and the word at the
last of three bytes, by an element of 33. -/
theorem input_reads_straddling :
    let input : Bytes := #[1, 2, 3]
    let offset : Element := ⟨#[1] ++ Bytes.ofWord 2⟩
    let m : Machine := { Machine.start #[0x35] input with stack := ⟨[offset]⟩ }
    (input.size < 2 ^ 63 ∧ (input.window (2 ^ 64 - 1) 3).size = 3 ∧
      ∀ i (hi : i < (input.window (2 ^ 64 - 1) 3).size),
        (input.window (2 ^ 64 - 1) 3)[i] = 0) ∧
    m.calldata.size < 2 ^ 63 ∧ m.stack.items = [offset] ∧
      ∃ word : Element,
        m.exec 0x35 = (.ok ⟨3, [.element offset]⟩, { m with stack := ⟨[word]⟩ }) ∧
        word.bytes.size = 32 ∧ word.bytes.byteAt 0 = 3 ∧ word.bytes.byteAt 1 = 0 := by
  intro input offset m
  have hinput : input.size < 2 ^ 63 := by decide
  have hoffset : offset.word = 2 := by decide +kernel
  obtain ⟨hsize, hbytes⟩ := input_reads.1 input (2 ^ 64 - 1) 3 hinput
  obtain ⟨word, hexec, hword, hread⟩ := input_reads.2 m offset [] hinput rfl
  rw [hoffset] at hread
  refine ⟨⟨hinput, hsize, fun i hi => ?_⟩, hinput, rfl, word, hexec, hword,
    hread 0 (by decide), hread 1 (by decide)⟩
  have hpast : ¬2 ^ 64 - 1 + i < input.size := by
    show ¬2 ^ 64 - 1 + i < 3
    omega
  rw [hbytes i hi, dif_neg hpast]

end WordMachine
