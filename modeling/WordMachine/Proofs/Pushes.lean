/-
WordMachine/Proofs/Pushes.lean

What a push reads out of the code.

The bytes behind its opcode are a number with the leading byte first, and there
may be fewer of them in the code than the opcode asks for.  `m.immediate size`
are those that there are.  They are no more than a word has, so the word that is
pushed is their number and nothing of it is lost (`value_immediate_lt`).  Where
the machine goes on does not depend on how many there were.

`exec_push` is the opcode and `step_push` the step.  A number that is written out
in the code behind a push, whatever stands before and after, is the number pushed
(`immediate_of_append`).  Main result: `push_decodes`.  It is about machines that
are going; one that has stopped makes no step, on a push no more than elsewhere
(`push_of_stopped`).
-/
import Mathlib.Algebra.Group.Nat.Defs
import WordMachine.Proofs.BigEndian
import WordMachine.Proofs.ControlFlow
import WordMachine.Proofs.Visits

namespace WordMachine

/-! ### Immediate bytes -/

/-- The immediate bytes of a push of `size` bytes at the program counter, as many
of them as the code holds. -/
def Machine.immediate (m : Machine) (size : Nat) : Bytes :=
  m.code.extract (m.pc + 1) (min (m.pc + 1 + size) m.code.size)

section Immediates

variable {m : Machine} {size : Nat}

/-- To read up to the end of the code is to read as far as there is code. -/
theorem extract_eq_immediate :
    m.code.extract (m.pc + 1) (m.pc + 1 + size) = m.immediate size := by
  unfold Machine.immediate
  apply Array.ext
  · rw [Array.size_extract, Array.size_extract]
    omega
  · intro i _ _
    rw [Array.getElem_extract, Array.getElem_extract]

/-- Immediate bytes have room in a word. -/
theorem value_immediate_lt (hsize : size < 33) : (m.immediate size).value < 2 ^ 256 := by
  have hle : (m.immediate size).size ≤ Bytes.wordSize := by
    unfold Machine.immediate Bytes.wordSize
    rw [Array.size_extract]
    omega
  rw [← Bytes.pow_wordSize]
  exact Nat.lt_of_lt_of_le (Bytes.value_lt _) (Nat.pow_le_pow_right (by decide) hle)

variable {before digits after : Bytes} {b : UInt8}

/-- An opcode in the middle of some code. -/
theorem currentOp?_of_append (hcode : m.code = before ++ #[b] ++ digits ++ after)
    (hpc : m.pc = before.size) : m.currentOp? = some b := by
  have hlt : before.size < (before ++ #[b]).size := by
    rw [Array.size_append]
    exact Nat.lt_add_one _
  rw [Machine.currentOp?, hcode, hpc, Array.append_assoc, Array.getElem?_append_left hlt,
    Array.getElem?_append_right (Nat.le_refl _), Nat.sub_self]
  rfl

/-- Immediate bytes that are all there behind it. -/
theorem immediate_of_append (hcode : m.code = before ++ #[b] ++ digits ++ after)
    (hpc : m.pc = before.size) : m.immediate digits.size = digits := by
  have hfront : m.pc + 1 = (before ++ #[b]).size := by
    rw [hpc, Array.size_append]
    rfl
  rw [← extract_eq_immediate, hcode, hfront, Array.append_assoc, Array.extract_append_right,
    Array.extract_append_left, Array.extract_size]

end Immediates

/-! ### The opcode and the step -/

/-- The machine behind a push of `size` bytes, with the number of these on top of
its stack. -/
def Machine.pushed (m : Machine) (size : Nat) : Machine where
  toContext := { m.toContext with pc := m.pc + 1 + size }
  stack := m.stack.pushWord (BitVec.ofNat 256 (m.immediate size).value)
  stopped := decide (m.code.size ≤ m.pc + 1 + size)

section Steps

variable {m : Machine} {size : Fin 33}

/-- What a push of `size` bytes costs. -/
def pushGas (size : Nat) : Nat := if size = 0 then Gas.base else Gas.veryLow

/-- The opcode moves onto the last of its immediate bytes. -/
theorem exec_push (m : Machine) (size : Fin 33) :
    m.exec (Opcode.push size).toByte =
      (.ok ⟨pushGas size.val, []⟩,
        { m with
          pc := m.pc + size.val
          stack := m.stack.pushWord (BitVec.ofNat 256 (m.immediate size.val).value) }) := by
  have hi : instructionOfByte? (Opcode.push size).toByte = some (.immediate size.val) :=
    instructionOfByte?_toByte _
  have ha : (Instruction.immediate size.val).act #v[] m.toContext =
      .ok {
        gas := pushGas size.val
        results := [.ofWord (BitVec.ofNat 256 (m.immediate size.val).value)]
        goto? := some (m.pc + size.val) } := by
    rw [← extract_eq_immediate]
    rfl
  rw [exec_of_act_ok hi rfl ha, Machine.apply_moves]
  rfl

/-- **A step on a push.** -/
theorem step_push (hm : m.stopped = false) (hop : m.currentOp? = some (Opcode.push size).toByte) :
    m.step = (.ok ⟨⟨pushGas size.val, []⟩, (Opcode.push size).toByte⟩, m.pushed size.val) := by
  have hjump : ¬Machine.isJump (Opcode.push size).toByte = true := by
    rw [Opcode.isJump_iff (Opcode.ofByte?_toByte _)]
    nofun
  have hpc : m.pc + 1 + size.val = m.pc + size.val + 1 := by omega
  rw [Machine.step_of_exec_ok hm hop (exec_push m size), Machine.advance, if_neg hjump,
    Machine.haltAtEnd, Machine.pushed, hpc]
  split
  · next hend => rw [decide_eq_true hend]; rfl
  · next hend => rw [decide_eq_false hend, ← hm]

/-- The word on top is the number of the immediate bytes, with nothing lost. -/
theorem value_pushed (m : Machine) (size : Fin 33) :
    (Bytes.ofWord (BitVec.ofNat 256 (m.immediate size.val).value)).value =
      (m.immediate size.val).value := by
  rw [Bytes.value_ofWord, BitVec.toNat_ofNat, Nat.mod_eq_of_lt (value_immediate_lt size.isLt)]

end Steps

/-- **A push decodes its immediate bytes.**  Let `m` be going, with the opcode of a
push of `size` bytes at its program counter.  The step succeeds and puts one word on
the stack, 32 bytes long.  Its number is that of the bytes behind the opcode, up to
`size` of them or up to the end of the code; if they are cut short, those that are
left are the low ones of the word.  The machine goes on behind all `size` bytes,
and stops if the code does not reach further.

So a number that is written out in `size` bytes behind the opcode, in any code, is
the number pushed. -/
theorem push_decodes (m : Machine) (hm : m.stopped = false) :
    (∀ size : Fin 33, m.currentOp? = some (0x5f + UInt8.ofNat size.val) →
      ∃ step m' e, m.step = (.ok step, m') ∧
        m'.stack.items = e :: m.stack.items ∧ e.bytes.size = 32 ∧
        e.bytes.value =
          Bytes.value (m.code.extract (m.pc + 1) (min (m.pc + 1 + size.val) m.code.size)) ∧
        m'.pc = m.pc + 1 + size.val ∧
        (m'.stopped = true ↔ m.code.size ≤ m.pc + 1 + size.val)) ∧
    ∀ (size : Fin 33) (n : Nat) (before after : Bytes), n < 256 ^ size.val →
      m.code = before ++ #[0x5f + UInt8.ofNat size.val] ++ Bytes.ofNumber size.val n ++ after →
      m.pc = before.size →
      ∃ step m' e, m.step = (.ok step, m') ∧
        m'.stack.items = e :: m.stack.items ∧ e.bytes.size = 32 ∧ e.bytes.value = n := by
  constructor
  · intro size hop
    exact ⟨_, _, _, step_push hm hop, rfl, Bytes.size_ofWord _, value_pushed m size, rfl,
      decide_eq_true_iff⟩
  · intro size n before after hn hcode hpc
    have hop := currentOp?_of_append hcode hpc
    have hdigits := immediate_of_append hcode hpc
    rw [Bytes.size_ofNumber] at hdigits
    have hvalue : (m.immediate size.val).value = n := by
      rw [hdigits, Bytes.value_ofNumber hn]
    exact ⟨_, _, _, step_push hm hop, rfl, Bytes.size_ofWord _, (value_pushed m size).trans hvalue⟩

/-- A push of 32 bytes of which the code holds two, and a push of two bytes between
other opcodes. -/
theorem push_decodes_cut :
    let cut := Machine.start #[0x7f, 0x12, 0x34] #[]
    let inside : Machine := { Machine.start #[0x00, 0x61, 0x02, 0x01, 0x00] #[] with pc := 1 }
    (cut.stopped = false ∧ cut.currentOp? = some (0x5f + UInt8.ofNat 32) ∧
      ∃ step m' e, cut.step = (.ok step, m') ∧ m'.stack.items = [e] ∧
        e.bytes.value = 0x1234 ∧ m'.pc = 33 ∧ m'.stopped = true) ∧
    (513 < 256 ^ 2 ∧
      inside.code = #[0x00] ++ #[0x5f + UInt8.ofNat 2] ++ Bytes.ofNumber 2 513 ++ #[0x00] ∧
      ∃ step m' e, inside.step = (.ok step, m') ∧ m'.stack.items = [e] ∧
        e.bytes.value = 513) := by
  intro cut inside
  have hop : cut.currentOp? = some (0x5f + UInt8.ofNat 32) := by decide
  have hcode : inside.code =
      #[0x00] ++ #[0x5f + UInt8.ofNat 2] ++ Bytes.ofNumber 2 513 ++ #[0x00] := by
    decide +kernel
  have hdigits : Bytes.value (cut.code.extract (cut.pc + 1)
      (min (cut.pc + 1 + 32) cut.code.size)) = 0x1234 := by
    decide +kernel
  obtain ⟨step, m', e, hstep, hitems, _, hvalue, hpc, hstopped⟩ :=
    (push_decodes cut rfl).1 32 hop
  obtain ⟨step₂, m₂, e₂, hstep₂, hitems₂, _, hvalue₂⟩ :=
    (push_decodes inside rfl).2 2 513 #[0x00] #[0x00] (by decide) hcode rfl
  exact ⟨⟨rfl, hop, step, m', e, hstep, hitems, hvalue.trans hdigits, hpc,
      hstopped.mpr (by decide)⟩,
    by decide, hcode, step₂, m₂, e₂, hstep₂, hitems₂, hvalue₂⟩

/-- A machine that has stopped makes no step on a push, and nothing is pushed. -/
theorem push_of_stopped :
    let m := (Machine.start #[0x60, 0x05] #[]).halt
    m.currentOp? = some (0x5f + UInt8.ofNat 1) ∧
      m.step.1 = .error (.halted 0) ∧ m.step.2.stack = m.stack := by
  decide +kernel

end WordMachine
