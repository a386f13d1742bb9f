/-
WordMachine/Proofs/Jumps.lean

Which jumps are accepted, and what becomes of the others.

A jump is judged by the byte at its destination alone, and the destination is
the number on top of the stack, all 256 bits of it: `Machine.Marked` asks for a
position in the code and for the marker there, and nothing is asked of what
stands before it.  Positions have 64 bits, but a destination is not reduced to
them; one that needs more is a position of no code, and the jump is refused.

Both opcodes come down to the same test, so what becomes of the machine is said
once, in `JumpsTo`: first of the opcode alone (`JumpsTo.of_act`), then of a step
on it (`JumpsTo.of_exec`).  A conditional jump that is not taken makes no test.
Main result: `jumps_validated`.
-/
import Mathlib.Algebra.Group.Nat.Defs
import WordMachine.Proofs.BigEndian
import WordMachine.Proofs.Effects
import WordMachine.Proofs.Visits

namespace WordMachine

/-! ### Marked positions -/

/-- There is a marker at a position of the code. -/
def Machine.Marked (m : Machine) (position : Nat) : Prop :=
  ∃ h : position < m.code.size, m.code[position] = 0x5b

section Targets

variable {m : Machine} {destination : Element}

theorem Machine.marked_iff {position : Nat} :
    m.Marked position ↔ m.code[position]? = some Instruction.markerByte :=
  Array.getElem?_eq_some_iff.symm

/-- A marked position is found. -/
theorem target?_of_marked (hcode : m.code.size ≤ 2 ^ 64) (h : m.Marked destination.number) :
    Instruction.target? m.toContext destination.word = some destination.number := by
  have hlt : destination.number < Word.offsetBound := Nat.lt_of_lt_of_le h.1 hcode
  rw [Instruction.target?_eq_some_iff, Element.toNat_word]
  exact ⟨hlt, rfl, Machine.marked_iff.mp h⟩

/-- Nothing else is. -/
theorem target?_of_not_marked (h : ¬m.Marked destination.number) :
    Instruction.target? m.toContext destination.word = none := by
  rw [Option.eq_none_iff_forall_ne_some]
  intro position htarget
  obtain ⟨_, hposition, hmarker⟩ := Instruction.target?_eq_some_iff.mp htarget
  rw [hposition, Element.toNat_word] at hmarker
  exact h (Machine.marked_iff.mpr hmarker)

/-- A condition is judged by its number. -/
theorem Element.word_eq_zero_iff (condition : Element) :
    condition.word = 0 ↔ condition.number = 0 := by
  rw [← Element.toNat_word, ← BitVec.toNat_inj]
  rfl

end Targets

/-! ### What a jump comes to -/

/-- What it comes to when `m` jumps to `D` by the opcode `b`, with `rest` left on
the stack.  A machine that is refused the jump has the flag `stopped`. -/
structure JumpsTo {α : Type} (m : Machine) (b : UInt8) (D : Nat) (rest : List Element)
    (stopped : Bool) (outcome : Except Fault α × Machine) : Prop where
  isOk_iff : outcome.1.isOk = true ↔ m.Marked D
  /-- The machine goes on as it was, at a marker. -/
  taken : outcome.1.isOk = true →
    outcome.2 = { m with pc := D, stack := ⟨rest⟩ } ∧
      outcome.2.currentOp? = some Opcode.jumpdest.toByte
  /-- The fault names the opcode, where it stands and all of the destination. -/
  refused : outcome.1.isOk = false →
    outcome.1 = .error (.invalidJump b m.pc (BitVec.ofNat 256 D)) ∧
      outcome.2 = { m with stack := ⟨rest⟩, stopped := stopped }

section Outcomes

variable {m : Machine} {b : UInt8} {destination : Element} {rest : List Element}

/-- An opcode whose instruction jumps. -/
theorem JumpsTo.of_act {i : Instruction} {es : Vector Element i.arity} {gas : Nat}
    (hcode : m.code.size ≤ 2 ^ 64) (hi : instructionOfByte? b = some i)
    (ha : i.act es m.toContext = Instruction.jumpTo b gas destination.word m.toContext)
    (hitems : m.stack.items = es.toList ++ rest) :
    JumpsTo m b destination.number rest m.stopped (m.exec b) := by
  by_cases h : m.Marked destination.number
  · rw [Instruction.jumpTo, target?_of_marked hcode h] at ha
    rw [exec_of_act_ok hi hitems ha, Machine.apply_moves]
    exact {
      isOk_iff := iff_of_true rfl h
      taken := fun _ => ⟨rfl, Machine.marked_iff.mp h⟩
      refused := nofun }
  · have hword : BitVec.ofNat 256 destination.number = destination.word := by
      rw [← Element.toNat_word, BitVec.ofNat_toNat, BitVec.setWidth_eq]
    rw [Instruction.jumpTo, target?_of_not_marked h] at ha
    rw [exec_of_act_error hi hitems ha]
    exact {
      isOk_iff := iff_of_false Bool.false_ne_true h
      taken := nofun
      refused := fun _ => ⟨by rw [hword], rfl⟩ }

/-- A step on an opcode that jumps does not move on from where it leads. -/
theorem JumpsTo.of_exec {D : Nat} (hm : m.stopped = false) (hop : m.currentOp? = some b)
    (hjump : Machine.isJump b = true) (h : JumpsTo m b D rest m.stopped (m.exec b)) :
    JumpsTo m b D rest true m.step := by
  rcases hex : m.exec b with ⟨f | receipt, m'⟩
  · rw [hex] at h
    obtain ⟨hf, rfl⟩ := h.refused rfl
    rw [Machine.step_of_exec_error hm hop hex]
    exact {
      isOk_iff := h.isOk_iff
      taken := nofun
      refused := fun _ => ⟨congrArg Except.error (Except.error.inj hf), rfl⟩ }
  · rw [hex] at h
    obtain ⟨rfl, hmarker⟩ := h.taken rfl
    obtain ⟨hlt, _⟩ := h.isOk_iff.mp rfl
    have hstay : Machine.advance b { m with pc := D, stack := ⟨rest⟩ } =
        { m with pc := D, stack := ⟨rest⟩ } := by
      rw [Machine.advance, if_pos hjump, Machine.haltAtEnd, if_neg (Nat.not_le_of_lt hlt)]
    rw [Machine.step_of_exec_ok hm hop hex, hstay]
    exact {
      isOk_iff := h.isOk_iff
      taken := fun _ => ⟨rfl, hmarker⟩
      refused := nofun }

end Outcomes

/-! ### The two opcodes -/

section Opcodes

variable {m : Machine} {destination condition : Element} {rest : List Element}

theorem jumpsTo_jump (hcode : m.code.size ≤ 2 ^ 64)
    (hitems : m.stack.items = destination :: rest) :
    JumpsTo m Opcode.jump.toByte destination.number rest m.stopped
      (m.exec Opcode.jump.toByte) := by
  have hi : instructionOfByte? Opcode.jump.toByte = some (.jump Opcode.jump.toByte) := rfl
  have ha : (Instruction.jump Opcode.jump.toByte).act #v[destination] m.toContext =
      Instruction.jumpTo Opcode.jump.toByte Gas.mid destination.word m.toContext :=
    Instruction.unary_act _ _ _
  exact .of_act hcode hi ha hitems

theorem jumpsTo_jumpi (hcode : m.code.size ≤ 2 ^ 64)
    (hitems : m.stack.items = destination :: condition :: rest) (h : condition.number ≠ 0) :
    JumpsTo m Opcode.jumpi.toByte destination.number rest m.stopped
      (m.exec Opcode.jumpi.toByte) := by
  have hi : instructionOfByte? Opcode.jumpi.toByte = some (.jumpIf Opcode.jumpi.toByte) := rfl
  have ha : (Instruction.jumpIf Opcode.jumpi.toByte).act #v[destination, condition]
      m.toContext =
      Instruction.jumpTo Opcode.jumpi.toByte Gas.high destination.word m.toContext := by
    unfold Instruction.jumpIf
    rw [Instruction.binary_act, if_neg (mt condition.word_eq_zero_iff.mp h)]
  exact .of_act hcode hi ha hitems

/-- A conditional jump that is not taken steps over its opcode. -/
theorem exec_jumpi_of_zero (hitems : m.stack.items = destination :: condition :: rest)
    (h : condition.number = 0) :
    m.exec Opcode.jumpi.toByte =
      (.ok ⟨Gas.high, []⟩, { m with pc := m.pc + 1, stack := ⟨rest⟩ }) := by
  have ha : (Instruction.jumpIf Opcode.jumpi.toByte).act #v[destination, condition] m.toContext =
      .ok { gas := Gas.high, goto? := some (m.pc + 1) } := by
    unfold Instruction.jumpIf
    rw [Instruction.binary_act, if_pos (condition.word_eq_zero_iff.mpr h)]
  rw [exec_of_act_ok (i := .jumpIf Opcode.jumpi.toByte) rfl hitems ha, Machine.apply_moves]
  rfl

/-- A conditional jump fails only if it is taken, and to a place without a marker. -/
theorem isOk_jumpi_iff (hcode : m.code.size ≤ 2 ^ 64)
    (hitems : m.stack.items = destination :: condition :: rest) :
    (m.exec Opcode.jumpi.toByte).1.isOk = true ↔
      condition.number = 0 ∨ m.Marked destination.number := by
  by_cases h : condition.number = 0
  · rw [exec_jumpi_of_zero hitems h]
    exact iff_of_true rfl (.inl h)
  · rw [(jumpsTo_jumpi hcode hitems h).isOk_iff, or_iff_right h]

/-- A step succeeds if its opcode does. -/
theorem isOk_step {b : UInt8} (hm : m.stopped = false) (hop : m.currentOp? = some b) :
    m.step.1.isOk = (m.exec b).1.isOk := by
  rcases hex : m.exec b with ⟨f | receipt, m'⟩
  · rw [Machine.step_of_exec_error hm hop hex]
    rfl
  · rw [Machine.step_of_exec_ok hm hop hex]
    rfl

/-- A destination that needs more than 64 bits is marked in no code. -/
theorem not_marked_of_le {D : Nat} (hcode : m.code.size ≤ 2 ^ 64) (hD : 2 ^ 64 ≤ D) :
    ¬m.Marked D :=
  fun h => Nat.not_lt_of_le (Nat.le_trans hcode hD) h.1

end Opcodes

/-- **Jumps are validated.**  Let `m` have any stack with enough on it, and code
whose positions are numbers of 64 bits.

The unconditional jump succeeds just if its destination is a position of the code
with a marker; then the machine stands there and is otherwise as it was, but for
the stack.  If not, the fault names the opcode, its place and the destination with
all its bits, and the machine stays where it was.

The conditional jump does the same if the number below the destination is not
zero, and succeeds whatever the destination if it is zero.

Both go for the opcode alone and for a step on it.  No destination is accepted for
its low 64 bits. -/
theorem jumps_validated (m : Machine) (hcode : m.code.size ≤ 2 ^ 64) :
    (∀ destination rest, m.stack.items = destination :: rest →
      JumpsTo m Opcode.jump.toByte destination.number rest m.stopped
        (m.exec Opcode.jump.toByte) ∧
      (m.stopped = false → m.currentOp? = some Opcode.jump.toByte →
        JumpsTo m Opcode.jump.toByte destination.number rest true m.step) ∧
      (m.Marked (destination.number % 2 ^ 64) → 2 ^ 64 ≤ destination.number →
        (m.exec Opcode.jump.toByte).1.isOk = false)) ∧
    ∀ destination condition rest, m.stack.items = destination :: condition :: rest →
      ((m.exec Opcode.jumpi.toByte).1.isOk = true ↔
        condition.number = 0 ∨ m.Marked destination.number) ∧
      (condition.number ≠ 0 →
        JumpsTo m Opcode.jumpi.toByte destination.number rest m.stopped
          (m.exec Opcode.jumpi.toByte)) ∧
      (m.stopped = false → m.currentOp? = some Opcode.jumpi.toByte →
        (m.step.1.isOk = true ↔ condition.number = 0 ∨ m.Marked destination.number) ∧
        (condition.number ≠ 0 →
          JumpsTo m Opcode.jumpi.toByte destination.number rest true m.step)) ∧
      (m.Marked (destination.number % 2 ^ 64) → 2 ^ 64 ≤ destination.number →
        condition.number ≠ 0 → (m.exec Opcode.jumpi.toByte).1.isOk = false) := by
  constructor
  · intro destination rest hitems
    have hjump := jumpsTo_jump hcode hitems
    refine ⟨hjump, fun hm hop => hjump.of_exec hm hop rfl, fun _ hlarge => ?_⟩
    rw [← Bool.not_eq_true, hjump.isOk_iff]
    exact not_marked_of_le hcode hlarge
  · intro destination condition rest hitems
    have hiff := isOk_jumpi_iff hcode hitems
    refine ⟨hiff, jumpsTo_jumpi hcode hitems, fun hm hop => ⟨?_, fun h => ?_⟩, ?_⟩
    · rwa [isOk_step hm hop]
    · exact (jumpsTo_jumpi hcode hitems h).of_exec hm hop rfl
    · intro _ hlarge h
      rw [← Bool.not_eq_true, hiff]
      exact not_or_intro h (not_marked_of_le hcode hlarge)

/-- A jump that is taken, to a destination of one byte; one that is refused, to a
destination whose low 64 bits are that position; and one that is not taken, since
its condition has a bit set only beyond the word. -/
theorem jumps_validated_wide :
    let m : Machine :=
      { Machine.start #[0x56, 0x5b, 0x57] #[] with stack := ⟨[⟨#[1]⟩]⟩ }
    let wide : Machine := { m with stack := ⟨[.ofWord 18446744073709551617]⟩ }
    let untaken : Machine :=
      { m with pc := 2, stack := ⟨[.ofWord 7, ⟨#[1] ++ Array.replicate 32 0⟩]⟩ }
    (m.code.size ≤ 2 ^ 64 ∧ m.step.1.isOk = true ∧
      m.step.2 = { m with pc := 1, stack := ⟨[]⟩ }) ∧
    ((wide.exec 0x56).1 = .error (.invalidJump 0x56 0 18446744073709551617) ∧
      (wide.exec 0x56).2 = { m with stack := ⟨[]⟩ }) ∧
    (untaken.exec 0x57).1.isOk = true ∧ untaken.step.1.isOk = true := by
  intro m wide untaken
  have hcode : m.code.size ≤ 2 ^ 64 := by decide
  have hmarked : m.Marked 1 := ⟨by decide, rfl⟩
  have hone : (⟨#[1]⟩ : Element).number = 1 := by decide +kernel
  have hwide : (Element.ofWord 18446744073709551617).number = 18446744073709551617 := by
    decide +kernel
  have hzero : (⟨#[1] ++ Array.replicate 32 0⟩ : Element).number = 0 := by decide +kernel
  have hstep := ((jumps_validated m hcode).1 _ _ rfl).2.1 rfl rfl
  have hrefused := (jumps_validated wide hcode).1 _ _ rfl
  have huntaken := (jumps_validated untaken hcode).2 _ _ _ rfl
  rw [hone] at hstep
  rw [hwide] at hrefused
  have hok := hstep.isOk_iff.mpr hmarked
  have hfails := hrefused.1.refused (hrefused.2.2 hmarked (by decide))
  exact ⟨⟨hcode, hok, (hstep.taken hok).1⟩, hfails, huntaken.1.mpr (.inl hzero),
    (huntaken.2.2.1 rfl rfl).1.mpr (.inl hzero)⟩

end WordMachine
