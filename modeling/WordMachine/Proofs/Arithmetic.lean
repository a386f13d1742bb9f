/-
WordMachine/Proofs/Arithmetic.lean

What the opcodes that compute a word from words compute.

`Opcode.formula?` is the table: the exact integer of each of these opcodes, for
the numbers of its operands, the topmost first.  Nothing in it is reduced; the
word that is pushed is the integer modulo `2^256`.  Operands may have any
length, and the number of one is that of its bytes modulo `2^256`.

That an instruction follows a formula is said by `Instruction.Computes`, which
is proved once for each shape of instruction and left to the lemmas on words
for the function in it.  The table of instructions is then gone through opcode
by opcode (`computes_of_category`), and the rest of the machine is untouched
because such an instruction does nothing but push.  Main result:
`exec_computes`.
-/
import WordMachine.Proofs.BigEndian
import WordMachine.Proofs.StackEffect
import WordMachine.Proofs.WordArithmetic

namespace WordMachine

namespace Opcode

/-- The integer that an opcode computes from numbers below `2^256`, the first
of them the topmost operand. -/
def formula? : Opcode → List Nat → Option Int
  | add, [a, b] => some ↑(a + b)
  | mul, [a, b] => some ↑(a * b)
  | sub, [a, b] => some (a - b)
  | div, [a, b] => some (unlessZero b ↑(a / b))
  | sdiv, [a, b] => some (unlessZero b ((signed 256 a).tdiv (signed 256 b)))
  | mod, [a, b] => some (unlessZero b ↑(a % b))
  | smod, [a, b] => some (unlessZero b ((signed 256 a).tmod (signed 256 b)))
  | addmod, [a, b, n] => some (unlessZero n ↑((a + b) % n))
  | mulmod, [a, b, n] => some (unlessZero n ↑(a * b % n))
  | exp, [a, b] => some ↑(a ^ b)
  | signextend, [a, b] =>
    some (if a < 31 then signed (8 * a + 8) (b % 2 ^ (8 * a + 8)) else b)
  | lt, [a, b] => some (truth (a < b))
  | gt, [a, b] => some (truth (a > b))
  | slt, [a, b] => some (truth (signed 256 a < signed 256 b))
  | sgt, [a, b] => some (truth (signed 256 a > signed 256 b))
  | eq, [a, b] => some (truth (a = b))
  | iszero, [a] => some (truth (a = 0))
  | and, [a, b] => some ↑(a &&& b)
  | or, [a, b] => some ↑(a ||| b)
  | xor, [a, b] => some ↑(a ^^^ b)
  | not, [a] => some (2 ^ 256 - 1 - a : Nat)
  | byte, [a, b] => some (if a < 32 then ↑(b / 256 ^ (31 - a) % 256) else 0)
  | shl, [a, b] => some ↑(b * 2 ^ a)
  | shr, [a, b] => some ↑(b / 2 ^ a)
  | sar, [a, b] => some (signed 256 b / (2 ^ a : Nat))
  | _, _ => none

/-- What the trace shows of the operands of an opcode that computes: the
elements as they were taken.  The complement shows nothing, and sign extension
its size as a number. -/
def shown : Opcode → List Element → List Operand
  | not, _ => []
  | signextend, [size, value] => [.number size.word, .element value]
  | _, es => es.map .element

/-- The categories of the opcodes that compute a word from words. -/
def computing : List Category := [.arithmetic, .comparison, .bitwise]

/-- The bytes of these opcodes. -/
theorem exists_computing_of_byte {b : UInt8}
    (hb : (0x01 ≤ b ∧ b ≤ 0x0b) ∨ (0x10 ≤ b ∧ b ≤ 0x1d)) :
    ∃ op, ofByte? b = some op ∧ op.category ∈ computing := by
  have all : ∀ n : Fin 256,
      (0x01 ≤ UInt8.ofNat n ∧ UInt8.ofNat n ≤ 0x0b) ∨
        (0x10 ≤ UInt8.ofNat n ∧ UInt8.ofNat n ≤ 0x1d) →
      (ofByte? (UInt8.ofNat n)).any (fun op => op.category ∈ computing) = true := by
    decide +kernel
  have hany := all ⟨b.toNat, b.toNat_lt⟩ (by simpa using hb)
  simpa [Option.any_eq_true] using hany

end Opcode

/-! ### Instructions that compute -/

namespace Instruction

/-- The instruction accepts all operands, and all it does is to push the word
of a formula and to show its operands. -/
def Computes (i : Instruction) (formula? : List Nat → Option Int)
    (shown : List Element → List Operand) : Prop :=
  ∀ (es : Vector Element i.arity) (ctx : Context), ∃ gas z,
    formula? (es.toList.map Element.number) = some z ∧
      i.act es ctx = .ok
        { gas
          results := [.ofWord (BitVec.ofInt 256 z)]
          operands := shown es.toList }

variable {formula? : List Nat → Option Int} {shown : List Element → List Operand}

theorem computes_unary {act : Element → Context → Except Fault Effect}
    (h : ∀ a ctx, ∃ gas z, formula? [a.word.toNat] = some z ∧
      act a ctx = .ok
        { gas, results := [.ofWord (BitVec.ofInt 256 z)], operands := shown [a] }) :
    (unary act).Computes formula? shown := by
  intro es ctx
  match es with
  | ⟨⟨[a]⟩, _⟩ =>
    have hact := h a ctx
    rw [Element.toNat_word] at hact
    exact hact

theorem computes_binary {act : Element → Element → Context → Except Fault Effect}
    (h : ∀ a b ctx, ∃ gas z, formula? [a.word.toNat, b.word.toNat] = some z ∧
      act a b ctx = .ok
        { gas, results := [.ofWord (BitVec.ofInt 256 z)], operands := shown [a, b] }) :
    (binary act).Computes formula? shown := by
  intro es ctx
  match es with
  | ⟨⟨[a, b]⟩, _⟩ =>
    have hact := h a b ctx
    rw [Element.toNat_word, Element.toNat_word] at hact
    exact hact

theorem computes_ternary {act : Element → Element → Element → Context → Except Fault Effect}
    (h : ∀ a b n ctx, ∃ gas z, formula? [a.word.toNat, b.word.toNat, n.word.toNat] = some z ∧
      act a b n ctx = .ok
        { gas, results := [.ofWord (BitVec.ofInt 256 z)], operands := shown [a, b, n] }) :
    (ternary act).Computes formula? shown := by
  intro es ctx
  match es with
  | ⟨⟨[a, b, n]⟩, _⟩ =>
    have hact := h a b n ctx
    rw [Element.toNat_word, Element.toNat_word, Element.toNat_word] at hact
    exact hact

theorem computes_combine {gas : Nat} {f : Word → Word → Word}
    (h : ∀ a b : Word, ∃ z, formula? [a.toNat, b.toNat] = some z ∧
      f a b = BitVec.ofInt 256 z) :
    (combine gas f).Computes formula? (·.map .element) := by
  apply computes_binary
  intro a b ctx
  obtain ⟨z, hz, hf⟩ := h a.word b.word
  rw [hf]
  exact ⟨gas, z, hz, rfl⟩

theorem computes_combineModulo {gas : Nat} {f : Word → Word → Word → Word}
    (h : ∀ a b n : Word, ∃ z, formula? [a.toNat, b.toNat, n.toNat] = some z ∧
      f a b n = BitVec.ofInt 256 z) :
    (combineModulo gas f).Computes formula? (·.map .element) := by
  apply computes_ternary
  intro a b n ctx
  obtain ⟨z, hz, hf⟩ := h a.word b.word n.word
  rw [hf]
  exact ⟨gas, z, hz, rfl⟩

end Instruction

open Instruction in
/-- Every opcode of these categories has an instruction, and that follows the
formula. -/
theorem computes_of_category {op : Opcode} (hop : op.category ∈ Opcode.computing) :
    ∃ i, op.instruction? = some i ∧ i.Computes op.formula? op.shown := by
  cases op with
  | add => exact ⟨_, rfl, computes_combine fun a b => ⟨_, rfl, Word.add_eq a b⟩⟩
  | mul => exact ⟨_, rfl, computes_combine fun a b => ⟨_, rfl, Word.mul_eq a b⟩⟩
  | sub => exact ⟨_, rfl, computes_combine fun a b => ⟨_, rfl, Word.sub_eq a b⟩⟩
  | div => exact ⟨_, rfl, computes_combine fun a b => ⟨_, rfl, Word.div_eq a b⟩⟩
  | sdiv => exact ⟨_, rfl, computes_combine fun a b => ⟨_, rfl, Word.sdiv_eq a b⟩⟩
  | mod => exact ⟨_, rfl, computes_combine fun a b => ⟨_, rfl, Word.mod_eq a b⟩⟩
  | smod => exact ⟨_, rfl, computes_combine fun a b => ⟨_, rfl, Word.smod_eq a b⟩⟩
  | addmod =>
    exact ⟨_, rfl, computes_combineModulo fun a b n => ⟨_, rfl, Word.addMod_eq a b n⟩⟩
  | mulmod =>
    exact ⟨_, rfl, computes_combineModulo fun a b n => ⟨_, rfl, Word.mulMod_eq a b n⟩⟩
  | exp =>
    refine ⟨_, rfl, computes_binary ?_⟩
    intro base exponent ctx
    rw [Word.exp_eq]
    exact ⟨_, _, rfl, rfl⟩
  | signextend =>
    refine ⟨_, rfl, computes_binary ?_⟩
    intro size value ctx
    rw [Word.signExtend_eq]
    exact ⟨_, _, rfl, rfl⟩
  | lt => exact ⟨_, rfl, computes_combine fun a b => ⟨_, rfl, Word.lt_eq a b⟩⟩
  | gt => exact ⟨_, rfl, computes_combine fun a b => ⟨_, rfl, Word.gt_eq a b⟩⟩
  | slt => exact ⟨_, rfl, computes_combine fun a b => ⟨_, rfl, Word.slt_eq a b⟩⟩
  | sgt => exact ⟨_, rfl, computes_combine fun a b => ⟨_, rfl, Word.sgt_eq a b⟩⟩
  | eq => exact ⟨_, rfl, computes_combine fun a b => ⟨_, rfl, Word.eq_eq a b⟩⟩
  | iszero =>
    refine ⟨_, rfl, computes_unary ?_⟩
    intro value ctx
    rw [Word.isZero_eq]
    exact ⟨_, _, rfl, rfl⟩
  | and => exact ⟨_, rfl, computes_combine fun a b => ⟨_, rfl, Word.and_eq a b⟩⟩
  | or => exact ⟨_, rfl, computes_combine fun a b => ⟨_, rfl, Word.or_eq a b⟩⟩
  | xor => exact ⟨_, rfl, computes_combine fun a b => ⟨_, rfl, Word.xor_eq a b⟩⟩
  | not =>
    refine ⟨_, rfl, computes_unary ?_⟩
    intro value ctx
    rw [Word.not_eq]
    exact ⟨_, _, rfl, rfl⟩
  | byte => exact ⟨_, rfl, computes_combine fun a b => ⟨_, rfl, Word.byteAt_eq a b⟩⟩
  | shl => exact ⟨_, rfl, computes_combine fun a b => ⟨_, rfl, Word.shl_eq a b⟩⟩
  | shr => exact ⟨_, rfl, computes_combine fun a b => ⟨_, rfl, Word.shr_eq a b⟩⟩
  | sar => exact ⟨_, rfl, computes_combine fun a b => ⟨_, rfl, Word.sar_eq a b⟩⟩
  | _ =>
    -- an opcode of another category
    simp [Opcode.category, Opcode.computing] at hop

/-! ### The machine -/

/-- **What arithmetic, comparison and bitwise opcodes compute.**  Each of them
is carried out on every machine with operands enough, whatever their lengths.
It takes its operands and puts one word in their place, 32 bytes long, which
is the integer of the formula modulo `2^256`; nothing else of the machine is
changed.  Of the operands it shows what `Opcode.shown` says. -/
theorem exec_computes (m : Machine) {b : UInt8}
    (hb : (0x01 ≤ b ∧ b ≤ 0x0b) ∨ (0x10 ≤ b ∧ b ≤ 0x1d)) :
    ∃ op, Opcode.ofByte? b = some op ∧ ∀ taken rest, m.stack.items = taken ++ rest →
      taken.length = op.operandCount →
      ∃ gas result z,
        m.exec b = (.ok ⟨gas, op.shown taken⟩, { m with stack := ⟨result :: rest⟩ }) ∧
        op.formula? (taken.map Element.number) = some z ∧
        result.bytes.size = 32 ∧ (result.bytes.value : Int) = z % (2 ^ 256 : Nat) := by
  obtain ⟨op, hop, hcategory⟩ := Opcode.exists_computing_of_byte hb
  obtain ⟨i, hi, hcomputes⟩ := computes_of_category hcategory
  refine ⟨op, hop, ?_⟩
  intro taken rest hitems hlen
  have hbyte : instructionOfByte? b = some i := (instructionOfByte?_of_ofByte? hop).trans hi
  have harity : taken.length = i.arity := hlen.trans (Opcode.arity_of_instruction? hi).symm
  obtain ⟨gas, z, hz, hact⟩ := hcomputes ⟨taken.toArray, harity⟩ m.toContext
  have hexec := exec_of_act_ok hbyte hitems hact
  rw [Machine.apply_push] at hexec
  refine ⟨gas, _, z, hexec, hz, Bytes.size_ofWord _, ?_⟩
  have hpos : (0 : Int) ≤ z % (2 ^ 256 : Nat) := Int.emod_nonneg z (by decide)
  calc (Bytes.value (Bytes.ofWord (BitVec.ofInt 256 z)) : Int)
      = ((BitVec.ofInt 256 z).toNat : Int) := by rw [Bytes.value_ofWord]
    _ = z % (2 ^ 256 : Nat) := by rw [BitVec.toNat_ofInt, Int.toNat_of_nonneg hpos]

/-- Minus seven, in 33 bytes, divided by two, in one byte: minus three. -/
theorem exec_computes_sdiv :
    let a : Element := ⟨#[1] ++ Bytes.ofWord (-7)⟩
    let b : Element := ⟨#[2]⟩
    let below : Element := ⟨#[]⟩
    let m : Machine := { Machine.start #[0x05] #[] with stack := ⟨[a, b, below]⟩ }
    ((0x01 : UInt8) ≤ 0x05 ∧ (0x05 : UInt8) ≤ 0x0b) ∧
      Opcode.sdiv.formula? [a.number, b.number] = some (-3) ∧
      ∃ gas result,
        m.exec 0x05 =
          (.ok ⟨gas, [.element a, .element b]⟩, { m with stack := ⟨[result, below]⟩ }) ∧
        result.bytes.size = 32 ∧ (result.bytes.value : Int) = -3 % (2 ^ 256 : Nat) := by
  intro a b below m
  have hbyte : (0x01 : UInt8) ≤ 0x05 ∧ (0x05 : UInt8) ≤ 0x0b := by decide
  have hformula : Opcode.sdiv.formula? [a.number, b.number] = some (-3) := by decide +kernel
  obtain ⟨op, hop, h⟩ := exec_computes m (.inl hbyte)
  obtain rfl : op = .sdiv := by
    have hop' : Opcode.ofByte? 0x05 = some .sdiv := by decide +kernel
    exact Option.some.inj (hop.symm.trans hop')
  obtain ⟨gas, result, z, hexec, hz, hsize, hvalue⟩ := h [a, b] [below] rfl rfl
  obtain rfl : z = -3 := Option.some.inj (hz.symm.trans hformula)
  exact ⟨hbyte, hformula, gas, result, hexec, hsize, hvalue⟩

end WordMachine
