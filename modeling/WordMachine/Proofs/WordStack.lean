/-
WordMachine/Proofs/WordStack.lean

A machine on its own keeps to words on its stack.

Elements may have any length, and an instruction hands on what it is given byte
for byte.  But whatever it makes itself has the length of a word: the numbers
it computes, the words it reads from the input and from memory, and digests.
So words come out where words have gone in (`keepsWords_of_instruction?`), and
the stack is one of words from the first step on.

Main result: `stack_of_words`.
-/
import Mathlib.Logic.Function.Iterate
import WordMachine.Proofs.Effects
import WordMachine.Proofs.FlatMemory

namespace WordMachine

/-- Whether all elements on the stack have the length of a word. -/
def Machine.OfWords (m : Machine) : Prop := ∀ e ∈ m.stack.items, e.isWord = true

/-! ### Instructions -/

namespace Instruction

/-- Whenever its operands are words, so are its results. -/
def KeepsWords (i : Instruction) : Prop :=
  ∀ es ctx e, (∀ x ∈ es.toList, x.isWord = true) → i.act es ctx = .ok e →
    ∀ x ∈ e.results, x.isWord = true

/-- A single result is a word if it has 32 bytes. -/
theorem isWord_of_mem_singleton {b : Bytes} (h : b.size = Bytes.wordSize) :
    ∀ x ∈ [Element.mk b], x.isWord = true := by
  intro x hx
  rw [List.mem_singleton.mp hx]
  exact (Element.isWord_iff _).mpr h

theorem keepsWords_duplicate (below : Nat) : (duplicate below).KeepsWords := by
  rintro es ctx _ hes ⟨⟩ x hx
  rcases List.mem_cons.mp hx with rfl | hx
  · exact hes _ (List.getElem_mem _)
  · exact hes x hx

theorem keepsWords_exchange (below : Nat) : (exchange below).KeepsWords := by
  rintro (es : Vector Element (below + 2)) ctx _ hes ⟨⟩ x hx
  have hperm : (es.swap 0 (below + 1)).Perm es :=
    Vector.swap_perm (Nat.succ_pos _) (Nat.lt_add_one _)
  exact hes x (hperm.toList.mem_iff.mp hx)

theorem keepsWords_inputWord : inputWord.KeepsWords := by
  rintro es ctx _ _ ⟨⟩
  exact isWord_of_mem_singleton (Bytes.size_window _ _ _)

theorem keepsWords_loadWord : loadWord.KeepsWords := by
  intro es ctx e _ h
  obtain ⟨span, _, rfl⟩ := effect_of_loadWord h
  exact isWord_of_mem_singleton (ctx.memory.slice span).size_toArray

theorem keepsWords_hash (digest : Bytes → Vector UInt8 32) : (hash digest).KeepsWords := by
  intro es ctx e _ h
  obtain ⟨_, span, _, rfl⟩ := effect_of_hash h
  exact isWord_of_mem_singleton (digest (ctx.memory.slice span).toArray).size_toArray

/-- What is stored is the value, byte for byte. -/
theorem flat_of_storeElement {es : Vector Element 2} {ctx : Context} {e : Effect}
    (h : storeElement.act es ctx = .ok e) :
    (ctx.memory.after e.access).flat =
      ctx.memory.flat.put (first es).word.toNat (second es).bytes := by
  obtain ⟨span, hspan, rfl⟩ := effect_of_storeElement h
  show (ctx.memory.write span (second es).bytes.toVector).flat = _
  rw [Memory.flat_write, offset_of_ofWord hspan]

end Instruction

/-- Words come out of every instruction where words have gone in. -/
theorem keepsWords_of_instruction? {op : Opcode} {i : Instruction}
    (hi : op.instruction? = some i) : i.KeepsWords := by
  cases op with
  | dup below =>
    cases hi
    exact Instruction.keepsWords_duplicate below.val
  | swap below =>
    cases hi
    exact Instruction.keepsWords_exchange below.val
  | calldataload =>
    cases hi
    exact Instruction.keepsWords_inputWord
  | mload =>
    cases hi
    exact Instruction.keepsWords_loadWord
  | keccak256 =>
    cases hi
    exact Instruction.keepsWords_hash _
  | calldatacopy | codecopy =>
    cases hi
    intro es ctx e _ h
    obtain ⟨_, _, _, rfl⟩ := Instruction.effect_of_copy h
    exact nofun
  | mstore =>
    cases hi
    intro es ctx e _ h
    obtain ⟨_, _, rfl⟩ := Instruction.effect_of_storeElement h
    exact nofun
  | mstore8 =>
    cases hi
    intro es ctx e _ h
    obtain ⟨_, _, rfl⟩ := Instruction.effect_of_storeLowByte h
    exact nofun
  | jump =>
    cases hi
    intro es ctx e _ h
    obtain ⟨_, rfl⟩ := Instruction.effect_of_jump h
    exact nofun
  | jumpi =>
    cases hi
    intro es ctx e _ h
    rcases Instruction.effect_of_jumpIf h with ⟨_, rfl⟩ | ⟨_, _, rfl⟩
    · exact nofun
    · exact nofun
  | _ =>
    -- no instruction at all, or one that pushes numbers or nothing
    cases hi <;> (rintro es ctx _ _ ⟨⟩; simp [Element.zero])

/-! ### Opcodes and steps -/

namespace Machine

theorem ofWords_start (code calldata : Bytes) : (start code calldata).OfWords := nofun

/-- Carrying out an opcode keeps to words, whether or not it succeeds. -/
theorem OfWords.exec {m : Machine} (h : m.OfWords) (op : UInt8) : (m.exec op).2.OfWords := by
  rcases hex : m.exec op with ⟨r, m'⟩
  cases exec_eq_iff.mp hex with
  | unsupported _ => exact h
  | underflow _ _ => exact h
  | refused _ hitems _ =>
    -- the operands are lost, and the rest of the stack is a part of it
    intro x hx
    exact h x (hitems ▸ List.mem_append_right _ hx)
  | @done i es rest e hi hitems ha =>
    obtain ⟨code, _, hi⟩ := Option.bind_eq_some_iff.mp hi
    have hes : ∀ x ∈ es.toList, x.isWord = true := fun x hx =>
      h x (hitems ▸ List.mem_append_left _ hx)
    intro x hx
    rcases List.mem_append.mp hx with hresult | hrest
    · exact keepsWords_of_instruction? hi es _ e hes ha x hresult
    · exact h x (hitems ▸ List.mem_append_right _ hrest)

/-- So does a step, whether or not it succeeds. -/
theorem OfWords.step {m : Machine} (h : m.OfWords) : m.step.2.OfWords := by
  show (m.stepWith Hook.none ()).2.2.OfWords
  rcases hst : m.stepWith Hook.none () with ⟨r, _, m'⟩
  cases stepWith_eq_iff.mp hst with
  | stopped _ => exact h
  | pastEnd _ _ => exact h
  | @failed op _ _ m₁ _ _ hc =>
    have hexec := h.exec op
    rw [consult_none_iff.mp hc] at hexec
    exact hexec
  | @completed op _ _ m₁ _ _ hc =>
    have hexec := h.exec op
    rw [consult_none_iff.mp hc] at hexec
    intro x hx
    rw [stack_advance] at hx
    exact hexec x hx

/-- On a stack of words a store writes 32 bytes. -/
theorem OfWords.flat_mstore {m m' : Machine} {r : Receipt} (h : m.OfWords)
    (hex : m.exec Opcode.mstore.toByte = (.ok r, m')) :
    ∃ offset value rest, m.stack.items = offset :: value :: rest ∧
      value.bytes.size = 32 ∧
      m'.memory.flat = m.memory.flat.put offset.word.toNat value.bytes := by
  have hbyte : instructionOfByte? Opcode.mstore.toByte = some .storeElement :=
    instructionOfByte?_toByte .mstore
  obtain ⟨es, rest, e, hitems, ha, rfl⟩ := act_of_exec_ok hbyte hex
  have hfront := hitems.trans (Instruction.toList_binary es rest.items)
  have hvalue := h _ (hfront ▸ List.mem_cons_of_mem _ List.mem_cons_self)
  exact ⟨_, _, rest.items, hfront, (Element.isWord_iff _).mp hvalue,
    Instruction.flat_of_storeElement ha⟩

end Machine

/-- **Every stack value is a word.**  All elements keep the length of a word
whatever opcode is carried out, and whether or not it succeeds.  So they have
it in every machine that a number of steps leaves of one begun with code and
input, failed steps included.  A store to memory that succeeds on such a stack
writes just the 32 bytes of its value. -/
theorem stack_of_words :
    (∀ (op : UInt8) {m : Machine}, m.OfWords → (m.exec op).2.OfWords) ∧
    (∀ (code calldata : Bytes) (n : Nat),
      ((fun m : Machine => m.step.2)^[n] (.start code calldata)).OfWords) ∧
    ∀ {m m' : Machine} {r : Receipt}, m.OfWords →
      m.exec Opcode.mstore.toByte = (.ok r, m') →
      ∃ offset value rest, m.stack.items = offset :: value :: rest ∧
        value.bytes.size = 32 ∧
        m'.memory.flat = m.memory.flat.put offset.word.toNat value.bytes := by
  refine ⟨fun op _ h => h.exec op, ?_, fun h => h.flat_mstore⟩
  intro code calldata n
  exact Function.Iterate.rec Machine.OfWords (Machine.ofWords_start code calldata)
    (fun _ => Machine.OfWords.step) n

/-- Two pushes of one byte each, and a store of what they have pushed. -/
theorem stack_of_words_store :
    let m := (fun m : Machine => m.step.2)^[2] (.start #[0x60, 0x2a, 0x60, 0x20, 0x52] #[])
    m.OfWords ∧ (m.exec Opcode.mstore.toByte).1 = .ok ⟨3, []⟩ ∧
      (m.exec Opcode.mstore.toByte).2.OfWords ∧
      (m.exec Opcode.mstore.toByte).2.memory.flat =
        m.memory.flat.put (Element.ofWord 32).word.toNat (Bytes.ofWord 42) := by
  intro m
  have hwords : m.OfWords := stack_of_words.2.1 _ _ 2
  have hok : (m.exec Opcode.mstore.toByte).1 = .ok ⟨3, []⟩ := by decide +kernel
  have hitems : m.stack.items = [.ofWord 32, .ofWord 42] := by decide +kernel
  obtain ⟨offset, value, rest, hfront, _, hflat⟩ :=
    stack_of_words.2.2 hwords (Machine.exec_of_fst hok)
  obtain ⟨rfl, hrest⟩ := List.cons.inj (hitems.symm.trans hfront)
  obtain ⟨rfl, _⟩ := List.cons.inj hrest
  exact ⟨hwords, hok, stack_of_words.1 _ hwords, hflat⟩

end WordMachine
