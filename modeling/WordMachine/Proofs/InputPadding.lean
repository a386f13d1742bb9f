/-
WordMachine/Proofs/InputPadding.lean

Input continued by zeros.

`m.padInput k` is the machine `m` with `k` zeros behind its input.  Whatever
reads the input reads the endless string that it is continued to, in which these
zeros stand already.  Only the opcode that asks for the size can tell the two
machines apart.

This is carried from instructions (`act_padInput`) to opcodes, steps, walks and
ends, one lemma a layer.  Main result: `run_pad_input`, for runs of any length
and whatever they end in.
-/
import WordMachine.Proofs.Surroundings
import WordMachine.Proofs.Visits

namespace WordMachine

/-- A context with zeros behind the input. -/
def Context.padInput (ctx : Context) (k : Nat) : Context :=
  { ctx with calldata := ctx.calldata ++ Array.replicate k 0 }

/-- A machine with zeros behind its input. -/
def Machine.padInput (m : Machine) (k : Nat) : Machine :=
  { m with calldata := m.calldata ++ Array.replicate k 0 }

/-! ### Instructions -/

theorem Bytes.window_append_zeros (b : Bytes) (k offset size : Nat) :
    Bytes.window (b ++ Array.replicate k 0) offset size = b.window offset size := by
  apply ext_byteAt
  · rw [size_window, size_window]
  · intro i _
    rw [byteAt_window_eq_ite, byteAt_window_eq_ite, byteAt_append_zeros]

/-- All that a copy asks of its source are windows. -/
theorem Instruction.copy_congr {opcode : UInt8} {source : Context → Bytes}
    {ctx ctx' : Context} (es : Vector Element 3) (hmemory : ctx'.memory = ctx.memory)
    (hwindow : ∀ offset size, (source ctx').window offset size = (source ctx).window offset size) :
    (copy opcode source).act es ctx' = (copy opcode source).act es ctx := by
  -- the size of the data stands in types, so the windows are replaced as functions
  have hsame : (source ctx').window = (source ctx).window :=
    funext fun offset => funext (hwindow offset)
  simp only [copy, ternary, hmemory]
  rw [hsame]

/-- **Zeros behind the input are seen by nothing that does not ask for its size.** -/
theorem act_padInput {op : Opcode} {i : Instruction} (hi : op.instruction? = some i)
    (hop : op ≠ .calldatasize) (es : Vector Element i.arity) (ctx : Context) (k : Nat) :
    i.act es (ctx.padInput k) = i.act es ctx := by
  rcases hreads : op.readsInput with _ | _
  · exact act_congr hi es rfl rfl (fun _ => rfl) (by simp [hreads])
  · cases op with
    | calldataload =>
      cases hi
      simp only [Instruction.inputWord, Instruction.unary, Context.padInput,
        Bytes.window_append_zeros]
    | calldatacopy =>
      cases hi
      exact Instruction.copy_congr es rfl fun _ _ => Bytes.window_append_zeros _ _ _ _
    | calldatasize => exact absurd rfl hop
    | _ => cases hreads

/-! ### Opcodes and steps -/

theorem advance_padInput (op : UInt8) (m : Machine) (k : Nat) :
    (m.padInput k).advance op = (m.advance op).padInput k := by
  have hend : ∀ m : Machine, (m.padInput k).haltAtEnd = m.haltAtEnd.padInput k := by
    intro m
    unfold Machine.haltAtEnd
    exact (apply_ite (Machine.padInput · k) (m.code.size ≤ m.pc) m.halt m).symm
  unfold Machine.advance
  split
  · exact hend m
  · exact hend { m with pc := m.pc + 1 }

variable {m m' : Machine} {k : Nat}

theorem Executes.padInput {op : UInt8} {r : Except Fault Receipt} (h : Executes op m r m')
    (hop : ∀ receipt, r = .ok receipt → op ≠ Opcode.calldatasize.toByte) :
    Executes op (m.padInput k) r (m'.padInput k) := by
  cases h with
  | unsupported hi => exact .unsupported hi
  | underflow hi hlt => exact .underflow hi hlt
  | @refused i es rest f hi hitems ha =>
    obtain ⟨code, hcode, hinstr⟩ := Option.bind_eq_some_iff.mp hi
    -- the size of the input is an answer that no one is refused
    have hne : code ≠ .calldatasize := by
      rintro rfl
      cases hinstr
      cases ha
    have hact := (act_padInput hinstr hne es m.toContext k).trans ha
    exact .refused (m := m.padInput k) hi hitems hact
  | @done i es rest e hi hitems ha =>
    obtain ⟨code, hcode, hinstr⟩ := Option.bind_eq_some_iff.mp hi
    have hne : code ≠ .calldatasize := by
      rintro rfl
      exact hop _ rfl (Opcode.toByte_of_ofByte? hcode).symm
    have hact := (act_padInput hinstr hne es m.toContext k).trans ha
    exact .done (m := m.padInput k) hi hitems hact

theorem Stepped.padInput {r : Except Fault Step} (h : Stepped Hook.none () m r () m')
    (hop : ∀ step, r = .ok step → step.opcode ≠ Opcode.calldatasize.toByte) :
    Stepped Hook.none () (m.padInput k) r () (m'.padInput k) := by
  cases h with
  | stopped hm => exact .stopped hm
  | pastEnd hm hcur => exact .pastEnd hm hcur
  | @failed _ _ _ m₁ hm hcur hc =>
    have hex := exec_eq_iff.mp (consult_none_iff.mp hc)
    show Stepped Hook.none () (m.padInput k) _ () (m₁.padInput k).halt
    exact .failed hm hcur (consult_none_iff.mpr (exec_eq_iff.mpr (hex.padInput nofun)))
  | @completed b receipt _ m₁ hm hcur hc =>
    have hex := exec_eq_iff.mp (consult_none_iff.mp hc)
    rw [← advance_padInput]
    refine .completed hm hcur (consult_none_iff.mpr (exec_eq_iff.mpr (hex.padInput ?_)))
    exact fun _ _ => hop _ rfl

/-! ### Walks and runs -/

section Runs

variable {steps : List Step} (hop : ∀ step ∈ steps, step.opcode ≠ Opcode.calldatasize.toByte)
include hop

theorem Walk.padInput {s s' : Unit} (h : Walk Hook.none s m steps s' m') :
    Walk Hook.none s (m.padInput k) steps s' (m'.padInput k) := by
  refine h.map (f := id) (φ := (·.padInput k))
    (Q := fun step _ => step.opcode ≠ Opcode.calldatasize.toByte) ?_
    (fun step hmem _ _ => hop step hmem) (fun step hlast => hop step (List.mem_of_getLast? hlast))
  intro _ _ _ _ _ hstep hne
  have hst := stepWith_eq_iff.mp hstep
  refine stepWith_eq_iff.mpr (hst.padInput ?_)
  rintro _ ⟨⟩
  exact hne

/-- An end that is reached without asking for the size of the input is the same
with zeros behind it. -/
theorem Concludes.padInput {limit : Nat} {c : Course Unit}
    (h : Concludes Hook.none limit () m steps c) :
    Concludes Hook.none limit () (m.padInput k) steps
      { c with machine := c.machine.padInput k } := by
  cases h with
  | halted hw hle hstop => exact .halted (hw.padInput hop) hle hstop
  | failed hw hlt hgo hstep =>
    have hst := stepWith_eq_iff.mp hstep
    exact .failed (hw.padInput hop) hlt hgo (stepWith_eq_iff.mpr (hst.padInput nofun))
  | outOfSteps hw heq hgo => exact .outOfSteps (hw.padInput hop) heq hgo

end Runs

/-- **Input and its continuation by zeros are the same to a run that does not ask
for the size.**  With zeros behind its input a machine gives the same answer,
a profile or a fault, and ends with the same program counter, stack, memory and
flag. -/
theorem run_pad_input (m : Machine) (k limit : Nat)
    (h : ∀ v ∈ m.visits limit, v.step.opcode ≠ Opcode.calldatasize.toByte) :
    (m.padInput k).run limit =
      { m.run limit with machine := (m.run limit).machine.padInput k } := by
  obtain ⟨steps, c, hc⟩ := exists_concludes Hook.none limit () m
  have hrun : m.run limit = .ofCourse limit steps c := runWith_of_concludes hc
  have hop := hc.forall_steps (P := fun step => step.opcode ≠ Opcode.calldatasize.toByte) h
  rw [hrun]
  exact runWith_of_concludes (hc.padInput hop)

/-- A load and a copy that both reach beyond the end of three bytes of input, in a
run that fails in the end. -/
theorem run_pad_input_straddling :
    let m := Machine.start #[0x60, 0x02, 0x35, 0x60, 0x04, 0x60, 0x01, 0x60, 0x00, 0x37, 0x56]
      #[7, 8, 9]
    (∀ v ∈ m.visits 9, v.step.opcode ≠ Opcode.calldatasize.toByte) ∧
      (m.run 9).outcome.isOk = false ∧
      (m.padInput 2).calldata = #[7, 8, 9, 0, 0] ∧
      (m.padInput 2).run 9 = { m.run 9 with machine := (m.run 9).machine.padInput 2 } := by
  intro m
  have hop : ∀ v ∈ m.visits 9, v.step.opcode ≠ Opcode.calldatasize.toByte := by
    decide +kernel
  have hfails : (m.run 9).outcome.isOk = false := by decide +kernel
  have hinput : (m.padInput 2).calldata = #[7, 8, 9, 0, 0] := by decide +kernel
  exact ⟨hop, hfails, hinput, run_pad_input m 2 9 hop⟩

end WordMachine
