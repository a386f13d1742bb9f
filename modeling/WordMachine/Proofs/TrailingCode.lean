/-
WordMachine/Proofs/TrailingCode.lean

Bytes behind the code of a machine that stops before it gets there.

`m.appendCode more` is the machine `m` with further bytes behind its code.  Both
find the same bytes as long as they stay within the shorter code, but three
things hang on where the code ends: a push near the end finds fewer immediate
bytes, a jump finds fewer targets, and the machine stops at the end.  A step
that leaves the machine going has been tripped up by none of them, since its
successor lies within the shorter code, and neither has a step that halts.

So a completed step is taken along by both machines unless it has read the size
of the code or copied from it (`step_appendCode`), and with the steps the walk
up to an opcode that halts.  Main result: `run_append_code`.
-/
import WordMachine.Proofs.ControlFlow
import WordMachine.Proofs.Surroundings
import WordMachine.Proofs.Visits

namespace WordMachine

/-- A context with further bytes behind the code. -/
def Context.appendCode (ctx : Context) (more : Bytes) : Context :=
  { ctx with code := ctx.code ++ more }

/-- A machine with further bytes behind its code. -/
def Machine.appendCode (m : Machine) (more : Bytes) : Machine :=
  { m with code := m.code ++ more }

/-- A halting opcode does not redirect the machine. -/
theorem Opcode.redirects_of_halts {op : Opcode} (h : op.halts = true) :
    op.redirects = false := by
  cases op with
  | stop | ret | revert => rfl
  | _ => cases h

/-! ### Instructions -/

section Acts

variable {ctx : Context} {e : Effect} {more : Bytes}

/-- A push whose immediate bytes are all there finds the same ones. -/
theorem immediate_appendCode {size : Nat} (es : Vector Element 0)
    (h : ctx.pc + 1 + size ≤ ctx.code.size) :
    (Instruction.immediate size).act es (ctx.appendCode more) =
      (Instruction.immediate size).act es ctx := by
  have hsame : (ctx.code ++ more).extract (ctx.pc + 1) (ctx.pc + 1 + size) =
      ctx.code.extract (ctx.pc + 1) (ctx.pc + 1 + size) := by
    rw [Array.extract_append, Nat.sub_eq_zero_of_le h, Array.extract_zero, Array.append_empty]
  simp only [Instruction.immediate, Instruction.nullary, Context.appendCode, hsame]

/-- A marked position stays one. -/
theorem jumpTo_appendCode {opcode : UInt8} {gas : Nat} {destination : Word}
    (h : Instruction.jumpTo opcode gas destination ctx = .ok e) :
    Instruction.jumpTo opcode gas destination (ctx.appendCode more) = .ok e := by
  unfold Instruction.jumpTo at h ⊢
  split at h
  · next position htarget =>
    obtain ⟨hoffset, hposition, hmarker⟩ := Instruction.target?_eq_some_iff.mp htarget
    have hlt : position < ctx.code.size := (Array.getElem?_eq_some_iff.mp hmarker).1
    have hmore : (ctx.appendCode more).code[position]? = some Instruction.markerByte :=
      (Array.getElem?_append_left hlt).trans hmarker
    rw [Instruction.target?_eq_some_iff.mpr ⟨hoffset, hposition, hmore⟩]
    exact h
  · cases h

/-- An instruction that keeps the program counter within the code does the same
with more code behind it. -/
theorem act_appendCode {op : Opcode} {i : Instruction} {es : Vector Element i.arity}
    (hi : op.instruction? = some i) (hsize : op ≠ .codesize) (hcopy : op ≠ .codecopy)
    (ha : i.act es ctx = .ok e) (hinside : e.goto?.getD ctx.pc < ctx.code.size) :
    i.act es (ctx.appendCode more) = .ok e := by
  rcases hreads : op.readsCode with _ | _
  · have hsame : i.act es (ctx.appendCode more) = i.act es ctx :=
      act_congr hi es rfl rfl (by simp [hreads]) (fun _ => rfl)
    exact hsame.trans ha
  · cases op with
    | push size =>
      cases hi
      have hall : ctx.pc + 1 + size.val ≤ ctx.code.size := by
        cases ha
        have : ctx.pc + size.val < ctx.code.size := hinside
        omega
      rw [immediate_appendCode es hall]
      exact ha
    | jump =>
      cases hi
      simp only [Instruction.jump, Instruction.unary] at ha ⊢
      exact jumpTo_appendCode ha
    | jumpi =>
      cases hi
      simp only [Instruction.jumpIf, Instruction.binary] at ha ⊢
      split at ha
      · next hzero =>
        rw [if_pos hzero]
        exact ha
      · next hnonzero =>
        rw [if_neg hnonzero]
        exact jumpTo_appendCode ha
    | codesize => exact absurd rfl hsize
    | codecopy => exact absurd rfl hcopy
    | _ => cases hreads

end Acts

/-! ### Opcodes and steps -/

section Steps

variable {m m' : Machine} {b : UInt8} {r : Receipt} {more : Bytes}

theorem exec_appendCode (h : m.exec b = (.ok r, m')) (hsize : b ≠ Opcode.codesize.toByte)
    (hcopy : b ≠ Opcode.codecopy.toByte) (hinside : m'.pc < m.code.size) :
    (m.appendCode more).exec b = (.ok r, m'.appendCode more) := by
  cases exec_eq_iff.mp h with
  | @done i es rest e hi hitems ha =>
    obtain ⟨op, hop, hinstr⟩ := Option.bind_eq_some_iff.mp hi
    have hbyte := Opcode.toByte_of_ofByte? hop
    refine exec_eq_iff.mpr (.done (m := m.appendCode more) hi hitems ?_)
    refine act_appendCode hinstr ?_ ?_ ha hinside
    · rintro rfl
      exact hsize hbyte.symm
    · rintro rfl
      exact hcopy hbyte.symm

/-- A halting opcode stops the machine where it stands. -/
theorem exec_of_halts {op : Opcode} (hop : op.halts = true)
    (h : m.exec op.toByte = (.ok r, m')) : m'.stopped = true ∧ m'.pc = m.pc := by
  cases exec_eq_iff.mp h with
  | @done i es rest e hi _ ha =>
    rw [instructionOfByte?_toByte op] at hi
    obtain ⟨hstops, hgoto⟩ := control_of_act hi ha
    constructor
    · show (m.stopped || e.stops) = true
      rw [hstops, hop, Bool.or_true]
    · show e.goto?.getD m.pc = m.pc
      rw [hgoto (Opcode.redirects_of_halts hop), Option.getD_none]

theorem Machine.haltAtEnd_of_stopped (hm : m.stopped = true) : m.haltAtEnd = m := by
  unfold haltAtEnd
  split
  · cases m
    exact congrArg _ hm.symm
  · rfl

/-- The end of the code is out of sight for a machine that has stopped anyway or
has not reached it. -/
theorem haltAtEnd_appendCode (h : m.stopped = true ∨ m.pc < m.code.size) :
    (m.appendCode more).haltAtEnd = m.haltAtEnd.appendCode more := by
  rcases h with hm | hpc
  · have hm' : (m.appendCode more).stopped = true := hm
    rw [Machine.haltAtEnd_of_stopped hm, Machine.haltAtEnd_of_stopped hm']
  · have hpc' : m.pc < (m.code ++ more).size := by
      rw [Array.size_append]
      omega
    unfold Machine.haltAtEnd
    rw [if_neg (Nat.not_le.mpr hpc)]
    exact if_neg (Nat.not_le.mpr hpc')

theorem advance_appendCode (h : m.stopped = true ∨ (m.advance b).pc < m.code.size) :
    (m.appendCode more).advance b = (m.advance b).appendCode more := by
  rw [Machine.pc_advance] at h
  unfold Machine.advance
  split
  · next hjump =>
    rw [if_pos hjump] at h
    exact haltAtEnd_appendCode h
  · next hjump =>
    rw [if_neg hjump] at h
    exact haltAtEnd_appendCode (m := { m with pc := m.pc + 1 }) h

/-- An opcode after which the machine goes on, or which halts it, has kept the
program counter within the code, and the end of the code has had no say in
whether the machine stops. -/
theorem inside_of_exec (h : m.exec b = (.ok r, m')) (hpc : m.pc < m.code.size)
    (hstop : (m'.advance b).stopped = true → ∃ op : Opcode, op.halts = true ∧ b = op.toByte) :
    m'.pc < m.code.size ∧ (m'.stopped = true ∨ (m'.advance b).pc < m'.code.size) := by
  rcases hgoing : (m'.advance b).stopped with _ | _
  · have hcode : m'.code = m.code := by
      cases exec_eq_iff.mp h with
      | done _ _ _ => rfl
    have hend : ¬(m'.stopped = true ∨ m'.code.size ≤ (m'.advance b).pc) := by
      rw [← Machine.stopped_advance_iff, hgoing]
      exact Bool.false_ne_true
    have hlt : (m'.advance b).pc < m'.code.size :=
      Nat.lt_of_not_le fun hle => hend (.inr hle)
    have hle : m'.pc ≤ (m'.advance b).pc := by
      rw [Machine.pc_advance]
      split <;> omega
    exact ⟨Nat.lt_of_le_of_lt hle (hcode ▸ hlt), .inr hlt⟩
  · obtain ⟨op, hhalts, rfl⟩ := hstop hgoing
    obtain ⟨hstopped, hstay⟩ := exec_of_halts hhalts h
    exact ⟨hstay ▸ hpc, .inl hstopped⟩

/-- **A step that goes on or halts does the same with more code.** -/
theorem step_appendCode {step : Step} (h : m.stepWith Hook.none () = (.ok step, (), m'))
    (hsize : step.opcode ≠ Opcode.codesize.toByte)
    (hcopy : step.opcode ≠ Opcode.codecopy.toByte)
    (hstop : m'.stopped = true → ∃ op : Opcode, op.halts = true ∧ step.opcode = op.toByte) :
    (m.appendCode more).stepWith Hook.none () = (.ok step, (), m'.appendCode more) := by
  cases stepWith_eq_iff.mp h with
  | @completed b receipt _ m₁ hm hop hc =>
    have hex := consult_none_iff.mp hc
    have hpc : m.pc < m.code.size := (Array.getElem?_eq_some_iff.mp hop).1
    obtain ⟨hinside, hend⟩ := inside_of_exec hex hpc hstop
    have hop' : (m.appendCode more).currentOp? = some b :=
      (Array.getElem?_append_left hpc).trans hop
    rw [← advance_appendCode hend]
    refine stepWith_eq_iff.mpr (.completed hm hop' (consult_none_iff.mpr ?_))
    exact exec_appendCode hex hsize hcopy hinside

end Steps

/-! ### Runs -/

/-- A machine that has code to start with can be given more of it. -/
theorem start_append {code : Bytes} (calldata more : Bytes) (h : code.isEmpty = false) :
    Machine.start (code ++ more) calldata = (Machine.start code calldata).appendCode more := by
  have hmore : (code ++ more).isEmpty = false := by
    rw [Array.isEmpty_eq_false_iff] at h ⊢
    simp [h]
  simp only [Machine.start, Machine.appendCode, h, hmore]

/-- A walk on which nothing has asked for the size of the code or copied from it,
up to an opcode that halts if the machine has stopped. -/
theorem Walk.appendCode {s s' : Unit} {m m' : Machine} {steps : List Step}
    (h : Walk Hook.none s m steps s' m') (more : Bytes)
    (hblind : ∀ step ∈ steps,
      step.opcode ≠ Opcode.codesize.toByte ∧ step.opcode ≠ Opcode.codecopy.toByte)
    (hhalts : ∀ step, steps.getLast? = some step →
      ∃ op : Opcode, op.halts = true ∧ step.opcode = op.toByte) :
    Walk Hook.none s (m.appendCode more) steps s' (m'.appendCode more) := by
  refine h.map (f := id) (φ := (·.appendCode more))
    (Q := fun step m' => (step.opcode ≠ Opcode.codesize.toByte ∧
      step.opcode ≠ Opcode.codecopy.toByte) ∧
      (m'.stopped = true → ∃ op : Opcode, op.halts = true ∧ step.opcode = op.toByte))
    ?_ ?_ ?_
  · intro _ _ _ _ _ hstep hq
    exact step_appendCode hstep hq.1.1 hq.1.2 hq.2
  · -- on the way the machine is still going
    intro step hmem m₁ hgoing
    refine ⟨hblind step hmem, fun hstopped => ?_⟩
    rw [hgoing] at hstopped
    cases hstopped
  · intro step hlast
    exact ⟨hblind step (List.mem_of_getLast? hlast), fun _ => hhalts step hlast⟩

/-- **Code behind the end of a run is irrelevant.**  If a machine runs to an
opcode that halts it and has neither asked for the size of its code nor copied
from it, then with any bytes behind its code it runs just the same: the run
succeeds with the same profile and ends with the same program counter, stack,
memory and flag. -/
theorem run_append_code (code more calldata : Bytes) (limit : Nat) {p : Profile}
    {last : Visit} (hok : ((Machine.start code calldata).run limit).outcome = .ok p)
    (hlast : ((Machine.start code calldata).visits limit).getLast? = some last)
    (hhalts : ∃ op : Opcode, op.halts = true ∧ last.step.opcode = op.toByte)
    (hblind : ∀ v ∈ (Machine.start code calldata).visits limit,
      v.step.opcode ≠ Opcode.codesize.toByte ∧ v.step.opcode ≠ Opcode.codecopy.toByte) :
    ((Machine.start (code ++ more) calldata).run limit).outcome = .ok p ∧
      ((Machine.start (code ++ more) calldata).run limit).machine =
        ((Machine.start code calldata).run limit).machine.appendCode more := by
  have hcode : code.isEmpty = false := by
    rcases hempty : code.isEmpty with _ | _
    · rfl
    · have hstopped : (Machine.start code calldata).stopped = true := hempty
      rw [Machine.visits_of_stopped hstopped] at hlast
      cases hlast
  obtain ⟨steps, c, hc⟩ := exists_concludes Hook.none limit () (Machine.start code calldata)
  have hrun : (Machine.start code calldata).run limit = .ofCourse limit steps c :=
    runWith_of_concludes hc
  have hsteps := hc.steps_visits
  have hblind := hc.forall_steps (P := fun step =>
    step.opcode ≠ Opcode.codesize.toByte ∧ step.opcode ≠ Opcode.codecopy.toByte) hblind
  have hhalts : ∀ step, steps.getLast? = some step →
      ∃ op : Opcode, op.halts = true ∧ step.opcode = op.toByte := by
    intro step hstep
    rw [← hsteps, List.getLast?_map, hlast] at hstep
    cases hstep
    exact hhalts
  rw [hrun] at hok ⊢
  cases hc with
  | failed _ _ _ _ => cases hok
  | outOfSteps _ _ _ => cases hok
  | halted hw hle hstop =>
    have hrun' := runWith_of_concludes (.halted (hw.appendCode more hblind hhalts) hle hstop)
    rw [start_append calldata more hcode]
    unfold Machine.run
    rw [hrun']
    exact ⟨hok, rfl⟩

/-- A jump over a byte and a halt, in front of a push that is cut short. -/
theorem run_append_code_jump :
    let code : Bytes := #[0x60, 0x04, 0x56, 0xfe, 0x5b, 0x60, 0x07, 0x00]
    let p : Profile := ⟨#v[6, 0, 0, 0, 0, 0, 0, 0, 0, 9, 0]⟩
    (((Machine.start code #[]).run 5).outcome = .ok p ∧
      ((Machine.start code #[]).visits 5).getLast? = some ⟨7, ⟨⟨0, []⟩, 0x00⟩⟩ ∧
      ∀ v ∈ (Machine.start code #[]).visits 5,
        v.step.opcode ≠ Opcode.codesize.toByte ∧ v.step.opcode ≠ Opcode.codecopy.toByte) ∧
      ((Machine.start (code ++ #[0x5b, 0x61, 0x01]) #[]).run 5).outcome = .ok p ∧
      ((Machine.start (code ++ #[0x5b, 0x61, 0x01]) #[]).run 5).machine =
        ((Machine.start code #[]).run 5).machine.appendCode #[0x5b, 0x61, 0x01] := by
  intro code p
  have hok : ((Machine.start code #[]).run 5).outcome = .ok p := by decide +kernel
  have hlast : ((Machine.start code #[]).visits 5).getLast? =
      some ⟨7, ⟨⟨0, []⟩, 0x00⟩⟩ := by decide +kernel
  have hblind : ∀ v ∈ (Machine.start code #[]).visits 5,
      v.step.opcode ≠ Opcode.codesize.toByte ∧ v.step.opcode ≠ Opcode.codecopy.toByte := by
    decide +kernel
  exact ⟨⟨hok, hlast, hblind⟩,
    run_append_code code _ #[] 5 hok hlast ⟨.stop, rfl, rfl⟩ hblind⟩

end WordMachine
