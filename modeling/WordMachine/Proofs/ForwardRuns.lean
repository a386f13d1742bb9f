/-
WordMachine/Proofs/ForwardRuns.lean

Runs that never jump back.

`Machine.jump?` is where the machine jumps to in its next step, if it does, and
the machine is `Forward` if that is behind the jump.  A step that is completed
has moved the program counter on by at most a push with all its immediate bytes,
or has jumped (`pc_of_step`).  On a machine that is forward it moves on in
both cases, and less code is left (`left_lt_of_step`).  So the code that is left
bounds the steps (`length_attempts_le`) and is budget enough for a run
(`ending_of_forward`).

Neither way leads far out of the code: a jump ends at a byte of it, and anything
else has begun at one (`pc_of_step_le`).  A step that fails stays where it is.
Main result: `forward_runs_end`.
-/
import Mathlib.Algebra.Group.Nat.Defs
import Mathlib.Logic.Function.Iterate
import WordMachine.Proofs.Attempts
import WordMachine.Proofs.ControlFlow
import WordMachine.Proofs.Finality
import WordMachine.Proofs.RunLaws

namespace WordMachine

variable {m m' : Machine} {budget : Nat} {s : Unit}

/-! ### Jumps -/

namespace Machine

/-- Where the machine jumps to in its next step.  It does not jump from another
opcode, nor if the condition is zero or the destination is not marked. -/
def jump? (m : Machine) : Option Nat :=
  match m.currentOp?.bind Opcode.ofByte?, m.stack.items with
  | some .jump, destination :: _ => Instruction.target? m.toContext destination.word
  | some .jumpi, destination :: condition :: _ =>
    if condition.word = 0 then none else Instruction.target? m.toContext destination.word
  | _, _ => none

/-- If the machine jumps in its next step, then forward. -/
def Forward (m : Machine) : Prop := ∀ position ∈ m.jump?, m.pc < position

instance decidableForward (m : Machine) : Decidable m.Forward :=
  inferInstanceAs (Decidable (∀ position ∈ m.jump?, m.pc < position))

/-- The opcode at the program counter is a byte of the code. -/
theorem toByte_mem_code {op : Opcode} (h : m.currentOp?.bind Opcode.ofByte? = some op) :
    op.toByte ∈ m.code := by
  obtain ⟨b, hb, hop⟩ := Option.bind_eq_some_iff.mp h
  rw [Opcode.toByte_of_ofByte? hop]
  exact Array.mem_of_getElem? hb

/-- A jump leads to a byte of the code from another one, its opcode. -/
theorem of_jump? {position : Nat} (h : m.jump? = some position) :
    position < m.code.size ∧ (0x56 ∈ m.code ∨ 0x57 ∈ m.code) := by
  unfold jump? at h
  split at h
  · next hop _ => exact ⟨Instruction.lt_size_of_target? h, .inl (toByte_mem_code hop)⟩
  · next hop _ =>
    split at h
    · cases h
    · exact ⟨Instruction.lt_size_of_target? h, .inr (toByte_mem_code hop)⟩
  · cases h

end Machine

/-! ### Steps -/

/-- An opcode that is carried out moves on or jumps. -/
theorem pc_of_exec {b : UInt8} {r : Receipt} (hb : m.currentOp? = some b)
    (h : m.exec b = (.ok r, m')) :
    (m.pc < (m'.advance b).pc ∧ (m'.advance b).pc ≤ m.pc + 33) ∨
      m.jump? = some (m'.advance b).pc := by
  obtain ⟨op, hop, hsucc, _⟩ := control_of_exec h
  have hcurrent : m.currentOp?.bind Opcode.ofByte? = some op := by
    rw [hb]
    exact hop
  have hi := instructionOfByte?_of_ofByte? hop
  -- where it goes on is one of the successors, whatever else it has done
  generalize (m'.advance b).pc = position at hsucc ⊢
  cases hsucc with
  | push size =>
    have hsize := size.isLt
    exact .inl (by omega)
  | next _ => exact .inl (by omega)
  | jumpNotTaken _ _ => exact .inl (by omega)
  | @jump destination rest hitems =>
    -- the instruction has taken the top of the stack and found it a target
    obtain ⟨es, below, e, hes, ha, _⟩ := act_of_exec_ok hi h
    obtain ⟨rfl, _⟩ := List.cons.inj
      (hitems.symm.trans (hes.trans (Instruction.toList_unary es below.items)))
    refine .inr ?_
    unfold Machine.jump?
    rw [hcurrent, hitems]
    exact Instruction.target?_of_jump ha
  | @jumpTaken destination condition rest hitems hnonzero =>
    obtain ⟨es, below, e, hes, ha, _⟩ := act_of_exec_ok hi h
    obtain ⟨rfl, hbelow⟩ := List.cons.inj
      (hitems.symm.trans (hes.trans (Instruction.toList_binary es below.items)))
    obtain ⟨rfl, _⟩ := List.cons.inj hbelow
    refine .inr ?_
    unfold Machine.jump?
    rw [hcurrent, hitems]
    show (if (Instruction.second es).word = 0 then none else _) = _
    rw [if_neg hnonzero]
    exact Instruction.target?_of_jumpIf ha hnonzero

/-- **A step that is completed moves on or jumps.** -/
theorem pc_of_step {step : Step} (h : m.stepWith Hook.none s = (.ok step, s, m')) :
    (m.pc < m'.pc ∧ m'.pc ≤ m.pc + 33) ∨ m.jump? = some m'.pc := by
  cases stepWith_eq_iff.mp h with
  | completed _ hop hc => exact pc_of_exec hop (consult_none_iff.mp hc)

/-- On a machine that is forward it moves on, by a jump or without. -/
theorem lt_pc_of_step {step : Step} (hf : m.Forward)
    (h : m.stepWith Hook.none s = (.ok step, s, m')) : m.pc < m'.pc := by
  rcases pc_of_step h with ⟨hlt, _⟩ | hjump
  · exact hlt
  · exact hf _ hjump

/-- A step leaves the code as it is. -/
theorem code_of_step {r : Except Fault Step} (h : m.stepWith Hook.none s = (r, s, m')) :
    m'.code = m.code := by
  have hbefore := Machine.before_stepWith Hook.none s m fun _ _ => .refl
  rw [h] at hbefore
  exact hbefore.code_eq

/-- A push in the last byte of the code leads furthest. -/
theorem pc_of_step_le {r : Except Fault Step} (hm : m.pc ≤ m.code.size + 32)
    (h : m.stepWith Hook.none s = (r, s, m')) : m'.pc ≤ m.code.size + 32 := by
  cases stepWith_eq_iff.mp h with
  | stopped _ => exact hm
  | pastEnd _ _ => exact hm
  | failed _ _ hc =>
    -- what fails stays where it is
    have hsame := machine_of_exec_error (consult_none_iff.mp hc)
    rw [hsame]
    exact hm
  | completed _ hop hc =>
    -- an opcode stands within the code, and so does the end of a jump
    rcases pc_of_exec hop (consult_none_iff.mp hc) with ⟨_, hle⟩ | hjump
    · have hlt : m.pc < m.code.size := (Array.getElem?_eq_some_iff.mp hop).1
      omega
    · have hlt := (Machine.of_jump? hjump).1
      omega

/-! ### Runs -/

/-- **The code that is left gets less.**  So it does with each completed step of a
machine that is ready and forward. -/
theorem left_lt_of_step {step : Step} (hm : m.Ready) (hf : m.Forward)
    (h : m.stepWith Hook.none s = (.ok step, s, m')) :
    m'.Ready ∧ m'.code.size - m'.pc < m.code.size - m.pc := by
  have hpc := hm.pc_lt (Machine.stopped_of_stepWith h)
  have hlt := lt_pc_of_step hf h
  refine ⟨Machine.ready_of_stepWith h, ?_⟩
  rw [code_of_step h]
  omega

/-- As many steps are begun as bytes are left, at most. -/
theorem length_attempts_le (hm : m.Ready)
    (hf : ∀ begun ∈ m.attempts Hook.none budget s, begun.Forward) :
    (m.attempts Hook.none budget s).length ≤ m.code.size - m.pc := by
  induction budget, s, m using Machine.stepwise Hook.none with
  | outOfSteps s m _ => exact Nat.zero_le _
  | stopped budget s m hstop =>
    rw [Machine.attempts_of_stopped s hstop]
    exact Nat.zero_le _
  | failed budget s m f s' m' hgo hstep =>
    rw [Machine.attempts_of_error hgo hstep]
    exact Nat.sub_pos_of_lt (hm.pc_lt hgo)
  | completed budget s m step s' m' hstep ih =>
    rw [Machine.attempts_of_ok hstep] at hf ⊢
    obtain ⟨hready, hleft⟩ := left_lt_of_step hm (hf m List.mem_cons_self) hstep
    have hrest := ih hready fun begun hbegun => hf begun (List.mem_cons_of_mem m hbegun)
    -- one step more is begun, and at least one byte more is left
    exact Nat.lt_of_le_of_lt hrest hleft

/-- **The code that is left is budget enough.**  A machine that only jumps forward
stops or fails before as many steps are used up. -/
theorem ending_of_forward (hm : m.Ready) (hbudget : m.code.size - m.pc ≤ budget)
    (hf : ∀ begun ∈ m.attempts Hook.none budget s, begun.Forward) (t : Tally) :
    (m.follow Hook.none.tallied budget (s, t)).ending ≠ .outOfSteps := by
  induction budget, s, m using Machine.stepwise Hook.none generalizing t with
  | outOfSteps s m hgo =>
    -- a machine that is going has code left, and so budget as well
    exact absurd (Nat.sub_pos_of_lt (hm.pc_lt hgo)) (Nat.not_lt_of_le hbudget)
  | stopped budget s m hstop =>
    rw [follow_of_stopped _ _ _ hstop]
    nofun
  | failed budget s m f s' m' hgo hstep =>
    rw [follow_of_error _ _ hgo (stepWith_tallied t hstep)]
    nofun
  | completed budget s m step s' m' hstep ih =>
    rw [Machine.attempts_of_ok hstep] at hf
    obtain ⟨hready, hleft⟩ := left_lt_of_step hm (hf m List.mem_cons_self) hstep
    rw [follow_of_ok _ _ (stepWith_tallied t hstep)]
    exact ih hready (Nat.le_of_lt_succ (Nat.lt_of_lt_of_le hleft hbudget))
      (fun begun hbegun => hf begun (List.mem_cons_of_mem m hbegun)) _

theorem ne_stepLimitExceeded_of_forward (hm : m.Ready) (hbudget : m.code.size - m.pc ≤ budget)
    (hf : ∀ begun ∈ m.attempts Hook.none budget (), begun.Forward) (l : Nat) :
    (m.run budget).outcome ≠ .error (.stepLimitExceeded l) := by
  intro hl
  obtain ⟨steps, c, hc⟩ := exists_concludes Hook.none budget () m
  have hend := ending_of_forward hm hbudget hf Tally.empty
  rw [follow_of_concludes hc] at hend
  exact hend ((run_outOfSteps_iff hc).mp hl).1

/-- Code without jumps does not jump back, wherever a step begins. -/
theorem forward_of_not_mem (hjump : 0x56 ∉ m.code) (hjumpi : 0x57 ∉ m.code) {begun : Machine}
    (h : begun ∈ m.attempts Hook.none budget s) : begun.Forward := by
  have hcode : begun.code = m.code :=
    (Machine.forall_attempts (P := fun later => later.code = m.code)
      (fun hstep hcode => (code_of_step hstep).trans hcode) rfl h).2
  rw [← hcode] at hjump hjumpi
  intro position hposition
  rcases (Machine.of_jump? hposition).2 with hmem | hmem
  · exact absurd hmem hjump
  · exact absurd hmem hjumpi

/-- However many steps are made, failed ones and ones after the end included, the
program counter stays near the code. -/
theorem pc_iterate_step_le (hm : m.pc ≤ m.code.size + 32) (n : Nat) :
    ((fun m : Machine => m.step.2)^[n] m).code = m.code ∧
      ((fun m : Machine => m.step.2)^[n] m).pc ≤ m.code.size + 32 := by
  induction n with
  | zero => exact ⟨rfl, hm⟩
  | succ n ih =>
    rw [Function.iterate_succ_apply']
    generalize (fun m : Machine => m.step.2)^[n] m = reached at ih ⊢
    obtain ⟨hcode, hpc⟩ := ih
    have hstep := Machine.stepWith_of_step (m := reached) rfl
    refine ⟨(code_of_step hstep).trans hcode, ?_⟩
    rw [← hcode] at hpc ⊢
    exact pc_of_step_le hpc hstep

/-- **Runs that never jump back come to an end.**

On a machine that is going, with code left at its program counter, let steps be
made of which none jumps to its own position or before it.  Then each of them
that is completed moves the program counter on, and there are no more of them
than bytes of code are left.

So a run from the start that is allowed as many steps as there are bytes does not
run out of them if it does not jump back; it cannot if there is no jump in the
code.

And wherever steps may lead from the start, with jumps back or without, the
program counter is at most 32 bytes behind the code, so that in 64 bits there is
room to add an opcode and its immediate bytes. -/
theorem forward_runs_end :
    (∀ (m : Machine) (n : Nat), m.stopped = false → m.pc < m.code.size →
      (∀ begun ∈ m.attempts Hook.none n (), begun.Forward) →
      (∀ begun ∈ m.attempts Hook.none n (), ∀ step m',
        begun.step = (.ok step, m') → begun.pc < m'.pc) ∧
      (m.attempts Hook.none n ()).length ≤ m.code.size - m.pc) ∧
    (∀ code calldata : Bytes,
      (∀ begun ∈ (Machine.start code calldata).attempts Hook.none code.size (),
          begun.Forward) ∨ (0x56 ∉ code ∧ 0x57 ∉ code) →
      ∀ l, ((Machine.start code calldata).run code.size).outcome ≠
        .error (.stepLimitExceeded l)) ∧
    (∀ (code calldata : Bytes) (n : Nat),
      let reached := (fun m : Machine => m.step.2)^[n] (.start code calldata)
      reached.pc ≤ code.size + 32 ∧
        (code.size < 2 ^ 63 → ∀ size : Fin 33, reached.pc + 1 + size.val < 2 ^ 64)) := by
  refine ⟨?_, ?_, ?_⟩
  · intro m n _ hpc hf
    refine ⟨?_, length_attempts_le (.inr hpc) hf⟩
    intro begun hbegun step m' hstep
    have hfirst : begun.step.1 = .ok step := congrArg Prod.fst hstep
    have hplain := Machine.stepWith_of_step hfirst
    rw [hstep] at hplain
    exact lt_pc_of_step (hf begun hbegun) hplain
  · intro code calldata h
    have hf : ∀ begun ∈ (Machine.start code calldata).attempts Hook.none code.size (),
        begun.Forward := by
      rcases h with hf | ⟨hjump, hjumpi⟩
      · exact hf
      · exact fun begun hbegun => forward_of_not_mem hjump hjumpi hbegun
    exact ne_stepLimitExceeded_of_forward (Machine.ready_start code calldata)
      (Nat.sub_le _ _) hf
  · intro code calldata n reached
    have hpc : reached.pc ≤ code.size + 32 :=
      (pc_iterate_step_le (m := .start code calldata) (Nat.zero_le _) n).2
    refine ⟨hpc, fun hcode size => ?_⟩
    have hsize := size.isLt
    omega

/-- A jump over a byte that is no opcode, and a push in the last byte of a code
without jumps, which leads as far out of it as a step can. -/
theorem forward_runs_end_jump :
    let jumping : Bytes := #[0x60, 0x04, 0x56, 0xfe, 0x5b, 0x60, 0x2a]
    let cut : Bytes := #[0x60, 0x05, 0x7f]
    let m := Machine.start jumping #[]
    ((∀ begun ∈ m.attempts Hook.none jumping.size (), begun.Forward) ∧
      (m.attempts Hook.none jumping.size ()).map (fun begun => begun.pc) = [0, 2, 4, 5] ∧
      (m.attempts Hook.none jumping.size ()).length ≤ m.code.size - m.pc ∧
      (m.run jumping.size).outcome ≠ .error (.stepLimitExceeded jumping.size)) ∧
    ((0x56 ∉ cut ∧ 0x57 ∉ cut) ∧
      ((Machine.start cut #[]).run cut.size).outcome ≠ .error (.stepLimitExceeded cut.size)) ∧
    ((fun m : Machine => m.step.2)^[2] (.start cut #[])).pc = cut.size + 32 ∧
      ((fun m : Machine => m.step.2)^[2] (.start cut #[])).pc ≤ cut.size + 32 := by
  intro jumping cut m
  obtain ⟨hends, hrun, hreached⟩ := forward_runs_end
  have hf : ∀ begun ∈ m.attempts Hook.none jumping.size (), begun.Forward := by decide +kernel
  have hno : 0x56 ∉ cut ∧ 0x57 ∉ cut := by decide +kernel
  have hpcs : (m.attempts Hook.none jumping.size ()).map (fun begun => begun.pc) =
      [0, 2, 4, 5] := by
    decide +kernel
  have hfar : ((fun m : Machine => m.step.2)^[2] (.start cut #[])).pc = cut.size + 32 := by
    decide +kernel
  have hlength := (hends m jumping.size rfl (by decide) hf).2
  have hjumping := hrun jumping #[] (.inl hf) jumping.size
  have hcut := hrun cut #[] (.inr hno) cut.size
  have hnear := (hreached cut #[] 2).1
  exact ⟨⟨hf, hpcs, hlength, hjumping⟩, ⟨hno, hcut⟩, hfar, hnear⟩

end WordMachine
