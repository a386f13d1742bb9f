/-
WordMachine/Proofs/StackFrame.lean

What lies below the elements a machine uses.

`m.onto below` is the machine `m` with the elements `below` put beneath its
stack.  A machine that finds the operands it needs never gets to see them: it
does the same work and reports the same as `m`, and leaves them where they
are.

The frame is carried upwards through the layers, always under the one
condition that no underflow is reported: `Executes.onto` for an opcode,
`Stepped.onto` for a step, `Walk.onto` for a walk, `Concludes.onto` for an
end.  Main result: `run_onto`, for runs of any length.
-/
import WordMachine.Proofs.Execution
import WordMachine.Proofs.Walk

namespace WordMachine

/-- A stack with further elements beneath it, the upper ones first. -/
def Stack.onto (s : Stack) (below : List Element) : Stack := ⟨s.items ++ below⟩

/-- A machine with further elements beneath its stack. -/
def Machine.onto (m : Machine) (below : List Element) : Machine :=
  { m with stack := m.stack.onto below }

/-- An effect is carried out above what lies below. -/
theorem apply_onto (m : Machine) (e : Effect) (rest : Stack) (below : List Element) :
    (m.onto below).apply e (rest.onto below) = (m.apply e rest).onto below := by
  have hitems : e.results ++ (rest.items ++ below) = (e.results ++ rest.items) ++ below :=
    (List.append_assoc _ _ _).symm
  simp only [Machine.apply, Machine.onto, Stack.pushAll, Stack.onto, hitems]

theorem haltAtEnd_onto (m : Machine) (below : List Element) :
    (m.onto below).haltAtEnd = m.haltAtEnd.onto below := by
  unfold Machine.haltAtEnd
  by_cases hend : m.code.size ≤ m.pc
  · rw [if_pos hend]
    exact if_pos hend
  · rw [if_neg hend]
    exact if_neg hend

theorem advance_onto (op : UInt8) (m : Machine) (below : List Element) :
    (m.onto below).advance op = (m.advance op).onto below := by
  unfold Machine.advance
  split
  · exact haltAtEnd_onto m below
  · exact haltAtEnd_onto { m with pc := m.pc + 1 } below

variable {m m' : Machine} {below : List Element}

/-! ### Opcodes and steps -/

/-- **Frame rule of an opcode.** -/
theorem Executes.onto {op : UInt8} {r : Except Fault Receipt} (h : Executes op m r m')
    (hr : ∀ n d, r ≠ .error (.stackUnderflow n d)) :
    Executes op (m.onto below) r (m'.onto below) := by
  have front : ∀ {n : Nat} {es : Vector Element n} {rest : Stack},
      m.stack.items = es.toList ++ rest.items →
      (m.onto below).stack.items = es.toList ++ (rest.onto below).items := by
    intro n es rest hitems
    show m.stack.items ++ below = es.toList ++ (rest.items ++ below)
    rw [hitems, List.append_assoc]
  -- only the length of the stack is looked at beyond the operands, and only
  -- an underflow tells of it
  cases h with
  | unsupported hi => exact .unsupported hi
  | underflow _ _ => exact absurd rfl (hr _ _)
  | refused hi hitems ha => exact .refused hi (front hitems) ha
  | done hi hitems ha =>
    rw [← apply_onto]
    exact .done hi (front hitems) ha

/-- **Frame rule of a step.** -/
theorem Stepped.onto {r : Except Fault Step} (h : Stepped Hook.none () m r () m')
    (hr : ∀ n d, r ≠ .error (.stackUnderflow n d)) :
    Stepped Hook.none () (m.onto below) r () (m'.onto below) := by
  cases h with
  | stopped hm => exact .stopped hm
  | pastEnd hm hop => exact .pastEnd hm hop
  | @failed _ _ _ m₁ hm hop hc =>
    have hex := exec_eq_iff.mp (consult_none_iff.mp hc)
    show Stepped Hook.none () (m.onto below) _ () (m₁.onto below).halt
    refine .failed hm hop (consult_none_iff.mpr ?_)
    refine exec_eq_iff.mpr (hex.onto ?_)
    rintro n d ⟨⟩
    exact hr n d rfl
  | completed hm hop hc =>
    have hex := exec_eq_iff.mp (consult_none_iff.mp hc)
    rw [← advance_onto]
    refine .completed hm hop (consult_none_iff.mpr ?_)
    exact exec_eq_iff.mpr (hex.onto nofun)

/-! ### Walks and runs -/

theorem Walk.onto {s s' : Unit} {steps : List Step} (h : Walk Hook.none s m steps s' m') :
    Walk Hook.none s (m.onto below) steps s' (m'.onto below) := by
  refine h.map (f := id) (φ := (·.onto below)) (Q := fun _ _ => True) ?_
    (fun _ _ _ _ => trivial) (fun _ _ => trivial)
  intro _ _ _ _ _ hstep _
  have hst := stepWith_eq_iff.mp hstep
  exact stepWith_eq_iff.mpr (hst.onto nofun)

/-- An end other than an underflow is the same on a deeper stack. -/
theorem Concludes.onto {limit : Nat} {steps : List Step} {c : Course Unit}
    (h : Concludes Hook.none limit () m steps c)
    (hc : ∀ n d, c.ending ≠ .failed (.stackUnderflow n d)) :
    Concludes Hook.none limit () (m.onto below) steps
      { c with machine := c.machine.onto below } := by
  cases h with
  | halted hw hle hstop => exact .halted hw.onto hle hstop
  | failed hw hlt hgo hstep =>
    have hst := stepWith_eq_iff.mp hstep
    refine .failed hw.onto hlt hgo (stepWith_eq_iff.mpr (hst.onto ?_))
    rintro n d ⟨⟩
    exact hc n d rfl
  | outOfSteps hw heq hgo => exact .outOfSteps hw.onto heq hgo

/-- **Frame rule of a run.**  A run that does not end in an underflow is the
same, in every answer it gives, with any elements beneath its stack, and it
leaves them as they were beneath the stack it ends with. -/
theorem run_onto (m : Machine) (below : List Element) (limit : Nat)
    (h : ∀ n d, (m.run limit).outcome ≠ .error (.stackUnderflow n d)) :
    (m.onto below).run limit =
      { m.run limit with machine := (m.run limit).machine.onto below } := by
  obtain ⟨steps, c, hc⟩ := exists_concludes Hook.none limit () m
  have hrun : m.run limit = .ofCourse limit steps c := runWith_of_concludes hc
  have hending : ∀ n d, c.ending ≠ .failed (.stackUnderflow n d) := by
    intro n d hfail
    apply h n d
    rw [hrun, Run.ofCourse, hfail]
    rfl
  rw [hrun]
  exact runWith_of_concludes (hc.onto hending)

/-- A machine that copies, adds, exchanges and stores what it finds, above one
element that it does not need. -/
theorem run_onto_storing :
    let m : Machine :=
      { Machine.start #[0x80, 0x60, 0x02, 0x01, 0x90, 0x53] #[] with
        stack := ⟨[.ofWord 3]⟩ }
    (∀ n d, (m.run 5).outcome ≠ .error (.stackUnderflow n d)) ∧
      (m.onto [.ofWord 9]).run 5 =
        { m.run 5 with machine := (m.run 5).machine.onto [.ofWord 9] } := by
  intro m
  have hok : (m.run 5).outcome.isOk = true := by decide +kernel
  have hne : ∀ n d, (m.run 5).outcome ≠ .error (.stackUnderflow n d) := by
    intro n d hu
    rw [hu] at hok
    cases hok
  exact ⟨hne, run_onto m [.ofWord 9] 5 hne⟩

end WordMachine
