/-
WordMachine/Proofs/Visits.lean

The steps of a machine as a list.

A `Walk` says that a machine completes certain steps.  `m.visits budget`
computes them: the steps that `m` completes on its own when it is allowed
`budget` of them, each with the program counter it began at.  A statement about
the opcodes that a run carries out, or about all of its steps in order, is one
about this list.

Main result: `Concludes.steps_visits`, by which the list holds just the steps of
the walk that leads a machine to its end.  So the gas of the steps on the list,
`m.spent budget`, is that of a run, whether it succeeds (`spent_of_run`) or not.
-/
import WordMachine.Proofs.Execution
import WordMachine.Proofs.Walk

namespace WordMachine

/-- A completed step, with the program counter it began at. -/
structure Visit where
  pc : Nat
  step : Step
  deriving DecidableEq

namespace Machine

/-- The steps that a machine completes when it is allowed `budget` steps. -/
def visits : (budget : Nat) → Machine → List Visit
  | 0, _ => []
  | budget + 1, m =>
    match m.step with
    | (.error _, _) => []
    | (.ok step, m') => ⟨m.pc, step⟩ :: visits budget m'

/-- The gas of the steps that a machine completes. -/
def spent (budget : Nat) (m : Machine) : Profile :=
  (Tally.empty.addAll ((m.visits budget).map Visit.step)).profile

variable {m m' : Machine} {budget : Nat}

theorem visits_of_ok {step : Step} (h : m.step = (.ok step, m')) :
    m.visits (budget + 1) = ⟨m.pc, step⟩ :: m'.visits budget := by
  rw [visits, h]

/-- A step that fails is not completed, and none comes after it. -/
theorem visits_of_error {f : Fault} (h : m.step = (.error f, m')) : m.visits budget = [] := by
  cases budget with
  | zero => rfl
  | succ budget => rw [visits, h]

theorem visits_of_stopped (hm : m.stopped = true) : m.visits budget = [] := by
  have hstep : m.step = (.error (.halted m.pc), m) := by
    simp [step, stepWith, hm]
  exact visits_of_error hstep

end Machine

variable {m m' : Machine}

/-- A walk comes first on the list of a machine that is allowed more steps. -/
theorem Walk.steps_visits {s s' : Unit} {steps : List Step}
    (h : Walk Hook.none s m steps s' m') (budget : Nat) :
    (m.visits (steps.length + budget)).map Visit.step =
      steps ++ (m'.visits budget).map Visit.step := by
  induction h with
  | refl => rw [List.length_nil, Nat.zero_add, List.nil_append]
  | head hstep _ ih =>
    rw [List.length_cons, Nat.add_right_comm,
      Machine.visits_of_ok (Machine.step_of_stepWith hstep), List.map_cons, ih, List.cons_append]

/-- **The list holds the steps that a machine completes on its way to its end.** -/
theorem Concludes.steps_visits {limit : Nat} {steps : List Step} {c : Course Unit}
    (h : Concludes Hook.none limit () m steps c) :
    (m.visits limit).map Visit.step = steps := by
  -- the budget that the walk leaves is not used at any of the three ends
  cases h with
  | halted hw hle hstop =>
    obtain ⟨budget, rfl⟩ := Nat.exists_eq_add_of_le hle
    rw [hw.steps_visits, Machine.visits_of_stopped hstop, List.map_nil, List.append_nil]
  | failed hw hlt _ hstep =>
    obtain ⟨budget, rfl⟩ := Nat.exists_eq_add_of_lt hlt
    rw [Nat.add_assoc, hw.steps_visits,
      Machine.visits_of_error (Machine.step_of_stepWith hstep), List.map_nil, List.append_nil]
  | outOfSteps hw heq _ =>
    have hall := hw.steps_visits 0
    rw [heq, Nat.add_zero] at hall
    rw [hall, Machine.visits, List.map_nil, List.append_nil]

/-- What holds of all completed steps holds of all steps of the walk. -/
theorem Concludes.forall_steps {limit : Nat} {steps : List Step} {c : Course Unit}
    {P : Step → Prop} (h : Concludes Hook.none limit () m steps c)
    (hall : ∀ v ∈ m.visits limit, P v.step) : ∀ step ∈ steps, P step := by
  intro step hmem
  rw [← h.steps_visits] at hmem
  obtain ⟨v, hv, rfl⟩ := List.mem_map.mp hmem
  exact hall v hv

end WordMachine
