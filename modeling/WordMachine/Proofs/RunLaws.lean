/-
WordMachine/Proofs/RunLaws.lean

What a run is, and how runs are put together.

`runWith_iterates` says that a run is nothing but its steps, one after the
other: it says for each of the three ends of a machine what the run answers,
and that there is no fourth.  `run_resume` splits a budget in two: a run that
was interrupted can be taken up again, and nothing is lost but the count of
the steps.
-/
import WordMachine.Proofs.Execution
import WordMachine.Proofs.Walk

namespace WordMachine

variable {σ : Type}

/-! ### Runs and their steps -/

/-- **A run is iterated steps.**

* A machine that has stopped after `steps`, at most `limit` of them, makes the
  run a success.  The profile shows the saturating sum of the gas of these
  steps in each category.  A machine that stops on its last allowed step is a
  case of this.
* A step that fails after fewer than `limit` steps ends the run with its fault,
  and what that step leaves is what the run leaves.
* A machine that is still going after `limit` steps makes the run fail with a
  fault of its own, and is left still going after just these steps.

One of the three is always the case. -/
theorem runWith_iterates (hook : Hook σ) (limit : Nat) (s : σ) (m : Machine) :
    (∀ steps s' m', Walk hook s m steps s' m' → steps.length ≤ limit →
      m'.stopped = true →
      ∃ p, (m.runWith hook limit s).outcome = .ok p ∧
        (∀ c, p.get c = min (Step.gasIn c steps) Gas.maximum) ∧
        (m.runWith hook limit s).state = s' ∧
        (m.runWith hook limit s).machine = m') ∧
    (∀ steps s' m' f s'' m'', Walk hook s m steps s' m' → steps.length < limit →
      m'.stopped = false → m'.stepWith hook s' = (.error f, s'', m'') →
      (m.runWith hook limit s).outcome = .error f ∧
        (m.runWith hook limit s).state = s'' ∧
        (m.runWith hook limit s).machine = m'') ∧
    (∀ steps s' m', Walk hook s m steps s' m' → steps.length = limit →
      m'.stopped = false →
      (m.runWith hook limit s).outcome = .error (.stepLimitExceeded limit) ∧
        (m.runWith hook limit s).state = s' ∧
        (m.runWith hook limit s).machine = m') ∧
    ∃ steps c, Concludes hook limit s m steps c := by
  refine ⟨?_, ?_, ?_, exists_concludes hook limit s m⟩
  · intro steps s' m' hw hle hstop
    rw [runWith_of_concludes (.halted hw hle hstop)]
    exact ⟨_, rfl, get_profile_addAll steps, rfl, rfl⟩
  · intro steps s' m' f s'' m'' hw hlt hgo hstep
    rw [runWith_of_concludes (.failed hw hlt hgo hstep)]
    exact ⟨rfl, rfl, rfl⟩
  · intro steps s' m' hw heq hgo
    rw [runWith_of_concludes (.outOfSteps hw heq hgo)]
    exact ⟨rfl, rfl, rfl⟩

/-- A machine that stops on its last allowed step. -/
theorem runWith_iterates_last_step :
    let m := Machine.start #[0x60, 0x05, 0x00] #[]
    let steps : List Step := [⟨⟨3, []⟩, 0x60⟩, ⟨⟨0, []⟩, 0x00⟩]
    (Walk Hook.none () m steps () m.step.2.step.2 ∧ steps.length ≤ 2 ∧
      m.step.2.step.2.stopped = true) ∧
      ∃ p, (m.runWith Hook.none 2 ()).outcome = .ok p ∧
        (∀ c, p.get c = min (Step.gasIn c steps) Gas.maximum) ∧
        (m.runWith Hook.none 2 ()).state = () ∧
        (m.runWith Hook.none 2 ()).machine = m.step.2.step.2 := by
  intro m steps
  have hfirst : m.step.1 = .ok ⟨⟨3, []⟩, 0x60⟩ := by decide +kernel
  have hsecond : m.step.2.step.1 = .ok ⟨⟨0, []⟩, 0x00⟩ := by decide +kernel
  have hw : Walk Hook.none () m steps () m.step.2.step.2 :=
    .head (Machine.stepWith_of_step hfirst)
      (.head (Machine.stepWith_of_step hsecond) (.refl () _))
  have hstop : m.step.2.step.2.stopped = true := by decide +kernel
  have hle : steps.length ≤ 2 := Nat.le_refl 2
  exact ⟨⟨hw, hle, hstop⟩, (runWith_iterates Hook.none 2 () m).1 steps () _ hw hle hstop⟩

/-! ### Budgets split in two -/

variable {m : Machine}

/-- The plain run says that its steps are used up just when they are, and then
says how many there were: no step fails with this fault. -/
theorem run_outOfSteps_iff {limit l : Nat} {steps : List Step} {c : Course Unit}
    (h : Concludes Hook.none limit () m steps c) :
    (m.run limit).outcome = .error (.stepLimitExceeded l) ↔
      c.ending = .outOfSteps ∧ l = limit := by
  have hrun : m.run limit = .ofCourse limit steps c := runWith_of_concludes h
  rw [hrun]
  cases h with
  | halted _ _ _ =>
    constructor
    · rintro ⟨⟩
    · rintro ⟨⟨⟩, _⟩
  | failed _ _ _ hstep =>
    constructor
    · intro hf
      exact absurd (Except.error.inj hf) (ne_stepLimitExceeded_of_step hstep l)
    · rintro ⟨⟨⟩, _⟩
  | outOfSteps _ _ _ =>
    constructor
    · intro hl
      exact ⟨rfl, (Fault.stepLimitExceeded.inj (Except.error.inj hl)).symm⟩
    · rintro ⟨_, rfl⟩
      rfl

/-- Two runs that end in the same way answer in the same way, each with its own
limit, whatever steps they have counted. -/
theorem outcomes_of_course {limit limit' : Nat} {before steps : List Step}
    {c : Course Unit} (h : Concludes Hook.none limit () m steps c) :
    (∃ p q, (Run.ofCourse limit steps c).outcome = .ok p ∧
        (Run.ofCourse limit' (before ++ steps) c).outcome = .ok q ∧
        ∀ cat, q.get cat = Gas.add (Step.gasIn cat before) (p.get cat)) ∨
      (∃ f, (∀ l, f ≠ .stepLimitExceeded l) ∧
        (Run.ofCourse limit steps c).outcome = .error f ∧
        (Run.ofCourse limit' (before ++ steps) c).outcome = .error f) ∨
      ((Run.ofCourse limit steps c).outcome = .error (.stepLimitExceeded limit) ∧
        (Run.ofCourse limit' (before ++ steps) c).outcome =
          .error (.stepLimitExceeded limit')) := by
  cases h with
  | halted _ _ _ =>
    refine .inl ⟨_, _, rfl, rfl, ?_⟩
    intro cat
    rw [get_profile_addAll, get_profile_addAll, Step.gasIn_append, Gas.min_add_min]
  | failed _ _ _ hstep =>
    exact .inr (.inl ⟨_, ne_stepLimitExceeded_of_step hstep, rfl, rfl⟩)
  | outOfSteps _ _ _ => exact .inr (.inr ⟨rfl, rfl⟩)

/-- **An interrupted run can be resumed.**

A run of `n` steps that says its steps are used up leaves a machine whose run
of `k` steps ends where the run of `n + k` steps ends.  Of these two runs both
succeed, and the profiles differ by the gas of the first `n` steps; or both
fail with the same fault of a step; or both say that their steps are used up,
each with its own number of them.

A run of `n` steps that says anything else is the run of `n + k` steps. -/
theorem run_resume (m : Machine) (n k : Nat) :
    ((∃ l, (m.run n).outcome = .error (.stepLimitExceeded l)) →
      ((m.run n).machine.run k).machine = (m.run (n + k)).machine ∧
      ∃ first, first.length = n ∧
        Walk Hook.none () m first () (m.run n).machine ∧
        ((∃ p q, ((m.run n).machine.run k).outcome = .ok p ∧
            (m.run (n + k)).outcome = .ok q ∧
            ∀ c, q.get c = Gas.add (Step.gasIn c first) (p.get c)) ∨
          (∃ f, (∀ l, f ≠ .stepLimitExceeded l) ∧
            ((m.run n).machine.run k).outcome = .error f ∧
            (m.run (n + k)).outcome = .error f) ∨
          (((m.run n).machine.run k).outcome = .error (.stepLimitExceeded k) ∧
            (m.run (n + k)).outcome = .error (.stepLimitExceeded (n + k))))) ∧
    ((∀ l, (m.run n).outcome ≠ .error (.stepLimitExceeded l)) →
      m.run (n + k) = m.run n) := by
  obtain ⟨first, c, hc⟩ := exists_concludes Hook.none n () m
  have hrun : m.run n = .ofCourse n first c := runWith_of_concludes hc
  constructor
  · rintro ⟨l, hl⟩
    have hend := ((run_outOfSteps_iff hc).mp hl).1
    cases hc with
    | halted _ _ _ => cases hend
    | failed _ _ _ _ => cases hend
    | @outOfSteps _ m' hw heq _ =>
      -- the end of what is left of the run is the end of the whole run, with
      -- the first `n` steps in front of it
      have hleft : (m.run n).machine = m' := congrArg Run.machine hrun
      obtain ⟨rest, c', hc'⟩ := exists_concludes Hook.none k () m'
      have hrest : m'.run k = .ofCourse k rest c' := runWith_of_concludes hc'
      have hboth : m.run (n + k) = .ofCourse (n + k) (first ++ rest) c' := by
        rw [← heq]
        exact runWith_of_concludes (.prepend hw hc')
      rw [hleft, hrest, hboth]
      exact ⟨rfl, first, heq, hw, outcomes_of_course hc'⟩
  · -- the run has ended before its steps were used up
    intro hne
    have hend : c.ending ≠ .outOfSteps := by
      intro hout
      exact hne n ((run_outOfSteps_iff hc).mpr ⟨hout, rfl⟩)
    have hmore : m.run (n + k) = .ofCourse (n + k) first c :=
      runWith_of_concludes (hc.mono hend k)
    rw [hmore, hrun]
    exact Run.ofCourse_congr hend

/-- An endless loop, interrupted after four steps. -/
theorem run_resume_loop :
    let m := Machine.start #[0x5b, 0x60, 0x00, 0x56] #[]
    (m.run 4).outcome = .error (.stepLimitExceeded 4) ∧
      ((m.run 4).machine.run 3).machine = (m.run 7).machine := by
  intro m
  have hlimit : (m.run 4).outcome = .error (.stepLimitExceeded 4) := by decide +kernel
  exact ⟨hlimit, ((run_resume m 4 3).1 ⟨4, hlimit⟩).1⟩

end WordMachine
