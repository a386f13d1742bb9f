/-
WordMachine/Proofs/Cycles.lean

Machines that come back to where they were.

A step depends on nothing but the machine (and the state of its hook), so a walk
that leads back to its beginning can be taken again and again
(`Walk.again`).  Whatever the budget is, it ends somewhere in the next round
(`Concludes.of_cycle`): there are steps of the cycle left to be completed there,
so the machine is still going, and the run says that its steps are used up.

What has to be compared to know that a machine has come back is the program
counter, the stack, memory and whether it has stopped: code and input are the
same all along the walk (`Walk.before`).  Main result: `run_of_revisited`.
-/
import Mathlib.Logic.Function.Iterate
import WordMachine.Proofs.Finality
import WordMachine.Proofs.Walk

namespace WordMachine

variable {σ : Type} {hook : Hook σ} {s : σ} {m m' : Machine} {steps : List Step}

/-! ### Rounds -/

/-- A walk that leads back to its beginning can be taken any number of times. -/
theorem Walk.again (h : Walk hook s m steps s m) (rounds : Nat) :
    Walk hook s m (List.replicate rounds steps).flatten s m := by
  induction rounds with
  | zero => exact .refl s m
  | succ rounds ih =>
    rw [List.replicate_succ, List.flatten_cons]
    exact h.trans ih

/-- A machine that completes any steps at all is going. -/
theorem Walk.going {s' : σ} (h : Walk hook s m steps s' m') (hsteps : steps ≠ []) :
    m.stopped = false := by
  cases h with
  | refl => exact absurd rfl hsteps
  | head hstep _ => exact Machine.stopped_of_stepWith hstep

/-- **A budget ends within a round.**  Where a walk leads back to its beginning,
any number of steps is used up, and the last of them are the first ones of the
walk. -/
theorem Concludes.of_cycle (h : Walk hook s m steps s m) (hsteps : steps ≠ []) (limit : Nat) :
    ∃ s₁ m₁, Walk hook s m (steps.take (limit % steps.length)) s₁ m₁ ∧
      m₁.stopped = false ∧
      Concludes hook limit s m
        ((List.replicate (limit / steps.length) steps).flatten
          ++ steps.take (limit % steps.length))
        ⟨.outOfSteps, s₁, m₁⟩ := by
  have hlt : limit % steps.length < steps.length :=
    Nat.mod_lt _ (List.length_pos_iff.mpr hsteps)
  obtain ⟨s₁, m₁, hfirst, hrest⟩ : ∃ s₁ m₁,
      Walk hook s m (steps.take (limit % steps.length)) s₁ m₁ ∧
        Walk hook s₁ m₁ (steps.drop (limit % steps.length)) s m := by
    apply Walk.exists_between
    rw [List.take_append_drop]
    exact h
  -- the round is not finished, so its next step is still to be completed
  have hgoing : m₁.stopped = false := by
    apply hrest.going
    rw [Ne, List.drop_eq_nil_iff]
    exact Nat.not_le_of_gt hlt
  refine ⟨s₁, m₁, hfirst, hgoing, .outOfSteps ((h.again _).trans hfirst) ?_ hgoing⟩
  calc ((List.replicate (limit / steps.length) steps).flatten
          ++ steps.take (limit % steps.length)).length
      = limit / steps.length * steps.length + limit % steps.length := by
        rw [List.length_append, List.length_flatten, List.map_replicate,
          List.sum_replicate_nat, List.length_take, Nat.min_eq_left (Nat.le_of_lt hlt)]
    _ = limit := Nat.div_add_mod' limit steps.length

/-! ### Plain machines -/

/-- Code and input are the same all along a walk. -/
theorem Walk.before {s s' : Unit} (h : Walk Hook.none s m steps s' m') : m.Before m' := by
  induction h with
  | refl s m => exact .refl m
  | @head s _ _ m _ _ _ _ hstep _ ih =>
    have hbefore := Machine.before_stepWith Hook.none s m fun _ _ => .refl
    rw [hstep] at hbefore
    exact hbefore.trans ih

/-- A walk leads where its number of steps leads. -/
theorem Walk.iterate_step {s s' : Unit} (h : Walk Hook.none s m steps s' m') :
    (fun m : Machine => m.step.2)^[steps.length] m = m' := by
  induction h with
  | refl s m => rfl
  | head hstep _ ih =>
    rw [List.length_cons, Function.iterate_succ_apply, Machine.step_of_stepWith hstep]
    exact ih

/-- A later state of a machine with the same program counter, stack and memory that
is still going is the same machine. -/
theorem Machine.Before.eq (h : m.Before m') (hpc : m'.pc = m.pc) (hstack : m'.stack = m.stack)
    (hmemory : m'.memory = m.memory) (hm : m'.stopped = false) : m' = m := by
  have hgoing : m.stopped = false := by
    rcases hstop : m.stopped with _ | _
    · rfl
    · exact (h.stopped hstop).symm.trans hm
  obtain ⟨⟨code, calldata, pc, memory⟩, stack, stopped⟩ := m
  obtain ⟨⟨code', calldata', pc', memory'⟩, stack', stopped'⟩ := m'
  obtain rfl : code' = code := h.code_eq
  obtain rfl : calldata' = calldata := h.calldata_eq
  obtain rfl : pc' = pc := hpc
  obtain rfl : stack' = stack := hstack
  obtain rfl : memory' = memory := hmemory
  obtain rfl : stopped' = stopped := hm.trans hgoing.symm
  rfl

/-- **A machine that comes back to a state never stops.**  After one or more completed
steps let a machine be going again with the program counter, the stack and the
memory it had before.  Then every run says that its steps are used up, however many
they are; it leaves a machine that is going; and this is the machine to which, of
the steps that led back, so many of the first lead as are left of the budget after
whole rounds. -/
theorem run_of_revisited (hw : Walk Hook.none () m steps () m') (hsteps : steps ≠ [])
    (hpc : m'.pc = m.pc) (hstack : m'.stack = m.stack) (hmemory : m'.memory = m.memory)
    (hm : m'.stopped = false) (n : Nat) :
    (m.run n).outcome = .error (.stepLimitExceeded n) ∧
      (m.run n).machine.stopped = false ∧
      Walk Hook.none () m (steps.take (n % steps.length)) () (m.run n).machine ∧
      (m.run n).machine = (fun m : Machine => m.step.2)^[n % steps.length] m := by
  obtain rfl : m' = m := hw.before.eq hpc hstack hmemory hm
  obtain ⟨⟨⟩, m₁, hfirst, hgoing, hc⟩ := Concludes.of_cycle hw hsteps n
  have hrun : m'.run n = .ofCourse n _ ⟨.outOfSteps, (), m₁⟩ := runWith_of_concludes hc
  have hreached := hfirst.iterate_step
  rw [List.length_take, Nat.min_eq_left
    (Nat.le_of_lt (Nat.mod_lt _ (List.length_pos_iff.mpr hsteps)))] at hreached
  rw [hrun]
  exact ⟨rfl, hgoing, hfirst, hreached.symm⟩

/-- A loop of three steps, and a budget that ends after the first step of a round. -/
theorem run_of_revisited_loop :
    let m := Machine.start #[0x5b, 0x60, 0x00, 0x56] #[]
    let steps : List Step := [⟨⟨1, []⟩, 0x5b⟩, ⟨⟨3, []⟩, 0x60⟩, ⟨⟨8, []⟩, 0x56⟩]
    let back := m.step.2.step.2.step.2
    (Walk Hook.none () m steps () back ∧ steps ≠ [] ∧ back.pc = m.pc ∧
      back.stack = m.stack ∧ back.memory = m.memory ∧ back.stopped = false) ∧
      (m.run 100).outcome = .error (.stepLimitExceeded 100) ∧
      (m.run 100).machine.stopped = false ∧
      Walk Hook.none () m (steps.take 1) () (m.run 100).machine ∧
      (m.run 100).machine = m.step.2 := by
  intro m steps back
  have hfirst : m.step.1 = .ok ⟨⟨1, []⟩, 0x5b⟩ := by decide +kernel
  have hsecond : m.step.2.step.1 = .ok ⟨⟨3, []⟩, 0x60⟩ := by decide +kernel
  have hthird : m.step.2.step.2.step.1 = .ok ⟨⟨8, []⟩, 0x56⟩ := by decide +kernel
  have hw : Walk Hook.none () m steps () back :=
    .head (Machine.stepWith_of_step hfirst)
      (.head (Machine.stepWith_of_step hsecond)
        (.head (Machine.stepWith_of_step hthird) (.refl () _)))
  have hsteps : steps ≠ [] := List.cons_ne_nil _ _
  have hpc : back.pc = m.pc := by decide +kernel
  have hstack : back.stack = m.stack := by decide +kernel
  have hmemory : back.memory = m.memory := by decide +kernel
  have hgoing : back.stopped = false := by decide +kernel
  have hlength : steps.length = 3 := rfl
  have hrun := run_of_revisited hw hsteps hpc hstack hmemory hgoing 100
  rw [hlength] at hrun
  exact ⟨⟨hw, hsteps, hpc, hstack, hmemory, hgoing⟩, hrun⟩

end WordMachine
