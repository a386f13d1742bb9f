/-
WordMachine/Proofs/Monitors.lean

Machines that are followed without noticing it.

A monitor has a hook and is told of every completed step.  `Observes w f g`
says that the hook of `w` is transparent, and that of what `w` keeps in its
state the part `f` is changed by `g` when it is told of a step and by nothing
else.  A machine followed by it goes its own way: it comes to the end that it
comes to without a monitor, and `f` of the last state is what `g` makes of the
list of its steps (`Monitor.Observes.follow`).
-/
import WordMachine.Proofs.HookTransparency
import WordMachine.Proofs.Visits

namespace WordMachine

variable {σ τ : Type} {f : σ → τ} {m m' : Machine}

/-- What the hook keeps of its state, a step keeps. -/
theorem kept_of_stepWith {hook : Hook σ} {s s' : σ} {r : Except Fault Step}
    (hkept : ∀ op s m, f (hook op s m).2.1 = f s) (h : m.stepWith hook s = (r, s', m')) :
    f s' = f s := by
  have hconsult : ∀ {op answer s₁ m₁}, m.consult hook op s = (answer, s₁, m₁) → f s₁ = f s := by
    intro op answer s₁ m₁ hc
    obtain rfl : (hook op s m).2.1 = s₁ := congrArg (fun x => x.2.1) hc
    exact hkept op s m
  cases stepWith_eq_iff.mp h with
  | stopped _ => rfl
  | pastEnd _ _ => rfl
  | failed _ _ hc => exact hconsult hc
  | completed _ _ hc => exact hconsult hc

namespace Monitor

/-- The part `f` of the state of a monitor tells by `g` of the completed steps,
and the machine does not notice. -/
structure Observes (w : Monitor σ) (f : σ → τ) (g : τ → Visit → τ) : Prop where
  transparent : w.hook.Transparent
  kept : ∀ op s m, f (w.hook op s m).2.1 = f s
  told : ∀ s pc step m, f (w.completed s pc step m) = g (f s) ⟨pc, step⟩

variable {w : Monitor σ} {g : τ → Visit → τ}

/-- **A machine that is observed goes its own way.**  Followed for a number of
steps, it comes to the end that it comes to on its own, and the observation is
that of its steps in their order. -/
theorem Observes.follow (h : w.Observes f g) (budget : Nat) (s : σ) (m : Machine) :
    ∃ steps c, Concludes Hook.none budget () m steps c ∧
      (m.follow w budget s).ending = c.ending ∧
      (m.follow w budget s).machine = c.machine ∧
      f (m.follow w budget s).state = (m.visits budget).foldl g (f s) := by
  induction budget generalizing s m with
  | zero =>
    rcases hm : m.stopped with _ | _
    · rw [follow_zero w s hm]
      exact ⟨_, _, .outOfSteps (.refl () m) rfl hm, rfl, rfl, rfl⟩
    · rw [follow_of_stopped w 0 s hm]
      exact ⟨_, _, .halted (.refl () m) (Nat.le_refl 0) hm, rfl, rfl, rfl⟩
  | succ budget ih =>
    rcases hm : m.stopped with _ | _
    · rcases hstep : m.stepWith w.hook s with ⟨fault | step, s₁, m₁⟩
      · -- the step fails, and what has been observed before it stays
        have hplain := stepWith_plain h.transparent hstep
        rw [follow_of_error w budget hm hstep,
          Machine.visits_of_error (Machine.step_of_stepWith hplain)]
        exact ⟨_, _, .failed (.refl () m) (Nat.succ_pos budget) hm hplain, rfl, rfl,
          kept_of_stepWith h.kept hstep⟩
      · -- the step is told of, and goes in front of what is left of the way
        have hplain := stepWith_plain h.transparent hstep
        obtain ⟨steps, c, hc, hending, hmachine, hstate⟩ :=
          ih (w.completed s₁ m.pc step m₁) m₁
        have hwalk : Walk Hook.none () m [step] () m₁ := .head hplain (.refl () m₁)
        have hall := Concludes.prepend hwalk hc
        rw [List.length_singleton, Nat.add_comm] at hall
        rw [follow_of_ok w budget hstep,
          Machine.visits_of_ok (Machine.step_of_stepWith hplain), List.foldl_cons]
        refine ⟨_, _, hall, hending, hmachine, ?_⟩
        rw [hstate, h.told, kept_of_stepWith h.kept hstep]
    · rw [follow_of_stopped w _ s hm, Machine.visits_of_stopped hm]
      exact ⟨_, _, .halted (.refl () m) (Nat.zero_le _) hm, rfl, rfl, rfl⟩

end Monitor

end WordMachine
