/-
WordMachine/Proofs/Attempts.lean

The machines on which the steps of a run begin.

A run begins a step whenever the machine is going and steps are left.
`m.attempts hook budget s` is the list of the machines on which it does, in
order and with the last one even if its step fails.  A statement about where the
steps of a run begin, or about the opcodes it comes upon, is one about this
list.  The completed steps are those on the list but for a last one that fails
(`Concludes.attempts`).

The cases of the loop are said once, in `Machine.stepwise`, and proofs about
runs of any length go by induction with it.  So what completed steps keep holds
of the whole list (`forall_attempts`), the list does not hang on a hook that
nobody notices (`attempts_plain`), and hooks that do the same wherever a step
begins have the same runs (`runWith_congr`).
-/
import WordMachine.Proofs.HookTransparency
import WordMachine.Proofs.Readiness

namespace WordMachine

variable {σ : Type} {hook : Hook σ} {s s' : σ} {m m' : Machine} {budget : Nat}

/-! ### The loop by its cases -/

/-- **Induction along a run.**  The machine is still going without a budget, or it
has stopped, or its step fails, or it completes its step and the rest of the
budget is for the machine that this leaves. -/
theorem Machine.stepwise (hook : Hook σ) {motive : Nat → σ → Machine → Prop}
    (outOfSteps : ∀ s m, m.stopped = false → motive 0 s m)
    (stopped : ∀ budget s m, m.stopped = true → motive budget s m)
    (failed : ∀ budget s m f s' m', m.stopped = false →
      m.stepWith hook s = (.error f, s', m') → motive (budget + 1) s m)
    (completed : ∀ budget s m step s' m', m.stepWith hook s = (.ok step, s', m') →
      motive budget s' m' → motive (budget + 1) s m)
    (budget : Nat) (s : σ) (m : Machine) : motive budget s m := by
  induction budget generalizing s m with
  | zero =>
    rcases hm : m.stopped with _ | _
    · exact outOfSteps s m hm
    · exact stopped 0 s m hm
  | succ budget ih =>
    rcases hm : m.stopped with _ | _
    · rcases hstep : m.stepWith hook s with ⟨f | step, s', m'⟩
      · exact failed budget s m f s' m' hm hstep
      · exact completed budget s m step s' m' hstep (ih s' m')
    · exact stopped (budget + 1) s m hm

/-! ### Attempts -/

namespace Machine

/-- The machines on which steps begin if `budget` of them are allowed. -/
def attempts (hook : Hook σ) : (budget : Nat) → σ → Machine → List Machine
  | 0, _, _ => []
  | budget + 1, s, m =>
    if m.stopped then []
    else
      m ::
        match m.stepWith hook s with
        | (.error _, _, _) => []
        | (.ok _, s, m) => attempts hook budget s m

theorem attempts_of_stopped (s : σ) (hm : m.stopped = true) : m.attempts hook budget s = [] := by
  cases budget with
  | zero => rfl
  | succ budget => rw [attempts, if_pos hm]

theorem attempts_of_error {f : Fault} (hm : m.stopped = false)
    (h : m.stepWith hook s = (.error f, s', m')) : m.attempts hook (budget + 1) s = [m] := by
  rw [attempts, hm, h]
  rfl

theorem attempts_of_ok {step : Step} (h : m.stepWith hook s = (.ok step, s', m')) :
    m.attempts hook (budget + 1) s = m :: m'.attempts hook budget s' := by
  rw [attempts, stopped_of_stepWith h, h]
  rfl

/-- **What completed steps keep holds wherever a step begins**, and there the
machine is going. -/
theorem forall_attempts {P : Machine → Prop}
    (hkept : ∀ {s m step s' m'}, m.stepWith hook s = (.ok step, s', m') → P m → P m')
    (hm : P m) {begun : Machine} (h : begun ∈ m.attempts hook budget s) :
    begun.stopped = false ∧ P begun := by
  induction budget, s, m using stepwise hook with
  | outOfSteps s m _ => cases h
  | stopped budget s m hstop =>
    rw [attempts_of_stopped s hstop] at h
    cases h
  | failed budget s m f s' m' hgo hstep =>
    rw [attempts_of_error hgo hstep] at h
    rw [List.mem_singleton.mp h]
    exact ⟨hgo, hm⟩
  | completed budget s m step s' m' hstep ih =>
    rw [attempts_of_ok hstep] at h
    rcases List.mem_cons.mp h with rfl | hrest
    · exact ⟨stopped_of_stepWith hstep, hm⟩
    · exact ih (hkept hstep hm) hrest

/-- A machine that is ready has an opcode wherever a step begins. -/
theorem Ready.exists_currentOp?_of_attempts (hm : m.Ready) (hook : Hook σ) (budget : Nat)
    (s : σ) : ∀ begun ∈ m.attempts hook budget s, ∃ op, begun.currentOp? = some op := by
  intro begun hbegun
  obtain ⟨hgo, hready⟩ :=
    forall_attempts (P := Ready) (fun hstep _ => ready_of_stepWith hstep) hm hbegun
  exact hready.exists_currentOp? hgo

/-- With a hook that nobody notices, steps begin where they begin without one. -/
theorem attempts_plain (ht : hook.Transparent) (budget : Nat) (s : σ) (m : Machine) :
    m.attempts hook budget s = m.attempts Hook.none budget () := by
  induction budget, s, m using stepwise hook with
  | outOfSteps s m _ => rfl
  | stopped budget s m hm => rw [attempts_of_stopped s hm, attempts_of_stopped () hm]
  | failed budget s m f s' m' hm hstep =>
    rw [attempts_of_error hm hstep, attempts_of_error hm (stepWith_plain ht hstep)]
  | completed budget s m step s' m' hstep ih =>
    rw [attempts_of_ok hstep, attempts_of_ok (stepWith_plain ht hstep), ih]

end Machine

/-! ### Attempts and ends -/

/-- The steps that an ending has left begun and not completed. -/
def Ending.unfinished : Ending → Nat
  | .failed _ => 1
  | .halted | .outOfSteps => 0

/-- A walk begins its steps first, at the opcodes that they report. -/
theorem Walk.attempts {steps : List Step} (h : Walk hook s m steps s' m') (budget : Nat) :
    ∃ begun, m.attempts hook (steps.length + budget) s =
        begun ++ m'.attempts hook budget s' ∧
      begun.map Machine.currentOp? = steps.map fun step => some step.opcode := by
  induction h with
  | refl s m =>
    rw [List.length_nil, Nat.zero_add]
    exact ⟨[], rfl, rfl⟩
  | @head s s₁ _ m m₁ _ step steps hstep _ ih =>
    obtain ⟨begun, hbegun, hops⟩ := ih
    have hop : m.currentOp? = some step.opcode := by
      cases stepWith_eq_iff.mp hstep with
      | completed _ hop _ => exact hop
    refine ⟨m :: begun, ?_, ?_⟩
    · rw [List.length_cons, Nat.add_right_comm, Machine.attempts_of_ok hstep, hbegun,
        List.cons_append]
    · rw [List.map_cons, List.map_cons, hop, hops]

/-- The steps that are begun on the way to an end are the completed ones, at the
opcodes that these report, and one more if it fails. -/
theorem Concludes.attempts {limit : Nat} {steps : List Step} {c : Course σ}
    (h : Concludes hook limit s m steps c) :
    ∃ begun last, m.attempts hook limit s = begun ++ last ∧
      begun.map Machine.currentOp? = (steps.map fun step => some step.opcode) ∧
      last.length = c.ending.unfinished := by
  -- the rest of the budget is for the machine to which the walk leads
  cases h with
  | halted hw hle hstop =>
    obtain ⟨budget, rfl⟩ := Nat.exists_eq_add_of_le hle
    obtain ⟨begun, hbegun, hops⟩ := hw.attempts budget
    exact ⟨begun, _, hbegun, hops, congrArg _ (Machine.attempts_of_stopped _ hstop)⟩
  | failed hw hlt hgo hstep =>
    obtain ⟨budget, rfl⟩ := Nat.exists_eq_add_of_lt hlt
    obtain ⟨begun, hbegun, hops⟩ := hw.attempts (budget + 1)
    exact ⟨begun, _, hbegun, hops, congrArg _ (Machine.attempts_of_error hgo hstep)⟩
  | outOfSteps hw heq _ =>
    obtain ⟨begun, hbegun, hops⟩ := hw.attempts 0
    rw [← heq]
    exact ⟨begun, _, hbegun, hops, rfl⟩

/-! ### Hooks that do the same -/

section Congr

variable {hook' : Hook σ}

theorem stepWith_congr (h : ∀ op, m.currentOp? = some op → hook op s m = hook' op s m) :
    m.stepWith hook s = m.stepWith hook' s := by
  unfold Machine.stepWith
  rcases hop : m.currentOp? with _ | op
  · rfl
  · simp only [h op hop]

/-- Hooks that do the same wherever a step begins have a machine followed in the
same way. -/
theorem follow_congr (budget : Nat) (s : σ) (m : Machine) (t : Tally)
    (h : ∀ begun ∈ m.attempts hook budget s, ∀ op, begun.currentOp? = some op →
      ∀ s, hook op s begun = hook' op s begun) :
    m.follow hook.tallied budget (s, t) = m.follow hook'.tallied budget (s, t) := by
  induction budget, s, m using Machine.stepwise hook generalizing t with
  | outOfSteps s m hm => rw [follow_zero _ _ hm, follow_zero _ _ hm]
  | stopped budget s m hm =>
    rw [follow_of_stopped _ _ _ hm, follow_of_stopped _ _ _ hm]
  | failed budget s m f s' m' hm hstep =>
    rw [Machine.attempts_of_error hm hstep] at h
    have hsame := stepWith_congr fun op hop => h m (List.mem_singleton_self m) op hop s
    rw [follow_of_error _ _ hm (stepWith_tallied t hstep),
      follow_of_error _ _ hm (stepWith_tallied t (hsame.symm.trans hstep))]
  | completed budget s m step s' m' hstep ih =>
    rw [Machine.attempts_of_ok hstep] at h
    have hsame := stepWith_congr fun op hop => h m List.mem_cons_self op hop s
    rw [follow_of_ok _ _ (stepWith_tallied t hstep),
      follow_of_ok _ _ (stepWith_tallied t (hsame.symm.trans hstep))]
    exact ih _ fun begun hbegun => h begun (List.mem_cons_of_mem m hbegun)

/-- **Hooks that do the same wherever a step begins have the same run.** -/
theorem runWith_congr (limit : Nat) (s : σ) (m : Machine)
    (h : ∀ begun ∈ m.attempts hook limit s, ∀ op, begun.currentOp? = some op →
      ∀ s, hook op s begun = hook' op s begun) :
    m.runWith hook limit s = m.runWith hook' limit s := by
  unfold Machine.runWith
  rw [follow_congr limit s m Tally.empty h]

end Congr

end WordMachine
