/-
WordMachine/Proofs/Walk.lean

Machines taken step by step.

`Walk hook s m steps s' m'` says that the hook state `s` and the machine `m`
are led to `s'` and `m'` by the completed steps `steps`, one after the other.
It speaks of single steps only: there is no budget in it, no counter, and no
test whether the machine has stopped, since a machine that has stopped
completes no step.

`Concludes hook limit s m steps c` adds how the machine comes to its end when
it is allowed `limit` steps: it has stopped, the next step fails, or the steps
are used up.

Main results: every run comes to such an end (`exists_concludes`), and the end
determines everything the run answers (`runWith_of_concludes`).  The latter
goes by `follow_of_walk`, which lets the loop run along a walk.  What is to be
proved of runs can so be proved of walks, by induction on their steps.
-/
import WordMachine.Machine.Run
import WordMachine.Proofs.Profiles

namespace WordMachine

variable {σ : Type} {hook : Hook σ}

/-! ### Gas added up -/

/-- The category that a step belongs to, and its gas. -/
def Step.charge (step : Step) : Category × Nat :=
  (Opcode.categoryOfByte step.opcode, step.gas)

/-- The gas of the steps of one category, added up without a bound. -/
def Step.gasIn (c : Category) : List Step → Nat
  | [] => 0
  | step :: steps =>
    (if Opcode.categoryOfByte step.opcode = c then step.gas else 0) + gasIn c steps

theorem Step.gasIn_append (c : Category) (xs ys : List Step) :
    Step.gasIn c (xs ++ ys) = Step.gasIn c xs + Step.gasIn c ys := by
  induction xs with
  | nil => exact (Nat.zero_add _).symm
  | cons step xs ih => rw [List.cons_append, gasIn, gasIn, ih, Nat.add_assoc]

theorem Step.gasIn_eq_sumIn (c : Category) (steps : List Step) :
    Step.gasIn c steps = Gas.sumIn c (steps.map Step.charge) := by
  induction steps with
  | nil => rfl
  | cons step steps ih =>
    rw [List.map_cons, Gas.sumIn_cons, gasIn, ih]
    rfl

/-- A tally with further steps added. -/
def Tally.addAll (t : Tally) (steps : List Step) : Tally :=
  steps.foldl Tally.add t

@[simp] theorem Tally.addAll_cons (t : Tally) (step : Step) (steps : List Step) :
    t.addAll (step :: steps) = (t.add step).addAll steps := rfl

theorem Tally.profile_addAll (t : Tally) (steps : List Step) :
    (t.addAll steps).profile = t.profile.addAll (steps.map Step.charge) := by
  induction steps generalizing t with
  | nil => rfl
  | cons step steps ih => exact ih (t.add step)

/-- The counters of a tally are saturating sums. -/
theorem Tally.get_addAll (t : Tally) (steps : List Step) (c : Category)
    (h : t.profile.get c ≤ Gas.maximum) :
    (t.addAll steps).profile.get c =
      min (t.profile.get c + Step.gasIn c steps) Gas.maximum := by
  rw [profile_addAll, Profile.get_addAll _ _ _ h, Step.gasIn_eq_sumIn]

/-! ### Walks -/

/-- The completed steps `steps` lead from `s` and `m` to `s'` and `m'`. -/
inductive Walk (hook : Hook σ) : σ → Machine → List Step → σ → Machine → Prop
  | refl (s : σ) (m : Machine) : Walk hook s m [] s m
  | head {s s₁ s' : σ} {m m₁ m' : Machine} {step : Step} {steps : List Step} :
      m.stepWith hook s = (.ok step, s₁, m₁) →
      Walk hook s₁ m₁ steps s' m' → Walk hook s m (step :: steps) s' m'

theorem Walk.trans {s s₁ s' : σ} {m m₁ m' : Machine} {xs ys : List Step}
    (h : Walk hook s m xs s₁ m₁) (h' : Walk hook s₁ m₁ ys s' m') :
    Walk hook s m (xs ++ ys) s' m' := by
  induction h with
  | refl => exact h'
  | head hstep _ ih => exact .head hstep (ih h')

/-- A walk goes through the place where its steps are divided. -/
theorem Walk.exists_between {s s' : σ} {m m' : Machine} {xs ys : List Step}
    (h : Walk hook s m (xs ++ ys) s' m') :
    ∃ s₁ m₁, Walk hook s m xs s₁ m₁ ∧ Walk hook s₁ m₁ ys s' m' := by
  induction xs generalizing s m with
  | nil => exact ⟨s, m, .refl s m, h⟩
  | cons x xs ih =>
    cases h with
    | head hstep hrest =>
      obtain ⟨s₁, m₁, hxs, hys⟩ := ih hrest
      exact ⟨s₁, m₁, .head hstep hxs, hys⟩

/-- Only a machine that has not stopped completes a step. -/
theorem Machine.stopped_of_stepWith {s s' : σ} {m m' : Machine} {step : Step}
    (h : m.stepWith hook s = (.ok step, s', m')) : m.stopped = false := by
  rcases hm : m.stopped with _ | _
  · rfl
  · simp [Machine.stepWith, hm] at h

/-- **Walks are matched step by step.**  Where each completed step is matched by
one of another machine, possibly with another hook, so is a walk.  A step on the
way leaves a machine that is still going, so the condition `Q` has to allow for
a machine that has stopped only at the last step. -/
theorem Walk.map {τ : Type} {hook' : Hook τ} {f : σ → τ} {φ : Machine → Machine}
    {Q : Step → Machine → Prop} {s s' : σ} {m m' : Machine} {steps : List Step}
    (h : Walk hook s m steps s' m')
    (hmatch : ∀ {s m step s' m'}, m.stepWith hook s = (.ok step, s', m') → Q step m' →
      (φ m).stepWith hook' (f s) = (.ok step, f s', φ m'))
    (hgoing : ∀ step ∈ steps, ∀ m₁ : Machine, m₁.stopped = false → Q step m₁)
    (hlast : ∀ step, steps.getLast? = some step → Q step m') :
    Walk hook' (f s) (φ m) steps (f s') (φ m') := by
  induction h with
  | refl => exact .refl _ _
  | @head _ _ _ _ m₁ _ step steps hstep hrest ih =>
    have hq : Q step m₁ := by
      cases hrest with
      | refl => exact hlast step rfl
      | head hnext _ =>
        exact hgoing step List.mem_cons_self m₁ (Machine.stopped_of_stepWith hnext)
    refine .head (hmatch hstep hq) (ih ?_ ?_)
    · intro x hx
      exact hgoing x (List.mem_cons_of_mem step hx)
    · intro x hx
      cases steps with
      | nil => cases hx
      | cons y ys => exact hlast x (List.getLast?_cons_cons.trans hx)

/-- A plain step as a step of a walk. -/
theorem Machine.stepWith_of_step {m : Machine} {r : Except Fault Step}
    (h : m.step.1 = r) : m.stepWith Hook.none () = (r, (), m.step.2) := by
  rw [← h]
  rfl

/-! ### Ends -/

/-- How a machine that is allowed `limit` steps comes to its end: `steps` are
the steps it completes, and `c` is what it leaves. -/
inductive Concludes (hook : Hook σ) (limit : Nat) (s : σ) (m : Machine) :
    List Step → Course σ → Prop
  /-- It has stopped, on its last allowed step at the latest. -/
  | halted {steps s' m'} :
      Walk hook s m steps s' m' → steps.length ≤ limit → m'.stopped = true →
      Concludes hook limit s m steps ⟨.halted, s', m'⟩
  /-- It is still going and allowed a step, and the step fails. -/
  | failed {steps s' m' f s'' m''} :
      Walk hook s m steps s' m' → steps.length < limit → m'.stopped = false →
      m'.stepWith hook s' = (.error f, s'', m'') →
      Concludes hook limit s m steps ⟨.failed f, s'', m''⟩
  /-- It is still going after all its steps. -/
  | outOfSteps {steps s' m'} :
      Walk hook s m steps s' m' → steps.length = limit → m'.stopped = false →
      Concludes hook limit s m steps ⟨.outOfSteps, s', m'⟩

/-- A walk in front of an end. -/
theorem Concludes.prepend {limit : Nat} {s s₁ : σ} {m m₁ : Machine}
    {xs ys : List Step} {c : Course σ} (h : Walk hook s m xs s₁ m₁)
    (h' : Concludes hook limit s₁ m₁ ys c) :
    Concludes hook (xs.length + limit) s m (xs ++ ys) c := by
  cases h' with
  | halted hw hle hstop =>
    exact .halted (h.trans hw) (by rw [List.length_append]; omega) hstop
  | failed hw hlt hgo hstep =>
    exact .failed (h.trans hw) (by rw [List.length_append]; omega) hgo hstep
  | outOfSteps hw heq hgo =>
    exact .outOfSteps (h.trans hw) (by rw [List.length_append, heq]) hgo

/-- An end that comes before the steps are used up is the end with more steps
as well. -/
theorem Concludes.mono {limit : Nat} {s : σ} {m : Machine} {steps : List Step}
    {c : Course σ} (h : Concludes hook limit s m steps c)
    (hc : c.ending ≠ .outOfSteps) (more : Nat) :
    Concludes hook (limit + more) s m steps c := by
  cases h with
  | halted hw hle hstop => exact .halted hw (Nat.le_add_right_of_le hle) hstop
  | failed hw hlt hgo hstep =>
    exact .failed hw (Nat.lt_add_right more hlt) hgo hstep
  | outOfSteps _ _ _ => exact absurd rfl hc

/-- **Ends with another hook.**  Where another hook does the same to every machine,
and to its own state what `f` says, a machine comes to the same end with it. -/
theorem Concludes.mapState {τ : Type} {hook' : Hook τ} {f : σ → τ} {limit : Nat} {s : σ}
    {m : Machine} {steps : List Step} {c : Course σ}
    (hmatch : ∀ {s s' : σ} {m m' : Machine} {r : Except Fault Step},
      m.stepWith hook s = (r, s', m') → m.stepWith hook' (f s) = (r, f s', m'))
    (h : Concludes hook limit s m steps c) :
    Concludes hook' limit (f s) m steps ⟨c.ending, f c.state, c.machine⟩ := by
  have hwalk : ∀ {s' m'}, Walk hook s m steps s' m' →
      Walk hook' (f s) m steps (f s') m' := fun hw =>
    hw.map (φ := id) (Q := fun _ _ => True) (fun hstep _ => hmatch hstep)
      (fun _ _ _ _ => trivial) (fun _ _ => trivial)
  cases h with
  | halted hw hle hstop => exact .halted (hwalk hw) hle hstop
  | failed hw hlt hgo hstep => exact .failed (hwalk hw) hlt hgo (hmatch hstep)
  | outOfSteps hw heq hgo => exact .outOfSteps (hwalk hw) heq hgo

/-- Every machine comes to an end within its steps. -/
theorem exists_concludes (hook : Hook σ) (limit : Nat) (s : σ) (m : Machine) :
    ∃ steps c, Concludes hook limit s m steps c := by
  induction limit generalizing s m with
  | zero =>
    rcases hm : m.stopped with _ | _
    · exact ⟨_, _, .outOfSteps (.refl s m) rfl hm⟩
    · exact ⟨_, _, .halted (.refl s m) (Nat.le_refl 0) hm⟩
  | succ limit ih =>
    rcases hm : m.stopped with _ | _
    · rcases hstep : m.stepWith hook s with ⟨f | step, s₁, m₁⟩
      · exact ⟨_, _, .failed (.refl s m) (Nat.succ_pos limit) hm hstep⟩
      · -- a completed step goes in front of the end with one step less
        obtain ⟨steps, c, hc⟩ := ih s₁ m₁
        have hwalk : Walk hook s m [step] s₁ m₁ := .head hstep (.refl s₁ m₁)
        have h := Concludes.prepend hwalk hc
        rw [List.length_singleton, Nat.add_comm] at h
        exact ⟨_, _, h⟩
    · exact ⟨_, _, .halted (.refl s m) (Nat.zero_le _) hm⟩

/-! ### Runs along walks -/

/-- A hook does not notice the tally beside it. -/
theorem stepWith_tallied {s s' : σ} {m m' : Machine} {r : Except Fault Step} (t : Tally)
    (h : m.stepWith hook s = (r, s', m')) :
    m.stepWith hook.tallied.hook (s, t) = (r, (s', t), m') := by
  have hpair : m.stepWith hook.tallied.hook (s, t) =
      ((m.stepWith hook s).1, ((m.stepWith hook s).2.1, t), (m.stepWith hook s).2.2) := by
    unfold Machine.stepWith
    by_cases hm : m.stopped = true
    · simp [hm]
    · rcases hop : m.currentOp? with _ | op
      · simp [hm]
      · rcases hh : hook op s m with ⟨answer?, s₁, m₁⟩
        rcases hset : m₁.settle op answer? with ⟨f | receipt, m₂⟩ <;>
          simp [hm, Hook.tallied, hh, hset]
  rw [hpair, h]

/-- A machine that has stopped is followed no further. -/
theorem follow_of_stopped (w : Monitor σ) (budget : Nat) (s : σ) {m : Machine}
    (hm : m.stopped = true) : m.follow w budget s = ⟨.halted, s, m⟩ := by
  cases budget <;> simp [Machine.follow, hm]

/-- A machine that is still going is not followed without a budget. -/
theorem follow_zero (w : Monitor σ) (s : σ) {m : Machine} (hm : m.stopped = false) :
    m.follow w 0 s = ⟨.outOfSteps, s, m⟩ := by
  simp [Machine.follow, hm]

/-- A step that fails is the last. -/
theorem follow_of_error (w : Monitor σ) (budget : Nat) {s s' : σ} {m m' : Machine} {f : Fault}
    (hm : m.stopped = false) (h : m.stepWith w.hook s = (.error f, s', m')) :
    m.follow w (budget + 1) s = ⟨.failed f, s', m'⟩ := by
  simp [Machine.follow, hm, h, Monitor.tell]

/-- The monitor is told of a step that is completed. -/
theorem follow_of_ok (w : Monitor σ) (budget : Nat) {s s' : σ} {m m' : Machine} {step : Step}
    (h : m.stepWith w.hook s = (.ok step, s', m')) :
    m.follow w (budget + 1) s = m'.follow w budget (w.completed s' m.pc step m') := by
  have hm := Machine.stopped_of_stepWith h
  -- unfolded once only: `follow` stands on the right as well
  rw [Machine.follow]
  simp only [hm, h, Monitor.tell]
  rfl

/-- The loop follows a machine along a walk and goes on from where it leads. -/
theorem follow_of_walk {s s' : σ} {m m' : Machine} {steps : List Step}
    (h : Walk hook s m steps s' m') (t : Tally) (budget : Nat) :
    m.follow hook.tallied (steps.length + budget) (s, t) =
      m'.follow hook.tallied budget (s', t.addAll steps) := by
  induction h generalizing t with
  | refl => rw [List.length_nil, Nat.zero_add]; rfl
  | head hstep _ ih =>
    rw [List.length_cons, Nat.add_right_comm, follow_of_ok _ _ (stepWith_tallied t hstep),
      Tally.addAll_cons]
    exact ih _

/-- The loop leaves what the end of the machine says, with the completed steps
added to the tally. -/
theorem follow_of_concludes {limit : Nat} {s : σ} {m : Machine} {steps : List Step}
    {c : Course σ} (h : Concludes hook limit s m steps c) (t : Tally) :
    m.follow hook.tallied limit (s, t) =
      ⟨c.ending, (c.state, t.addAll steps), c.machine⟩ := by
  -- the budget is the steps of the walk and what is left of it after them
  cases h with
  | halted hw hle hstop =>
    obtain ⟨budget, rfl⟩ := Nat.exists_eq_add_of_le hle
    rw [follow_of_walk hw, follow_of_stopped _ _ _ hstop]
  | failed hw hlt hgo hstep =>
    obtain ⟨budget, rfl⟩ := Nat.exists_eq_add_of_lt hlt
    rw [Nat.add_assoc, follow_of_walk hw, follow_of_error _ _ hgo (stepWith_tallied _ hstep)]
  | outOfSteps hw heq hgo =>
    rw [← heq, ← Nat.add_zero steps.length, follow_of_walk hw, follow_zero _ _ hgo]

/-- What a run answers that ends in `c` after `steps`. -/
def Run.ofCourse (limit : Nat) (steps : List Step) (c : Course σ) : Run σ where
  outcome := (c.ending.fault? limit).elim
    (.ok (Tally.empty.addAll steps).profile) .error
  remark? := Machine.remark? limit c.ending (Tally.empty.addAll steps) c.machine
  state := c.state
  machine := c.machine

/-- Only a run whose steps are used up says how many there were. -/
theorem Run.ofCourse_congr {limit limit' : Nat} {steps : List Step} {c : Course σ}
    (hc : c.ending ≠ .outOfSteps) :
    Run.ofCourse limit steps c = Run.ofCourse limit' steps c := by
  obtain ⟨_ | f | _, s, m⟩ := c
  · rfl
  · rfl
  · exact absurd rfl hc

/-- **The end of a machine determines its run.** -/
theorem runWith_of_concludes {limit : Nat} {s : σ} {m : Machine} {steps : List Step}
    {c : Course σ} (h : Concludes hook limit s m steps c) :
    m.runWith hook limit s = .ofCourse limit steps c := by
  unfold Machine.runWith
  rw [follow_of_concludes h]
  rfl

/-- The profile of a run shows the saturating sums of its steps. -/
theorem get_profile_addAll (steps : List Step) (c : Category) :
    (Tally.empty.addAll steps).profile.get c = min (Step.gasIn c steps) Gas.maximum := by
  have hzero : Tally.empty.profile.get c = 0 := Profile.get_empty c
  rw [Tally.get_addAll _ _ _ (by rw [hzero]; exact Nat.zero_le _), hzero, Nat.zero_add]

end WordMachine
