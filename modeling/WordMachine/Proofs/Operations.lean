/-
WordMachine/Proofs/Operations.lean

What is done to a machine from outside, one thing after another.

`Operation Allowed Admitted m m'` is one such thing: a command that is
`Allowed`, any change at all of the stack or of memory, a step or a run with a
hook that is `Admitted`, or a fork.  Sequences of operations are chains of it.

A hook has the machine in its hands while it is called.  `Hook.Performs` says
that all it does there are operations of its own, which may be any commands
but come without hooks; every script is such a hook (`Script.performs_hook`).

A run leaves nothing that steps do not leave (`reflTransGen_runWith`).  So a
relation between machines holds along all operations once it is known of steps
and of the commands that are no runs: `Kept` lists what is to be shown, and
`Kept.of_operations` draws the conclusion for sequences of any length.
-/
import Mathlib.Logic.Relation
import WordMachine.Machine.Command
import WordMachine.Proofs.Walk

namespace WordMachine

open Relation

/-! ### Operations -/

/-- One operation on a machine.  Which commands may be given, and which hooks may
be brought along, is left open. -/
inductive Operation (Allowed : Machine.Command → Prop)
    (Admitted : ∀ σ : Type, Hook σ → Prop) : Machine → Machine → Prop
  | command {c : Machine.Command} (m : Machine) :
      Allowed c → Operation Allowed Admitted m (m.perform c).machine
  /-- The stack may be changed into any other. -/
  | stack (m : Machine) (stack : Stack) : Operation Allowed Admitted m { m with stack }
  /-- So may memory. -/
  | memory (m : Machine) (memory : Memory) :
      Operation Allowed Admitted m { m with memory }
  | stepWith {σ : Type} {hook : Hook σ} (s : σ) (m : Machine) :
      Admitted σ hook → Operation Allowed Admitted m (m.stepWith hook s).2.2
  | runWith {σ : Type} {hook : Hook σ} (limit : Nat) (s : σ) (m : Machine) :
      Admitted σ hook → Operation Allowed Admitted m (m.runWith hook limit s).machine
  /-- A fork is equal to the machine it was made of, and either may go on. -/
  | fork (m : Machine) : Operation Allowed Admitted m m

/-- What may be done to a machine without a hook. -/
abbrev PlainOperation : Machine → Machine → Prop :=
  Operation (fun _ => True) fun _ _ => False

/-- All that the hook does to a machine are operations without hooks. -/
def Hook.Performs {σ : Type} (hook : Hook σ) : Prop :=
  ∀ op s m, ReflTransGen PlainOperation m (hook op s m).2.2

/-! ### Scripts -/

/-- Commands performed one after the other are operations. -/
theorem reflTransGen_performAll (remarks : Array Log.Entry) (m : Machine)
    (cs : List Machine.Command) :
    ReflTransGen PlainOperation m (m.performAll remarks cs).2.2 := by
  -- a command that fails is the last one to be performed
  induction cs generalizing remarks m with
  | nil => exact .refl
  | cons c cs ih =>
    have hfirst : PlainOperation m (m.perform c).machine := .command m trivial
    rcases hc : m.perform c with ⟨f | r, remark?, m₁⟩
    · rw [hc] at hfirst
      simp only [Machine.performAll, hc]
      exact .single hfirst
    · rw [hc] at hfirst
      simp only [Machine.performAll, hc]
      exact .head hfirst (ih _ _)

/-- A script does nothing but perform its commands, and has the opcode carried
out if that is its verdict. -/
theorem Script.performs_hook (choose : UInt8 → Option Script) :
    (Script.hook choose).Performs := by
  intro op remarks m
  unfold Script.hook
  rcases choose op with _ | script
  · exact .refl
  · have hall := reflTransGen_performAll remarks m script.commands
    show ReflTransGen PlainOperation m (script.play op remarks m).2.2
    unfold Script.play
    rcases hp : m.performAll remarks script.commands with ⟨_ | f, remarks₁, m₁⟩
    · -- only one of the verdicts touches the machine once more
      rw [hp] at hall
      rcases script.verdict with _ | _ | r | f
      · have hexec : PlainOperation m₁ (m₁.exec op).2 := .command (c := .exec op) m₁ trivial
        exact hall.tail hexec
      · exact hall
      · exact hall
      · exact hall
    · rw [hp] at hall
      exact hall

/-! ### Runs as steps -/

section Runs

variable {σ : Type} {hook : Hook σ} {s s' : σ} {m m' : Machine}

/-- `m'` is what a step with the hook leaves of `m`, whatever comes of it. -/
def Hook.Leaves (hook : Hook σ) (m m' : Machine) : Prop :=
  ∃ s, (m.stepWith hook s).2.2 = m'

theorem Hook.leaves_of_stepWith {r : Except Fault Step}
    (h : m.stepWith hook s = (r, s', m')) : hook.Leaves m m' :=
  ⟨s, congrArg (·.2.2) h⟩

theorem Walk.reflTransGen {steps : List Step} (h : Walk hook s m steps s' m') :
    ReflTransGen hook.Leaves m m' := by
  induction h with
  | refl => exact .refl
  | head hstep _ ih => exact .head (Hook.leaves_of_stepWith hstep) ih

/-- A run takes nothing but steps. -/
theorem reflTransGen_runWith (hook : Hook σ) (limit : Nat) (s : σ) (m : Machine) :
    ReflTransGen hook.Leaves m (m.runWith hook limit s).machine := by
  obtain ⟨steps, c, hc⟩ := exists_concludes hook limit s m
  rw [runWith_of_concludes hc]
  cases hc with
  | halted hw _ _ => exact hw.reflTransGen
  -- the step that fails leaves a machine as well
  | failed hw _ _ hstep => exact hw.reflTransGen.tail (Hook.leaves_of_stepWith hstep)
  | outOfSteps hw _ _ => exact hw.reflTransGen

end Runs

/-! ### Relations kept by all operations -/

/-- What makes a relation hold along operations. -/
structure Kept (Allowed : Machine.Command → Prop) (Admitted : ∀ σ : Type, Hook σ → Prop)
    (R : Machine → Machine → Prop) : Prop where
  refl : ∀ m, R m m
  trans : ∀ {m₁ m₂ m₃}, R m₁ m₂ → R m₂ m₃ → R m₁ m₃
  stack : ∀ m stack, R m { m with stack }
  memory : ∀ m memory, R m { m with memory }
  exec : ∀ op m, Allowed (.exec op) → R m (m.exec op).2
  setPc : ∀ pc m, R m (m.setPc pc)
  halt : ∀ m, R m m.halt
  /-- Steps without a hook are always allowed. -/
  step : ∀ m, R m (m.stepWith Hook.none ()).2.2
  stepWith : ∀ {σ : Type} (hook : Hook σ) s m, Admitted σ hook → R m (m.stepWith hook s).2.2

namespace Kept

variable {Allowed : Machine.Command → Prop} {Admitted : ∀ σ : Type, Hook σ → Prop}
  {R : Machine → Machine → Prop} {m m' : Machine}

/-- What holds along each link holds along the chain. -/
theorem of_links (h : Kept Allowed Admitted R) {Link : Machine → Machine → Prop}
    (hlink : ∀ m m', Link m m' → R m m') (hchain : ReflTransGen Link m m') : R m m' := by
  have : Std.Refl R := ⟨h.refl⟩
  have : IsTrans Machine R := ⟨fun _ _ _ => h.trans⟩
  exact reflTransGen_le_of_le hlink m m' hchain

/-- Runs come with steps. -/
theorem of_steps (h : Kept Allowed Admitted R) {σ : Type} {hook : Hook σ}
    (hstep : ∀ s m, R m (m.stepWith hook s).2.2) (limit : Nat) (s : σ) (m : Machine) :
    R m (m.runWith hook limit s).machine := by
  refine h.of_links ?_ (reflTransGen_runWith hook limit s m)
  rintro m₁ _ ⟨s₁, rfl⟩
  exact hstep s₁ m₁

theorem of_command (h : Kept Allowed Admitted R) {c : Machine.Command} (hc : Allowed c)
    (m : Machine) : R m (m.perform c).machine := by
  cases c with
  | stack c => exact h.stack m _
  | memory c => exact h.memory m _
  | step => exact h.step m
  | run limit => exact h.of_steps (fun _ => h.step) limit () m
  | exec op => exact h.exec op m hc
  | setPc pc => exact h.setPc pc m
  | halt => exact h.halt m

theorem of_operation (h : Kept Allowed Admitted R) (ho : Operation Allowed Admitted m m') :
    R m m' := by
  cases ho with
  | command _ hc => exact h.of_command hc m
  | stack _ s => exact h.stack m s
  | memory _ b => exact h.memory m b
  | stepWith s _ ha => exact h.stepWith _ s m ha
  | runWith limit s _ ha => exact h.of_steps (fun s m => h.stepWith _ s m ha) limit s m
  | fork => exact h.refl m

/-- What holds along each operation holds along sequences of them. -/
theorem of_operations (h : Kept Allowed Admitted R)
    (ho : ReflTransGen (Operation Allowed Admitted) m m') : R m m' :=
  h.of_links (fun _ _ => h.of_operation) ho

end Kept

end WordMachine
