/-
WordMachine/Machine/Run.lean

Running a machine until it stops, fails or has used up the steps it was
allowed.

`follow` is the one loop.  A monitor stands beside it: its hook is consulted
before every step and it is told of every step completed.  `runWith` follows a
machine with a monitor that adds up gas and counts steps, and says at the end
how the run went.

The machine is looked at before the budget: a machine that stops on its last
allowed step has simply stopped.
-/
import WordMachine.Log
import WordMachine.Machine.Step

namespace WordMachine

/-- How following a machine came to its end. -/
inductive Ending where
  /-- The machine stopped. -/
  | halted
  /-- A step failed. -/
  | failed (f : Fault)
  /-- The machine was still going after its last allowed step. -/
  | outOfSteps
  deriving DecidableEq

/-- The fault behind an ending, if it is not a success.  `limit` is the number
of steps that were allowed. -/
def Ending.fault? (limit : Nat) : Ending → Option Fault
  | .halted => none
  | .failed f => some f
  | .outOfSteps => some (.stepLimitExceeded limit)

/-- Stands beside a machine that is followed.  It is told of a completed step
with the program counter before and the machine after. -/
structure Monitor (σ : Type) where
  hook : Hook σ
  completed : σ → (pc : Nat) → Step → Machine → σ

/-- Tells a monitor of a step that began at `pc`, if it was completed, and
hands on the fault if it was not. -/
def Monitor.tell {σ : Type} (w : Monitor σ) (pc : Nat) :
    Except Fault Step × σ × Machine → Option Fault × σ × Machine
  | (.error f, s, m) => (some f, s, m)
  | (.ok step, s, m) => (none, w.completed s pc step m, m)

/-- What following a machine leaves. -/
structure Course (σ : Type) where
  ending : Ending
  state : σ
  machine : Machine

/-- Follows a machine for at most `budget` steps. -/
def Machine.follow {σ : Type} (w : Monitor σ) : (budget : Nat) → σ → Machine → Course σ
  | budget, s, m =>
    if m.stopped then ⟨.halted, s, m⟩
    else
      match budget with
      | 0 => ⟨.outOfSteps, s, m⟩
      | budget + 1 =>
        match w.tell m.pc (m.stepWith w.hook s) with
        | (some f, s, m) => ⟨.failed f, s, m⟩
        | (none, s, m) => follow w budget s m

/-- The steps of a run added up. -/
structure Tally where
  /-- The gas of the steps, by category. -/
  profile : Profile
  /-- The number of steps. -/
  steps : Nat
  deriving DecidableEq

namespace Tally

/-- No step taken. -/
def empty : Tally := ⟨.empty, 0⟩

/-- One step more. -/
def add (t : Tally) (s : Step) : Tally :=
  ⟨t.profile.add (Opcode.categoryOfByte s.opcode) s.gas, t.steps + 1⟩

end Tally

/-- The hook with a tally kept beside its state. -/
def Hook.tallied {σ : Type} (h : Hook σ) : Monitor (σ × Tally) where
  hook op s m :=
    match h op s.1 m with
    | (answer?, s', m) => (answer?, (s', s.2), m)
  completed s _ step _ := (s.1, s.2.add step)

/-- What a run leaves. -/
structure Run (σ : Type) where
  /-- The gas spent, or why the run did not come to its end. -/
  outcome : Except Fault Profile
  /-- What the run has to say in the log. -/
  remark? : Option Log.Entry
  /-- The state of the hook. -/
  state : σ
  machine : Machine

namespace Machine

/-- What is logged of a run that was allowed `limit` steps. -/
def remark? (limit : Nat) (ending : Ending) (t : Tally) (m : Machine) :
    Option Log.Entry :=
  match ending with
  | .halted => some ⟨.debug, "halted at pc " ++ toString m.pc ++ " after "
      ++ toString t.steps ++ " steps, " ++ toString t.profile.total ++ " gas"⟩
  | .failed _ => none
  | .outOfSteps => some ⟨.warn, "step limit of " ++ toString limit
      ++ " reached at pc " ++ toString m.pc⟩

/-- Runs a machine for at most `limit` steps, with a hook consulted on each. -/
def runWith {σ : Type} (hook : Hook σ) (limit : Nat) (s : σ) (m : Machine) : Run σ :=
  match m.follow hook.tallied limit (s, Tally.empty) with
  | ⟨ending, (s, t), m⟩ =>
    { outcome := (ending.fault? limit).elim (.ok t.profile) .error
      remark? := remark? limit ending t m
      state := s
      machine := m }

/-- Runs a machine for at most `limit` steps. -/
def run (limit : Nat) (m : Machine) : Run Unit := m.runWith Hook.none limit ()

end Machine

end WordMachine
