/-
WordMachine/Proofs/Finality.lean

A machine that has stopped stays as it is, and no machine changes its code or
its input.

`m.Before m'` says what any later state `m'` of a machine has in common with an
earlier one `m`.  Every opcode keeps to it, and with the opcodes every step
whose hook does (`before_stepWith`).  A hook does if all it does are
operations, since these do: `kept_before` is used twice for that, once for the
operations that a hook performs and once for those that come with such hooks.

Main result: `stopped_for_good`.
-/
import WordMachine.Proofs.Execution
import WordMachine.Proofs.Operations

namespace WordMachine

open Relation

namespace Machine

/-- `m'` has the code and the input of `m`, and has stopped if `m` has. -/
structure Before (m m' : Machine) : Prop where
  code_eq : m'.code = m.code
  calldata_eq : m'.calldata = m.calldata
  stopped : m.stopped = true → m'.stopped = true

variable {σ : Type} {hook : Hook σ} {m m₁ m' : Machine}

theorem Before.refl (m : Machine) : m.Before m := ⟨rfl, rfl, id⟩

theorem Before.trans (h : m.Before m₁) (h' : m₁.Before m') : m.Before m' where
  code_eq := h'.code_eq.trans h.code_eq
  calldata_eq := h'.calldata_eq.trans h.calldata_eq
  stopped hm := h'.stopped (h.stopped hm)

/-! ### Parts of a step -/

theorem before_halt (m : Machine) : m.Before m.halt := ⟨rfl, rfl, fun _ => rfl⟩

theorem before_setPc (pc : Nat) (m : Machine) : m.Before (m.setPc pc) where
  code_eq := code_haltAtEnd _
  calldata_eq := calldata_haltAtEnd _
  stopped hm := (stopped_haltAtEnd_iff _).mpr (.inl hm)

theorem before_advance (op : UInt8) (m : Machine) : m.Before (m.advance op) where
  code_eq := code_advance op m
  calldata_eq := calldata_advance op m
  stopped hm := (stopped_advance_iff op m).mpr (.inl hm)

theorem before_apply (m : Machine) (e : Effect) (rest : Stack) : m.Before (m.apply e rest) where
  code_eq := rfl
  calldata_eq := rfl
  stopped hm := Bool.or_eq_true_iff.mpr (.inl hm)

theorem before_exec (op : UInt8) (m : Machine) : m.Before (m.exec op).2 := by
  rcases hex : m.exec op with ⟨r, m'⟩
  cases exec_eq_iff.mp hex with
  | unsupported _ => exact .refl m
  | underflow _ _ => exact .refl m
  | refused _ _ _ => exact ⟨rfl, rfl, id⟩
  | done _ _ _ => exact before_apply m _ _

theorem before_settle (op : UInt8) (answer? : Option (Except Fault Receipt)) (m : Machine) :
    m.Before (m.settle op answer?).2 := by
  cases answer? with
  | none => exact before_exec op m
  | some _ => exact .refl m

/-! ### Steps -/

theorem stepWith_of_stopped (hook : Hook σ) (s : σ) (hm : m.stopped = true) :
    m.stepWith hook s = (.error (.halted m.pc), s, m) :=
  stepWith_eq_iff.mpr (.stopped hm)

/-- What is left of a step once its hook has returned. -/
theorem before_stepWith_of_hook {op : UInt8} (s : σ) (hm : m.stopped = false)
    (hop : m.currentOp? = some op) : (hook op s m).2.2.Before (m.stepWith hook s).2.2 := by
  rw [stepWith_eq s hm hop]
  unfold consult
  rcases hook op s m with ⟨answer?, s', m₁⟩
  have hsettle := before_settle op answer? m₁
  rcases hset : m₁.settle op answer? with ⟨f | receipt, m₂⟩
  · rw [hset] at hsettle
    simp only [hset]
    exact hsettle.trans (before_halt m₂)
  · rw [hset] at hsettle
    simp only [hset]
    exact hsettle.trans (before_advance op m₂)

/-- A step keeps to `Before` if its hook does. -/
theorem before_stepWith (hook : Hook σ) (s : σ) (m : Machine)
    (hhook : ∀ op s (m : Machine), m.Before (hook op s m).2.2) :
    m.Before (m.stepWith hook s).2.2 := by
  -- the hook is called only where there is an opcode to be carried out
  rcases hm : m.stopped with _ | _
  · rcases hop : m.currentOp? with _ | op
    · have hst : m.stepWith hook s = (.error (.halted m.pc), s, m.halt) :=
        stepWith_eq_iff.mpr (.pastEnd hm hop)
      rw [hst]
      exact before_halt m
    · exact (hhook op s m).trans (before_stepWith_of_hook s hm hop)
  · rw [stepWith_of_stopped hook s hm]
    exact .refl m

/-! ### Operations -/

/-- All operations keep to `Before`, if the hooks do. -/
theorem kept_before {Allowed : Command → Prop} {Admitted : ∀ σ : Type, Hook σ → Prop}
    (h : ∀ {σ : Type} {hook : Hook σ}, Admitted σ hook →
      ∀ op s (m : Machine), m.Before (hook op s m).2.2) :
    Kept Allowed Admitted Before where
  refl := .refl
  trans := .trans
  stack _ _ := ⟨rfl, rfl, id⟩
  memory _ _ := ⟨rfl, rfl, id⟩
  exec op m _ := before_exec op m
  setPc := before_setPc
  halt := before_halt
  step m := before_stepWith Hook.none () m fun _ _ => .refl
  stepWith hook s m ha := before_stepWith hook s m (h ha)

theorem before_of_plainOperations (h : ReflTransGen PlainOperation m m') : m.Before m' :=
  (kept_before False.elim).of_operations h

end Machine

open Machine

variable {σ : Type} {hook : Hook σ} {m m' : Machine}

theorem Hook.Performs.before (h : hook.Performs) (op : UInt8) (s : σ) (m : Machine) :
    m.Before (hook op s m).2.2 :=
  before_of_plainOperations (h op s m)

/-! ### Machines that have stopped -/

/-- A run of a machine that has stopped has no steps. -/
theorem runWith_of_stopped (hook : Hook σ) (limit : Nat) (s : σ) (hm : m.stopped = true) :
    m.runWith hook limit s = .ofCourse limit [] ⟨.halted, s, m⟩ :=
  runWith_of_concludes (.halted (.refl s m) (Nat.zero_le limit) hm)

/-- **Machines stop for good, and code and input never change.**

Whatever is done to a machine, with whatever hooks that perform operations, it
keeps its code and its input, and has stopped afterwards if it had stopped
before.  The same goes for the rest of a step from any point at which the body
of its hook has left the machine on the way.

A machine that has stopped does nothing any more.  A step says that it has
halted and where, a run succeeds with nothing spent, however few steps it was
allowed, and both leave the machine as it was, as well as the state of any
hook: none is called, not even one that only counts its calls. -/
theorem stopped_for_good :
    (∀ {m m' : Machine},
      ReflTransGen (Operation (fun _ => True) fun _ hook => hook.Performs) m m' →
      m'.code = m.code ∧ m'.calldata = m.calldata ∧
        (m.stopped = true → m'.stopped = true)) ∧
    (∀ {σ : Type} {hook : Hook σ} {op : UInt8} (s : σ) {m midway : Machine},
      m.stopped = false → m.currentOp? = some op →
      ReflTransGen PlainOperation midway (hook op s m).2.2 →
      (m.stepWith hook s).2.2.code = midway.code ∧
        (m.stepWith hook s).2.2.calldata = midway.calldata ∧
        (midway.stopped = true → (m.stepWith hook s).2.2.stopped = true)) ∧
    ∀ {m : Machine}, m.stopped = true →
      m.step = (.error (.halted m.pc), m) ∧
      (∀ limit, (m.run limit).machine = m ∧
        ∃ p, (m.run limit).outcome = .ok p ∧ ∀ c, p.get c = 0) ∧
      ∀ {σ : Type} (hook : Hook σ) (s : σ),
        m.stepWith hook s = (.error (.halted m.pc), s, m) ∧
        ∀ limit, (m.runWith hook limit s).machine = m ∧
          (m.runWith hook limit s).state = s ∧
          ∃ p, (m.runWith hook limit s).outcome = .ok p ∧ ∀ c, p.get c = 0 := by
  refine ⟨?_, ?_, ?_⟩
  · -- sequences of operations
    intro m m' hops
    have hbefore := (kept_before Hook.Performs.before).of_operations hops
    exact ⟨hbefore.code_eq, hbefore.calldata_eq, hbefore.stopped⟩
  · -- from the middle of a hook to the end of its step
    intro σ hook op s m midway hm hop hbody
    have hbefore := (before_of_plainOperations hbody).trans (before_stepWith_of_hook s hm hop)
    exact ⟨hbefore.code_eq, hbefore.calldata_eq, hbefore.stopped⟩
  · -- machines that have stopped
    intro m hm
    have hstep : m.step = (.error (.halted m.pc), m) := by
      unfold Machine.step
      rw [stepWith_of_stopped _ _ hm]
    have hrun : ∀ {σ : Type} (hook : Hook σ) (s : σ) (limit : Nat),
        (m.runWith hook limit s).machine = m ∧ (m.runWith hook limit s).state = s ∧
          ∃ p, (m.runWith hook limit s).outcome = .ok p ∧ ∀ c, p.get c = 0 := by
      intro σ hook s limit
      rw [runWith_of_stopped hook limit s hm]
      exact ⟨rfl, rfl, _, rfl, Profile.get_empty⟩
    refine ⟨hstep, fun limit => ?_, fun hook s => ⟨stepWith_of_stopped hook s hm, hrun hook s⟩⟩
    have hplain := hrun Hook.none () limit
    exact ⟨hplain.1, hplain.2.2⟩

/-- A script that halts the machine and moves it back to its first byte, called
in a step of a machine that is going and kept from one that has stopped. -/
theorem stopped_for_good_script :
    let m := Machine.start #[0x5b, 0x00] #[7]
    let hook := Script.hook fun _ => some ⟨[.halt, .setPc 0], .defer⟩
    hook.Performs ∧ m.stopped = false ∧ (m.stepWith hook #[]).2.2.stopped = true ∧
      (m.stepWith hook #[]).2.2.pc = 1 ∧
      ((m.halt.setPc 0).runWith hook 5 #[]).machine.stopped = true ∧
      m.halt.stepWith hook #[] = (.error (.halted 0), #[], m.halt) := by
  intro m hook
  have hperforms : hook.Performs := Script.performs_hook _
  have hgo : m.stopped = false := by decide +kernel
  have hop : m.currentOp? = some 0x5b := by decide +kernel
  have hpc : (m.stepWith hook #[]).2.2.pc = 1 := by decide +kernel
  have hbody : ReflTransGen PlainOperation m.halt (hook 0x5b #[] m).2.2 :=
    .single (.command (c := .setPc 0) m.halt trivial)
  have hrun : ReflTransGen (Operation (fun _ => True) fun _ hook => hook.Performs) m.halt
      ((m.halt.setPc 0).runWith hook 5 #[]).machine :=
    .tail (.single (.command (c := .setPc 0) m.halt trivial))
      (.runWith 5 #[] (m.halt.setPc 0) hperforms)
  exact ⟨hperforms, hgo, (stopped_for_good.2.1 #[] hgo hop hbody).2.2 rfl, hpc,
    (stopped_for_good.1 hrun).2.2 rfl, ((stopped_for_good.2.2 rfl).2.2 hook #[]).1⟩

end WordMachine
