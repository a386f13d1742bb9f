/-
WordMachine/Proofs/HookTransparency.lean

Hooks that nobody notices.

A hook is transparent if it never does anything but what would have been done
without it: it leaves the opcode to the machine, or has the machine carry it
out and hands on the answer.  Which of the two it does may differ from call to
call and hang on its own state, of which nothing is assumed.

Both ways lead through `consult` to the answer of `exec`
(`Hook.Transparent.consult`), so every step is a plain step (`Stepped.plain`),
and with the steps the ends (`Concludes.plain`).  Main result:
`Hook.Transparent.unnoticed`.
-/
import WordMachine.Proofs.Execution
import WordMachine.Proofs.Walk

namespace WordMachine

variable {σ : Type} {hook : Hook σ} {s s' : σ} {m m' : Machine}

/-- Whenever a step calls the hook, for the opcode at the program counter of a
machine that is still going, it leaves the opcode to the machine, which it has
not touched, or answers with what the machine makes of the opcode. -/
def Hook.Transparent (hook : Hook σ) : Prop :=
  ∀ op s m, m.stopped = false → m.currentOp? = some op →
    ∃ s', hook op s m = (.none, s', m) ∨
      hook op s m = (some (m.exec op).1, s', (m.exec op).2)

/-- With a transparent hook the answer is that of the machine. -/
theorem Hook.Transparent.consult (h : hook.Transparent) {op : UInt8} (s : σ)
    (hm : m.stopped = false) (hop : m.currentOp? = some op) :
    ∃ s', m.consult hook op s = ((m.exec op).1, s', (m.exec op).2) := by
  obtain ⟨s', hh | hh⟩ := h op s m hm hop
  · refine ⟨s', ?_⟩
    simp only [Machine.consult, hh, Machine.settle]
  · refine ⟨s', ?_⟩
    simp only [Machine.consult, hh, Machine.settle]

theorem Hook.Transparent.exec_of_consult (h : hook.Transparent) {op : UInt8}
    {r : Except Fault Receipt} (hm : m.stopped = false) (hop : m.currentOp? = some op)
    (hc : m.consult hook op s = (r, s', m')) : m.exec op = (r, m') := by
  obtain ⟨s₁, hc₁⟩ := h.consult s hm hop
  rw [hc₁] at hc
  simp only [Prod.mk.injEq] at hc
  exact Prod.ext hc.1 hc.2.2

/-- A step with a transparent hook is a plain step. -/
theorem Stepped.plain {r : Except Fault Step} (ht : hook.Transparent)
    (h : Stepped hook s m r s' m') : Stepped Hook.none () m r () m' := by
  cases h with
  | stopped hm => exact .stopped hm
  | pastEnd hm hop => exact .pastEnd hm hop
  | failed hm hop hc =>
    exact .failed hm hop (consult_none_iff.mpr (ht.exec_of_consult hm hop hc))
  | completed hm hop hc =>
    exact .completed hm hop (consult_none_iff.mpr (ht.exec_of_consult hm hop hc))

theorem stepWith_plain {r : Except Fault Step} (ht : hook.Transparent)
    (h : m.stepWith hook s = (r, s', m')) : m.stepWith Hook.none () = (r, (), m') :=
  stepWith_eq_iff.mpr ((stepWith_eq_iff.mp h).plain ht)

theorem Concludes.plain {limit : Nat} {steps : List Step} {c : Course σ}
    (ht : hook.Transparent) (h : Concludes hook limit s m steps c) :
    Concludes Hook.none limit () m steps ⟨c.ending, (), c.machine⟩ :=
  h.mapState (f := fun _ => ()) (stepWith_plain ht)

/-- **Transparent hooks go unnoticed.**  With a transparent hook, whatever the
state it starts in, a step reports the same and leaves the same machine as a
step without a hook, and so does a run of any length. -/
theorem Hook.Transparent.unnoticed (h : hook.Transparent) (s : σ) (m : Machine)
    (limit : Nat) :
    ((m.stepWith hook s).1 = m.step.1 ∧ (m.stepWith hook s).2.2 = m.step.2) ∧
      (m.runWith hook limit s).outcome = (m.run limit).outcome ∧
      (m.runWith hook limit s).remark? = (m.run limit).remark? ∧
      (m.runWith hook limit s).machine = (m.run limit).machine := by
  constructor
  · rcases hst : m.stepWith hook s with ⟨r, s', m'⟩
    have hplain : m.step = (r, m') := by
      unfold Machine.step
      rw [stepWith_plain h hst]
    rw [hplain]
    exact ⟨rfl, rfl⟩
  · obtain ⟨steps, c, hc⟩ := exists_concludes hook limit s m
    have hrun : m.run limit = .ofCourse limit steps ⟨c.ending, (), c.machine⟩ :=
      runWith_of_concludes (hc.plain h)
    rw [runWith_of_concludes hc, hrun]
    exact ⟨rfl, rfl, rfl⟩

/-- The hook that leaves one opcode to the machine and answers for the next,
turn by turn. -/
def Hook.alternating : Hook Bool := fun op answers m =>
  if answers then (some (m.exec op).1, false, (m.exec op).2) else (.none, true, m)

/-- A run with the alternating hook that ends in a jump to nowhere. -/
theorem alternating_unnoticed :
    let m := Machine.start #[0x60, 0x05, 0x60, 0x03, 0x01, 0x56] #[]
    Hook.alternating.Transparent ∧
      (m.runWith Hook.alternating 9 true).outcome = (m.run 9).outcome ∧
      (m.runWith Hook.alternating 9 true).machine = (m.run 9).machine := by
  intro m
  have ht : Hook.alternating.Transparent := by
    intro op answers m _ _
    cases answers with
    | false => exact ⟨true, .inl rfl⟩
    | true => exact ⟨false, .inr rfl⟩
  have h := ht.unnoticed true m 9
  exact ⟨ht, h.2.1, h.2.2.2⟩

end WordMachine
