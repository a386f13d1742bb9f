/-
WordMachine/Proofs/Readiness.lean

A machine that is going stands at an opcode.

`Machine.Ready` says so: the machine has stopped, or its program counter is
within the code.  The end of the code is looked at last in a step, after the
hook and the opcode have had their say, and a step that fails stops the
machine; so every step leaves a machine ready, with any hook and from any
machine (`ready_stepWith`).  What else moves the program counter looks at the
end of the code itself.

The one command that may not be given between steps is to carry out an opcode:
a push moves the program counter and leaves it to the step to look.  Main
result: `ready_of_operations`.
-/
import WordMachine.Proofs.Execution
import WordMachine.Proofs.Operations

namespace WordMachine

open Relation

namespace Machine

/-- Whether the machine has stopped or stands at an opcode. -/
def Ready (m : Machine) : Prop := m.stopped = true ∨ m.pc < m.code.size

theorem ready_halt (m : Machine) : m.halt.Ready := .inl rfl

/-- A look at the end of the code makes a machine ready. -/
theorem ready_haltAtEnd (m : Machine) : m.haltAtEnd.Ready := by
  by_cases hend : m.code.size ≤ m.pc
  · exact .inl ((stopped_haltAtEnd_iff m).mpr (.inr hend))
  · refine .inr ?_
    rw [pc_haltAtEnd, code_haltAtEnd]
    exact Nat.lt_of_not_le hend

/-- A step leaves a machine ready, whatever it was and whatever the hook does. -/
theorem ready_stepWith {σ : Type} (hook : Hook σ) (s : σ) (m : Machine) :
    (m.stepWith hook s).2.2.Ready := by
  rcases hst : m.stepWith hook s with ⟨r, s', m'⟩
  cases stepWith_eq_iff.mp hst with
  | stopped hm => exact .inl hm
  | pastEnd _ _ => exact ready_halt _
  | failed _ _ _ => exact ready_halt _
  | completed _ _ _ => exact ready_haltAtEnd _

theorem ready_of_stepWith {σ : Type} {hook : Hook σ} {s s' : σ} {m m' : Machine}
    {r : Except Fault Step} (h : m.stepWith hook s = (r, s', m')) : m'.Ready := by
  have hready := ready_stepWith hook s m
  rw [h] at hready
  exact hready

/-- A ready machine that is going is within its code. -/
theorem Ready.pc_lt {m : Machine} (h : m.Ready) (hm : m.stopped = false) :
    m.pc < m.code.size := by
  rcases h with hstop | hpc
  · rw [hm] at hstop
    cases hstop
  · exact hpc

/-- A ready machine that is going has an opcode. -/
theorem Ready.exists_currentOp? {m : Machine} (h : m.Ready) (hm : m.stopped = false) :
    ∃ op, m.currentOp? = some op := by
  have hpc := h.pc_lt hm
  exact ⟨m.code[m.pc], Array.getElem?_eq_getElem hpc⟩

/-- The machines to begin with. -/
inductive Initial : Machine → Prop
  | start (code calldata : Bytes) : Initial (start code calldata)
  | ofHexText {code : String} {calldata : Bytes} {m : Machine} :
      ofHexText code calldata = .ok m → Initial m

theorem ready_start (code calldata : Bytes) : (start code calldata).Ready := by
  by_cases hsize : code.size = 0
  · exact .inl (Array.isEmpty_iff_size_eq_zero.mpr hsize)
  · exact .inr (Nat.pos_of_ne_zero hsize)

theorem Initial.ready {m : Machine} (h : m.Initial) : m.Ready := by
  cases h with
  | start code calldata => exact ready_start code calldata
  | @ofHexText text calldata _ h =>
    unfold Machine.ofHexText at h
    rcases hcode : Bytes.ofHexText text with f | code
    · rw [hcode] at h
      cases h
    · rw [hcode] at h
      cases h
      exact ready_start code calldata

/-- Readiness is kept by all operations, whatever the hooks, as long as opcodes
are carried out in steps only. -/
theorem kept_ready :
    Kept (fun c => ∀ op, c ≠ .exec op) (fun _ _ => True) fun m m' => m.Ready → m'.Ready where
  refl _ := id
  trans h h' := h' ∘ h
  stack _ _ := id
  memory _ _ := id
  -- this is where a push would leave a machine behind the end of its code
  exec op _ hne := absurd rfl (hne op)
  setPc _ _ _ := ready_haltAtEnd _
  halt m _ := ready_halt m
  step m _ := ready_stepWith Hook.none () m
  stepWith hook s m _ _ := ready_stepWith hook s m

/-- **A machine that is going stands at an opcode.**  This is so after every
step, with any hook.  Hence it is so of every machine that has been begun with
code and input and then been operated on in any way, with any hooks, but for
opcodes carried out between steps; and no step of such a machine misses its
opcode. -/
theorem ready_of_operations :
    (∀ {σ : Type} (hook : Hook σ) (s : σ) (m : Machine), (m.stepWith hook s).2.2.Ready) ∧
    ∀ {first m : Machine}, first.Initial →
      ReflTransGen (Operation (fun c => ∀ op, c ≠ .exec op) fun _ _ => True) first m →
      m.Ready ∧ (m.stopped = false → ∃ op, m.currentOp? = some op) := by
  refine ⟨ready_stepWith, ?_⟩
  intro first m hfirst hops
  have hready : m.Ready := kept_ready.of_operations hops hfirst.ready
  exact ⟨hready, hready.exists_currentOp?⟩

/-- Moves the program counter on behind the back of the step. -/
def skip : Hook Unit := fun _ s m => (none, s, m.setPc (m.pc + 1))

/-- A hook that skips a byte, and then a push whose immediate byte is missing. -/
theorem ready_of_operations_skip :
    let first := start #[0x5b, 0x5b, 0x60] #[]
    let m := (first.stepWith skip ()).2.2
    let last := (m.perform (.run 1)).machine
    m.stopped = false ∧ m.pc = 2 ∧ (∃ op, m.currentOp? = some op) ∧
      last.pc = 4 ∧ last.Ready := by
  intro first m last
  have hgo : m.stopped = false := by decide +kernel
  have hpc : m.pc = 2 := by decide +kernel
  have hlast : last.pc = 4 := by decide +kernel
  have hm : ReflTransGen (Operation (fun c => ∀ op, c ≠ .exec op) fun _ _ => True) first m :=
    .single (.stepWith () first trivial)
  have hrun := hm.tail (.command (c := .run 1) m nofun)
  exact ⟨hgo, hpc, (ready_of_operations.2 (.start _ _) hm).2 hgo, hlast,
    (ready_of_operations.2 (.start _ _) hrun).1⟩

end Machine

end WordMachine
