/-
WordMachine/Proofs/CallRecords.lean

When a run calls its hook.

A hook that `Records` puts each call behind the calls it has seen before, with
the opcode and the program counter, and does nothing else to the record; what
it does to the machine and to the rest of its state is left open.  Nested runs
that it may start on the machine are not calls of it, since they come without
it.

A step calls the hook once, at the opcode it begins at (`record_stepWith`), so a
run leaves a record of the machines on which its steps have begun
(`record_runWith`).  A machine that is ready has an opcode wherever a step
begins, and then none of the steps is missing.  Main result: `calls_of_run`.
-/
import WordMachine.Machine.HookTable
import WordMachine.Proofs.Attempts

namespace WordMachine

variable {σ : Type} {hook : Hook σ} {record : σ → List Call} {s s' : σ} {m m' : Machine}

/-- Each call is put on record, opcode and program counter, before anything else
is done. -/
def Hook.Records (hook : Hook σ) (record : σ → List Call) : Prop :=
  ∀ op s m, record (hook op s m).2.1 = record s ++ [⟨op, m.pc⟩]

/-- A hook with a record kept beside its state is one that records. -/
theorem Hook.records_recorded (hook : Hook σ) :
    hook.recorded.Records fun s => s.1.toList := by
  rintro op ⟨calls, s⟩ m
  exact Array.toList_push

/-- The call that a step on this machine makes, if there is an opcode for it. -/
def Machine.call? (m : Machine) : Option Call := m.currentOp?.map fun op => ⟨op, m.pc⟩

/-! ### Steps and runs -/

/-- A step of a machine that is going makes one call, whatever comes of it. -/
theorem record_stepWith {r : Except Fault Step} (hrec : hook.Records record)
    (hm : m.stopped = false) (h : m.stepWith hook s = (r, s', m')) :
    record s' = record s ++ m.call?.toList := by
  have hconsult : ∀ {op answer s₁ m₁}, m.currentOp? = some op →
      m.consult hook op s = (answer, s₁, m₁) → record s₁ = record s ++ m.call?.toList := by
    intro op answer s₁ m₁ hop hc
    obtain rfl : (hook op s m).2.1 = s₁ := congrArg (fun x => x.2.1) hc
    rw [hrec, Machine.call?, hop]
    rfl
  cases stepWith_eq_iff.mp h with
  | stopped hstop =>
    rw [hm] at hstop
    cases hstop
  | pastEnd _ hop =>
    rw [Machine.call?, hop]
    exact (List.append_nil _).symm
  | failed _ hop hc => exact hconsult hop hc
  | completed _ hop hc => exact hconsult hop hc

theorem record_follow (hrec : hook.Records record) (budget : Nat) (s : σ) (m : Machine)
    (t : Tally) :
    record (m.follow hook.tallied budget (s, t)).state.1 =
      record s ++ (m.attempts hook budget s).filterMap Machine.call? := by
  induction budget, s, m using Machine.stepwise hook generalizing t with
  | outOfSteps s m hm =>
    rw [follow_zero _ _ hm]
    exact (List.append_nil _).symm
  | stopped budget s m hm =>
    rw [follow_of_stopped _ _ _ hm, Machine.attempts_of_stopped s hm]
    exact (List.append_nil _).symm
  | failed budget s m f s' m' hm hstep =>
    rw [follow_of_error _ _ hm (stepWith_tallied t hstep), Machine.attempts_of_error hm hstep]
    show record s' = _
    rw [record_stepWith hrec hm hstep, List.filterMap_cons]
    rcases m.call? with _ | call
    · rfl
    · rfl
  | completed budget s m step s' m' hstep ih =>
    have hfirst := record_stepWith hrec (Machine.stopped_of_stepWith hstep) hstep
    rw [follow_of_ok _ _ (stepWith_tallied t hstep), Machine.attempts_of_ok hstep]
    show record (m'.follow hook.tallied budget (s', t.add step)).state.1 = _
    rw [ih, hfirst, List.append_assoc, List.filterMap_cons]
    rcases m.call? with _ | call
    · rfl
    · rfl

theorem record_runWith (hrec : hook.Records record) (limit : Nat) (s : σ) (m : Machine) :
    record (m.runWith hook limit s).state =
      record s ++ (m.attempts hook limit s).filterMap Machine.call? :=
  record_follow hrec limit s m Tally.empty

/-! ### Calls of machines that are ready -/

theorem opcode_call? (m : Machine) : m.call?.map Call.opcode = m.currentOp? := by
  rw [Machine.call?, Option.map_map]
  exact Option.map_id'

/-- Machines that stand at opcodes make a call each. -/
theorem map_some_filterMap_call? {begun : List Machine}
    (h : ∀ m ∈ begun, ∃ op, m.currentOp? = some op) :
    (begun.filterMap Machine.call?).map some = begun.map Machine.call? := by
  induction begun with
  | nil => rfl
  | cons m begun ih =>
    obtain ⟨op, hop⟩ := h m List.mem_cons_self
    have hcall : m.call? = some ⟨op, m.pc⟩ := by
      rw [Machine.call?, hop]
      rfl
    rw [List.filterMap_cons_some hcall, List.map_cons, List.map_cons, hcall,
      ih fun m' hm' => h m' (List.mem_cons_of_mem m hm')]

/-- Machines that stand at the opcodes of steps call for these opcodes. -/
theorem map_opcode_filterMap_call? {begun : List Machine} {steps : List Step}
    (h : begun.map Machine.currentOp? = steps.map fun step => some step.opcode) :
    (begun.filterMap Machine.call?).map Call.opcode = steps.map Step.opcode :=
  calc (begun.filterMap Machine.call?).map Call.opcode
      = begun.filterMap Machine.currentOp? := by
        simp only [List.map_filterMap, opcode_call?]
    _ = (begun.map Machine.currentOp?).filterMap id := by
        rw [List.filterMap_map]
        rfl
    _ = (steps.map fun step => some step.opcode).filterMap id := by rw [h]
    _ = steps.map Step.opcode := by
        rw [List.filterMap_map]
        exact congrFun List.filterMap_eq_map steps

/-- **A run calls its hook once for each step that it begins.**

The hook puts its calls on record, and the machine has stopped or stands at an
opcode.  Then the run adds to the record one call for each machine on which it
begins a step, in order, with the byte at the program counter and the program
counter itself.  These are the completed steps, and one more if a step fails.  No
call is made on a machine that has stopped, and none is made when the steps are
used up.

If nobody notices the hook, as when it leaves every opcode to the machine, the
calls are those for the steps that the run without a hook begins. -/
theorem calls_of_run (hrec : hook.Records record) (hm : m.Ready) (limit : Nat) (s : σ) :
    ∃ calls steps c,
      record (m.runWith hook limit s).state = record s ++ calls ∧
      calls.map some = (m.attempts hook limit s).map Machine.call? ∧
      Concludes hook limit s m steps c ∧
      m.runWith hook limit s = .ofCourse limit steps c ∧
      calls.length = steps.length + c.ending.unfinished ∧
      steps.map Step.opcode <+: calls.map Call.opcode ∧
      (m.stopped = true → calls = []) ∧
      (c.ending = .outOfSteps → calls.length = limit) ∧
      (hook.Transparent →
        calls.map some = (m.attempts Hook.none limit ()).map Machine.call?) := by
  have hcalls := map_some_filterMap_call? (hm.exists_currentOp?_of_attempts hook limit s)
  obtain ⟨steps, c, hc⟩ := exists_concludes hook limit s m
  obtain ⟨begun, last, hattempts, hops, hlast⟩ := hc.attempts
  have hlength : ((m.attempts hook limit s).filterMap Machine.call?).length =
      steps.length + c.ending.unfinished := by
    have hall := congrArg List.length hcalls
    have hbegun := congrArg List.length hops
    simp only [List.length_map] at hall hbegun
    rw [hall, hattempts, List.length_append, hbegun, hlast]
  refine ⟨_, steps, c, record_runWith hrec limit s m, hcalls, hc, runWith_of_concludes hc,
    hlength, ?_, ?_, ?_, ?_⟩
  · -- the calls for the completed steps come first
    rw [hattempts, List.filterMap_append, List.map_append, map_opcode_filterMap_call? hops]
    exact List.prefix_append _ _
  · intro hstop
    rw [Machine.attempts_of_stopped s hstop]
    rfl
  · intro hout
    rw [hlength, hout]
    cases hc with
    | halted _ _ _ => cases hout
    | failed _ _ _ _ => cases hout
    | outOfSteps _ heq _ => exact heq
  · intro ht
    rw [hcalls, Machine.attempts_plain ht]

/-- A hook that skips a byte before each opcode, up to an addition that fails,
and one that only keeps a record of the same code. -/
theorem calls_of_run_skip :
    let m := Machine.start #[0x5b, 0x00, 0x01] #[]
    let hook := Machine.skip.recorded
    let plain := Hook.none.recorded
    (hook.Records (fun s => s.1.toList) ∧ plain.Records (fun s => s.1.toList) ∧
      plain.Transparent ∧ m.Ready) ∧
      (m.runWith hook 9 (#[], ())).state.1.toList = [⟨0x5b, 0⟩, ⟨0x01, 2⟩] ∧
      [some ⟨0x5b, 0⟩, some ⟨0x01, 2⟩] = (m.attempts hook 9 (#[], ())).map Machine.call? ∧
      (m.runWith plain 9 (#[], ())).state.1.toList = [⟨0x5b, 0⟩, ⟨0x00, 1⟩] ∧
      [some ⟨0x5b, 0⟩, some ⟨0x00, 1⟩] = (m.attempts Hook.none 9 ()).map Machine.call? := by
  intro m hook plain
  have hrec := Hook.records_recorded Machine.skip
  have hrec' := Hook.records_recorded Hook.none
  have ht : plain.Transparent := fun op s m _ _ => ⟨_, .inl rfl⟩
  have hm : m.Ready := Machine.ready_start _ _
  have hleft : (m.runWith hook 9 (#[], ())).state.1.toList = [⟨0x5b, 0⟩, ⟨0x01, 2⟩] := by
    decide +kernel
  have hleft' : (m.runWith plain 9 (#[], ())).state.1.toList = [⟨0x5b, 0⟩, ⟨0x00, 1⟩] := by
    decide +kernel
  obtain ⟨calls, _, _, hcalls, hbegun, _⟩ := calls_of_run hrec hm 9 (#[], ())
  obtain ⟨calls', _, _, hcalls', _, _, _, _, _, _, _, hplain⟩ := calls_of_run hrec' hm 9 (#[], ())
  obtain rfl : [⟨0x5b, 0⟩, ⟨0x01, 2⟩] = calls := hleft.symm.trans hcalls
  obtain rfl : [⟨0x5b, 0⟩, ⟨0x00, 1⟩] = calls' := hleft'.symm.trans hcalls'
  exact ⟨⟨hrec, hrec', ht, hm⟩, hleft, hbegun, hleft', hplain ht⟩

end WordMachine
