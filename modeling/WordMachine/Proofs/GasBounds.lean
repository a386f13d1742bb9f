/-
WordMachine/Proofs/GasBounds.lean

Gas that does not saturate.

Two prices depend on operands.  A power costs more for a longer exponent, which
has 256 bits at most; a digest costs more for a longer range, and ranges beyond
the capacity of memory are refused.  So no step costs more than the digest of
all of memory, `Gas.dearest` (`gas_of_act`, `gas_of_step`), and that digest does
cost so much (`step_dearest`).

A profile saturates in two places, in each counter and again in the total, which
is the exact sum of the counters, cut off once.  `sum_gasIn` says that the exact
sums of the categories are together the gas of all steps, since a step belongs to
one category.  Below the largest amount neither place cuts anything off.  Main
result: `gas_unsaturated`.
-/
import Mathlib.Algebra.Group.Action.Defs
import Mathlib.Algebra.GroupWithZero.Nat
import Mathlib.Algebra.Order.Group.Nat
import Mathlib.Algebra.Order.BigOperators.Group.List
import WordMachine.Proofs.Effects
import WordMachine.Proofs.MemoryOpcodes
import WordMachine.Proofs.Visits

namespace WordMachine

/-! ### Prices -/

namespace Gas

/-- The highest price of a step: that of the digest of all of memory. -/
def dearest : Nat := keccak Memory.capacity

theorem dearest_eq : dearest = 30 + 6 * 2 ^ 19 := by decide

end Gas

theorem Word.bitLength_le (w : Word) : w.bitLength ≤ 256 := by
  unfold Word.bitLength
  split
  · exact Nat.zero_le 256
  · next hw =>
    have hne : w.toNat ≠ 0 := fun h => hw (BitVec.eq_of_toNat_eq h)
    exact (Nat.log2_lt hne).mpr w.isLt

/-- A power costs less than the digest of all of memory. -/
theorem Gas.exp_le (exponent : Word) : Gas.exp exponent ≤ Gas.dearest := by
  have hbits := exponent.bitLength_le
  rw [Gas.exp, Gas.dearest_eq]
  omega

theorem Gas.keccak_le {size : Nat} (h : size ≤ Memory.capacity) :
    Gas.keccak size ≤ Gas.dearest := by
  unfold Gas.dearest Gas.keccak
  omega

/-- What an instruction does costs no more than the digest of all of memory. -/
theorem gas_of_act {op : Opcode} {i : Instruction} (hi : op.instruction? = some i)
    {es : Vector Element i.arity} {ctx : Context} {e : Effect} (ha : i.act es ctx = .ok e) :
    e.gas ≤ Gas.dearest := by
  cases op with
  | exp =>
    cases hi
    cases ha
    exact Gas.exp_le _
  | keccak256 =>
    cases hi
    -- a range that memory cannot hold has been refused
    obtain ⟨hsize, _, _, rfl⟩ := Instruction.effect_of_hash ha
    exact Gas.keccak_le hsize
  | push size =>
    cases hi
    cases ha
    show (if size.val = 0 then Gas.base else Gas.veryLow) ≤ Gas.dearest
    split <;> decide
  | calldatacopy | codecopy =>
    cases hi
    obtain ⟨_, _, _, rfl⟩ := Instruction.effect_of_copy ha
    exact Nat.le_of_ble_eq_true rfl
  | mload =>
    cases hi
    obtain ⟨_, _, rfl⟩ := Instruction.effect_of_loadWord ha
    exact Nat.le_of_ble_eq_true rfl
  | mstore =>
    cases hi
    obtain ⟨_, _, rfl⟩ := Instruction.effect_of_storeElement ha
    exact Nat.le_of_ble_eq_true rfl
  | mstore8 =>
    cases hi
    obtain ⟨_, _, rfl⟩ := Instruction.effect_of_storeLowByte ha
    exact Nat.le_of_ble_eq_true rfl
  | jump =>
    cases hi
    obtain ⟨_, rfl⟩ := Instruction.effect_of_jump ha
    exact Nat.le_of_ble_eq_true rfl
  | jumpi =>
    cases hi
    rcases Instruction.effect_of_jumpIf ha with ⟨_, rfl⟩ | ⟨_, _, rfl⟩
    · exact Nat.le_of_ble_eq_true rfl
    · exact Nat.le_of_ble_eq_true rfl
  | _ =>
    -- no instruction at all, or one of a fixed price
    cases hi <;> (cases ha; exact Nat.le_of_ble_eq_true rfl)

/-- **No step costs more than the digest of all of memory.** -/
theorem gas_of_step {m m' : Machine} {step : Step}
    (h : m.stepWith Hook.none () = (.ok step, (), m')) : step.gas ≤ Gas.dearest := by
  cases stepWith_eq_iff.mp h with
  | completed _ _ hc =>
    cases exec_eq_iff.mp (consult_none_iff.mp hc) with
    | done hi _ ha =>
      obtain ⟨_, _, hop⟩ := Option.bind_eq_some_iff.mp hi
      exact gas_of_act hop ha

/-- The digest of all of memory is accepted, and has the highest price. -/
theorem step_dearest {m : Machine} {offset size : Element} {rest : List Element}
    (hm : m.stopped = false) (hop : m.currentOp? = some Opcode.keccak256.toByte)
    (hitems : m.stack.items = offset :: size :: rest) (hoffset : offset.word.toNat = 0)
    (hsize : size.word.toNat = Memory.capacity) :
    ∃ step m', m.step = (.ok step, m') ∧ step.gas = Gas.dearest := by
  have hfits : Memory.Fits offset.word.toNat size.word.toNat := by
    rw [hoffset, hsize]
    exact .inr (Nat.le_refl _)
  obtain ⟨e, ha⟩ :
      ∃ e, (Instruction.hash Keccak.digest).act #v[offset, size] m.toContext = .ok e :=
    (Instruction.hash_of_fits hfits).imp fun _ h => h.1
  obtain ⟨_, _, _, he⟩ := Instruction.effect_of_hash ha
  have hgas : e.gas = Gas.keccak size.word.toNat := congrArg Effect.gas he
  have hi : instructionOfByte? Opcode.keccak256.toByte = some (.hash Keccak.digest) := rfl
  have hex := exec_of_act_ok hi hitems ha
  refine ⟨_, _, Machine.step_of_exec_ok hm hop hex, ?_⟩
  show e.gas = Gas.dearest
  rw [hgas, hsize, Gas.dearest]

/-- No step of a walk costs more than the digest of all of memory. -/
theorem Walk.gas_le {m m' : Machine} {s s' : Unit} {steps : List Step}
    (h : Walk Hook.none s m steps s' m') : ∀ step ∈ steps, step.gas ≤ Gas.dearest := by
  induction h with
  | refl => nofun
  | head hstep _ ih =>
    intro step hmem
    rcases List.mem_cons.mp hmem with rfl | hmem
    · exact gas_of_step hstep
    · exact ih step hmem

/-! ### Sums -/

/-- The gas of all steps, added up without a bound. -/
def Step.gasOf (steps : List Step) : Nat := (steps.map fun step => step.gas).sum

theorem Step.gasOf_le {steps : List Step} {bound : Nat} (h : ∀ step ∈ steps, step.gas ≤ bound) :
    Step.gasOf steps ≤ steps.length * bound := by
  have hsum := List.sum_le_card_nsmul (steps.map fun step => step.gas) bound ?_
  · rwa [List.length_map, smul_eq_mul] at hsum
  · intro gas hgas
    obtain ⟨step, hstep, rfl⟩ := List.mem_map.mp hgas
    exact h step hstep

/-- Of one category there is no more than of all. -/
theorem Step.gasIn_le_gasOf (c : Category) (steps : List Step) :
    Step.gasIn c steps ≤ Step.gasOf steps := by
  induction steps with
  | nil => exact Nat.le_refl 0
  | cons step steps ih =>
    show (if _ then step.gas else 0) + _ ≤ step.gas + Step.gasOf steps
    split
    · exact Nat.add_le_add_left ih _
    · omega

/-- The gas of the steps, category by category. -/
theorem Step.sum_gasIn (steps : List Step) :
    (Category.all.map fun c => Step.gasIn c steps).sum = Step.gasOf steps := by
  rw [funext fun c => Step.gasIn_eq_sumIn c steps, Gas.sum_sumIn, List.map_map]
  rfl

/-! ### Runs -/

/-- **Gas does not saturate in a run of any realistic length.**

A completed step costs at most the price of the digest of 16 MiB.  Let a run that
succeeds be allowed so few steps that in 64 bits there is room for this price
times their number.  Then the counters of its profile and their total are the
exact sums of the gas of the steps that the machine has completed on its way to
its end, and on average a step has cost no more than this price. -/
theorem gas_unsaturated (m : Machine) :
    (∀ step m', m.step = (.ok step, m') → step.gas ≤ 30 + 6 * 2 ^ 19) ∧
    ∀ n p, n * (30 + 6 * 2 ^ 19) < 2 ^ 64 → (m.run n).outcome = .ok p →
      ∃ steps, Walk Hook.none () m steps () (m.run n).machine ∧
        (m.run n).machine.stopped = true ∧
        (∀ c, p.get c = Step.gasIn c steps) ∧
        p.total = Step.gasOf steps ∧
        p.total = (Category.all.map p.get).sum ∧
        p.total ≤ steps.length * (30 + 6 * 2 ^ 19) := by
  rw [← Gas.dearest_eq]
  constructor
  · intro step m' h
    have hfirst : m.step.1 = .ok step := congrArg Prod.fst h
    exact gas_of_step (Machine.stepWith_of_step hfirst)
  · intro n p hn h
    obtain ⟨steps, c, hc⟩ := exists_concludes Hook.none n () m
    have hrun : m.run n = .ofCourse n steps c := runWith_of_concludes hc
    rw [hrun] at h ⊢
    cases hc with
    | failed _ _ _ _ => cases h
    | outOfSteps _ _ _ => cases h
    | halted hw hle hstop =>
      obtain rfl : (Tally.empty.addAll steps).profile = p := Except.ok.inj h
      have hlength : Step.gasOf steps ≤ steps.length * Gas.dearest := Step.gasOf_le hw.gas_le
      have hroom : Step.gasOf steps ≤ Gas.maximum := by
        have hmono := Nat.mul_le_mul_right Gas.dearest hle
        have hmaximum : Gas.maximum = 2 ^ 64 - 1 := by decide
        omega
      have hget : ∀ c, (Tally.empty.addAll steps).profile.get c = Step.gasIn c steps := by
        intro c
        rw [get_profile_addAll]
        exact Nat.min_eq_left (Nat.le_trans (Step.gasIn_le_gasOf c steps) hroom)
      have hsum : (Category.all.map (Tally.empty.addAll steps).profile.get).sum =
          Step.gasOf steps := by
        rw [funext hget, Step.sum_gasIn]
      have htotal : (Tally.empty.addAll steps).profile.total = Step.gasOf steps := by
        rw [Profile.total_eq, hsum, Nat.min_eq_left hroom]
      refine ⟨steps, hw, hstop, hget, htotal, htotal.trans hsum.symm, ?_⟩
      rw [htotal]
      exact hlength

/-- A program that takes a power, and the dearest step there is. -/
theorem gas_unsaturated_power :
    let m := Machine.start #[0x60, 0xff, 0x60, 0x02, 0x0a, 0x00] #[]
    let p : Profile := ⟨#v[6, 100, 0, 0, 0, 0, 0, 0, 0, 0, 0]⟩
    let whole : Machine :=
      { Machine.start #[0x20] #[] with stack := ⟨[.ofWord 0, .ofWord 16777216]⟩ }
    (4 * (30 + 6 * 2 ^ 19) < 2 ^ 64 ∧ (m.run 4).outcome = .ok p ∧
      ∃ steps, Walk Hook.none () m steps () (m.run 4).machine ∧
        p.total = Step.gasOf steps ∧ p.total = 106) ∧
    ∃ step m', whole.step = (.ok step, m') ∧ step.gas = 30 + 6 * 2 ^ 19 ∧
      step.gas ≤ 30 + 6 * 2 ^ 19 := by
  intro m p whole
  have hroom : 4 * (30 + 6 * 2 ^ 19) < 2 ^ 64 := by decide
  have hok : (m.run 4).outcome = .ok p := by decide +kernel
  obtain ⟨steps, hw, _, _, htotal, _⟩ := (gas_unsaturated m).2 4 p hroom hok
  have hoffset : (Element.ofWord 0).word.toNat = 0 := by decide +kernel
  have hsize : (Element.ofWord 16777216).word.toNat = Memory.capacity := by decide +kernel
  obtain ⟨step, m', hstep, hgas⟩ := step_dearest (m := whole) rfl rfl rfl hoffset hsize
  rw [Gas.dearest_eq] at hgas
  exact ⟨⟨hroom, hok, steps, hw, htotal, by decide⟩, step, m', hstep, hgas,
    (gas_unsaturated whole).1 step m' hstep⟩

end WordMachine
