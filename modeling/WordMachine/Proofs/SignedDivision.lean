/-
WordMachine/Proofs/SignedDivision.lean

Signed quotients and remainders.

Both are computed from absolute values, and a sign is put to the result; that this is
the library's division of bit vectors, for each of the four pairs of signs, is
`sdiv_eq_ite` and `smod_eq_ite`.  On words read in two's complement it is one that
truncates toward zero, `Int.tdiv` and `Int.tmod`.  The remainder is always the number of a
word.  The quotient is one but for that of `-2^255` by `-1`, which wraps back to
`-2^255`, the one word besides zero that is its own negative.

That quotient and remainder give back the dividend needs no exception, and is not
shown from their values: the word of an integer is taken by a homomorphism of rings
(`BitVec.ofInt_mul`, `BitVec.ofInt_add`), so the law of the integers holds of the
words, whatever wraps.

Main result: `signed_division`.
-/
import WordMachine.Proofs.WordArithmetic

namespace WordMachine

namespace Word

variable {a b : Word}

/-! ### Values -/

/-- The operands of the one quotient that is out of range. -/
theorem overflows_iff :
    a.toInt = -2 ^ 255 ∧ b.toInt = -1 ↔ a = BitVec.intMin 256 ∧ b = -1#256 := by
  rw [← BitVec.toInt_inj, ← BitVec.toInt_inj]
  rfl

theorem toInt_sdiv (hb : b ≠ 0) :
    (sdiv a b).toInt =
      if a.toInt = -2 ^ 255 ∧ b.toInt = -1 then -2 ^ 255 else a.toInt.tdiv b.toInt := by
  split
  · next hover =>
    obtain ⟨rfl, rfl⟩ := overflows_iff.mp hover
    decide +kernel
  · next hin =>
    rw [overflows_iff, Decidable.not_and_iff_or_not] at hin
    rw [sdiv_eq_ite, if_neg hb, BitVec.toInt_sdiv_of_ne_or_ne a b hin]

theorem toInt_smod (hb : b ≠ 0) : (smod a b).toInt = a.toInt.tmod b.toInt := by
  rw [smod_eq_ite, if_neg hb, BitVec.toInt_srem]

/-! ### The remainder -/

/-- What is left over has the sign of the dividend, if it is anything. -/
theorem sign_toInt_smod (hb : b ≠ 0) :
    (smod a b).toInt = 0 ∨ (smod a b).toInt.sign = a.toInt.sign := by
  rw [toInt_smod hb, ← Int.sign_eq_zero_iff_zero, Int.sign_tmod]
  split
  · exact .inl rfl
  · exact .inr rfl

theorem natAbs_toInt_smod_lt (hb : b ≠ 0) : (smod a b).toInt.natAbs < b.toInt.natAbs := by
  have hpos : 0 < b.toInt.natAbs := by
    rw [Int.natAbs_pos]
    exact fun hzero => hb (BitVec.toInt_inj.mp hzero)
  rw [toInt_smod hb, Int.natAbs_tmod]
  exact Nat.mod_lt _ hpos

/-! ### The dividend -/

/-- A word is the word of its signed number, and sums and products are those of the
numbers, so that nothing is lost in a quotient that wraps. -/
theorem sdiv_mul_add_smod (hb : b ≠ 0) : sdiv a b * b + smod a b = a := by
  have hquotient : sdiv a b = BitVec.ofInt 256 (a.toInt.tdiv b.toInt) := by
    apply BitVec.eq_of_toInt_eq
    rw [sdiv_eq_ite, if_neg hb, BitVec.toInt_sdiv, BitVec.toInt_ofInt]
  calc sdiv a b * b + smod a b
      = BitVec.ofInt 256 (a.toInt.tdiv b.toInt) * BitVec.ofInt 256 b.toInt +
          BitVec.ofInt 256 (a.toInt.tmod b.toInt) := by
        rw [hquotient, BitVec.ofInt_toInt, ← toInt_smod hb, BitVec.ofInt_toInt]
    _ = BitVec.ofInt 256 (a.toInt.tdiv b.toInt * b.toInt + a.toInt.tmod b.toInt) := by
        rw [BitVec.ofInt_add, BitVec.ofInt_mul]
    _ = a := by rw [Int.tdiv_mul_add_tmod, BitVec.ofInt_toInt]

/-- **Signed division.**  For every divisor but zero, the quotient is that of the
signed numbers truncated toward zero, with the one exception that wraps; the
remainder is what is left of the dividend, of its sign and smaller in size than the
divisor; and together they give back the dividend without exception.  Both are zero
for the divisor zero. -/
theorem signed_division (a b : Word) :
    (b ≠ 0 →
      ((sdiv a b).toInt =
        if a.toInt = -2 ^ 255 ∧ b.toInt = -1 then -2 ^ 255 else a.toInt.tdiv b.toInt) ∧
      (smod a b).toInt = a.toInt - b.toInt * a.toInt.tdiv b.toInt ∧
      ((smod a b).toInt = 0 ∨ (smod a b).toInt.sign = a.toInt.sign) ∧
      (smod a b).toInt.natAbs < b.toInt.natAbs ∧
      sdiv a b * b + smod a b = a) ∧
    (b = 0 → sdiv a b = 0 ∧ smod a b = 0) := by
  constructor
  · intro hb
    have hleft : (smod a b).toInt = a.toInt - b.toInt * a.toInt.tdiv b.toInt := by
      rw [toInt_smod hb, Int.tmod_def]
    exact ⟨toInt_sdiv hb, hleft, sign_toInt_smod hb, natAbs_toInt_smod_lt hb,
      sdiv_mul_add_smod hb⟩
  · intro hb
    exact ⟨if_pos hb, if_pos hb⟩

/-- The quotient that wraps and its remainder, one of another sign than the quotient,
and a division by zero. -/
theorem signed_division_overflow :
    let least : Word := BitVec.intMin 256
    ((-1 : Word) ≠ 0 ∧ (sdiv least (-1)).toInt = -2 ^ 255 ∧
      sdiv least (-1) * -1 + smod least (-1) = least) ∧
    ((2 : Word) ≠ 0 ∧ (sdiv (-7) 2).toInt = -3 ∧ (smod (-7) 2).toInt = -1) ∧
    sdiv least 0 = 0 ∧ smod least 0 = 0 := by
  intro least
  have hone : (-1 : Word) ≠ 0 := by decide
  have htwo : (2 : Word) ≠ 0 := by decide
  have hover : least.toInt = -2 ^ 255 ∧ (-1 : Word).toInt = -1 := by decide +kernel
  obtain ⟨hquotient, _, _, _, hback⟩ := (signed_division least (-1)).1 hone
  obtain ⟨hseven, hleft, _⟩ := (signed_division (-7) 2).1 htwo
  rw [if_pos hover] at hquotient
  exact ⟨⟨hone, hquotient, hback⟩, ⟨htwo, hseven, hleft⟩, (signed_division least 0).2 rfl⟩

end Word

end WordMachine
