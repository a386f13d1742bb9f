/-
WordMachine/Proofs/Powers.lean

Powers of words.

An exponent has up to 256 bits, and its power is found by squaring once for each bit of
it.  What is left of the exponent after a square is half of it, to be applied to the
square of the base: with `bits` bits left the result is the power by all that is left,
modulo `2^256` (`toNat_powBits`, by induction on the bits).  No bit is left over after
256 of them, since the exponent is a word.

So the law of exponents for natural numbers is one for words, as long as the sum of the
exponents is a word.  Main result: `powers_exact`.
-/
import WordMachine.Proofs.WordArithmetic

namespace WordMachine

namespace Word

variable (b e : Word)

theorem toNat_exp : (exp b e).toNat = b.toNat ^ e.toNat % 2 ^ 256 :=
  toNat_powBits 256 b e.toNat e.isLt

/-- By zero every word has the power one, zero included. -/
theorem exp_zero : exp b 0 = 1 := by
  apply BitVec.eq_of_toNat_eq
  rw [toNat_exp]
  exact congrArg (· % 2 ^ 256) (Nat.pow_zero b.toNat)

variable {e}

/-- Exponents are added, if they can be. -/
theorem exp_mul_exp {f : Word} (h : e.toNat + f.toNat < 2 ^ 256) :
    exp b e * exp b f = exp b (e + f) := by
  apply BitVec.eq_of_toNat_eq
  have hsum : (e + f).toNat = e.toNat + f.toNat := BitVec.toNat_add_of_lt h
  calc (exp b e * exp b f).toNat
      = (b.toNat ^ e.toNat % 2 ^ 256) * (b.toNat ^ f.toNat % 2 ^ 256) % 2 ^ 256 := by
        rw [BitVec.toNat_mul, toNat_exp, toNat_exp]
    _ = b.toNat ^ e.toNat * b.toNat ^ f.toNat % 2 ^ 256 := (Nat.mul_mod _ _ _).symm
    _ = b.toNat ^ (e + f).toNat % 2 ^ 256 := by rw [hsum, Nat.pow_add]
    _ = (exp b (e + f)).toNat := (toNat_exp b (e + f)).symm

/-- **Powers are exact.**  The power of a word by any other is that of the numbers
modulo `2^256`, with one for zero by zero.  The product of two powers of a word is its
power by the sum of the exponents, if that is a word. -/
theorem powers_exact (b e : Word) :
    (exp b e).toNat = b.toNat ^ e.toNat % 2 ^ 256 ∧
    exp 0 0 = 1 ∧
    ∀ f : Word, e.toNat + f.toNat < 2 ^ 256 → exp b e * exp b f = exp b (e + f) :=
  ⟨toNat_exp b e, exp_zero 0, fun _ h => exp_mul_exp b h⟩

/-- The largest exponent there is as a sum of two, and a power that wraps to zero. -/
theorem powers_exact_largest :
    let half : Word := BitVec.intMin 256
    half.toNat + (half - 1).toNat < 2 ^ 256 ∧ exp 3 half * exp 3 (half - 1) = exp 3 (-1) ∧
      (exp 2 256).toNat = 0 := by
  intro half
  have hsum : half.toNat + (half - 1).toNat < 2 ^ 256 := by decide +kernel
  have hlargest : half + (half - 1) = -1 := by decide +kernel
  have hproduct := (powers_exact 3 half).2.2 (half - 1) hsum
  have hzero : (2 : Word).toNat ^ (256 : Word).toNat % 2 ^ 256 = 0 := by decide +kernel
  rw [hlargest] at hproduct
  exact ⟨hsum, hproduct, (powers_exact 2 256).1.trans hzero⟩

end Word

end WordMachine
