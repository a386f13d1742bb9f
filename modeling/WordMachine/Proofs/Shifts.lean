/-
WordMachine/Proofs/Shifts.lean

Shifts by any amount.

The three shifts make a case of amounts from 256 on, and the arithmetic one of negative
words, which it complements, shifts and complements again.  Both only say what the
library's shifts of bit vectors say of any amount and any word, `v <<< n`, `v >>> n` and
`v.sshiftRight n`.  So as an operation on numbers a shift is the product with a power of
two or the quotient by one, rounded down, for every amount there is (`toNat_shl`,
`toNat_shr`, `toInt_sar`).

A shift after another adds its amount to that one's, and the sum is one of numbers:
it need not be a word, and then whatever amount is large enough does as well.  What is
used of a shift for this is that amounts add up and that beyond the width they make no
difference (`shift_shift`).

Main result: `shifts_exact`.
-/
import WordMachine.Proofs.WordArithmetic

namespace WordMachine

namespace Word

/-! ### Products and quotients -/

section Values

variable (k v : Word)

theorem toNat_shl : (shl k v).toNat = v.toNat * 2 ^ k.toNat % 2 ^ 256 := by
  rw [shl_eq_shiftLeft, BitVec.toNat_shiftLeft, Nat.shiftLeft_eq]

theorem toNat_shr : (shr k v).toNat = v.toNat / 2 ^ k.toNat := by
  rw [shr_eq_ushiftRight, BitVec.toNat_ushiftRight, Nat.shiftRight_eq_div_pow]

/-- The sign is shifted in, and so the quotient of a negative number is rounded down as
that of any other. -/
theorem toInt_sar : (sar k v).toInt = v.toInt.fdiv (2 ^ k.toNat : Nat) := by
  rw [sar_eq_sshiftRight, BitVec.toInt_sshiftRight, Int.shiftRight_eq_div_pow,
    Int.fdiv_eq_ediv_of_nonneg _ (Int.natCast_nonneg _)]

end Values

/-! ### Amounts -/

/-- By `s` a word is shifted as by `k` and then by `j`: it is their exact sum, or the
sum is no word and `s` shifts everything out. -/
def AddUpTo (j k s : Word) : Prop :=
  s.toNat = j.toNat + k.toNat ∨ 2 ^ 256 ≤ j.toNat + k.toNat ∧ 256 ≤ s.toNat

section Amounts

variable {j k s : Word}

/-- Within the width of a word the sum is exact. -/
theorem AddUpTo.min_eq (h : AddUpTo j k s) :
    min s.toNat 256 = min (k.toNat + j.toNat) 256 := by
  rcases h with hsum | ⟨hlarge, hout⟩
  · rw [hsum, Nat.add_comm]
  · have hwidth : 256 ≤ k.toNat + j.toNat := by
      rw [Nat.add_comm]
      exact Nat.le_trans (by decide) hlarge
    rw [Nat.min_eq_right hout, Nat.min_eq_right hwidth]

/-- Two shifts are one, for a way of shifting whose amounts add up and make no
difference beyond the width of a word. -/
theorem shift_shift (shift : Word → Nat → Word)
    (hadd : ∀ v m n, shift v (m + n) = shift (shift v m) n)
    (hmin : ∀ v n, shift v (min n 256) = shift v n) (h : AddUpTo j k s) (v : Word) :
    shift (shift v k.toNat) j.toNat = shift v s.toNat := by
  rw [← hadd, ← hmin, ← h.min_eq, hmin]

theorem shiftLeft_min (v : Word) (n : Nat) : v <<< min n 256 = v <<< n := by
  rcases Nat.le_total n 256 with hle | hle
  · rw [Nat.min_eq_left hle]
  · rw [Nat.min_eq_right hle, BitVec.shiftLeft_eq_zero (Nat.le_refl _),
      BitVec.shiftLeft_eq_zero hle]

theorem ushiftRight_min (v : Word) (n : Nat) : v >>> min n 256 = v >>> n := by
  rcases Nat.le_total n 256 with hle | hle
  · rw [Nat.min_eq_left hle]
  · rw [Nat.min_eq_right hle, BitVec.ushiftRight_eq_zero (Nat.le_refl _),
      BitVec.ushiftRight_eq_zero hle]

theorem sshiftRight_min (v : Word) (n : Nat) : v.sshiftRight (min n 256) = v.sshiftRight n := by
  apply BitVec.eq_of_getLsbD_eq
  intro i hi
  rw [BitVec.getLsbD_sshiftRight, BitVec.getLsbD_sshiftRight]
  rcases Nat.le_total n 256 with hle | hle
  · rw [Nat.min_eq_left hle]
  · rw [Nat.min_eq_right hle, if_neg (by omega), if_neg (by omega)]

theorem shl_shl (h : AddUpTo j k s) (v : Word) : shl j (shl k v) = shl s v := by
  simp only [shl_eq_shiftLeft]
  exact shift_shift (· <<< ·) BitVec.shiftLeft_add shiftLeft_min h v

theorem shr_shr (h : AddUpTo j k s) (v : Word) : shr j (shr k v) = shr s v := by
  simp only [shr_eq_ushiftRight]
  exact shift_shift (· >>> ·) BitVec.shiftRight_add ushiftRight_min h v

theorem sar_sar (h : AddUpTo j k s) (v : Word) : sar j (sar k v) = sar s v := by
  simp only [sar_eq_sshiftRight]
  exact shift_shift BitVec.sshiftRight (fun _ _ _ => BitVec.sshiftRight_add) sshiftRight_min h v

end Amounts

/-- **Shifts are exact for every amount.**  A left shift multiplies by a power of two,
modulo `2^256`; a right shift divides by one and rounds down, the number of the word
or, if it is the arithmetic one, the signed number.  Two shifts of a kind are one shift
by the exact sum of their amounts, or by any amount from 256 on if that sum is no word. -/
theorem shifts_exact (k v : Word) :
    (shl k v).toNat = v.toNat * 2 ^ k.toNat % 2 ^ 256 ∧
    (shr k v).toNat = v.toNat / 2 ^ k.toNat ∧
    (sar k v).toInt = v.toInt.fdiv (2 ^ k.toNat : Nat) ∧
    ∀ j s, AddUpTo j k s →
      shl j (shl k v) = shl s v ∧ shr j (shr k v) = shr s v ∧ sar j (sar k v) = sar s v :=
  ⟨toNat_shl k v, toNat_shr k v, toInt_sar k v,
    fun _ _ h => ⟨shl_shl h v, shr_shr h v, sar_sar h v⟩⟩

/-- Amounts whose sum is a word, and amounts whose sum as words would be zero. -/
theorem shifts_exact_far :
    let half : Word := BitVec.intMin 256
    AddUpTo 200 55 255 ∧ sar 200 (sar 55 half) = sar 255 half ∧
      AddUpTo half half 256 ∧ shl half (shl half 7) = shl 256 7 := by
  intro half
  have hsum : AddUpTo 200 55 255 := .inl rfl
  have hfar : AddUpTo half half 256 := .inr (by decide +kernel)
  exact ⟨hsum, ((shifts_exact 55 half).2.2.2 _ _ hsum).2.2, hfar,
    ((shifts_exact half 7).2.2.2 _ _ hfar).1⟩

end Word

end WordMachine
