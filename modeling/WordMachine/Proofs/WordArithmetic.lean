/-
WordMachine/Proofs/WordArithmetic.lean

The operations on words as operations on integers.

A word is written `BitVec.ofInt 256 z` for any integer `z` that it is the
remainder of, so that each operation has one lemma `op_eq`: its result is the
word of the exact integer, computed from the operands without any bound.
Unsigned operands are read by `BitVec.toNat`; `signed` reads a natural number
of so many bits in two's complement, and is what `BitVec.toInt` makes of a
word (`toInt_eq_signed`).

The two conventions that the lemmas share are `unlessZero`, for divisions by
zero, and `truth`, for comparisons.
-/
import WordMachine.Word
import Mathlib.Algebra.Group.Nat.Defs
import Mathlib.Algebra.Group.Int.Defs

namespace WordMachine

/-! ### Integers -/

/-- A number of so many bits, read in two's complement. -/
def signed (bits n : Nat) : Int := if 2 * n < 2 ^ bits then n else n - (2 ^ bits : Nat)

/-- The result of a division, or zero for a zero divisor. -/
def unlessZero (divisor : Nat) (z : Int) : Int := if divisor = 0 then 0 else z

/-- A truth value as a number: one or zero. -/
def truth (p : Prop) [Decidable p] : Int := if p then 1 else 0

namespace Word

theorem toInt_eq_signed {bits : Nat} (w : BitVec bits) : w.toInt = signed bits w.toNat :=
  BitVec.toInt_eq_toNat_cond w

/-- A word is the word of its number. -/
theorem ofInt_toNat (w : Word) : BitVec.ofInt 256 w.toNat = w := by
  rw [BitVec.ofInt_natCast, BitVec.ofNat_toNat, BitVec.setWidth_eq]

theorem toNat_eq_zero_iff (w : Word) : w.toNat = 0 ↔ w = 0 := by
  rw [BitVec.toNat_eq]
  rfl

/-- A word is the word of a number if that is its number modulo `2^256`. -/
theorem eq_ofInt_natCast {w : Word} {n : Nat} (h : w.toNat = n % 2 ^ 256) :
    w = BitVec.ofInt 256 n := by
  apply BitVec.eq_of_toNat_eq
  rw [BitVec.ofInt_natCast, BitVec.toNat_ofNat, h]

/-! ### Sums, differences and products -/

variable (a b n : Word)

theorem add_eq : a + b = BitVec.ofInt 256 ↑(a.toNat + b.toNat) :=
  eq_ofInt_natCast (BitVec.toNat_add a b)

theorem mul_eq : a * b = BitVec.ofInt 256 ↑(a.toNat * b.toNat) :=
  eq_ofInt_natCast (BitVec.toNat_mul a b)

theorem sub_eq : a - b = BitVec.ofInt 256 (a.toNat - b.toNat) := by
  rw [Int.sub_eq_add_neg, BitVec.ofInt_add, BitVec.ofInt_neg, ofInt_toNat, ofInt_toNat,
    BitVec.sub_eq_add_neg]

/-! ### Division -/

variable {a b n}

/-- What holds of a division by another divisor than zero is all there is to
say of it. -/
theorem ite_eq_ofInt {q : Word} {z : Int} (h : b ≠ 0 → q = BitVec.ofInt 256 z) :
    (if b = 0 then 0 else q) = BitVec.ofInt 256 (unlessZero b.toNat z) := by
  unfold unlessZero
  by_cases hb : b = 0
  · rw [if_pos hb, if_pos ((toNat_eq_zero_iff b).mpr hb)]
    rfl
  · rw [if_neg hb, if_neg (mt (toNat_eq_zero_iff b).mp hb), h hb]

variable (a b n)

theorem div_eq : div a b = BitVec.ofInt 256 (unlessZero b.toNat ↑(a.toNat / b.toNat)) := by
  apply ite_eq_ofInt
  intro _
  rw [← BitVec.toNat_udiv]
  exact (ofInt_toNat _).symm

theorem mod_eq : mod a b = BitVec.ofInt 256 (unlessZero b.toNat ↑(a.toNat % b.toNat)) := by
  apply ite_eq_ofInt
  intro _
  rw [← BitVec.toNat_umod]
  exact (ofInt_toNat _).symm

/-- The quotient of the absolute values, with the sign that is due to it, is the
library's. -/
theorem sdiv_eq_ite : sdiv a b = if b = 0 then 0 else BitVec.sdiv a b := by
  unfold sdiv BitVec.abs
  rw [BitVec.sdiv_eq]
  cases a.msb <;> cases b.msb <;> rfl

theorem smod_eq_ite : smod a b = if b = 0 then 0 else BitVec.srem a b := by
  unfold smod BitVec.abs
  rw [BitVec.srem_eq]
  cases a.msb <;> cases b.msb <;> rfl

theorem sdiv_eq : sdiv a b = BitVec.ofInt 256
    (unlessZero b.toNat ((signed 256 a.toNat).tdiv (signed 256 b.toNat))) := by
  rw [sdiv_eq_ite]
  apply ite_eq_ofInt
  intro _
  apply BitVec.eq_of_toInt_eq
  rw [BitVec.toInt_sdiv, BitVec.toInt_ofInt, toInt_eq_signed, toInt_eq_signed]

theorem smod_eq : smod a b = BitVec.ofInt 256
    (unlessZero b.toNat ((signed 256 a.toNat).tmod (signed 256 b.toNat))) := by
  rw [smod_eq_ite]
  apply ite_eq_ofInt
  intro _
  rw [← toInt_eq_signed, ← toInt_eq_signed, ← BitVec.toInt_srem, BitVec.ofInt_toInt]

theorem addMod_eq : addMod a b n = BitVec.ofInt 256
    (unlessZero n.toNat ↑((a.toNat + b.toNat) % n.toNat)) := by
  apply ite_eq_ofInt
  intro _
  exact (BitVec.ofInt_natCast 256 _).symm

theorem mulMod_eq : mulMod a b n = BitVec.ofInt 256
    (unlessZero n.toNat ↑(a.toNat * b.toNat % n.toNat)) := by
  apply ite_eq_ofInt
  intro _
  exact (BitVec.ofInt_natCast 256 _).symm

/-! ### Powers -/

/-- Repeated squaring computes the power for every exponent that fits: each
square halves what is left of the exponent. -/
theorem toNat_powBits (bits : Nat) (base : Word) (e : Nat) (h : e < 2 ^ bits) :
    (powBits bits base e).toNat = base.toNat ^ e % 2 ^ 256 := by
  induction bits generalizing base e with
  | zero =>
    have he : e = 0 := by
      rw [Nat.pow_zero] at h
      omega
    subst he
    rfl
  | succ bits ih =>
    rw [Nat.pow_succ] at h
    have hsquare : (powBits bits (base * base) (e / 2)).toNat =
        base.toNat ^ (2 * (e / 2)) % 2 ^ 256 := by
      rw [ih (base * base) (e / 2) (by omega), BitVec.toNat_mul, ← Nat.pow_mod, Nat.pow_mul,
        Nat.pow_two]
    unfold powBits
    by_cases hodd : e % 2 = 1
    · have he : (2 * (e / 2)).succ = e := by omega
      simp only [hodd, if_true]
      rw [BitVec.toNat_mul, hsquare, Nat.mul_mod_mod, Nat.mul_comm, ← Nat.pow_succ, he]
    · have he : e = 2 * (e / 2) := by omega
      simp only [hodd, if_false]
      rw [hsquare, ← he]

theorem exp_eq : exp a b = BitVec.ofInt 256 ↑(a.toNat ^ b.toNat) :=
  eq_ofInt_natCast (toNat_powBits 256 a b.toNat b.isLt)

/-! ### Comparisons -/

theorem flag_eq {c : Bool} {p : Prop} [Decidable p] (h : c = true ↔ p) :
    flag c = BitVec.ofInt 256 (truth p) := by
  unfold flag truth
  by_cases hp : p
  · rw [if_pos (h.mpr hp), if_pos hp]
    rfl
  · rw [if_neg (mt h.mp hp), if_neg hp]
    rfl

theorem lt_eq : lt a b = BitVec.ofInt 256 (truth (a.toNat < b.toNat)) :=
  flag_eq BitVec.ult_iff_lt

theorem gt_eq : gt a b = BitVec.ofInt 256 (truth (a.toNat > b.toNat)) :=
  flag_eq BitVec.ult_iff_lt

theorem slt_eq :
    slt a b = BitVec.ofInt 256 (truth (signed 256 a.toNat < signed 256 b.toNat)) := by
  apply flag_eq
  rw [BitVec.slt_iff_toInt_lt, toInt_eq_signed, toInt_eq_signed]

theorem sgt_eq :
    sgt a b = BitVec.ofInt 256 (truth (signed 256 a.toNat > signed 256 b.toNat)) := by
  apply flag_eq
  rw [BitVec.slt_iff_toInt_lt, toInt_eq_signed, toInt_eq_signed]

theorem eq_eq : eq a b = BitVec.ofInt 256 (truth (a.toNat = b.toNat)) := by
  apply flag_eq
  rw [beq_iff_eq, BitVec.toNat_eq]

theorem isZero_eq : isZero a = BitVec.ofInt 256 (truth (a.toNat = 0)) := by
  apply flag_eq
  rw [beq_iff_eq, toNat_eq_zero_iff]

/-! ### Bits and bytes -/

theorem and_eq : a &&& b = BitVec.ofInt 256 ↑(a.toNat &&& b.toNat) := by
  rw [← BitVec.toNat_and, ofInt_toNat]

theorem or_eq : a ||| b = BitVec.ofInt 256 ↑(a.toNat ||| b.toNat) := by
  rw [← BitVec.toNat_or, ofInt_toNat]

theorem xor_eq : a ^^^ b = BitVec.ofInt 256 ↑(a.toNat ^^^ b.toNat) := by
  rw [← BitVec.toNat_xor, ofInt_toNat]

theorem not_eq : ~~~a = BitVec.ofInt 256 (2 ^ 256 - 1 - a.toNat : Nat) := by
  rw [← BitVec.toNat_not, ofInt_toNat]

theorem byteAt_eq : byteAt a b = BitVec.ofInt 256
    (if a.toNat < 32 then ↑(b.toNat / 256 ^ (31 - a.toNat) % 256) else 0) := by
  unfold byteAt
  split
  · apply eq_ofInt_natCast
    have hmask : (0xff : Word).toNat = 2 ^ 8 - 1 := rfl
    have hlt : b.toNat / 256 ^ (31 - a.toNat) % 256 < 2 ^ 256 :=
      Nat.lt_of_lt_of_le (Nat.mod_lt _ (by decide)) (by decide)
    rw [BitVec.toNat_and, BitVec.toNat_ushiftRight, hmask, Nat.and_two_pow_sub_one_eq_mod,
      Nat.shiftRight_eq_div_pow, Nat.pow_mul, Nat.mod_eq_of_lt hlt]
  · rfl

/-! ### Sign extension

A place of a word and what is done with the places from there on. -/

section Masks

variable {place : Nat} (hplace : place < 256)

include hplace

theorem toNat_one_shiftLeft : ((1 : Word) <<< place).toNat = 2 ^ place :=
  BitVec.toNat_twoPow_of_lt hplace

/-- The word before a power of two has ones in the places below it and nowhere else. -/
theorem getLsbD_mask (i : Nat) : ((1 : Word) <<< place - 1).getLsbD i = decide (i < place) := by
  have hle : (1 : Word) ≤ (1 : Word) <<< place := by
    rw [BitVec.le_def, toNat_one_shiftLeft hplace]
    exact Nat.two_pow_pos place
  have hmask : ((1 : Word) <<< place - 1).toNat = 2 ^ place - 1 := by
    rw [BitVec.toNat_sub_of_le hle, toNat_one_shiftLeft hplace]
    rfl
  rw [← BitVec.testBit_toNat, hmask, Nat.testBit_two_pow_sub_one]

theorem and_bit_eq_zero_iff (v : Word) :
    v &&& (1 : Word) <<< place = 0 ↔ v.getLsbD place = false := by
  have hand : v &&& (1 : Word) <<< place =
      if v.getLsbD place = true then (1 : Word) <<< place else 0 := BitVec.and_twoPow v place
  have hbit : (1 : Word) <<< place ≠ 0 := by
    intro hzero
    have hpow : 2 ^ place = 0 :=
      (toNat_one_shiftLeft hplace).symm.trans (congrArg BitVec.toNat hzero)
    exact Nat.ne_of_gt (Nat.two_pow_pos place) hpow
  rw [hand]
  cases v.getLsbD place with
  | false => exact iff_of_true rfl rfl
  | true => exact iff_of_false hbit (by decide)

/-- To clear or to fill the places from the sign bit on is to repeat the sign there. -/
theorem masked_eq_signExtend (v : Word) :
    (if v &&& (1 : Word) <<< place = 0 then v &&& ((1 : Word) <<< place - 1)
      else v ||| ~~~((1 : Word) <<< place - 1)) = (v.setWidth (place + 1)).signExtend 256 := by
  apply BitVec.eq_of_getLsbD_eq
  intro i hi
  have hrepeat : ((v.setWidth (place + 1)).signExtend 256).getLsbD i =
      if i < place then v.getLsbD i else v.getLsbD place := by
    simp only [BitVec.getLsbD_signExtend, BitVec.getLsbD_setWidth, BitVec.msb_setWidth, hi]
    rcases Nat.lt_trichotomy i place with hlt | rfl | hgt
    · simp [hlt, Nat.lt_succ_of_lt hlt]
    · simp
    · simp [Nat.not_lt_of_lt hgt, Nat.not_lt.mpr hgt]
  rw [hrepeat]
  -- the mask leaves the sign bit out, but what then stands in its place is the sign
  by_cases hsign : v.getLsbD place = false
  · rw [if_pos ((and_bit_eq_zero_iff hplace v).mpr hsign), BitVec.getLsbD_and,
      getLsbD_mask hplace]
    by_cases hlow : i < place <;> simp [hlow, hsign]
  · rw [if_neg (mt (and_bit_eq_zero_iff hplace v).mp hsign), BitVec.getLsbD_or,
      BitVec.getLsbD_not, getLsbD_mask hplace]
    by_cases hlow : i < place <;> simp [hlow, hi, hsign]

end Masks

/-- The two masks do what the library does to widen the low bytes of a word. -/
theorem signExtend_eq_ite : signExtend a b =
    if a.toNat < 31 then (b.setWidth (8 * a.toNat + 8)).signExtend 256 else b := by
  unfold signExtend
  split
  · exact masked_eq_signExtend (by omega) b
  · rfl

/-- The low bytes keep their sign when a word is widened from them; all of its
bytes are the word. -/
theorem signExtend_eq : signExtend a b = BitVec.ofInt 256
    (if a.toNat < 31 then
      signed (8 * a.toNat + 8) (b.toNat % 2 ^ (8 * a.toNat + 8))
    else b.toNat) := by
  rw [signExtend_eq_ite]
  split
  · rw [← BitVec.toNat_setWidth, ← toInt_eq_signed]
    rfl
  · exact (ofInt_toNat b).symm

/-! ### Shifts

The library's shifts of bit vectors take any amount. -/

theorem shl_eq_shiftLeft : shl a b = b <<< a.toNat := by
  unfold shl
  split
  · rfl
  · next hlarge => exact (BitVec.shiftLeft_eq_zero (Nat.le_of_not_lt hlarge)).symm

theorem shr_eq_ushiftRight : shr a b = b >>> a.toNat := by
  unfold shr
  split
  · rfl
  · next hlarge => exact (BitVec.ushiftRight_eq_zero (Nat.le_of_not_lt hlarge)).symm

/-- The shift of the complement brings in zeros, and so that of the word brings in
ones. -/
theorem sar_eq_sshiftRight : sar a b = b.sshiftRight a.toNat := by
  unfold sar
  cases hsign : b.msb with
  | false =>
    rw [BitVec.sshiftRight_eq_of_msb_false hsign]
    exact shr_eq_ushiftRight a b
  | true =>
    rw [BitVec.sshiftRight_eq_of_msb_true hsign, ← shr_eq_ushiftRight]
    unfold shr
    split
    · rfl
    · exact BitVec.not_zero.symm

theorem shl_eq : shl a b = BitVec.ofInt 256 ↑(b.toNat * 2 ^ a.toNat) := by
  apply eq_ofInt_natCast
  rw [shl_eq_shiftLeft, BitVec.toNat_shiftLeft, Nat.shiftLeft_eq]

theorem shr_eq : shr a b = BitVec.ofInt 256 ↑(b.toNat / 2 ^ a.toNat) := by
  rw [shr_eq_ushiftRight, ← Nat.shiftRight_eq_div_pow, ← BitVec.toNat_ushiftRight,
    ofInt_toNat]

theorem sar_eq : sar a b = BitVec.ofInt 256 (signed 256 b.toNat / (2 ^ a.toNat : Nat)) := by
  rw [sar_eq_sshiftRight, ← Int.shiftRight_eq_div_pow, ← toInt_eq_signed]
  rfl

end Word

end WordMachine
