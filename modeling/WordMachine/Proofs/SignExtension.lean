/-
WordMachine/Proofs/SignExtension.lean

Sign extension, from any number of bytes.

A sign bit and the mask of the places below it are made one after the other, and the
places from the sign bit on are cleared or filled with their help.  On bits this
repeats the sign (`masked_eq_signExtend`).  On signed numbers it is the balanced
remainder by a power of two, `Int.bmod`: the number of that remainder class which is
nearest to zero.  With the exponent `extent` this goes for every size there is, also
for the large ones that leave the word alone, since the signed number of a word is its
own balanced remainder by `2^256` (`toInt_signExtend`).

That extending twice is extending from the smaller size is then a fact about balanced
remainders by powers of two: the smaller power decides, whichever of them comes first
(`bmod_bmod_two_pow`).

Main result: `sign_extension`.
-/
import WordMachine.Proofs.WordArithmetic
import Mathlib.Data.Int.ModEq

namespace WordMachine

/-! ### Balanced remainders by powers of two -/

/-- Of the numbers of a remainder class there is one in the balanced range. -/
theorem bmod_two_pow_eq_iff (n : Nat) (x z : Int) :
    x.bmod (2 ^ (n + 1)) = z ↔ -2 ^ n ≤ z ∧ z < 2 ^ n ∧ z ≡ x [ZMOD 2 ^ (n + 1)] := by
  have hdouble : ((2 ^ (n + 1) : Nat) : Int) = 2 ^ n * 2 := by
    push_cast
    exact pow_succ 2 n
  have hlow : ((2 ^ (n + 1) : Nat) : Int) / 2 = 2 ^ n := by omega
  have hhigh : (((2 ^ (n + 1) : Nat) : Int) + 1) / 2 = 2 ^ n := by omega
  rw [Int.bmod_eq_iff (Nat.two_pow_pos _), hlow, hhigh, ← Int.modEq_iff_dvd,
    Int.modEq_comm]
  push_cast
  rfl

/-- The smaller power of two decides. -/
theorem bmod_bmod_two_pow (x : Int) (m n : Nat) :
    (x.bmod (2 ^ m)).bmod (2 ^ n) = x.bmod (2 ^ min m n) := by
  rcases Nat.le_total n m with hle | hle
  · rw [Nat.min_eq_right hle, Int.bmod_bmod_of_dvd (Nat.pow_dvd_pow 2 hle)]
  · -- the first remainder is in the range of the second
    have hpos : 0 < 2 ^ m := Nat.two_pow_pos m
    have hpow : 2 ^ m ≤ 2 ^ n := Nat.pow_le_pow_right (by decide) hle
    have hlow := Int.le_bmod (x := x) hpos
    have hhigh := Int.bmod_lt (x := x) hpos
    rw [Nat.min_eq_left hle]
    apply Int.bmod_eq_of_le
    · omega
    · omega

namespace Word

/-! ### Sign extension -/

/-- The number of low bits that are kept of a word extended from `size + 1` bytes. -/
def extent (size : Word) : Nat := 8 * min size.toNat 31 + 8

theorem extent_of_lt {k : Word} (h : k.toNat < 31) : extent k = 8 * k.toNat + 8 := by
  rw [extent, Nat.min_eq_left (Nat.le_of_lt h)]

theorem extent_of_le {k : Word} (h : 31 ≤ k.toNat) : extent k = 256 := by
  rw [extent, Nat.min_eq_right h]

theorem extent_le (k : Word) : extent k ≤ 256 := by
  unfold extent
  omega

theorem signExtend_of_le {k : Word} (h : 31 ≤ k.toNat) (v : Word) : signExtend k v = v :=
  if_neg (Nat.not_lt_of_le h)

/-- Sign extension takes the balanced remainder of the signed number. -/
theorem toInt_signExtend (k v : Word) : (signExtend k v).toInt = v.toInt.bmod (2 ^ extent k) := by
  rw [BitVec.toInt_eq_toNat_bmod v, Int.bmod_bmod_of_dvd (Nat.pow_dvd_pow 2 (extent_le k))]
  rcases Nat.lt_or_ge k.toNat 31 with hsize | hsize
  · rw [signExtend_eq_ite, if_pos hsize, BitVec.toInt_signExtend_of_le (by omega),
      BitVec.toInt_setWidth, extent_of_lt hsize]
  · rw [signExtend_of_le hsize, BitVec.toInt_eq_toNat_bmod, extent_of_le hsize]

/-- The extent of the smaller size is the smaller extent. -/
theorem extent_least (j k : Word) :
    extent (if j ≤ k then j else k) = min (extent k) (extent j) := by
  simp only [extent, BitVec.le_def]
  split <;> omega

/-- Extending from one size and then from another is extending from the smaller one. -/
theorem signExtend_signExtend (j k v : Word) :
    signExtend j (signExtend k v) = signExtend (if j ≤ k then j else k) v := by
  apply BitVec.eq_of_toInt_eq
  rw [toInt_signExtend, toInt_signExtend, toInt_signExtend, bmod_bmod_two_pow, extent_least]

/-- **Sign extension.**  From `k + 1` bytes, fewer than 32, a word is extended to the
one word whose signed number fits in as many bytes and agrees with the word in them;
what the bytes above were makes no difference.  From 32 bytes or more it is extended to
itself.  So the smaller of two sizes decides, in either order. -/
theorem sign_extension (k v : Word) :
    (k.toNat < 31 → ∀ z : Int, (signExtend k v).toInt = z ↔
      -2 ^ (8 * k.toNat + 7) ≤ z ∧ z < 2 ^ (8 * k.toNat + 7) ∧
        z ≡ v.toNat [ZMOD 2 ^ (8 * k.toNat + 8)]) ∧
    (31 ≤ k.toNat → signExtend k v = v) ∧
    ∀ j, signExtend j (signExtend k v) = signExtend (if j ≤ k then j else k) v := by
  refine ⟨fun hsize z => ?_, fun hsize => signExtend_of_le hsize v,
    fun j => signExtend_signExtend j k v⟩
  have hbits : extent k = 8 * k.toNat + 7 + 1 := extent_of_lt hsize
  have hdvd : 2 ^ (8 * k.toNat + 7 + 1) ∣ 2 ^ 256 := Nat.pow_dvd_pow 2 (by omega)
  rw [toInt_signExtend, hbits, BitVec.toInt_eq_toNat_bmod, Int.bmod_bmod_of_dvd hdvd]
  exact bmod_two_pow_eq_iff _ _ _

/-- A word with a bit above its second byte, extended from two bytes and from more than
there are, and from one byte after two. -/
theorem sign_extension_dirty :
    let v : Word := 0x180ff
    ((1 : Word).toNat < 31 ∧ (signExtend 1 v).toInt = -0x7f01) ∧
      (31 ≤ (-1 : Word).toNat ∧ signExtend (-1) v = v) ∧
      signExtend 0 (signExtend 1 v) = signExtend 0 v := by
  intro v
  have htwo : (1 : Word).toNat < 31 := by decide
  have hmany : 31 ≤ (-1 : Word).toNat := by decide +kernel
  have hnumber := ((sign_extension 1 v).1 htwo (-0x7f01)).mpr (by decide +kernel)
  exact ⟨⟨htwo, hnumber⟩, ⟨hmany, (sign_extension (-1) v).2.1 hmany⟩,
    (sign_extension 1 v).2.2 0⟩

end Word

end WordMachine
