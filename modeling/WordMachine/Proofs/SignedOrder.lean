/-
WordMachine/Proofs/SignedOrder.lean

Words as signed numbers: their arithmetic and their order.

The signed reading of words, `BitVec.toInt`, is a bijection with the integers from
`-2^255` on below `2^255`.  It takes sums, differences and products to those of the
integers modulo `2^256`, of which the library takes the balanced remainder.

Each comparison is the truth of one of the three relations of a linear order, the
signed ones for the integers and the unsigned ones for the natural numbers, so that
one and only one of a triple of them answers with one (`exactlyOne_of_order`).  The two
orders are joined by the flip of the sign bit: it adds `2^255` to the signed number
and gives the natural number (`toNat_flip`).

Main result: `signed_embedding`.
-/
import WordMachine.Proofs.WordArithmetic
import Mathlib.Data.Int.ModEq
import Mathlib.Data.Set.Function

namespace WordMachine

namespace Word

/-! ### The integers of words -/

/-- Signed numbers are the integers from `-2^255` on below `2^255`, each of one word. -/
theorem bijOn_toInt :
    Set.BijOn (BitVec.toInt : Word → Int) Set.univ {z | -2 ^ 255 ≤ z ∧ z < 2 ^ 255} := by
  refine ⟨?_, ?_, ?_⟩
  · intro w _
    exact ⟨BitVec.le_toInt w, BitVec.toInt_lt⟩
  · intro a _ b _ h
    exact BitVec.toInt_inj.mp h
  · rintro z ⟨hlow, hhigh⟩
    exact ⟨BitVec.ofInt 256 z, trivial, BitVec.toInt_ofInt_eq_self (by decide) hlow hhigh⟩

/-- A balanced remainder is in the class of its number. -/
theorem bmod_modEq (x : Int) : x.bmod (2 ^ 256) ≡ x [ZMOD 2 ^ 256] :=
  Int.bmod_emod

variable (a b : Word)

theorem toInt_add_modEq : (a + b).toInt ≡ a.toInt + b.toInt [ZMOD 2 ^ 256] := by
  rw [BitVec.toInt_add]
  exact bmod_modEq _

theorem toInt_sub_modEq : (a - b).toInt ≡ a.toInt - b.toInt [ZMOD 2 ^ 256] := by
  rw [BitVec.toInt_sub]
  exact bmod_modEq _

theorem toInt_mul_modEq : (a * b).toInt ≡ a.toInt * b.toInt [ZMOD 2 ^ 256] := by
  rw [BitVec.toInt_mul]
  exact bmod_modEq _

/-! ### Comparisons -/

/-- Of three words one is the word one and the two others are zero. -/
def ExactlyOne (x y z : Word) : Prop :=
  (x = 1 ∧ y = 0 ∧ z = 0) ∨ (x = 0 ∧ y = 1 ∧ z = 0) ∨ (x = 0 ∧ y = 0 ∧ z = 1)

theorem flag_eq_one_iff (c : Bool) : flag c = 1 ↔ c = true := by
  cases c <;> decide

theorem flag_eq_zero_iff (c : Bool) : flag c = 0 ↔ ¬c = true := by
  cases c <;> decide

/-- Flags that stand for the three relations of a linear order. -/
theorem exactlyOne_of_order {α : Type} [LinearOrder α] {x y : α} {less more same : Bool}
    (hless : less = true ↔ x < y) (hmore : more = true ↔ y < x) (hsame : same = true ↔ x = y) :
    ExactlyOne (flag less) (flag more) (flag same) := by
  simp only [ExactlyOne, flag_eq_one_iff, flag_eq_zero_iff, hless, hmore, hsame]
  rcases lt_trichotomy x y with hlt | heq | hgt
  · exact .inl ⟨hlt, hlt.asymm, hlt.ne⟩
  · exact .inr (.inr ⟨heq.not_lt, heq.not_gt, heq⟩)
  · exact .inr (.inl ⟨hgt.asymm, hgt, hgt.ne'⟩)

theorem exactlyOne_signed : ExactlyOne (slt a b) (sgt a b) (eq a b) := by
  refine exactlyOne_of_order BitVec.slt_iff_toInt_lt BitVec.slt_iff_toInt_lt ?_
  rw [beq_iff_eq, BitVec.toInt_inj]

theorem exactlyOne_unsigned : ExactlyOne (lt a b) (gt a b) (eq a b) := by
  refine exactlyOne_of_order BitVec.ult_iff_toNat_lt BitVec.ult_iff_toNat_lt ?_
  rw [beq_iff_eq, BitVec.toNat_inj]

theorem slt_eq_one_iff : slt a b = 1 ↔ a.toInt < b.toInt :=
  (flag_eq_one_iff _).trans BitVec.slt_iff_toInt_lt

/-! ### The sign bit -/

/-- To flip the sign bit is to move the signed numbers up to the natural ones. -/
theorem toNat_flip : ((a ^^^ BitVec.twoPow 256 255).toNat : Int) = a.toInt + 2 ^ 255 := by
  have hbit : (BitVec.twoPow 256 255).toNat = 2 ^ 255 := BitVec.toNat_twoPow_of_lt (by decide)
  have hlt := a.isLt
  -- the places below the sign bit are those of the word, and the bit is the other one
  have hlow : (a.toNat ^^^ 2 ^ 255) % 2 ^ 255 = a.toNat % 2 ^ 255 := by
    rw [Nat.xor_mod_two_pow, Nat.mod_self, Nat.xor_zero]
  have hhigh : (a.toNat ^^^ 2 ^ 255) / 2 ^ 255 = (a.toNat / 2 ^ 255) ^^^ 1 := by
    rw [Nat.xor_div_two_pow, Nat.div_self (Nat.two_pow_pos 255)]
  rw [BitVec.toNat_xor, hbit, BitVec.toInt_eq_toNat_cond]
  have hsign : a.toNat / 2 ^ 255 = 0 ∨ a.toNat / 2 ^ 255 = 1 := by omega
  rcases hsign with hsign | hsign
  · rw [hsign, Nat.zero_xor] at hhigh
    rw [if_pos (by omega)]
    omega
  · rw [hsign, Nat.xor_self] at hhigh
    rw [if_neg (by omega)]
    omega

/-- The signed order is the unsigned one with the sign bits flipped. -/
theorem slt_eq_lt_flip :
    slt a b = lt (a ^^^ BitVec.twoPow 256 255) (b ^^^ BitVec.twoPow 256 255) := by
  have ha := toNat_flip a
  have hb := toNat_flip b
  have hsame :
      BitVec.slt a b = (a ^^^ BitVec.twoPow 256 255).ult (b ^^^ BitVec.twoPow 256 255) := by
    rw [Bool.eq_iff_iff, BitVec.slt_iff_toInt_lt, BitVec.ult_iff_toNat_lt]
    omega
  exact congrArg flag hsame

/-- **Words are the signed numbers, with their arithmetic and their order.**  The signed
reading is a bijection with the integers from `-2^255` on below `2^255`, takes sums,
differences and products to those of the integers modulo `2^256`, and takes the signed
comparison to the order of the integers.  Of less, greater and equal just one holds, in
the signed as in the unsigned order, and the signed order is the unsigned one with
the sign bits flipped. -/
theorem signed_embedding :
    Set.BijOn (BitVec.toInt : Word → Int) Set.univ {z | -2 ^ 255 ≤ z ∧ z < 2 ^ 255} ∧
    ∀ a b : Word,
      (a + b).toInt ≡ a.toInt + b.toInt [ZMOD 2 ^ 256] ∧
      (a - b).toInt ≡ a.toInt - b.toInt [ZMOD 2 ^ 256] ∧
      (a * b).toInt ≡ a.toInt * b.toInt [ZMOD 2 ^ 256] ∧
      ExactlyOne (slt a b) (sgt a b) (eq a b) ∧
      (slt a b = 1 ↔ a.toInt < b.toInt) ∧
      slt a b = lt (a ^^^ BitVec.twoPow 256 255) (b ^^^ BitVec.twoPow 256 255) ∧
      ExactlyOne (lt a b) (gt a b) (eq a b) :=
  ⟨bijOn_toInt, fun a b => ⟨toInt_add_modEq a b, toInt_sub_modEq a b, toInt_mul_modEq a b,
    exactlyOne_signed a b, slt_eq_one_iff a b, slt_eq_lt_flip a b, exactlyOne_unsigned a b⟩⟩

end Word

end WordMachine
