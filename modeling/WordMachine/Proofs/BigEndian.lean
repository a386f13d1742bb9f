/-
WordMachine/Proofs/BigEndian.lean

Byte strings as numbers to the base 256, the first byte leading.

`value` takes in one byte after the other, so that a division by a power of
256 takes the last ones out again: `foldl_div_pow` for all bytes of a string
and, with it, `foldl_digit` for those behind a place.  Every byte is so
recovered from the number (`value_digit`), which leads to the first main
result: words and strings of 32 bytes are the same thing (`ofWord_toWord`,
`value_ofWord`).

The second is about strings of any length.  The word that is read from one is
its number modulo `2^256` (`toNat_toWord`), because the bytes in front of the
last 32 only add multiples of `256^32` (`value_append`).

A number can be written in any count of bytes that has room for it, and is read
back (`ofNumber`, `value_ofNumber`); a word is a number written in 32.
-/
import WordMachine.Element
import Mathlib.Algebra.Group.Nat.Defs

namespace WordMachine

namespace Bytes

/-! ### Digits -/

theorem value_eq_foldl (b : Bytes) :
    b.value = b.toList.foldl (fun n x => 256 * n + x.toNat) 0 :=
  (Array.foldl_toList _).symm

/-- Digits taken in are lost again by division. -/
theorem foldl_div_pow (xs : List UInt8) (n : Nat) :
    xs.foldl (fun n x => 256 * n + x.toNat) n / 256 ^ xs.length = n := by
  induction xs generalizing n with
  | nil => exact Nat.div_one n
  | cons x xs ih =>
    have hx := x.toNat_lt
    rw [List.length_cons, Nat.pow_succ, ← Nat.div_div_eq_div_mul, List.foldl_cons, ih]
    omega

/-- The digit at a place, counted from the leading one. -/
theorem foldl_digit (xs : List UInt8) (n i : Nat) (h : i < xs.length) :
    xs.foldl (fun n x => 256 * n + x.toNat) n / 256 ^ (xs.length - 1 - i) % 256 =
      xs[i].toNat := by
  induction xs generalizing n i with
  | nil => cases h
  | cons x xs ih =>
    have hx := x.toNat_lt
    cases i with
    | zero =>
      have hplace : (x :: xs).length - 1 - 0 = xs.length := rfl
      rw [hplace, List.foldl_cons, foldl_div_pow, List.getElem_cons_zero]
      omega
    | succ i =>
      have hi : i < xs.length := Nat.lt_of_succ_lt_succ h
      have hplace : (x :: xs).length - 1 - (i + 1) = xs.length - 1 - i := by
        rw [List.length_cons]
        omega
      rw [hplace, List.foldl_cons, List.getElem_cons_succ]
      exact ih _ i hi

theorem value_lt (b : Bytes) : b.value < 256 ^ b.size := by
  have hdiv : b.value / 256 ^ b.size = 0 := by
    rw [value_eq_foldl]
    exact foldl_div_pow b.toList 0
  exact (Nat.div_eq_zero_iff_lt (Nat.pow_pos (by decide))).mp hdiv

/-- Every byte of a string, found in its number. -/
theorem value_digit (b : Bytes) (i : Nat) (h : i < b.size) :
    b.value / 256 ^ (b.size - 1 - i) % 256 = b[i].toNat := by
  rw [value_eq_foldl]
  exact foldl_digit b.toList 0 i h

/-- A number is known by its digits. -/
theorem eq_of_digits {n a b : Nat} (ha : a < 256 ^ n) (hb : b < 256 ^ n)
    (h : ∀ k < n, a / 256 ^ k % 256 = b / 256 ^ k % 256) : a = b := by
  induction n generalizing a b with
  | zero =>
    rw [Nat.pow_zero] at ha hb
    omega
  | succ n ih =>
    rw [Nat.pow_succ] at ha hb
    have hlast := h 0 (Nat.succ_pos n)
    rw [Nat.pow_zero, Nat.div_one, Nat.div_one] at hlast
    have hfront : a / 256 = b / 256 := by
      apply ih (by omega) (by omega)
      intro k hk
      have hdigit := h (k + 1) (Nat.succ_lt_succ hk)
      rwa [Nat.pow_succ', ← Nat.div_div_eq_div_mul, ← Nat.div_div_eq_div_mul] at hdigit
    omega

/-! ### Strings in a row -/

/-- What has been taken in before is moved up by every digit. -/
theorem foldl_eq (xs : List UInt8) (n : Nat) :
    xs.foldl (fun n x => 256 * n + x.toNat) n =
      n * 256 ^ xs.length + xs.foldl (fun n x => 256 * n + x.toNat) 0 := by
  induction xs generalizing n with
  | nil => simp
  | cons x xs ih =>
    rw [List.foldl_cons, List.foldl_cons, ih (256 * n + x.toNat), ih (256 * 0 + x.toNat),
      List.length_cons, Nat.pow_succ', Nat.mul_zero, Nat.zero_add, Nat.add_mul, Nat.add_assoc,
      ← Nat.mul_assoc, Nat.mul_comm n 256]

theorem value_append (a b : Bytes) : (a ++ b).value = a.value * 256 ^ b.size + b.value := by
  rw [value_eq_foldl, Array.toList_append, List.foldl_append, foldl_eq, ← value_eq_foldl,
    ← value_eq_foldl, Array.length_toList]

/-- Zeros count for nothing. -/
theorem value_replicate_zero (n : Nat) : value (Array.replicate n 0) = 0 := by
  induction n with
  | zero => rfl
  | succ n ih =>
    rw [Array.replicate_succ, ← Array.append_singleton, value_append, ih]
    rfl

/-- The bytes in front of the last `k` add multiples of `256^k`. -/
theorem value_extract_last (b : Bytes) (k : Nat) :
    value (b.extract (b.size - k)) = b.value % 256 ^ k := by
  rcases Nat.le_total b.size k with hshort | hlong
  · have hlt : b.value < 256 ^ k :=
      Nat.lt_of_lt_of_le (value_lt b) (Nat.pow_le_pow_right (by decide) hshort)
    rw [Nat.sub_eq_zero_of_le hshort, Array.extract_size, Nat.mod_eq_of_lt hlt]
  · have hsplit : b.extract 0 (b.size - k) ++ b.extract (b.size - k) = b := by
      rw [Array.extract_append_extract, Nat.min_eq_left (by omega), Nat.max_eq_right (by omega),
        Array.extract_size]
    have hsize : (b.extract (b.size - k)).size = k := by
      rw [Array.size_extract]
      omega
    have hlt := value_lt (b.extract (b.size - k))
    have hvalue := congrArg value hsplit
    rw [value_append, hsize] at hvalue
    rw [hsize] at hlt
    rw [← hvalue, Nat.mul_add_mod_self_right, Nat.mod_eq_of_lt hlt]

/-! ### Words -/

/-- There are as many strings of 32 bytes as there are words. -/
theorem pow_wordSize : (256 : Nat) ^ wordSize = 2 ^ 256 := by decide

/-- A string of 32 bytes is all of its last word. -/
theorem lastWord_of_size {b : Bytes} (h : b.size = wordSize) : b.lastWord = b := by
  apply Array.ext
  · rw [size_lastWord, h]
  · intro i _ hi
    have hplace : i + b.size - wordSize = i := by omega
    have hword : wordSize ≤ i + b.size := by omega
    rw [getElem_eq_byteAt b i hi]
    simp only [lastWord, Array.getElem_ofFn, hword, if_true, hplace]

theorem toWord_of_size {b : Bytes} (h : b.size = wordSize) :
    b.toWord = BitVec.ofNat 256 b.value := by
  rw [toWord, lastWord_of_size h]

/-- A word is read from the last 32 bytes, with zeros in front where there are
not so many. -/
theorem lastWord_eq_append (b : Bytes) :
    b.lastWord = Array.replicate (wordSize - b.size) 0 ++ b.extract (b.size - wordSize) := by
  apply Array.ext
  · rw [size_lastWord, Array.size_append, Array.size_replicate, Array.size_extract]
    omega
  · intro i hi hi'
    rw [size_lastWord] at hi
    have hplace : wordSize ≤ i + b.size → i + b.size - wordSize < b.size ∧
        ¬i < wordSize - b.size ∧
        b.size - wordSize + (i - (wordSize - b.size)) = i + b.size - wordSize := by
      clear hi'
      omega
    have hzero : ¬wordSize ≤ i + b.size → i < wordSize - b.size := by
      clear hi'
      omega
    simp only [Array.getElem_append, lastWord, Array.getElem_ofFn, Array.size_replicate]
    split
    · next hin =>
      obtain ⟨hlt, hright, heq⟩ := hplace hin
      simp only [hright, dite_false, Array.getElem_extract, heq]
      exact (getElem_eq_byteAt b _ hlt).symm
    · next hout =>
      simp only [hzero hout, dite_true, Array.getElem_replicate]

theorem value_lastWord (b : Bytes) : b.lastWord.value = b.value % 256 ^ wordSize := by
  rw [lastWord_eq_append, value_append, value_replicate_zero, Nat.zero_mul, Nat.zero_add,
    value_extract_last]

/-- The word read from a string is its number modulo `2^256`. -/
theorem toNat_toWord (b : Bytes) : b.toWord.toNat = b.value % 2 ^ 256 := by
  rw [toWord, BitVec.toNat_ofNat, value_lastWord, pow_wordSize, Nat.mod_mod]

theorem toNat_toWord_of_size {b : Bytes} (h : b.size = wordSize) : b.toWord.toNat = b.value := by
  have hlt := value_lt b
  rw [h, pow_wordSize] at hlt
  rw [toNat_toWord, Nat.mod_eq_of_lt hlt]

/-! ### Numbers written out -/

/-- A number as `size` bytes, the leading one first. -/
def ofNumber (size n : Nat) : Bytes :=
  Array.ofFn fun i : Fin size => UInt8.ofNat (n / 256 ^ (size - 1 - i.val))

@[simp] theorem size_ofNumber (size n : Nat) : (ofNumber size n).size = size :=
  Array.size_ofFn

/-- A number written out is read back, if there are bytes enough for it. -/
theorem value_ofNumber {size n : Nat} (h : n < 256 ^ size) : (ofNumber size n).value = n := by
  have hvalue := value_lt (ofNumber size n)
  rw [size_ofNumber] at hvalue
  apply eq_of_digits hvalue h
  intro k hk
  have hi : size - 1 - k < (ofNumber size n).size := by
    rw [size_ofNumber]
    omega
  have hplace : (ofNumber size n).size - 1 - (size - 1 - k) = k := by
    rw [size_ofNumber]
    omega
  have hplace' : size - 1 - (size - 1 - k) = k := by omega
  have hdigit := value_digit (ofNumber size n) (size - 1 - k) hi
  rw [hplace] at hdigit
  rw [hdigit]
  simp only [ofNumber, Array.getElem_ofFn, UInt8.toNat_ofNat', hplace']

/-- A word is written out as its number is. -/
theorem ofWord_eq_ofNumber (w : Word) : ofWord w = ofNumber wordSize w.toNat := by
  apply Array.ext
  · rw [size_ofWord, size_ofNumber]
  · intro i _ _
    simp only [ofWord, ofNumber, Array.getElem_ofFn, Nat.shiftRight_eq_div_pow, Nat.pow_mul]
    rfl

/-- A word written out is the number it was. -/
theorem value_ofWord (w : Word) : (ofWord w).value = w.toNat := by
  rw [ofWord_eq_ofNumber]
  apply value_ofNumber
  rw [pow_wordSize]
  exact w.isLt

/-- A string of 32 bytes is written out by the word it stands for. -/
theorem ofWord_toWord {b : Bytes} (h : b.size = wordSize) : ofWord b.toWord = b := by
  apply Array.ext
  · rw [size_ofWord, h]
  · intro i hw hi
    have hle : i ≤ 31 := by
      rw [h] at hi
      exact Nat.le_of_lt_succ hi
    have hdigit := value_digit b i hi
    have hpow : 256 ^ (b.size - 1 - i) = 2 ^ (8 * (31 - i)) := by
      rw [h, Nat.pow_mul]
      rfl
    rw [hpow] at hdigit
    simp only [ofWord, Array.getElem_ofFn, toNat_toWord_of_size h, Nat.shiftRight_eq_div_pow]
    apply UInt8.toNat_inj.mp
    rw [UInt8.toNat_ofNat', hdigit]

end Bytes

namespace Element

/-- The number an item is read as: that of its bytes, modulo `2^256`. -/
def number (e : Element) : Nat := e.bytes.value % 2 ^ 256

theorem toNat_word (e : Element) : e.word.toNat = e.number :=
  Bytes.toNat_toWord e.bytes

/-- An item of 32 bytes is the word it is read as. -/
theorem ofWord_word {e : Element} (h : e.bytes.size = Bytes.wordSize) :
    ofWord e.word = e :=
  congrArg Element.mk (Bytes.ofWord_toWord h)

end Element

end WordMachine
