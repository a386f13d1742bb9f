/-
WordMachine/Proofs/WordBytes.lean

Words, byte strings and single bytes: three ways to take a number apart that agree.

A byte string stands for the sum of its bytes, each at its place to the base 256
(`value_eq_sum`).  The word that is read from it is that sum modulo `2^256`, and so it does
not change with zeros in front, nor with anything in front of 32 bytes.  Written out, it is
the last word of the string (`ofWord_toWord_eq_lastWord`).

The bytes that a word is written out as are those that the machine picks out of it, one at a
time (`toNat_byteAt_ofWord`).

Main result: `word_conversions`.
-/
import WordMachine.Proofs.BigEndian
import WordMachine.Proofs.WordArithmetic
import Mathlib.Algebra.BigOperators.Intervals

namespace WordMachine

namespace Bytes

/-! ### The number of a byte string -/

theorem foldl_eq_sum (xs : List UInt8) :
    xs.foldl (fun n x => 256 * n + x.toNat) 0
      = ∑ i ∈ Finset.range xs.length, (xs.getD i 0).toNat * 256 ^ (xs.length - 1 - i) := by
  induction xs with
  | nil => rfl
  | cons x xs ih =>
    rw [List.foldl_cons, foldl_eq, ih, List.length_cons, Finset.sum_range_succ']
    simp [Nat.add_comm, Nat.sub_sub]

/-- A byte string stands for the sum of its bytes at their places. -/
theorem value_eq_sum (b : Bytes) :
    b.value = ∑ i ∈ Finset.range b.size, (b.byteAt i).toNat * 256 ^ (b.size - 1 - i) := by
  have hbyte : ∀ i, b.toList.getD i 0 = b.byteAt i := by
    simp [byteAt, Array.getD_eq_getD_getElem?, List.getD_eq_getElem?_getD]
  rw [value_eq_foldl, foldl_eq_sum, Array.length_toList]
  simp only [hbyte]

theorem value_append_mod {front b : Bytes} (h : wordSize ≤ b.size) :
    (front ++ b).value % 2 ^ 256 = b.value % 2 ^ 256 := by
  have hfactor : 2 ^ 256 ∣ 256 ^ b.size := by
    rw [← pow_wordSize]
    exact Nat.pow_dvd_pow 256 h
  rw [value_append, Nat.add_mod, Nat.mod_eq_zero_of_dvd (hfactor.mul_left front.value),
    Nat.zero_add, Nat.mod_mod]

/-- A string read as a word and written out again is its last word. -/
theorem ofWord_toWord_eq_lastWord (b : Bytes) : ofWord b.toWord = b.lastWord := by
  have hlast : b.lastWord.toWord = b.toWord := by
    rw [toWord, lastWord_of_size (size_lastWord b)]
    rfl
  rw [← hlast, ofWord_toWord (size_lastWord b)]

/-! ### The bytes of a word -/

/-- The bytes that a word is written out as are its digits to the base 256. -/
theorem toNat_byteAt_ofWord (w : Word) {i : Nat} (hi : i < 32) :
    ((ofWord w).byteAt i).toNat = w.toNat / 256 ^ (31 - i) % 256 := by
  have hsize : i < (ofWord w).size := by
    rw [size_ofWord]
    exact hi
  have hdigit := value_digit (ofWord w) i hsize
  rw [value_ofWord, size_ofWord] at hdigit
  rw [← getElem_eq_byteAt _ _ hsize]
  exact hdigit.symm

end Bytes

theorem Word.toNat_byteAt (w : Word) {i : Nat} (hi : i < 32) :
    (Word.byteAt (BitVec.ofNat 256 i) w).toNat = w.toNat / 256 ^ (31 - i) % 256 := by
  have hindex : (BitVec.ofNat 256 i).toNat = i := by
    rw [BitVec.toNat_ofNat]
    omega
  have hbyte : w.toNat / 256 ^ (31 - i) % 256 < 2 ^ 256 := by omega
  rw [Word.byteAt_eq, hindex, if_pos hi, BitVec.ofInt_natCast, BitVec.toNat_ofNat,
    Nat.mod_eq_of_lt hbyte]

/-- A byte of a word is shifted down and cut out. -/
theorem Word.byteAt_eq_shr (w : Word) {i : Nat} (hi : i < 32) :
    Word.byteAt (BitVec.ofNat 256 i) w
      = Word.shr (BitVec.ofNat 256 (248 - 8 * i)) w &&& 0xff := by
  have hindex : (BitVec.ofNat 256 i).toNat = i := by
    rw [BitVec.toNat_ofNat]
    omega
  have hshift : (BitVec.ofNat 256 (248 - 8 * i)).toNat = 8 * (31 - i) := by
    rw [BitVec.toNat_ofNat]
    omega
  rw [Word.shr_eq_ushiftRight, hshift, Word.byteAt, hindex, if_pos hi]

namespace Element

/-! ### Items -/

theorem word_eq_of_value {a b : Bytes} (h : a.value % 2 ^ 256 = b.value % 2 ^ 256) :
    (mk a).word = (mk b).word := by
  apply BitVec.eq_of_toNat_eq
  rw [toNat_word, toNat_word]
  exact h

theorem word_zeros_append (k : Nat) (b : Bytes) :
    (mk (Array.replicate k 0 ++ b)).word = (mk b).word := by
  apply word_eq_of_value
  rw [Bytes.value_append, Bytes.value_replicate_zero, Nat.zero_mul, Nat.zero_add]

theorem word_ofWord (w : Word) : (ofWord w).word = w := by
  apply BitVec.eq_of_toNat_eq
  rw [word, ofWord, Bytes.toNat_toWord_of_size (Bytes.size_ofWord w), Bytes.value_ofWord]

theorem mk_lastWord_eq_iff (b : Bytes) : mk b.lastWord = mk b ↔ b.size = 32 := by
  constructor
  · intro h
    rw [← congrArg (fun e => e.bytes.size) h]
    exact Bytes.size_lastWord b
  · intro h
    rw [Bytes.lastWord_of_size h]

/-- **Words and bytes are converted into each other.**  An item is read as the number of its
bytes modulo `2^256`, which zeros in front and bytes in front of the last 32 do not change.
Its last 32 bytes, with zeros in front of fewer, are what that word is written out as, and
they are the item itself just if it has 32 bytes.  A word is written out as 32 bytes, from
which it is read back; these are the bytes picked out of it one at a time, and they add up
to it. -/
theorem word_conversions :
    (∀ b : Bytes,
      (mk b).word.toNat
        = (∑ i ∈ Finset.range b.size, (b.byteAt i).toNat * 256 ^ (b.size - 1 - i)) % 2 ^ 256 ∧
      (∀ k, (mk (Array.replicate k 0 ++ b)).word = (mk b).word) ∧
      (32 ≤ b.size → ∀ front, (mk (front ++ b)).word = (mk b).word) ∧
      b.lastWord = Array.replicate (32 - b.size) 0 ++ b.extract (b.size - 32) ∧
      mk b.lastWord = ofWord (mk b).word ∧
      (mk b.lastWord = mk b ↔ b.size = 32)) ∧
    ∀ w : Word,
      (ofWord w).bytes.size = 32 ∧
      (ofWord w).word = w ∧
      w.toNat = ∑ i ∈ Finset.range 32, (Word.byteAt (BitVec.ofNat 256 i) w).toNat * 256 ^ (31 - i) ∧
      ∀ i < 32,
        ((ofWord w).bytes.byteAt i).toNat = (Word.byteAt (BitVec.ofNat 256 i) w).toNat ∧
        Word.byteAt (BitVec.ofNat 256 i) w
          = Word.shr (BitVec.ofNat 256 (248 - 8 * i)) w &&& 0xff := by
  have hbyte : ∀ (w : Word) (i : Nat), i < 32 →
      ((ofWord w).bytes.byteAt i).toNat = (Word.byteAt (BitVec.ofNat 256 i) w).toNat := by
    intro w i hi
    rw [Word.toNat_byteAt w hi]
    exact Bytes.toNat_byteAt_ofWord w hi
  refine ⟨fun b => ⟨?_, fun k => word_zeros_append k b, fun h front => ?_,
    Bytes.lastWord_eq_append b, ?_, mk_lastWord_eq_iff b⟩,
    fun w => ⟨Bytes.size_ofWord w, word_ofWord w, ?_, fun i hi => ⟨hbyte w i hi, ?_⟩⟩⟩
  · rw [toNat_word, number, Bytes.value_eq_sum]
  · exact word_eq_of_value (Bytes.value_append_mod h)
  · rw [ofWord, word, Bytes.ofWord_toWord_eq_lastWord]
  · have hsum := Bytes.value_eq_sum (Bytes.ofWord w)
    rw [Bytes.value_ofWord, Bytes.size_ofWord] at hsum
    rw [hsum]
    apply Finset.sum_congr rfl
    intro i hi
    rw [← hbyte w i (Finset.mem_range.mp hi)]
    rfl
  · exact Word.byteAt_eq_shr w hi

/-- A byte in front of a full item is not read, and the last byte of a word is the one that
is picked out of it last. -/
theorem word_conversions_long :
    32 ≤ (Bytes.ofWord 0x1234).size ∧
      (mk (#[0xff] ++ Bytes.ofWord 0x1234)).word = (ofWord 0x1234).word ∧
      (ofWord 0x1234).word = 0x1234 ∧
      ((ofWord 0x1234).bytes.byteAt 31).toNat = (Word.byteAt 31 0x1234).toNat ∧
      Word.byteAt 31 0x1234 = 0x34 := by
  obtain ⟨hitems, hwords⟩ := word_conversions
  obtain ⟨hsize, hback, -, hbytes⟩ := hwords 0x1234
  have hlong : 32 ≤ (Bytes.ofWord 0x1234).size := by rw [Bytes.size_ofWord]; decide
  exact ⟨hlong, (hitems (Bytes.ofWord 0x1234)).2.2.1 hlong #[0xff], hback,
    (hbytes 31 (by decide)).1, by decide⟩

end Element

end WordMachine
