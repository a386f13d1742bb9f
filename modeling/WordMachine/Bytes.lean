/-
WordMachine/Bytes.lean

Byte strings.  Code, call data, memory and stack elements are all byte
strings, and every reader of them follows one rule: past its end a string
continues with zeros for ever.  `byteAt` is that endless string and `window`
cuts a piece out of it.

Numbers are written big-endian: `value` reads a string of any length, and
`ofWord` writes a word in exactly 32 bytes.
-/
import WordMachine.Word

namespace WordMachine

/-- A byte string. -/
abbrev Bytes := Array UInt8

namespace Bytes

/-- Bytes of one machine word. -/
def wordSize : Nat := 32

/-- The byte at a position of the string continued by zeros. -/
def byteAt (b : Bytes) (i : Nat) : UInt8 := b.getD i 0

/-- The `size` bytes from `offset` on of the string continued by zeros: what there is
of the string, up to its end or the last offset, and zeros behind it. -/
def window (b : Bytes) (offset size : Nat) : Bytes :=
  if offset < b.size then
    let piece := b.extract offset (min (Word.offsetAdd offset size) b.size)
    piece ++ Array.replicate (size - piece.size) 0
  else Array.replicate size 0

/-- The string as a big-endian number. -/
def value (b : Bytes) : Nat :=
  b.foldl (fun n x => 256 * n + x.toNat) 0

/-- A word as 32 bytes, most significant first. -/
def ofWord (w : Word) : Bytes :=
  Array.ofFn fun i : Fin wordSize => UInt8.ofNat (w.toNat >>> (8 * (31 - i.val)))

/-- The last 32 bytes of the string, with zeros in front of a shorter one. -/
def lastWord (b : Bytes) : Bytes :=
  Array.ofFn fun i : Fin wordSize =>
    if wordSize ≤ i.val + b.size then b.byteAt (i.val + b.size - wordSize) else 0

/-- The string as a word: its last 32 bytes decide. -/
def toWord (b : Bytes) : Word := BitVec.ofNat 256 b.lastWord.value

/-! ### The endless string -/

theorem getElem_eq_byteAt (b : Bytes) (i : Nat) (h : i < b.size) : b[i] = b.byteAt i := by
  simp [byteAt, Array.getD_eq_getD_getElem?, h]

/-- Past its end a string continues with zeros. -/
theorem byteAt_of_size_le {b : Bytes} {i : Nat} (h : b.size ≤ i) : b.byteAt i = 0 := by
  simp [byteAt, Array.getD_eq_getD_getElem?, Array.getElem?_eq_none h]

/-- A string is its size and the endless string it is continued to. -/
theorem ext_byteAt {a b : Bytes} (hsize : a.size = b.size)
    (h : ∀ i < a.size, a.byteAt i = b.byteAt i) : a = b := by
  apply Array.ext hsize
  intro i ha hb
  rw [getElem_eq_byteAt, getElem_eq_byteAt, h i ha]

/-- Zeros behind a string are there already. -/
@[simp] theorem byteAt_append_zeros (b : Bytes) (k i : Nat) :
    byteAt (b ++ Array.replicate k 0) i = b.byteAt i := by
  simp only [byteAt, Array.getD_eq_getD_getElem?, Array.getElem?_append, Array.getElem?_replicate]
  by_cases h : i < b.size
  · simp [h]
  · simp only [h, if_false, Array.getElem?_eq_none (Nat.le_of_not_lt h)]
    split <;> rfl

@[simp] theorem byteAt_zeros (k i : Nat) : byteAt (Array.replicate k 0) i = 0 := by
  simp only [byteAt, Array.getD_eq_getD_getElem?, Array.getElem?_replicate]
  split <;> rfl

theorem byteAt_extract (b : Bytes) {start stop : Nat} (hstop : stop ≤ b.size) (i : Nat) :
    byteAt (b.extract start stop) i = if start + i < stop then b.byteAt (start + i) else 0 := by
  simp only [byteAt, Array.getD_eq_getD_getElem?, Array.getElem?_extract,
    Nat.min_eq_left hstop]
  by_cases h : start + i < stop
  · rw [if_pos h, if_pos (by omega)]
  · rw [if_neg h, if_neg (by omega)]
    rfl

/-! ### Windows and words -/

@[simp] theorem size_window (b : Bytes) (offset size : Nat) :
    (b.window offset size).size = size := by
  unfold window
  split
  · have hend : Word.offsetAdd offset size ≤ offset + size := Nat.min_le_left _ _
    simp only [Array.size_append, Array.size_replicate, Array.size_extract]
    omega
  · exact Array.size_replicate

/-- A window is a piece of the endless string, and ends before the last offset. -/
theorem byteAt_window_eq_ite (b : Bytes) (offset size i : Nat) :
    (b.window offset size).byteAt i =
      if i < size ∧ offset + i < Word.offsetBound - 1 then b.byteAt (offset + i) else 0 := by
  unfold window
  split
  · rw [byteAt_append_zeros, byteAt_extract b (Nat.min_le_right _ _)]
    unfold Word.offsetAdd
    by_cases hend : offset + i < b.size
    · have hpiece : offset + i < min (min (offset + size) (Word.offsetBound - 1)) b.size ↔
          i < size ∧ offset + i < Word.offsetBound - 1 := by omega
      simp only [hpiece]
    · rw [byteAt_of_size_le (Nat.le_of_not_lt hend), ite_self, ite_self]
  · next hstart =>
    have hpast : b.size ≤ offset + i := by omega
    rw [byteAt_zeros, byteAt_of_size_le hpast, ite_self]

/-- Nothing is lost at the last offset of a string that ends before it. -/
theorem byteAt_window {b : Bytes} (hb : b.size < Word.offsetBound) (offset : Nat)
    {size i : Nat} (h : i < size) : (b.window offset size).byteAt i = b.byteAt (offset + i) := by
  rw [byteAt_window_eq_ite]
  by_cases hlast : offset + i < Word.offsetBound - 1
  · rw [if_pos ⟨h, hlast⟩]
  · rw [byteAt_of_size_le (by omega), ite_self]

@[simp] theorem size_ofWord (w : Word) : (ofWord w).size = wordSize := by
  simp [ofWord]

@[simp] theorem size_lastWord (b : Bytes) : b.lastWord.size = wordSize := by
  simp [lastWord]

end Bytes

end WordMachine
