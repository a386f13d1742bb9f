/-
WordMachine/Memory.lean

Byte-addressed memory that grows by whole words of 32 bytes, up to 16 MiB.

To a reader memory is an endless string of zeros with the bytes written so
far in it: `byteAt` gives that string.  What grows is only the size that
programs can ask for.  Every access to a range that is not empty, reads
included, first extends memory to the end of the word in which the range ends.

Design.  A range that memory can hold is a value, `Span`, and only spans are
read and written; a fault can arise only where a span is made from an offset
and a size.  The sizes that an extension can lead to are written into the type
of memories: a multiple of 32, at most the capacity.
-/
import WordMachine.Element
import WordMachine.Fault

namespace WordMachine

namespace Memory

/-- The largest size of memory in bytes, 16 MiB. -/
def capacity : Nat := 16777216

/-- Whether memory can hold `size` bytes at `offset`.  An empty range always
fits. -/
def Fits (offset size : Nat) : Prop := size = 0 ∨ offset + size ≤ capacity

instance (offset size : Nat) : Decidable (Fits offset size) :=
  inferInstanceAs (Decidable (size = 0 ∨ offset + size ≤ capacity))

/-- The size in bytes at which memory first covers a range. -/
def coverage (offset size : Nat) : Nat :=
  if size = 0 then 0 else (offset + size + 31) / 32 * 32

theorem coverage_mod (offset size : Nat) : coverage offset size % 32 = 0 := by
  unfold coverage
  split
  · rfl
  · simp

theorem coverage_le {offset size : Nat} (h : Fits offset size) :
    coverage offset size ≤ capacity := by
  unfold Fits at h
  unfold coverage
  split
  · simp
  · simp only [capacity] at h ⊢
    omega

end Memory

/-- A range of `size` bytes that memory can hold. -/
structure Span (size : Nat) where
  /-- Where the range begins. -/
  offset : Nat
  fits : Memory.Fits offset size

namespace Span

/-- The range that begins at an offset.  The fault repeats offset and size. -/
def ofOffset (offset size : Nat) : Except Fault (Span size) :=
  if h : Memory.Fits offset size then .ok ⟨offset, h⟩
  else .error (.memoryLimitExceeded (BitVec.ofNat 256 offset) size Memory.capacity)

/-- The range that begins where a word says.  A word too large to be an offset
is refused even for an empty range. -/
def ofWord (offset : Word) (size : Nat) : Except Fault (Span size) :=
  if h : offset.toNat < Word.offsetBound ∧ Memory.Fits offset.toNat size then
    .ok ⟨offset.toNat, h.2⟩
  else .error (.memoryLimitExceeded offset size Memory.capacity)

/-- The range that begins where a word says, with an empty range accepted
wherever it is said to be. -/
def ofRange (offset : Word) (size : Nat) : Except Fault (Span size) :=
  if h : size = 0 then .ok ⟨0, .inl h⟩ else ofWord offset size

end Span

/-- Memory: the bytes within the size it has grown to. -/
structure Memory where
  bytes : Bytes
  size_mod : bytes.size % 32 = 0
  size_le : bytes.size ≤ Memory.capacity
  deriving DecidableEq

namespace Memory

/-- Memory that nothing has touched. -/
def empty : Memory := ⟨#[], rfl, by simp⟩

/-- The size in bytes. -/
def size (m : Memory) : Nat := m.bytes.size

/-- The size in words. -/
def wordCount (m : Memory) : Nat := m.size / 32

/-- The byte at an address, zero where memory has not grown to. -/
def byteAt (m : Memory) (i : Nat) : UInt8 := m.bytes.byteAt i

/-! ### Growth -/

/-- Memory grown to cover a range. -/
def touch {n : Nat} (m : Memory) (s : Span n) : Memory where
  bytes := m.bytes ++ Array.replicate (coverage s.offset n - m.size) 0
  size_mod := by
    have h₁ := m.size_mod
    have h₂ := coverage_mod s.offset n
    simp only [Array.size_append, Array.size_replicate, size]
    omega
  size_le := by
    have h₁ := m.size_le
    have h₂ := coverage_le s.fits
    simp only [Array.size_append, Array.size_replicate, size]
    omega

/-- The number of words by which memory grows to cover a range. -/
def growth {n : Nat} (m : Memory) (s : Span n) : Nat :=
  (coverage s.offset n - m.size) / 32

/-! ### Reading and writing -/

/-- The bytes of a range. -/
def slice {n : Nat} (m : Memory) (s : Span n) : Vector UInt8 n :=
  Vector.ofFn fun i : Fin n => m.byteAt (s.offset + i.val)

/-- Overwrites an array from a position on; what does not fit is dropped. -/
def overwrite (a : Bytes) (i : Nat) : List UInt8 → Bytes
  | [] => a
  | x :: xs => overwrite (a.setIfInBounds i x) (i + 1) xs

@[simp] theorem size_overwrite (a : Bytes) (i : Nat) (xs : List UInt8) :
    (overwrite a i xs).size = a.size := by
  induction xs generalizing a i with
  | nil => rfl
  | cons x xs ih => simp [overwrite, ih]

/-- Memory grown to cover a range and overwritten there. -/
def write {n : Nat} (m : Memory) (s : Span n) (data : Vector UInt8 n) : Memory :=
  let grown := m.touch s
  { bytes := overwrite grown.bytes s.offset data.toList
    size_mod := by simpa using grown.size_mod
    size_le := by simpa using grown.size_le }

/-! ### What the accesses do to the endless string -/

theorem size_touch {n : Nat} (m : Memory) (s : Span n) :
    (m.touch s).size = max m.size (coverage s.offset n) := by
  simp only [touch, size, Array.size_append, Array.size_replicate]
  omega

/-- Writing makes memory as large as growing alone. -/
theorem size_write {n : Nat} (m : Memory) (s : Span n) (data : Vector UInt8 n) :
    (m.write s data).size = max m.size (coverage s.offset n) := by
  rw [← size_touch]
  exact size_overwrite _ _ _

/-- The words by which writing makes memory grow are those that are reported. -/
theorem wordCount_write {n : Nat} (m : Memory) (s : Span n) (data : Vector UInt8 n) :
    (m.write s data).wordCount = m.wordCount + m.growth s := by
  have hwhole : m.size % 32 = 0 := m.size_mod
  have hcover := coverage_mod s.offset n
  unfold wordCount growth
  rw [size_write]
  omega

/-- Growing changes no byte: what is added is the zeros that were read there
before. -/
@[simp] theorem byteAt_touch {n : Nat} (m : Memory) (s : Span n) (i : Nat) :
    (m.touch s).byteAt i = m.byteAt i :=
  Bytes.byteAt_append_zeros _ _ _

theorem getElem_slice {n : Nat} (m : Memory) (s : Span n) (i : Nat) (h : i < n) :
    (m.slice s)[i] = m.byteAt (s.offset + i) := by
  simp [slice]

/-- Overwriting changes the bytes at its places and no others. -/
theorem getElem?_overwrite (a : Bytes) (i : Nat) (xs : List UInt8) (j : Nat)
    (h : i + xs.length ≤ a.size) :
    (overwrite a i xs)[j]? =
      if i ≤ j ∧ j < i + xs.length then xs[j - i]? else a[j]? := by
  induction xs generalizing a i with
  | nil =>
    have hout : ¬(i ≤ j ∧ j < i + ([] : List UInt8).length) := by simp
    rw [if_neg hout, overwrite]
  | cons x xs ih =>
    simp only [List.length_cons] at h
    rw [overwrite, ih (a.setIfInBounds i x) (i + 1) (by simp; omega)]
    by_cases hlater : i + 1 ≤ j ∧ j < i + 1 + xs.length
    · have hin : i ≤ j ∧ j < i + (x :: xs).length := by simp; omega
      have hsub : j - i = j - (i + 1) + 1 := by omega
      rw [if_pos hlater, if_pos hin, hsub, List.getElem?_cons_succ]
    · rw [if_neg hlater, Array.getElem?_setIfInBounds]
      by_cases hj : i = j
      · subst hj
        have hin : i ≤ i ∧ i < i + (x :: xs).length := by simp
        have hsize : i < a.size := by omega
        simp [hsize]
      · have hout : ¬(i ≤ j ∧ j < i + (x :: xs).length) := by simp; omega
        rw [if_neg hj, if_neg hout]

/-- A range that fits lies within memory once memory has grown to cover it. -/
theorem offset_add_le_size_touch {n : Nat} (m : Memory) (s : Span n) (h : n ≠ 0) :
    s.offset + n ≤ (m.touch s).size := by
  have : s.offset + n ≤ coverage s.offset n := by
    simp only [coverage, h, if_false]
    omega
  rw [size_touch]
  omega

/-- Writing changes the bytes of its range to the bytes written, and no
others. -/
theorem byteAt_write {n : Nat} (m : Memory) (s : Span n) (data : Vector UInt8 n)
    (j : Nat) :
    (m.write s data).byteAt j =
      if h : s.offset ≤ j ∧ j < s.offset + n then data[j - s.offset] else m.byteAt j := by
  by_cases hn : n = 0
  · subst hn
    have hnil : data.toList = [] := by simp
    have : ¬(s.offset ≤ j ∧ j < s.offset + 0) := by omega
    rw [dif_neg this, ← byteAt_touch m s j]
    simp [write, byteAt, hnil, overwrite]
  · have hfit := offset_add_le_size_touch m s hn
    have hlen : data.toList.length = n := by simp
    simp only [byteAt, write, Bytes.byteAt, Array.getD_eq_getD_getElem?]
    rw [getElem?_overwrite _ _ _ _ (by rw [hlen]; exact hfit), hlen]
    by_cases h : s.offset ≤ j ∧ j < s.offset + n
    · have hsub : j - s.offset < n := by omega
      rw [if_pos h, dif_pos h]
      simp [hsub]
    · rw [if_neg h, dif_neg h]
      simpa [byteAt, Bytes.byteAt, Array.getD_eq_getD_getElem?] using byteAt_touch m s j

/-! ### Accesses by offset

Each answers with its result and the memory it leaves; one that fails leaves
memory as it was.  The number in a result is that of the words memory grew
by. -/

/-- Reads the `size` bytes at `offset`. -/
def fetch (offset size : Nat) (m : Memory) : Except Fault (Bytes × Nat) × Memory :=
  match Span.ofOffset offset size with
  | .error f => (.error f, m)
  | .ok s =>
    let answer := ((m.slice s).toArray, m.growth s)
    (.ok answer, m.touch s)

/-- Reads the word at `offset`. -/
def load (offset : Nat) (m : Memory) : Except Fault (Bytes × Nat) × Memory :=
  m.fetch offset 32

/-- Writes a byte string at `offset`. -/
def store (offset : Nat) (data : Bytes) (m : Memory) : Except Fault Nat × Memory :=
  match Span.ofOffset offset data.size with
  | .error f => (.error f, m)
  | .ok s =>
    let grown := m.growth s
    (.ok grown, m.write s ⟨data, rfl⟩)

/-- Writes one byte at `offset`. -/
def storeByte (offset : Nat) (x : UInt8) (m : Memory) : Except Fault Nat × Memory :=
  m.store offset #[x]

/-! ### Text -/

/-- One line of a dump: an address and the 32 bytes from there on. -/
def row (m : Memory) (word : Nat) : String :=
  "\n  0x" ++ Text.Hex.number 4 (32 * word) ++ ": "
    ++ String.ofList (Text.Hex.digits (m.bytes.window (32 * word) 32))

/-- The dump of memory: its size and a line for each word. -/
def text (m : Memory) : String :=
  (List.range m.wordCount).foldl (fun out word => out ++ m.row word)
    (toString m.size ++ " bytes:")

/-- The size of memory, labelled. -/
def inline (m : Memory) : String := "Memory(" ++ toString m.wordCount ++ " words)"

end Memory

end WordMachine
