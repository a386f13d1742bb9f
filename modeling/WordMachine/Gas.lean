/-
WordMachine/Gas.lean

Gas figures.  They are estimates that a run reports and never enforces, so
they only have to be added up: by category, in counters of 64 bits that stay
at their largest value instead of wrapping.
-/
import WordMachine.Word

namespace WordMachine

namespace Gas

/-! ### The price list -/

/-- The marker of a jump destination. -/
def jumpDestination : Nat := 1

/-- Constants of the surroundings, and dropping an element. -/
def base : Nat := 2

/-- Simple arithmetic, comparisons, bitwise operations, pushes, copies and
exchanges of stack elements. -/
def veryLow : Nat := 3

/-- Halting with a result. -/
def halt : Nat := 4

/-- Reading a word of memory. -/
def memoryLoad : Nat := 4

/-- Copying a range into memory. -/
def copy : Nat := 4

/-- Multiplication, division and sign extension. -/
def low : Nat := 5

/-- Modular arithmetic and unconditional jumps. -/
def mid : Nat := 8

/-- Conditional jumps, taken or not. -/
def high : Nat := 10

/-- Reading a storage slot. -/
def storageLoad : Nat := 100

/-- The gas a program is told is left. -/
def remaining : Nat := 30000000

/-- The price of a power: fifty, and fifty more for each full byte of the
exponent. -/
def exp (exponent : Word) : Nat := 50 * (1 + exponent.bitLength / 8)

/-- The price of a digest: thirty, and six for each word begun. -/
def keccak (size : Nat) : Nat := 30 + 6 * ((size + 31) / 32)

/-! ### Saturating counters -/

/-- The largest amount a counter of 64 bits can show. -/
def maximum : Nat := 18446744073709551615

/-- The sum of two amounts, or the largest amount if that is less. -/
def add (a b : Nat) : Nat := min (a + b) maximum

end Gas

/-- What an opcode is concerned with. -/
inductive Category where
  | stack
  | arithmetic
  | comparison
  | bitwise
  | hashing
  | environment
  | calldata
  | memory
  | storage
  | controlFlow
  | system
  deriving DecidableEq

namespace Category

/-- All categories, in the order of every report. -/
def all : List Category :=
  [stack, arithmetic, comparison, bitwise, hashing, environment, calldata,
   memory, storage, controlFlow, system]

/-- The place of a category in that order. -/
def index : Category → Fin 11
  | stack => 0
  | arithmetic => 1
  | comparison => 2
  | bitwise => 3
  | hashing => 4
  | environment => 5
  | calldata => 6
  | memory => 7
  | storage => 8
  | controlFlow => 9
  | system => 10

/-- The name of a category in a report. -/
def text : Category → String
  | stack => "Stack"
  | arithmetic => "Arithmetic"
  | comparison => "Comparison"
  | bitwise => "Bitwise"
  | hashing => "Hashing"
  | environment => "Environment"
  | calldata => "Calldata"
  | memory => "Memory"
  | storage => "Storage"
  | controlFlow => "Control Flow"
  | system => "System"

theorem index_injective {a b : Category} (h : a.index = b.index) : a = b := by
  cases a <;> cases b <;> simp_all [index]

/-- Each place is that of one category. -/
theorem map_index_all : all.map index = List.finRange 11 := by decide

end Category

/-- Gas spent, one counter for each category. -/
structure Profile where
  /-- The counters, in the order of the categories. -/
  counts : Vector Nat 11
  deriving DecidableEq

namespace Profile

/-- Nothing spent. -/
def empty : Profile := ⟨Vector.replicate 11 0⟩

/-- The amount spent in one category. -/
def get (p : Profile) (c : Category) : Nat := p.counts[c.index]

/-- Spends an amount in one category. -/
def add (p : Profile) (c : Category) (amount : Nat) : Profile :=
  ⟨p.counts.set c.index (Gas.add (p.get c) amount)⟩

/-- The categories with their amounts, in order. -/
def entries (p : Profile) : List (Category × Nat) :=
  Category.all.zip p.counts.toList

/-- The amount spent in all categories together. -/
def total (p : Profile) : Nat :=
  p.counts.toList.foldl Gas.add 0

@[simp] theorem get_empty (c : Category) : empty.get c = 0 := by
  simp [empty, get]

theorem get_add (p : Profile) (c d : Category) (amount : Nat) :
    (p.add c amount).get d = if d = c then Gas.add (p.get c) amount else p.get d := by
  by_cases h : d = c
  · subst h; simp [add, get]
  · have hne : c.index.val ≠ d.index.val := fun e =>
      h (Category.index_injective (Fin.ext e)).symm
    simp [add, get, h, hne]

theorem toList_counts (p : Profile) : p.counts.toList = Category.all.map p.get := by
  have hplaces : p.counts.toList = (List.finRange 11).map fun i => p.counts[i] := by
    apply List.ext_getElem
    · simp
    · simp
  rw [hplaces, ← Category.map_index_all, List.map_map]
  rfl

theorem entries_eq (p : Profile) : p.entries = Category.all.map fun c => (c, p.get c) := by
  rw [entries, toList_counts, List.map_prod_left_eq_zip]

/-- Profiles that show the same amounts are the same. -/
theorem ext_get {p q : Profile} (h : ∀ c, p.get c = q.get c) : p = q := by
  have hcounts : p.counts.toList = q.counts.toList := by
    rw [toList_counts, toList_counts, funext h]
  exact congrArg Profile.mk (Vector.toList_inj.mp hcounts)

end Profile

end WordMachine
