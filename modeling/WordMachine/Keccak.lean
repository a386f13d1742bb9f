/-
WordMachine/Keccak.lean

The Keccak-256 digest: the sponge of rate 136 bytes over the permutation
Keccak-f[1600], with the padding that begins with a byte `0x01` and ends with
the bit `0x80`.

The state is 25 lanes of 64 bits in five planes of five; a lane is named by
its column `x` within the plane of its row `y`.
-/
import WordMachine.Bytes

namespace WordMachine.Keccak

/-! ### The state -/

/-- Five lanes of one row. -/
structure Plane where
  x0 : UInt64
  x1 : UInt64
  x2 : UInt64
  x3 : UInt64
  x4 : UInt64

/-- The five rows. -/
structure State where
  y0 : Plane
  y1 : Plane
  y2 : Plane
  y3 : Plane
  y4 : Plane

/-- The lanes of two planes added bit by bit. -/
def Plane.add (a b : Plane) : Plane :=
  ⟨a.x0 ^^^ b.x0, a.x1 ^^^ b.x1, a.x2 ^^^ b.x2, a.x3 ^^^ b.x3, a.x4 ^^^ b.x4⟩

/-- The plane of zeros. -/
def Plane.zero : Plane := ⟨0, 0, 0, 0, 0⟩

/-- The state of zeros. -/
def State.zero : State := ⟨.zero, .zero, .zero, .zero, .zero⟩

/-- A lane rotated to the left. -/
def rotate (n x : UInt64) : UInt64 := (x <<< n) ||| (x >>> (64 - n))

/-! ### The permutation -/

/-- Adds to every lane the parities of two neighbouring columns. -/
def theta (s : State) : State :=
  let c := ((s.y0.add s.y1).add (s.y2.add s.y3)).add s.y4
  let d : Plane :=
    ⟨c.x4 ^^^ rotate 1 c.x1, c.x0 ^^^ rotate 1 c.x2, c.x1 ^^^ rotate 1 c.x3,
     c.x2 ^^^ rotate 1 c.x4, c.x3 ^^^ rotate 1 c.x0⟩
  ⟨s.y0.add d, s.y1.add d, s.y2.add d, s.y3.add d, s.y4.add d⟩

/-- Rotates every lane by its own amount and moves it to its new place. -/
def rhoPi (s : State) : State :=
  { y0 := ⟨s.y0.x0, rotate 44 s.y1.x1, rotate 43 s.y2.x2, rotate 21 s.y3.x3,
      rotate 14 s.y4.x4⟩
    y1 := ⟨rotate 28 s.y0.x3, rotate 20 s.y1.x4, rotate 3 s.y2.x0,
      rotate 45 s.y3.x1, rotate 61 s.y4.x2⟩
    y2 := ⟨rotate 1 s.y0.x1, rotate 6 s.y1.x2, rotate 25 s.y2.x3,
      rotate 8 s.y3.x4, rotate 18 s.y4.x0⟩
    y3 := ⟨rotate 27 s.y0.x4, rotate 36 s.y1.x0, rotate 10 s.y2.x1,
      rotate 15 s.y3.x2, rotate 56 s.y4.x3⟩
    y4 := ⟨rotate 62 s.y0.x2, rotate 55 s.y1.x3, rotate 39 s.y2.x4,
      rotate 41 s.y3.x0, rotate 2 s.y4.x1⟩ }

/-- Mixes each lane with the two that follow it in its row. -/
def Plane.chi (p : Plane) : Plane :=
  ⟨p.x0 ^^^ (~~~p.x1 &&& p.x2), p.x1 ^^^ (~~~p.x2 &&& p.x3),
   p.x2 ^^^ (~~~p.x3 &&& p.x4), p.x3 ^^^ (~~~p.x4 &&& p.x0),
   p.x4 ^^^ (~~~p.x0 &&& p.x1)⟩

/-- One round with its constant. -/
def round (s : State) (constant : UInt64) : State :=
  let t := rhoPi (theta s)
  let first := t.y0.chi
  ⟨{ first with x0 := first.x0 ^^^ constant }, t.y1.chi, t.y2.chi, t.y3.chi, t.y4.chi⟩

/-- The constants of the 24 rounds. -/
def constants : List UInt64 :=
  [0x0000000000000001, 0x0000000000008082, 0x800000000000808a, 0x8000000080008000,
   0x000000000000808b, 0x0000000080000001, 0x8000000080008081, 0x8000000000008009,
   0x000000000000008a, 0x0000000000000088, 0x0000000080008009, 0x000000008000000a,
   0x000000008000808b, 0x800000000000008b, 0x8000000000008089, 0x8000000000008003,
   0x8000000000008002, 0x8000000000000080, 0x000000000000800a, 0x800000008000000a,
   0x8000000080008081, 0x8000000000008080, 0x0000000080000001, 0x8000000080008008]

/-- The permutation of the state. -/
def permute (s : State) : State := constants.foldl round s

/-! ### The sponge -/

/-- Bytes taken in between two permutations. -/
def rate : Nat := 136

/-- The byte at a position of the padded message.  `total` is its length. -/
def paddedByte (message : Bytes) (total i : Nat) : UInt8 :=
  let start : UInt8 := if i = message.size then 0x01 else 0
  let stop : UInt8 := if i + 1 = total then 0x80 else 0
  message.byteAt i ||| start ||| stop

/-- Shifts `count` bytes into a lane, from the one furthest from `i` down to
the one at `i`. -/
def laneOnto (message : Bytes) (total i : Nat) (acc : UInt64) : (count : Nat) → UInt64
  | 0 => acc
  | count + 1 =>
    laneOnto message total i
      ((acc <<< 8) ||| (paddedByte message total (i + count)).toUInt64) count

/-- The lane whose eight bytes begin at a position, the lowest byte first. -/
def lane (message : Bytes) (total i : Nat) : UInt64 :=
  laneOnto message total i 0 8

/-- Takes in the block that begins at a position. -/
def absorb (message : Bytes) (total : Nat) (s : State) (i : Nat) : State :=
  let at8 := fun k => lane message total (i + 8 * k)
  permute
    { y0 := s.y0.add ⟨at8 0, at8 1, at8 2, at8 3, at8 4⟩
      y1 := s.y1.add ⟨at8 5, at8 6, at8 7, at8 8, at8 9⟩
      y2 := s.y2.add ⟨at8 10, at8 11, at8 12, at8 13, at8 14⟩
      y3 := s.y3.add ⟨at8 15, at8 16, 0, 0, 0⟩
      y4 := s.y4 }

/-- Takes in `blocks` blocks, the first of them at `i`. -/
def absorbBlocks (message : Bytes) (total : Nat) : (blocks : Nat) → State → Nat → State
  | 0, s, _ => s
  | blocks + 1, s, i =>
    absorbBlocks message total blocks (absorb message total s i) (i + rate)

/-- The bytes of a lane, lowest first. -/
def laneByte (x : UInt64) (k : Nat) : UInt8 := (x >>> UInt64.ofNat (8 * k)).toUInt8

/-- The digest of a byte string. -/
def digest (message : Bytes) : Vector UInt8 32 :=
  let blocks := message.size / rate + 1
  let s := absorbBlocks message (blocks * rate) blocks .zero 0
  let lanes : Vector UInt64 4 := #v[s.y0.x0, s.y0.x1, s.y0.x2, s.y0.x3]
  Vector.ofFn fun i : Fin 32 =>
    laneByte (lanes.get ⟨i.val / 8, by omega⟩) (i.val % 8)

end WordMachine.Keccak
