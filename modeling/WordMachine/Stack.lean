/-
WordMachine/Stack.lean

The operand stack: a list of elements whose head is the top.

Every operation that takes elements goes through one function, `split?`, which
hands out the topmost `n` elements together with the stack below them, or
nothing if there are fewer.  So an operation either finds all it needs or
leaves the stack as it was, and its fault says how many elements it needed and
how many there were.  Operations that can fail answer with their result and
the stack they leave.
-/
import WordMachine.Element
import WordMachine.Fault

namespace WordMachine

/-- An operand stack. -/
structure Stack where
  /-- The elements, top first. -/
  items : List Element
  deriving DecidableEq

namespace Stack

/-- The stack without elements. -/
def empty : Stack := ⟨[]⟩

/-- The number of elements. -/
def depth (s : Stack) : Nat := s.items.length

/-- The topmost `n` elements, top first, and the stack below them. -/
def split? (s : Stack) (n : Nat) : Option (Vector Element n × Stack) :=
  if h : (s.items.take n).length = n then
    some (⟨(s.items.take n).toArray, by simpa using h⟩, ⟨s.items.drop n⟩)
  else none

/-- What a stack answers that has fewer than `n` elements. -/
def underflow (s : Stack) (n : Nat) : Fault := .stackUnderflow n s.depth

/-! ### Pushing -/

/-- Puts an element on top. -/
def push (s : Stack) (e : Element) : Stack := ⟨e :: s.items⟩

/-- Puts a word on top. -/
def pushWord (s : Stack) (w : Word) : Stack := s.push (.ofWord w)

/-- Puts several elements on top, the first of them topmost. -/
def pushAll (s : Stack) (es : List Element) : Stack := ⟨es ++ s.items⟩

/-! ### Taking -/

/-- Takes the topmost `n` elements, top first. -/
def popMany (n : Nat) (s : Stack) : Except Fault (Vector Element n) × Stack :=
  match s.split? n with
  | some (es, rest) => (.ok es, rest)
  | none => (.error (s.underflow n), s)

/-- Takes the top element. -/
def pop (s : Stack) : Except Fault Element × Stack :=
  match s.popMany 1 with
  | (result, rest) => (result.map (·[0]), rest)

/-- Takes the top element as a word. -/
def popWord (s : Stack) : Except Fault Word × Stack :=
  match s.pop with
  | (result, rest) => (result.map Element.word, rest)

/-! ### Looking and rearranging -/

/-- The element `n` places below the top. -/
def peekAt (n : Nat) (s : Stack) : Except Fault Element :=
  match s.items[n]? with
  | some e => .ok e
  | none => .error (s.underflow (n + 1))

/-- The top element. -/
def peek (s : Stack) : Except Fault Element := s.peekAt 0

/-- Pushes a copy of the `n`-th element, the top being the first; zero means
the first as well. -/
def dup (n : Nat) (s : Stack) : Except Fault Unit × Stack :=
  match s.items[max n 1 - 1]? with
  | some e => (.ok (), s.push e)
  | none => (.error (s.underflow (max n 1)), s)

/-- Exchanges the top with the element `n` places below it. -/
def swap (n : Nat) (s : Stack) : Except Fault Unit × Stack :=
  match s.split? (n + 1) with
  | some (es, rest) => (.ok (), rest.pushAll (es.swap 0 n).toList)
  | none => (.error (s.underflow (n + 1)), s)

/-! ### Text -/

/-- The dump of a stack: its depth and a line for each element, top first. -/
def text (s : Stack) : String :=
  s.items.foldl (fun out e => out ++ "\n  - " ++ e.text)
    (toString s.depth ++ " elems:")

/-- The elements on one line, top first. -/
def inline (s : Stack) : String :=
  "[" ++ ", ".intercalate (s.items.map fun e => e.bytes.labelled "Element") ++ "]"

/-! ### When a stack can be split -/

theorem split?_eq_none_iff (s : Stack) (n : Nat) : s.split? n = none ↔ s.depth < n := by
  simp only [split?, depth, List.length_take]
  split <;> simp <;> omega

/-- The two parts of a split put together again. -/
theorem items_of_split? {s rest : Stack} {n : Nat} {es : Vector Element n}
    (h : s.split? n = some (es, rest)) : s.items = es.toList ++ rest.items := by
  unfold split? at h
  split at h
  · simp only [Option.some.injEq, Prod.mk.injEq] at h
    obtain ⟨rfl, rfl⟩ := h
    simp
  · cases h

/-- A stack put together from `n` elements and a rest splits into them. -/
theorem split?_pushAll (s : Stack) {n : Nat} (es : Vector Element n) :
    (s.pushAll es.toList).split? n = some (es, s) := by
  have hlen : es.toList.length = n := by simp
  simp only [split?, pushAll, List.take_left' hlen, List.drop_left' hlen, hlen,
    dif_pos, Option.some.injEq, Prod.mk.injEq, and_true]
  apply Vector.toArray_inj.mp
  simp [Vector.toList]

end Stack

end WordMachine
