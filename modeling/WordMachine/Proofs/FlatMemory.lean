/-
WordMachine/Proofs/FlatMemory.lean

Memory as its readers see it.

What reading can find out about memory is an endless string of bytes, zero
wherever nothing has been written.  A `Flat` is such a string, `Memory.flat` is
the one that a memory shows, and `cut` and `put` are all that reads and writes
come to on it (`toArray_slice`, `flat_write`).  How far memory has grown does
not show (`flat_touch`).

So a command is known by its range, by the bytes it writes there and by the
bytes it answers with.  `perform_of_fits` says what it does where memory can
hold the range, `perform_of_not_fits` that otherwise it does nothing.  The
string that a history of commands leaves follows by induction on the history
(`flat_performAll`): at each address it is the byte last written there.

Main result: `refines_flat`, for every history and every command after it.
-/
import WordMachine.Machine.Command
import WordMachine.Proofs.Execution
import Mathlib.Algebra.Group.Nat.Defs

namespace WordMachine

/-- The bytes in a reply, if it was to a read. -/
def Reply.data? : Reply → Option Bytes
  | .bytes data _ => some data
  | _ => none

namespace Memory

/-! ### Endless strings of bytes -/

/-- An endless string of bytes, by address. -/
abbrev Flat := Nat → UInt8

namespace Flat

/-- The `size` bytes from `offset` on. -/
def cut (M : Flat) (offset size : Nat) : Bytes :=
  Array.ofFn fun i : Fin size => M (offset + i.val)

/-- The string with bytes written over it from `offset` on. -/
def put (M : Flat) (offset : Nat) (data : Bytes) : Flat := fun i =>
  if offset ≤ i ∧ i < offset + data.size then data.byteAt (i - offset) else M i

/-- Writing no bytes changes nothing. -/
@[simp] theorem put_empty (M : Flat) (offset : Nat) : M.put offset #[] = M := by
  funext i
  have hout : ¬(offset ≤ i ∧ i < offset + (#[] : Bytes).size) := by
    simp only [List.size_toArray, List.length_nil]
    omega
  exact if_neg hout

end Flat

/-! ### Reads and writes of spans -/

/-- The endless string that memory shows. -/
def flat (m : Memory) : Flat := m.byteAt

section Spans

variable {n : Nat} (m : Memory) (s : Span n)

/-- Growing does not show. -/
@[simp] theorem flat_touch : (m.touch s).flat = m.flat :=
  funext (byteAt_touch m s)

/-- What is read of a span is cut out of the string. -/
theorem toArray_slice : (m.slice s).toArray = m.flat.cut s.offset n :=
  Vector.toArray_ofFn

/-- Writing a span writes over the string. -/
theorem flat_write (data : Vector UInt8 n) :
    (m.write s data).flat = m.flat.put s.offset data.toArray := by
  funext i
  show (m.write s data).byteAt i = _
  rw [byteAt_write]
  unfold Flat.put
  rw [data.size_toArray]
  split
  · next h =>
    have hlt : i - s.offset < data.toArray.size := by
      rw [data.size_toArray]
      omega
    exact Bytes.getElem_eq_byteAt data.toArray (i - s.offset) hlt
  · rfl

end Spans

/-! ### Accesses by offset -/

section Accesses

variable {m : Memory} {offset size : Nat}

theorem ofOffset_of_fits (h : Fits offset size) :
    Span.ofOffset offset size = .ok ⟨offset, h⟩ :=
  dif_pos h

theorem ofOffset_of_not_fits (h : ¬Fits offset size) :
    Span.ofOffset offset size =
      .error (.memoryLimitExceeded (BitVec.ofNat 256 offset) size capacity) :=
  dif_neg h

theorem fetch_of_fits (h : Fits offset size) :
    m.fetch offset size =
      (.ok (m.flat.cut offset size, m.growth ⟨offset, h⟩), m.touch ⟨offset, h⟩) := by
  simp only [fetch, ofOffset_of_fits h, toArray_slice]

theorem fetch_of_not_fits (h : ¬Fits offset size) :
    m.fetch offset size =
      (.error (.memoryLimitExceeded (BitVec.ofNat 256 offset) size capacity), m) := by
  simp only [fetch, ofOffset_of_not_fits h]

theorem store_of_fits {data : Bytes} (h : Fits offset data.size) :
    m.store offset data =
      (.ok (m.growth ⟨offset, h⟩), m.write ⟨offset, h⟩ ⟨data, rfl⟩) := by
  simp only [store, ofOffset_of_fits h]

theorem store_of_not_fits {data : Bytes} (h : ¬Fits offset data.size) :
    m.store offset data =
      (.error (.memoryLimitExceeded (BitVec.ofNat 256 offset) data.size capacity), m) := by
  simp only [store, ofOffset_of_not_fits h]

end Accesses

/-! ### Commands -/

namespace Command

/-- Where the range of a command begins. -/
def offset : Command → Nat
  | .load offset | .fetch offset _ | .store offset _ | .storeByte offset _ => offset
  | .size | .dump | .inline => 0

/-- How many bytes the range of a command has.  Queries get at no byte. -/
def extent : Command → Nat
  | .load _ => 32
  | .fetch _ count => count
  | .store _ data => data.size
  | .storeByte _ _ => 1
  | .size | .dump | .inline => 0

/-- The bytes that a command writes to its range. -/
def written : Command → Bytes
  | .store _ data => data
  | .storeByte _ x => #[x]
  | .load _ | .fetch _ _ | .size | .dump | .inline => #[]

/-- The bytes of its range that a command answers with, if it is a read. -/
def reading? (M : Flat) : Command → Option Bytes
  | .load offset => some (M.cut offset 32)
  | .fetch offset count => some (M.cut offset count)
  | .store _ _ | .storeByte _ _ | .size | .dump | .inline => none

/-- The byte that a command writes at an address, if it writes there and is
not refused. -/
def byteFor? (i : Nat) (c : Command) : Option UInt8 :=
  if Fits c.offset c.extent ∧ c.offset ≤ i ∧ i < c.offset + c.written.size then
    some (c.written.byteAt (i - c.offset))
  else none

end Command

/-- A command whose range fits succeeds, answers with what the string shows
and writes over it. -/
theorem perform_of_fits {c : Command} (m : Memory) (h : Fits c.offset c.extent) :
    ∃ reply, (m.perform c).1 = .ok reply ∧ reply.data? = c.reading? m.flat ∧
      (m.perform c).2.flat = m.flat.put c.offset c.written := by
  cases c with
  | load offset =>
    have hfit : Fits offset 32 := h
    simp only [perform, load, fetch_of_fits hfit]
    exact ⟨_, rfl, rfl, by simp [Command.written]⟩
  | fetch offset size =>
    have hfit : Fits offset size := h
    simp only [perform, fetch_of_fits hfit]
    exact ⟨_, rfl, rfl, by simp [Command.written]⟩
  | store offset data =>
    have hfit : Fits offset data.size := h
    simp only [perform, store_of_fits hfit]
    exact ⟨_, rfl, rfl, flat_write _ _ _⟩
  | storeByte offset x =>
    have hfit : Fits offset (#[x] : Bytes).size := h
    simp only [perform, storeByte, store_of_fits hfit]
    exact ⟨_, rfl, rfl, flat_write _ _ _⟩
  | size => exact ⟨_, rfl, rfl, (Flat.put_empty _ _).symm⟩
  | dump => exact ⟨_, rfl, rfl, (Flat.put_empty _ _).symm⟩
  | inline => exact ⟨_, rfl, rfl, (Flat.put_empty _ _).symm⟩

/-- A command whose range does not fit is refused and does nothing. -/
theorem perform_of_not_fits {c : Command} (m : Memory) (h : ¬Fits c.offset c.extent) :
    m.perform c =
      (.error (.memoryLimitExceeded (BitVec.ofNat 256 c.offset) c.extent capacity), m) := by
  cases c with
  | load offset =>
    have hfit : ¬Fits offset 32 := h
    simp only [perform, load, fetch_of_not_fits hfit]
    rfl
  | fetch offset size =>
    have hfit : ¬Fits offset size := h
    simp only [perform, fetch_of_not_fits hfit]
    rfl
  | store offset data =>
    have hfit : ¬Fits offset data.size := h
    simp only [perform, store_of_not_fits hfit]
    rfl
  | storeByte offset x =>
    have hfit : ¬Fits offset (#[x] : Bytes).size := h
    simp only [perform, storeByte, store_of_not_fits hfit]
    rfl
  | size => exact absurd (.inl rfl) h
  | dump => exact absurd (.inl rfl) h
  | inline => exact absurd (.inl rfl) h

/-! ### Histories -/

/-- Memory after commands performed in order.  One that is refused does not
keep the next from being performed. -/
def performAll (m : Memory) (history : List Command) : Memory :=
  history.foldl (fun m c => (m.perform c).2) m

/-- The byte that a history last wrote at an address, zero if it wrote none. -/
def lastWritten (history : List Command) (i : Nat) : UInt8 :=
  (history.reverse.findSome? (Command.byteFor? i)).getD 0

/-- At each address a command leaves the byte it writes there, or else the one
it found. -/
theorem flat_perform (m : Memory) (c : Command) (i : Nat) :
    (m.perform c).2.flat i = (c.byteFor? i).getD (m.flat i) := by
  unfold Command.byteFor?
  by_cases hfit : Fits c.offset c.extent
  · obtain ⟨_, _, _, hflat⟩ := perform_of_fits m hfit
    rw [hflat, Flat.put]
    simp only [hfit, true_and]
    split <;> rfl
  · rw [perform_of_not_fits m hfit]
    simp only [hfit, false_and, if_false]
    rfl

theorem flat_performAll (m : Memory) (history : List Command) (i : Nat) :
    (m.performAll history).flat i =
      (history.reverse.findSome? (Command.byteFor? i)).getD (m.flat i) := by
  induction history generalizing m with
  | nil => rfl
  | cons c history ih =>
    -- the first command counts only where no later one has written
    have hfirst : (m.performAll (c :: history)).flat i =
        ((m.perform c).2.performAll history).flat i := rfl
    rw [hfirst, ih, flat_perform, List.reverse_cons, List.findSome?_append]
    cases history.reverse.findSome? (Command.byteFor? i) with
    | some x => rfl
    | none =>
      rw [Option.none_or, List.findSome?_singleton]
      rfl

/-- **Memory refines an endless string of zeros.**

Whatever commands have been performed on untouched memory, it shows at each
address the byte that was last written there, or zero.  The next command
succeeds just if its range is empty or ends within 16 MiB.  Refused, it says
which range it was and leaves memory as it is.  Otherwise it answers with what
is shown in its range, if it is a read, and changes what is shown to the bytes
it writes, in its range and nowhere else; a read writes none. -/
theorem refines_flat (history : List Command) (c : Command) :
    let m := empty.performAll history
    let left := (m.perform c).2
    (∀ i, m.flat i = lastWritten history i) ∧
      ((m.perform c).1.isOk = true ↔ c.extent = 0 ∨ c.offset + c.extent ≤ 2 ^ 24) ∧
      (∀ f, (m.perform c).1 = .error f →
        f = .memoryLimitExceeded (BitVec.ofNat 256 c.offset) c.extent (2 ^ 24) ∧
          left = m) ∧
      ∀ reply, (m.perform c).1 = .ok reply →
        reply.data? = c.reading? m.flat ∧
          left.flat = m.flat.put c.offset c.written := by
  intro m left
  refine ⟨flat_performAll empty history, ?_⟩
  by_cases hfit : Fits c.offset c.extent
  · obtain ⟨reply, hok, hdata, hflat⟩ := perform_of_fits m hfit
    rw [hok]
    refine ⟨iff_of_true rfl hfit, nofun, ?_⟩
    rintro _ ⟨⟩
    exact ⟨hdata, hflat⟩
  · have href := perform_of_not_fits m hfit
    have hleft : left = m := congrArg Prod.snd href
    rw [href]
    refine ⟨iff_of_false Bool.false_ne_true hfit, ?_, nofun⟩
    rintro _ ⟨⟩
    exact ⟨rfl, hleft⟩

/-- Two stores that overlap, between them a read that no memory can hold, and
a read across both. -/
theorem refines_flat_overlap :
    let history : List Command :=
      [.store 3 #[0xaa, 0xbb], .fetch 18446744073709551615 2, .storeByte 4 0xcc]
    let m := empty.performAll history
    (m.perform (.fetch 2 4)).1 = .ok (.bytes #[0x00, 0xaa, 0xcc, 0x00] 0) ∧
      m.flat 4 = lastWritten history 4 ∧
      some #[0x00, 0xaa, 0xcc, 0x00] = some (m.flat.cut 2 4) ∧
      (m.perform (.fetch 2 4)).2.flat = m.flat.put 2 #[] := by
  intro history m
  have hok : (m.perform (.fetch 2 4)).1 = .ok (.bytes #[0x00, 0xaa, 0xcc, 0x00] 0) := by
    decide +kernel
  have h := refines_flat history (.fetch 2 4)
  exact ⟨hok, h.1 4, h.2.2.2 _ hok⟩

end Memory

end WordMachine
