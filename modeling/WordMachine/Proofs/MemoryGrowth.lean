/-
WordMachine/Proofs/MemoryGrowth.lean

How far memory grows, and what it says about that.

Commands performed one after the other leave a journal: each command with the
answer it got.  Two figures are read off a journal.  `totalGrowth` adds up the
words that the answers report, and `highWater` is the furthest end of a range
that has been accessed.  Neither of them looks at memory.

One command makes memory cover its range and reports the difference
(`size_perform`, `growth_perform`), so a whole history leaves memory as large
as its high-water mark demands (`size_performAll`).  How far a command reaches
hangs on the command alone, since it is refused or not whatever memory is like
(`reach_perform`); this is why the order of commands does not matter.

Main result: `growth_accounted`.
-/
import WordMachine.Proofs.FlatMemory

namespace WordMachine

namespace Memory

/-! ### Journals -/

/-- A command with the answer it got. -/
structure Entry where
  command : Command
  answer : Except Fault Reply

/-- Commands performed in order, with their answers. -/
def journal (m : Memory) : List Command → List Entry
  | [] => []
  | c :: history => ⟨c, (m.perform c).1⟩ :: journal (m.perform c).2 history

namespace Entry

/-- The words by which memory has grown according to the answer.  A refusal
reports none. -/
def growth (e : Entry) : Nat :=
  match e.answer with
  | .ok (.bytes _ n) => n
  | .ok (.growth n) => n
  | _ => 0

/-- Where the range ends that has been accessed, zero if the command has failed
or its range is empty. -/
def reach (e : Entry) : Nat :=
  if e.answer.isOk = true ∧ e.command.extent ≠ 0 then e.command.offset + e.command.extent
  else 0

end Entry

/-- The words reported in a journal, added up. -/
def totalGrowth : List Entry → Nat
  | [] => 0
  | e :: journal => e.growth + totalGrowth journal

/-- The furthest end of a range accessed in a journal, zero if there is none. -/
def highWater : List Entry → Nat
  | [] => 0
  | e :: journal => max e.reach (highWater journal)

/-! ### One command -/

/-- The size of the words that are begun within so many bytes. -/
def wholeWords (n : Nat) : Nat := 32 * ((n + 31) / 32)

theorem wholeWords_max (a b : Nat) :
    wholeWords (max a b) = max (wholeWords a) (wholeWords b) := by
  unfold wholeWords
  omega

/-- How far a command reaches if nothing but its range and the capacity of
memory is asked. -/
def Command.reach (c : Command) : Nat :=
  if Fits c.offset c.extent ∧ c.extent ≠ 0 then c.offset + c.extent else 0

theorem coverage_eq_wholeWords {c : Command} (h : Fits c.offset c.extent) :
    coverage c.offset c.extent = wholeWords c.reach := by
  unfold coverage Command.reach wholeWords
  by_cases hempty : c.extent = 0
  · rw [if_pos hempty, if_neg (fun hand => hand.2 hempty)]
  · rw [if_neg hempty, if_pos ⟨h, hempty⟩, Nat.mul_comm]

section Commands

variable (m : Memory) (c : Command)

/-- Whether a command succeeds hangs on its range only. -/
theorem isOk_perform_iff : (m.perform c).1.isOk = true ↔ Fits c.offset c.extent := by
  by_cases hfit : Fits c.offset c.extent
  · obtain ⟨reply, hok, _, _⟩ := perform_of_fits m hfit
    rw [hok]
    exact iff_of_true rfl hfit
  · rw [perform_of_not_fits m hfit]
    exact iff_of_false Bool.false_ne_true hfit

theorem reach_perform : Entry.reach ⟨c, (m.perform c).1⟩ = c.reach := by
  simp only [Entry.reach, Command.reach, isOk_perform_iff]

/-- A command that fits makes memory cover its range and reports the words that
were missing. -/
theorem perform_covers {c : Command} (h : Fits c.offset c.extent) :
    (m.perform c).2.size = max m.size (coverage c.offset c.extent) ∧
      Entry.growth ⟨c, (m.perform c).1⟩ = (coverage c.offset c.extent - m.size) / 32 := by
  -- a query covers the empty range, and so leaves memory as large as it was
  have hquery : m.size = max m.size (coverage 0 0) ∧ 0 = (coverage 0 0 - m.size) / 32 := by
    have hnone : coverage 0 0 = 0 := rfl
    rw [hnone]
    omega
  cases c with
  | load offset =>
    have hfit : Fits offset 32 := h
    simp only [perform, load, fetch_of_fits hfit]
    exact ⟨size_touch m _, rfl⟩
  | fetch offset size =>
    have hfit : Fits offset size := h
    simp only [perform, fetch_of_fits hfit]
    exact ⟨size_touch m _, rfl⟩
  | store offset data =>
    have hfit : Fits offset data.size := h
    simp only [perform, store_of_fits hfit]
    exact ⟨size_write m _ _, rfl⟩
  | storeByte offset x =>
    have hfit : Fits offset (#[x] : Bytes).size := h
    simp only [perform, storeByte, store_of_fits hfit]
    exact ⟨size_write m _ _, rfl⟩
  | size => exact hquery
  | dump => exact hquery
  | inline => exact hquery

/-- Every command leaves memory large enough for what it has accessed. -/
theorem size_perform : (m.perform c).2.size = max m.size (wholeWords c.reach) := by
  by_cases hfit : Fits c.offset c.extent
  · rw [(perform_covers m hfit).1, coverage_eq_wholeWords hfit]
  · have hreach : c.reach = 0 := if_neg fun hand => hfit hand.1
    rw [perform_of_not_fits m hfit, hreach]
    exact (Nat.max_zero _).symm

/-- The words reported are those that memory has grown by. -/
theorem growth_perform :
    Entry.growth ⟨c, (m.perform c).1⟩ + m.wordCount = (m.perform c).2.wordCount := by
  by_cases hfit : Fits c.offset c.extent
  · obtain ⟨hsize, hgrowth⟩ := perform_covers m hfit
    have hwhole : m.size % 32 = 0 := m.size_mod
    have hcover := coverage_mod c.offset c.extent
    unfold wordCount
    rw [hgrowth, hsize]
    omega
  · rw [perform_of_not_fits m hfit]
    exact Nat.zero_add _

end Commands

/-! ### Histories -/

theorem totalGrowth_journal (m : Memory) (history : List Command) :
    totalGrowth (m.journal history) + m.wordCount = (m.performAll history).wordCount := by
  induction history generalizing m with
  | nil => exact Nat.zero_add _
  | cons c history ih =>
    have hrest := ih (m.perform c).2
    have hfirst := growth_perform m c
    show _ + totalGrowth (journal (m.perform c).2 history) + _ =
      ((m.perform c).2.performAll history).wordCount
    omega

theorem highWater_journal (m : Memory) (history : List Command) :
    highWater (m.journal history) = (history.map Command.reach).foldr max 0 := by
  induction history generalizing m with
  | nil => rfl
  | cons c history ih =>
    rw [journal, highWater, ih, reach_perform, List.map_cons, List.foldr_cons]

/-- Memory is as large as the furthest command demands, unless it was larger
before. -/
theorem size_performAll (m : Memory) (history : List Command) :
    (m.performAll history).size = max m.size (wholeWords (highWater (m.journal history))) := by
  induction history generalizing m with
  | nil =>
    show m.size = max m.size (wholeWords 0)
    exact (Nat.max_zero _).symm
  | cons c history ih =>
    have hfirst : m.performAll (c :: history) = (m.perform c).2.performAll history := rfl
    rw [hfirst, ih, size_perform, journal, highWater, reach_perform, wholeWords_max,
      Nat.max_assoc]

theorem size_performAll_empty (history : List Command) :
    (empty.performAll history).size = wholeWords (highWater (empty.journal history)) := by
  rw [size_performAll]
  exact Nat.zero_max _

theorem highWater_perm {history reordered : List Command} (h : reordered.Perm history) :
    highWater (empty.journal reordered) = highWater (empty.journal history) := by
  rw [highWater_journal, highWater_journal]
  exact (h.map Command.reach).foldr_eq' (fun x _ y _ z => Nat.max_left_comm y x z) 0

/-- **The growth of memory is accounted for.**

Whatever commands have been performed on untouched memory, refused ones among
them, the words that the answers report add up to the words there are, and the
size is that of the words begun before the furthest end of a range that has
been accessed.  So it is a multiple of 32, and at most 16 MiB.

Further commands never make memory smaller.  Nor does the order matter: a
command is refused or not whatever has been performed before it, and the same
commands in another order leave memory as large. -/
theorem growth_accounted (history : List Command) :
    let m := empty.performAll history
    let journal := empty.journal history
    totalGrowth journal = m.wordCount ∧
      m.size = 32 * ((highWater journal + 31) / 32) ∧
      m.size % 32 = 0 ∧ m.size ≤ 2 ^ 24 ∧
      (∀ more, m.size ≤ (empty.performAll (history ++ more)).size) ∧
      (∀ before c, ((empty.performAll before).perform c).1.isOk = (m.perform c).1.isOk) ∧
      ∀ reordered, reordered.Perm history →
        (empty.performAll reordered).size = m.size := by
  intro m journal
  refine ⟨totalGrowth_journal empty history, size_performAll_empty history, m.size_mod,
    m.size_le, ?_, ?_, ?_⟩
  · intro more
    have hmore : empty.performAll (history ++ more) = m.performAll more := List.foldl_append
    rw [hmore, size_performAll m more]
    exact Nat.le_max_left _ _
  · intro before c
    rw [Bool.eq_iff_iff, isOk_perform_iff, isOk_perform_iff]
  · intro reordered hperm
    rw [size_performAll_empty, highWater_perm hperm]
    exact (size_performAll_empty history).symm

/-- A store across the end of a word, a read that no memory can hold, a write
within the words there are and a read of nothing, in two orders. -/
theorem growth_accounted_reordered :
    let history : List Command :=
      [.store 62 #[0xaa, 0xbb, 0xcc], .fetch 18446744073709551615 2, .storeByte 3 0xdd,
        .fetch 200 0]
    let reordered : List Command :=
      [.fetch 200 0, .storeByte 3 0xdd, .fetch 18446744073709551615 2,
        .store 62 #[0xaa, 0xbb, 0xcc]]
    reordered.Perm history ∧ highWater (empty.journal history) = 65 ∧
      totalGrowth (empty.journal history) = (empty.performAll history).wordCount ∧
      (empty.performAll history).size = 96 ∧
      (empty.performAll reordered).size = (empty.performAll history).size := by
  intro history reordered
  have hperm : reordered.Perm history := by decide
  have hmark : highWater (empty.journal history) = 65 := by decide +kernel
  obtain ⟨htotal, hsize, _, _, _, _, horder⟩ := growth_accounted history
  rw [hmark] at hsize
  exact ⟨hperm, hmark, htotal, hsize, horder reordered hperm⟩

end Memory

end WordMachine
