/-
WordMachine/Proofs/GroupedNumbers.lean

Numbers with separators, written and read.

Writing puts commas by counting digits from the left.  Where they stand is said by
what is behind them (`GroupedByThrees`): wherever such a text is cut before a digit, the
cut comes after a comma just if there is a digit before it and the number of digits
behind it is a multiple of three.  A place in the text is a place among the digits with
the commas put back (`exists_of_separated`).

Reading deletes the commas wherever they stand.  What is left has to be decimal digits,
at least one, that may have a plus sign in front, and has to fit into 64 bits
(`read?_eq_some_iff`).  As a number of steps it must not be zero.

Main result: `step_limits_read`.
-/
import WordMachine.Proofs.CommandLine
import Mathlib.Algebra.Group.Nat.Defs
import Mathlib.Data.List.Basic

namespace WordMachine

namespace Text.Grouped

/-! ### Where the commas stand -/

/-- Digits with commas by threes.  A comma is before each digit that has digits before it
and with which a multiple of three begins, before no other digit, and nowhere else. -/
structure GroupedByThrees (s : List Char) : Prop where
  comma_iff : ∀ before c after, s = before ++ c :: after → c.isDigit = true →
    (before.getLast? = some ',' ↔
      (∃ d ∈ before, d.isDigit = true) ∧ 3 ∣ (c :: after).countP Char.isDigit)
  digit_behind : ∀ before after, s = before ++ ',' :: after →
    ∃ c rest, after = c :: rest ∧ c.isDigit = true

/-- Digits with their commas, of which the first is digit number `i` of `total`. -/
def separatedFrom (total i : Nat) (digits : List Char) : List Char :=
  (digits.zipIdx i).flatMap fun (c, i) => comma total i ++ [c]

theorem separatedFrom_cons (total i : Nat) (c : Char) (digits : List Char) :
    separatedFrom total i (c :: digits) = comma total i ++ c :: separatedFrom total (i + 1) digits := by
  show (comma total i ++ [c]) ++ _ = _
  rw [List.append_assoc]
  rfl

theorem comma_eq (total i : Nat) : comma total i = [] ∨ comma total i = [','] := by
  unfold comma
  split
  · exact .inr rfl
  · exact .inl rfl

theorem filter_comma {p : Char → Bool} (hcomma : p ',' = false) (total i : Nat) :
    (comma total i).filter p = [] := by
  rcases comma_eq total i with h | h
  · rw [h]
    rfl
  · rw [h, List.filter_cons, hcomma]
    rfl

/-- Characters that are no commas are left when the commas are taken out. -/
theorem filter_separatedFrom {p : Char → Bool} (hcomma : p ',' = false) (total i : Nat)
    {digits : List Char} (hdigits : ∀ c ∈ digits, p c = true) :
    (separatedFrom total i digits).filter p = digits := by
  induction digits generalizing i with
  | nil => rfl
  | cons c digits ih =>
    obtain ⟨hc, hrest⟩ := List.forall_mem_cons.mp hdigits
    rw [separatedFrom_cons, List.filter_append, filter_comma hcomma, List.nil_append,
      List.filter_cons, if_pos hc, ih (i + 1) hrest]

theorem getLast?_separatedFrom (total i : Nat) (digits : List Char) :
    (separatedFrom total i digits).getLast? = digits.getLast? := by
  rcases List.eq_nil_or_concat digits with rfl | ⟨front, c, rfl⟩
  · rfl
  · unfold separatedFrom
    rw [List.concat_eq_append, List.zipIdx_append, List.flatMap_append]
    show (_ ++ ((comma total _ ++ [c]) ++ [])).getLast? = _
    rw [List.append_nil, ← List.append_assoc, List.getLast?_concat, List.getLast?_concat]

/-- A text with commas that is cut before a character is cut among the digits, before the
comma of a digit or behind it. -/
theorem exists_of_separated {total i : Nat} {digits before after : List Char} {c : Char}
    (h : separatedFrom total i digits = before ++ c :: after) :
    ∃ front d back, digits = front ++ d :: back ∧
      ((c = d ∧ before = separatedFrom total i front ++ comma total (i + front.length) ∧
          after = separatedFrom total (i + front.length + 1) back) ∨
        (c = ',' ∧ after = d :: separatedFrom total (i + front.length + 1) back)) := by
  induction digits generalizing i before with
  | nil =>
    have hempty : before ++ c :: after = [] := h.symm
    exact absurd hempty (List.append_ne_nil_of_right_ne_nil _ (List.cons_ne_nil c after))
  | cons d digits ih =>
    rw [separatedFrom_cons] at h
    rcases List.append_eq_append_iff.mp h with ⟨before, rfl, hcut⟩ | ⟨bs, hcomma, hcut⟩
    · rcases before with _ | ⟨b, before⟩
      · -- the cut is before the first digit
        obtain ⟨rfl, rfl⟩ := List.cons.inj hcut
        exact ⟨[], _, digits, rfl, .inl ⟨rfl, List.append_nil _, rfl⟩⟩
      · -- the cut is behind the first digit
        obtain ⟨rfl, hrest⟩ := List.cons.inj hcut
        obtain ⟨front, e, back, rfl, hplace⟩ := ih hrest
        refine ⟨_ :: front, e, back, rfl, ?_⟩
        rw [List.length_cons, separatedFrom_cons, ← Nat.add_assoc, Nat.add_right_comm i,
          List.append_assoc, List.cons_append]
        rcases hplace with ⟨hc, rfl, hafter⟩ | hplace
        · exact .inl ⟨hc, rfl, hafter⟩
        · exact .inr hplace
    · rcases bs with _ | ⟨b, bs⟩
      · obtain ⟨rfl, rfl⟩ := List.cons.inj hcut
        rw [List.append_nil] at hcomma
        exact ⟨[], _, digits, rfl, .inl ⟨rfl, hcomma.symm, rfl⟩⟩
      · -- the cut is before the comma of the first digit
        obtain ⟨rfl, rfl⟩ := List.cons.inj hcut
        have hne := List.append_ne_nil_of_right_ne_nil before (List.cons_ne_nil c bs)
        rcases comma_eq total i with hnone | hone
        · exact absurd (hcomma.symm.trans hnone) hne
        · obtain ⟨rfl, rfl, rfl⟩ : before = [] ∧ c = ',' ∧ bs = [] := by
            rw [hone, eq_comm, List.append_eq_singleton_iff] at hcomma
            rcases hcomma with ⟨hbefore, hbs⟩ | ⟨_, hbs⟩
            · exact ⟨hbefore, List.cons.inj hbs⟩
            · exact absurd hbs (List.cons_ne_nil c bs)
          exact ⟨[], d, digits, rfl, .inr ⟨rfl, rfl⟩⟩

/-- There is a digit in front of a place if there are digits in front of it. -/
theorem exists_isDigit_iff {total i : Nat} {front : List Char}
    (h : ∀ c ∈ front, c.isDigit = true) :
    (∃ c ∈ separatedFrom total i front ++ comma total (i + front.length), c.isDigit = true) ↔
      front ≠ [] := by
  have hdigits : (separatedFrom total i front ++ comma total (i + front.length)).filter Char.isDigit
      = front := by
    rw [List.filter_append, filter_separatedFrom (by decide) total i h, filter_comma (by decide),
      List.append_nil]
  constructor
  · rintro ⟨c, hc, hdigit⟩ rfl
    exact List.filter_eq_nil_iff.mp hdigits c hc hdigit
  · intro hne
    obtain ⟨c, hc⟩ := List.exists_mem_of_ne_nil front hne
    rw [← hdigits] at hc
    exact ⟨c, List.mem_filter.mp hc⟩

/-- Commas put by counting from the left stand where the rest falls into threes. -/
theorem groupedByThrees_separate {digits : List Char} (h : ∀ c ∈ digits, c.isDigit = true) :
    GroupedByThrees (separate digits) where
  comma_iff before c after heq hc := by
    obtain ⟨front, d, back, hdigits, hplace⟩ :=
      exists_of_separated (show separatedFrom digits.length 0 digits = _ from heq)
    rw [hdigits, List.forall_mem_append, List.forall_mem_cons] at h
    obtain ⟨hfront, -, hback⟩ := h
    rcases hplace with ⟨rfl, rfl, rfl⟩ | ⟨rfl, _⟩
    · have htotal : digits.length - (0 + front.length) = back.length + 1 := by
        rw [hdigits, List.length_append, List.length_cons]
        omega
      have hcount : (c :: separatedFrom digits.length (0 + front.length + 1) back).countP Char.isDigit
          = back.length + 1 := by
        rw [List.countP_cons_of_pos hc, List.countP_eq_length_filter,
          filter_separatedFrom (by decide) _ _ hback]
      rw [exists_isDigit_iff hfront, hcount, ← List.length_pos_iff]
      unfold comma
      rw [htotal, Nat.zero_add, Nat.dvd_iff_mod_eq_zero]
      split
      · next hcomma => exact iff_of_true List.getLast?_concat hcomma
      · next hnone =>
        rw [List.append_nil, getLast?_separatedFrom]
        refine iff_of_false (fun hlast => ?_) hnone
        exact absurd (hfront ',' (List.mem_of_getLast? hlast)) (by decide)
    · exact absurd hc (by decide)
  digit_behind before after heq := by
    obtain ⟨front, d, back, hdigits, hplace⟩ :=
      exists_of_separated (show separatedFrom digits.length 0 digits = _ from heq)
    rw [hdigits, List.forall_mem_append, List.forall_mem_cons] at h
    obtain ⟨-, hdigit, -⟩ := h
    rcases hplace with ⟨rfl, _⟩ | ⟨_, hafter⟩
    · exact absurd hdigit (by decide)
    · exact ⟨d, _, hafter, hdigit⟩

theorem groupedByThrees_text (n : Nat) : GroupedByThrees (text n).toList := by
  unfold text
  rw [String.toList_ofList]
  exact groupedByThrees_separate fun _ => isDigit_of_mem_toString

/-- Without the commas it is the decimal text of the number. -/
theorem filter_text (n : Nat) : (text n).toList.filter (· != ',') = (toString n).toList := by
  unfold text
  rw [String.toList_ofList]
  refine filter_separatedFrom (by decide) _ 0 fun c hc => ?_
  rw [bne_iff_ne]
  rintro rfl
  exact absurd (isDigit_of_mem_toString hc) (by decide)

/-- Only the text of zero begins with a zero. -/
theorem eq_zero_of_head?_toDigits {n : Nat} (h : (Nat.toDigits 10 n).head? = some '0') :
    n = 0 := by
  have hone : ∀ d < 10, Nat.digitChar d = '0' → d = 0 := by decide
  induction n using Nat.strongRecOn with
  | ind n ih =>
    rcases Nat.lt_or_ge n 10 with hlt | hge
    · rw [Nat.toDigits_of_lt_base hlt, List.head?_cons, Option.some.injEq] at h
      exact hone n hlt h
    · -- the first digit is that of the number without its last digit, which is not zero
      rw [Nat.toDigits_of_base_le (by decide) hge,
        List.head?_append_of_ne_nil _ Nat.toDigits_ne_nil] at h
      have hzero : n / 10 = 0 := ih (n / 10) (by omega) h
      omega

/-! ### What is read as a number -/

/-- What is typed for a number, without the commas: digits, at least one, and perhaps a plus
sign in front of them. -/
def Typed (s : List Char) (n : Nat) : Prop :=
  ∃ digits, (s = digits ∨ s = '+' :: digits) ∧ digits ≠ [] ∧
    (∀ c ∈ digits, c.isDigit = true) ∧ Nat.ofDigitChars 10 digits 0 = n

theorem digits?_eq_some_iff {s : List Char} {n : Nat} :
    digits? s = some n ↔
      s ≠ [] ∧ (∀ c ∈ s, c.isDigit = true) ∧ Nat.ofDigitChars 10 s 0 = n := by
  unfold digits?
  split
  · next hbad =>
    rw [Bool.or_eq_true, List.isEmpty_iff, Bool.not_eq_true', List.all_eq_false] at hbad
    refine iff_of_false (Option.some_ne_none n).symm ?_
    rintro ⟨hne, hall, _⟩
    rcases hbad with hempty | ⟨c, hc, hdigit⟩
    · exact hne hempty
    · exact hdigit (hall c hc)
  · next hgood =>
    rw [Bool.or_eq_true, List.isEmpty_iff, Bool.not_eq_true', List.all_eq_false, not_or] at hgood
    obtain ⟨hne, hall⟩ := hgood
    have hdigits : ∀ c ∈ s, c.isDigit = true := fun c hc =>
      Decidable.not_not.mp fun hdigit => hall ⟨c, hc, hdigit⟩
    rw [Option.some.injEq, Nat.ofDigitChars_eq_foldl]
    exact ⟨fun hvalue => ⟨hne, hdigits, hvalue⟩, fun h => h.2.2⟩

/-- A text is read as a number just if it is one that is typed, of 64 bits, with commas
anywhere. -/
theorem read?_eq_some_iff {s : String} {n : Nat} :
    read? s = some n ↔ Typed (s.toList.filter (· != ',')) n ∧ n < Word.offsetBound := by
  unfold read?
  rw [Option.filter_eq_some_iff, digits?_eq_some_iff, decide_eq_true_iff]
  refine and_congr_left fun _ => ?_
  split
  · next rest hplus =>
    rw [hplus]
    constructor
    · intro h
      exact ⟨rest, .inr rfl, h⟩
    · rintro ⟨digits, rfl | hsigned, h⟩
      · -- no digit is a plus sign
        exact absurd (h.2.1 '+' List.mem_cons_self) (by decide)
      · rw [(List.cons.inj hsigned).2]
        exact h
  · next hplus =>
    constructor
    · intro h
      exact ⟨_, .inl rfl, h⟩
    · rintro ⟨digits, heq | hsigned, h⟩
      · rw [heq]
        exact h
      · exact absurd hsigned (hplus digits)

/-- A number is read back from its text with separators. -/
theorem read?_text {n : Nat} (hn : n < Word.offsetBound) : read? (text n) = some n := by
  have htyped := (read?_eq_some_iff.mp (read?_toString hn)).1
  rw [← filter_text, List.filter_filter] at htyped
  simp only [Bool.and_self] at htyped
  exact read?_eq_some_iff.mpr ⟨htyped, hn⟩

end Text.Grouped

namespace Tracer.Options

open Text.Grouped

/-! ### The number of steps allowed -/

/-- A word that says how many steps are allowed. -/
def StepLimit (word : String) (n : Nat) : Prop :=
  Typed (word.toList.filter (· != ',')) n ∧ 1 ≤ n ∧ n < 2 ^ 64

theorem setMaxSteps_of_stepLimit {word : String} {n : Nat} (o : Options) (h : StepLimit word n) :
    setMaxSteps word o = .ok { o with maxSteps := n } := by
  obtain ⟨htyped, hpos, hn⟩ := h
  have hread : read? word = some n := read?_eq_some_iff.mpr ⟨htyped, hn⟩
  unfold setMaxSteps
  rw [hread]
  cases n with
  | zero => exact absurd hpos (by decide)
  | succ n => rfl

/-- Another word is no number, or it is zero. -/
theorem setMaxSteps_of_not_stepLimit {word : String} (o : Options)
    (h : ∀ n, ¬StepLimit word n) :
    ∃ c, setMaxSteps word o = .error c ∧ (c = .notANumber word ∨ c = .noSteps) := by
  unfold setMaxSteps
  split
  · exact ⟨_, rfl, .inl rfl⟩
  · exact ⟨_, rfl, .inr rfl⟩
  · next n hzero hread =>
    obtain ⟨htyped, hn⟩ := read?_eq_some_iff.mp hread
    exact absurd ⟨htyped, Nat.one_le_iff_ne_zero.mpr hzero, hn⟩ (h n)

section

variable {option : String} (hoption : option = "--max-steps" ∨ option = "-n")
include hoption

theorem flag?_of_maxSteps (o : Options) : o.flag? option = none := by
  rcases hoption with rfl | rfl
  · simp [flag?]
  · simp [flag?]

theorem parameter?_of_maxSteps : parameter? option = some setMaxSteps := by
  rcases hoption with rfl | rfl
  · simp [parameter?]
  · simp [parameter?]

theorem read_of_stepLimit {word : String} {n : Nat} (o : Options) (rest : List String)
    (h : StepLimit word n) :
    read o (option :: word :: rest) = read { o with maxSteps := n } rest :=
  read_parameter rest (flag?_of_maxSteps hoption o) (parameter?_of_maxSteps hoption)
    (setMaxSteps_of_stepLimit o h)

/-- **Numbers of steps are read as they are written, and little else is.**  A number of 64
bits is written in decimal, without zeros in front and with commas by threes, and unless it
is zero this text is read as that number of steps.  In general a word is read as a number of
steps just if without its commas it is that number, with zeros or a plus sign in front or
not. -/
theorem step_limits_read :
    (∀ n, n < 2 ^ 64 →
      (text n).toList.filter (· != ',') = (toString n).toList ∧
      ((toString n).toList.head? = some '0' → n = 0) ∧
      GroupedByThrees (text n).toList ∧
      (1 ≤ n → ∀ o rest,
        read o (option :: text n :: rest) = read { o with maxSteps := n } rest)) ∧
    ∀ word o rest,
      (∀ n, StepLimit word n →
        read o (option :: word :: rest) = read { o with maxSteps := n } rest) ∧
      ((∀ n, ¬StepLimit word n) →
        ∃ c, read o (option :: word :: rest) = (o, some c) ∧
          (c = .notANumber word ∨ c = .noSteps)) := by
  refine ⟨fun n hn => ⟨filter_text n, ?_, groupedByThrees_text n, ?_⟩, fun word o rest => ⟨?_, ?_⟩⟩
  · rw [Nat.toString_eq_repr, Nat.toList_repr]
    exact eq_zero_of_head?_toDigits
  · intro hpos o rest
    have htyped := (read?_eq_some_iff.mp (read?_text hn)).1
    exact read_of_stepLimit hoption o rest ⟨htyped, hpos, hn⟩
  · intro n h
    exact read_of_stepLimit hoption o rest h
  · intro h
    obtain ⟨c, hset, hc⟩ := setMaxSteps_of_not_stepLimit o h
    exact ⟨c, read_parameter_error rest (flag?_of_maxSteps hoption o)
      (parameter?_of_maxSteps hoption) hset, hc⟩

end

/-- A number as it is written, the same with commas elsewhere and more in front, and the
first number that has more than 64 bits. -/
theorem step_limits_read_million :
    ("-n" = "--max-steps" ∨ "-n" = "-n") ∧ 1000000 < 2 ^ 64 ∧ 1 ≤ 1000000 ∧
      text 1000000 = "1,000,000" ∧
      read standard ["-n", "1,000,000"] = ({ standard with maxSteps := 1000000 }, none) ∧
      StepLimit ",+0,1000,000" 1000000 ∧
      read standard ["-n", ",+0,1000,000"] = ({ standard with maxSteps := 1000000 }, none) ∧
      (∀ n, ¬StepLimit "18446744073709551616" n) ∧
      ∃ c, read standard ["-n", "18446744073709551616"] = (standard, some c) ∧
        (c = .notANumber "18446744073709551616" ∨ c = .noSteps) := by
  have hname : "-n" = "--max-steps" ∨ "-n" = "-n" := .inr rfl
  obtain ⟨hwritten, hread⟩ := step_limits_read hname
  have htext : text 1000000 = "1,000,000" := by decide +kernel
  have hmillion := (hwritten 1000000 (by decide)).2.2.2 (by decide) standard []
  rw [htext] at hmillion
  have htyped : StepLimit ",+0,1000,000" 1000000 :=
    ⟨⟨"01000000".toList, by decide +kernel, by decide +kernel,
      List.all_eq_true.mp (by decide +kernel), by decide +kernel⟩, by decide, by decide⟩
  have hnone : ∀ n, ¬StepLimit "18446744073709551616" n := by
    rintro n ⟨htyped, _, hn⟩
    have hread : read? "18446744073709551616" = some n := read?_eq_some_iff.mpr ⟨htyped, hn⟩
    have hrefused : read? "18446744073709551616" = none := by decide +kernel
    exact absurd (hrefused.symm.trans hread) (Option.some_ne_none n).symm
  exact ⟨hname, by decide, by decide, htext, hmillion, htyped,
    (hread ",+0,1000,000" standard []).1 1000000 htyped, hnone,
    (hread "18446744073709551616" standard []).2 hnone⟩

end Tracer.Options

end WordMachine
