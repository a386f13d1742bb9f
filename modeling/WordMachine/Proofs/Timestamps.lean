/-
WordMachine/Proofs/Timestamps.lean

Times sort as their texts.

A text of a time is a row of numbers, each written with a fixed number of digits and with
a mark behind it.  Of two numerals of one width the smaller number has the smaller one
(`numeral_lt`), and the first difference between two texts of one length decides their
order (`append_lt_append_of_length`).  So rows of numbers that fit their widths have
texts in their own order (`spell_lt`), of one shape (`matches_spell`).

What is left to show is that times are in the order of their rows.  The date comes first,
and dates follow days (`Date.ofUnixDay_before`); the parts of the day are digits to
mixed bases.  Until the end of the year 9999 all of them fit.

Main result: `timestamps_sort`.
-/
import WordMachine.Proofs.Decimals
import WordMachine.Proofs.Gregorian
import Mathlib.Data.List.Forall2

namespace WordMachine

namespace Text

/-! ### Numbers of a fixed width -/

/-- The last `width` decimal digits of a number. -/
def numeral : Nat → Nat → List Char
  | 0, _ => []
  | width + 1, n => numeral width (n / 10) ++ [Nat.digitChar (n % 10)]

theorem numeral_zero (width : Nat) : numeral width 0 = List.replicate width '0' := by
  induction width with
  | zero => rfl
  | succ width ih =>
    rw [numeral, List.replicate_succ', Nat.zero_div, ih]
    rfl

/-- Digits filled up with zeros are the numeral. -/
theorem replicate_append_toDigits {width n : Nat} (hwidth : 0 < width) (h : n < 10 ^ width) :
    List.replicate (width - (Nat.toDigits 10 n).length) '0' ++ Nat.toDigits 10 n
      = numeral width n := by
  induction width generalizing n with
  | zero => cases hwidth
  | succ width ih =>
    rw [numeral]
    by_cases hsmall : n < 10
    · rw [Nat.toDigits_of_lt_base hsmall, Nat.div_eq_of_lt hsmall, Nat.mod_eq_of_lt hsmall,
        numeral_zero]
      rfl
    · have hten : 10 ≤ n := Nat.not_lt.mp hsmall
      have hpos : 0 < width := by
        rcases Nat.eq_zero_or_pos width with rfl | hpos
        · exact absurd h hsmall
        · exact hpos
      have hdiv : n / 10 < 10 ^ width := by
        rw [Nat.div_lt_iff_lt_mul (by decide), ← pow_succ]
        exact h
      rw [Nat.toDigits_of_base_le (by decide) hten, List.length_append, List.length_singleton,
        Nat.add_sub_add_right, ← List.append_assoc, ih hpos hdiv]

theorem toList_decimal {width n : Nat} (hwidth : 0 < width) (h : n < 10 ^ width) :
    (decimal width n).toList = numeral width n := by
  show (repeated (width - (toString n).length) '0' ++ toString n).toList = _
  rw [String.toList_append, repeated, String.toList_ofList, ← String.length_toList,
    toList_toString]
  exact replicate_append_toDigits hwidth h

/-- Texts are compared at their first difference, whatever is behind it. -/
theorem append_lt_append_of_length {l₁ l₂ : List Char} (r₁ r₂ : List Char)
    (hlength : l₁.length = l₂.length) (h : l₁ < l₂) : l₁ ++ r₁ < l₂ ++ r₂ := by
  induction l₁ generalizing l₂ with
  | nil =>
    rw [List.length_nil, eq_comm, List.length_eq_zero_iff] at hlength
    rw [hlength] at h
    exact absurd h (List.not_lt_nil _)
  | cons c l₁ ih =>
    rcases l₂ with _ | ⟨d, l₂⟩
    · exact absurd h (List.not_lt_nil _)
    · rw [List.cons_append, List.cons_append, List.cons_lt_cons_iff]
      rcases List.cons_lt_cons_iff.mp h with hfirst | ⟨hsame, hrest⟩
      · exact .inl hfirst
      · exact .inr ⟨hsame, ih (Nat.succ.inj hlength) hrest⟩

theorem length_numeral (width n : Nat) : (numeral width n).length = width := by
  induction width generalizing n with
  | zero => rfl
  | succ width ih => rw [numeral, List.length_append, ih, List.length_singleton]

theorem digitChar_lt {a b : Nat} (h : a < b) (hb : b < 10) : a.digitChar < b.digitChar := by
  have hlow := Nat.toNat_digitChar_of_lt_ten (Nat.lt_trans h hb)
  have hhigh := Nat.toNat_digitChar_of_lt_ten hb
  rw [Char.lt_def, UInt32.lt_iff_toNat_lt]
  show a.digitChar.toNat < b.digitChar.toNat
  omega

/-- Of numbers that fit a width the smaller one has the smaller numeral. -/
theorem numeral_lt {width a b : Nat} (h : a < b) (hb : b < 10 ^ width) :
    numeral width a < numeral width b := by
  induction width generalizing a b with
  | zero =>
    rw [pow_zero] at hb
    omega
  | succ width ih =>
    have hdiv : b / 10 < 10 ^ width := by
      rw [Nat.div_lt_iff_lt_mul (by decide), ← pow_succ]
      exact hb
    rw [numeral, numeral]
    rcases Nat.lt_or_ge (a / 10) (b / 10) with hfront | hfront
    · apply append_lt_append_of_length
      · rw [length_numeral, length_numeral]
      · exact ih hfront hdiv
    · have hsame : a / 10 = b / 10 := by omega
      have hlast : a % 10 < b % 10 := by omega
      rw [hsame]
      apply List.append_left_lt
      rw [List.cons_lt_cons_iff]
      exact .inl (digitChar_lt hlast (Nat.mod_lt b (by decide)))

/-! ### Rows of numbers -/

/-- Numbers in a row, each with its width and the mark behind it. -/
def spell : List (Nat × List Char) → List Nat → List Char
  | (width, mark) :: layout, n :: row => numeral width n ++ mark ++ spell layout row
  | _, _ => []

/-- There is a number for each width, and it needs no more digits. -/
def Fits (layout : List (Nat × List Char)) (row : List Nat) : Prop :=
  List.Forall₂ (fun field n => n < 10 ^ field.1) layout row

/-- Rows that fit are in the order of their texts. -/
theorem spell_lt {layout : List (Nat × List Char)} {a b : List Nat} (ha : Fits layout a)
    (hb : Fits layout b) (h : a < b) : spell layout a < spell layout b := by
  induction ha generalizing b with
  | nil =>
    cases hb
    exact absurd h (List.not_lt_nil _)
  | @cons field n layout a _ _ ih =>
    rcases hb with _ | ⟨hm, hb⟩
    next m b =>
    obtain ⟨width, mark⟩ := field
    rw [spell, spell, List.append_assoc, List.append_assoc]
    rcases List.cons_lt_cons_iff.mp h with hlt | ⟨rfl, hrest⟩
    · apply append_lt_append_of_length
      · rw [length_numeral, length_numeral]
      · exact numeral_lt hlt hm
    · exact List.append_left_lt (List.append_left_lt (ih hb hrest))

/-- A character of a pattern, in which the letter `d` stands for any digit. -/
def Matches (p c : Char) : Prop := if p = 'd' then c.isDigit = true else c = p

/-- The pattern of the texts of rows. -/
def pattern (layout : List (Nat × List Char)) : List Char :=
  layout.flatMap fun (width, mark) => List.replicate width 'd' ++ mark

theorem matches_numeral (width n : Nat) :
    List.Forall₂ Matches (List.replicate width 'd') (numeral width n) := by
  induction width generalizing n with
  | zero => exact .nil
  | succ width ih =>
    have hdigit : (n % 10).digitChar.isDigit = true := by
      rw [Nat.isDigit_digitChar]
      exact decide_eq_true (Nat.mod_lt n (by decide))
    rw [numeral, List.replicate_succ']
    exact List.rel_append (ih _) (.cons hdigit .nil)

theorem matches_spell {layout : List (Nat × List Char)} {row : List Nat}
    (hmarks : ∀ field ∈ layout, 'd' ∉ field.2) (h : Fits layout row) :
    List.Forall₂ Matches (pattern layout) (spell layout row) := by
  induction h with
  | nil => exact .nil
  | @cons field n layout row _ _ ih =>
    obtain ⟨width, mark⟩ := field
    have hmark : List.Forall₂ Matches mark mark := by
      rw [List.forall₂_same]
      rintro c hc
      unfold Matches
      rw [if_neg]
      rintro rfl
      exact hmarks _ List.mem_cons_self hc
    have hrest := ih fun field hfield => hmarks field (List.mem_cons_of_mem _ hfield)
    exact List.rel_append (List.rel_append (matches_numeral width n) hmark) hrest

end Text

namespace Timestamp

/-- The widths of the numbers of a time and the marks between them. -/
def layout : List (Nat × List Char) :=
  [(4, ['-']), (2, ['-']), (2, [' ']), (2, [':']), (2, [':']), (2, ['.']), (3, [])]

/-- The day of a time. -/
def date (t : Timestamp) : Date := Date.ofUnixDay (t.millis / 1000 / 86400)

/-- The second of its day. -/
def second (t : Timestamp) : Nat := t.millis / 1000 % 86400

/-- The numbers of a time: its date, hours, minutes, seconds and milliseconds. -/
def row (t : Timestamp) : List Nat :=
  [t.date.year, t.date.month, t.date.day, t.second / 3600, t.second / 60 % 60, t.second % 60,
    t.millis % 1000]

/-- The first time that has five digits in its year, in milliseconds. -/
def horizon : Nat := 253402300800000

variable {t u : Timestamp}

theorem day_lt (ht : t.millis < horizon) : t.millis / 1000 / 86400 < 2932897 := by
  unfold horizon at ht
  omega

theorem year_le (ht : t.millis < horizon) : t.date.year ≤ 9999 := by
  have hlast : Date.ofUnixDay 2932896 = ⟨9999, 12, 31⟩ := by decide
  rcases Nat.lt_succ_iff_lt_or_eq.mp (day_lt ht) with hlt | heq
  · have hbefore := Date.ofUnixDay_before hlt (by decide)
    rw [hlast] at hbefore
    rcases hbefore with hyear | ⟨hyear, _⟩
    · exact Nat.le_of_lt hyear
    · exact Nat.le_of_eq hyear
  · unfold date
    rw [heq, hlast]

theorem fits_row (ht : t.millis < horizon) : Text.Fits layout t.row := by
  have hday := day_lt ht
  have hyear := year_le ht
  have hvalid : t.date.Valid := (Date.ofUnixDay_inCalendar (by omega)).1
  have hlength := monthLength_le t.date.year t.date.month
  have hmonth := hvalid.month_le
  have hdays := hvalid.day_le
  have hsecond : t.second < 86400 := Nat.mod_lt _ (by decide)
  refine .cons ?_ (.cons ?_ (.cons ?_ (.cons ?_ (.cons ?_ (.cons ?_ (.cons ?_ .nil))))))
  · show t.date.year < 10 ^ 4
    omega
  · show t.date.month < 10 ^ 2
    omega
  · show t.date.day < 10 ^ 2
    omega
  · show t.second / 3600 < 10 ^ 2
    omega
  · show t.second / 60 % 60 < 10 ^ 2
    omega
  · show t.second % 60 < 10 ^ 2
    omega
  · show t.millis % 1000 < 10 ^ 3
    omega

theorem toList_text (ht : t.millis < horizon) : t.text.toList = Text.spell layout t.row := by
  have hfits := fits_row ht
  simp only [Text.Fits, layout, row, List.forall₂_cons] at hfits
  obtain ⟨hyear, hmonth, hday, hhour, hminute, hsecond, hmilli, _⟩ := hfits
  show (Text.decimal 4 t.date.year ++ "-" ++ Text.decimal 2 t.date.month ++ "-"
    ++ Text.decimal 2 t.date.day ++ " " ++ Text.decimal 2 (t.second / 3600) ++ ":"
    ++ Text.decimal 2 (t.second / 60 % 60) ++ ":" ++ Text.decimal 2 (t.second % 60)
    ++ "." ++ Text.decimal 3 (t.millis % 1000)).toList = _
  simp only [String.toList_append, Text.toList_decimal (by decide) hyear,
    Text.toList_decimal (by decide) hmonth,
    Text.toList_decimal (by decide) hday,
    Text.toList_decimal (by decide) hhour,
    Text.toList_decimal (by decide) hminute,
    Text.toList_decimal (by decide) hsecond,
    Text.toList_decimal (by decide) hmilli]
  simp only [Text.spell, layout, row, List.append_assoc, List.append_nil]
  rfl

/-- Times are in the order of their rows. -/
theorem row_lt_row (hu : u.millis < horizon) (h : t.millis < u.millis) : t.row < u.row := by
  have hday := day_lt hu
  simp only [row, List.cons_lt_cons_iff, List.not_lt_nil, and_false, or_false]
  rcases Nat.lt_or_ge (t.millis / 1000 / 86400) (u.millis / 1000 / 86400) with hlt | hge
  · -- on an earlier day the date decides
    rcases Date.ofUnixDay_before hlt (by omega) with hyear | ⟨hyear, hmonth | ⟨hmonth, hdays⟩⟩
    · exact .inl hyear
    · exact .inr ⟨hyear, .inl hmonth⟩
    · exact .inr ⟨hyear, .inr ⟨hmonth, .inl hdays⟩⟩
  · have hsame : t.millis / 1000 / 86400 = u.millis / 1000 / 86400 := by omega
    have hdate : t.date = u.date := congrArg Date.ofUnixDay hsame
    refine .inr ⟨congrArg Date.year hdate, .inr ⟨congrArg Date.month hdate,
      .inr ⟨congrArg Date.day hdate, ?_⟩⟩⟩
    unfold second
    omega

theorem text_lt_text (hu : u.millis < horizon) (h : t.millis < u.millis) : t.text < u.text := by
  have ht : t.millis < horizon := Nat.lt_trans h hu
  rw [String.lt_iff, toList_text ht, toList_text hu]
  exact Text.spell_lt (fits_row ht) (fits_row hu) (row_lt_row hu h)

theorem text_ne_text (hu : u.millis < horizon) (h : t.millis < u.millis) : t.text ≠ u.text := by
  intro hsame
  have htext := text_lt_text hu h
  rw [hsame, String.lt_iff] at htext
  exact List.lt_irrefl _ htext

theorem eq_of_text_eq (ht : t.millis < horizon) (hu : u.millis < horizon)
    (h : t.text = u.text) : t.millis = u.millis := by
  rcases Nat.lt_trichotomy t.millis u.millis with hlt | heq | hgt
  · exact absurd h (text_ne_text hu hlt)
  · exact heq
  · exact absurd h.symm (text_ne_text ht hgt)

theorem matches_text (ht : t.millis < horizon) :
    List.Forall₂ Text.Matches "dddd-dd-dd dd:dd:dd.ddd".toList t.text.toList := by
  rw [toList_text ht]
  exact Text.matches_spell (by decide) (fits_row ht)

/-- The time that is so many seconds and milliseconds after the beginning of 1970. -/
def ofParts (secs millis : Nat) : Timestamp := ⟨1000 * secs + millis⟩

/-- **Times sort as their texts.**  Until the end of the year 9999, the text of a time has
23 characters and always the same shape, no two times have the same text, and an earlier
time has the smaller text. -/
theorem timestamps_sort {secs millis : Nat} (hsecs : secs < 253402300800)
    (hmillis : millis < 1000) :
    (ofParts secs millis).text.length = 23 ∧
    List.Forall₂ Text.Matches "dddd-dd-dd dd:dd:dd.ddd".toList
      (ofParts secs millis).text.toList ∧
    ∀ secs' millis', secs' < 253402300800 → millis' < 1000 →
      ((ofParts secs millis).text = (ofParts secs' millis').text →
        secs = secs' ∧ millis = millis') ∧
      (secs < secs' ∨ secs = secs' ∧ millis < millis' →
        (ofParts secs millis).text < (ofParts secs' millis').text) := by
  have hbound : ∀ secs millis, secs < 253402300800 → millis < 1000 →
      (ofParts secs millis).millis < horizon := by
    intro secs millis hsecs hmillis
    show 1000 * secs + millis < 253402300800000
    omega
  have ht := hbound secs millis hsecs hmillis
  have hshape := matches_text ht
  refine ⟨?_, hshape, ?_⟩
  · rw [← String.length_toList, ← hshape.length_eq]
    rfl
  · intro secs' millis' hsecs' hmillis'
    have hu := hbound secs' millis' hsecs' hmillis'
    constructor
    · intro h
      have hsame : 1000 * secs + millis = 1000 * secs' + millis' := eq_of_text_eq ht hu h
      omega
    · intro h
      apply text_lt_text hu
      show 1000 * secs + millis < 1000 * secs' + millis'
      omega

/-- The last millisecond of a century and the first of the next. -/
theorem timestamps_sort_century :
    (946684799 < 253402300800 ∧ 999 < 1000) ∧ (946684800 < 253402300800 ∧ 0 < 1000) ∧
      (ofParts 946684799 999).text = "1999-12-31 23:59:59.999" ∧
      (ofParts 946684800 0).text = "2000-01-01 00:00:00.000" ∧
      "1999-12-31 23:59:59.999".length = 23 ∧
      "1999-12-31 23:59:59.999" < "2000-01-01 00:00:00.000" := by
  have hold : (ofParts 946684799 999).text = "1999-12-31 23:59:59.999" := by decide +kernel
  have hnew : (ofParts 946684800 0).text = "2000-01-01 00:00:00.000" := by decide +kernel
  obtain ⟨hlength, _, hlater⟩ := timestamps_sort (show 946684799 < 253402300800 by decide)
    (show 999 < 1000 by decide)
  have hless := (hlater 946684800 0 (by decide) (by decide)).2 (.inl (by decide))
  rw [hold] at hlength hless
  rw [hnew] at hless
  exact ⟨⟨by decide, by decide⟩, ⟨by decide, by decide⟩, hold, hnew, hlength, hless⟩

end Timestamp

end WordMachine
