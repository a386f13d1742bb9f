/-
WordMachine/Proofs/Decimals.lean

Numbers in decimal as parts of a longer text.

The text of a number is made of digits, at least one.  So where no digit follows, it ends
there, and the number can be told from the whole (`toString_append_inj`).
-/
namespace WordMachine.Text

theorem toList_toString (n : Nat) : (toString n).toList = Nat.toDigits 10 n := by
  rw [Nat.toString_eq_repr, Nat.toList_repr]

theorem toList_toString_ne_nil (n : Nat) : (toString n).toList ≠ [] := by
  rw [toList_toString]
  exact Nat.toDigits_ne_nil

theorem isDigit_of_mem_toString {n : Nat} {c : Char} (h : c ∈ (toString n).toList) :
    c.isDigit = true := by
  rw [toList_toString] at h
  exact Nat.isDigit_of_mem_toDigits (by decide) (by decide) h

/-- A number is read back from its text. -/
theorem ofDigitChars_toString (n : Nat) : Nat.ofDigitChars 10 (toString n).toList 0 = n := by
  rw [toList_toString, Nat.ofDigitChars_ten_toDigits]

theorem toString_inj {a b : Nat} (h : (toString a).toList = (toString b).toList) : a = b := by
  rw [← ofDigitChars_toString a, h, ofDigitChars_toString]

/-- The text of a number ends where there is no digit. -/
theorem takeWhile_toString_append (n : Nat) {c : Char} (hc : c.isDigit = false)
    (s : List Char) :
    ((toString n).toList ++ c :: s).takeWhile Char.isDigit = (toString n).toList := by
  rw [List.takeWhile_append_of_pos fun _ => isDigit_of_mem_toString]
  simp [hc]

/-- Two texts that begin with a number and a mark behind it agree in the number and in what
is behind the mark. -/
theorem toString_append_inj {mark : List Char} (hmark : mark.head?.any (!·.isDigit) = true)
    {a b : Nat} {s t : List Char}
    (h : (toString a).toList ++ (mark ++ s) = (toString b).toList ++ (mark ++ t)) :
    a = b ∧ s = t := by
  cases mark with
  | nil => cases hmark
  | cons c mark =>
    have hc : c.isDigit = false := by simpa using hmark
    have hnumbers := congrArg (List.takeWhile Char.isDigit) h
    rw [List.cons_append, List.cons_append, takeWhile_toString_append a hc,
      takeWhile_toString_append b hc] at hnumbers
    obtain rfl := toString_inj hnumbers
    exact ⟨rfl, List.append_cancel_left (List.append_cancel_left h)⟩

end WordMachine.Text
