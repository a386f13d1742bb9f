/-
WordMachine/Proofs/Substitution.lean

Naming the numbers of a template by many replacements, one after the other.

Two different spellings of numbers do not begin at the same place, and neither is made of
what the other is replaced by.  So a replacement leaves every place of another spelling where
it is, in front of it and behind it what the replacement makes of the text there, and it
brings no new ones (`replace_eq_append_iff`).  All replacements together are the one pass
over the template that obeys all rules at the same time.

Main result: `named_is_one_pass`.
-/
import WordMachine.Proofs.Placeholders

namespace WordMachine.Text.Template

variable {p : List Char → Bool}

/-! ### What is found -/

theorem occurs_iff (pattern s : List Char) : occurs pattern s = true ↔ pattern <:+: s := by
  induction s with
  | nil => simp [occurs]
  | cons c cs ih =>
    rw [occurs, Bool.or_eq_true, ih, List.isPrefixOf_iff_prefix, List.infix_cons_iff]

/-- A name is mentioned just if one of its two spellings is a part of the template. -/
theorem mentions_iff (template name : String) :
    mentions template name = true ↔
      plain name.toList <:+: template.toList ∨ formatted name.toList <:+: template.toList := by
  rw [mentions, Bool.or_eq_true, occurs_iff, occurs_iff]

/-! ### The rules -/

/-- The rules for the two spellings of a number. -/
def numberRules (i : Nat) : List (List Char × List Char) :=
  [(plain (digits i), plain (fieldName i)), (formatted (digits i), formatted (fieldName i))]

/-- The rules for the numbers below `count`. -/
def rules (count : Nat) : List (List Char × List Char) := (List.range count).flatMap numberRules

/-- What stands behind the braces of the spellings of the numbers below `count`. -/
def bodies (count : Nat) : List (List Char) :=
  (List.range count).flatMap fun i => [digits i ++ ['}'], digits i ++ [':']]

theorem rules_eq (count : Nat) : rules count = (bodies count).map naming := by
  rw [rules, bodies, List.map_flatMap]
  rfl

theorem exists_of_mem_bodies {body : List Char} {count : Nat} (h : body ∈ bodies count) :
    ∃ i e, body = digits i ++ [e] ∧ e.isDigit = false ∧ e ≠ '{' := by
  obtain ⟨i, -, hbody⟩ := List.mem_flatMap.mp h
  rw [List.mem_cons, List.mem_singleton] at hbody
  obtain rfl | rfl := hbody
  · exact ⟨i, '}', rfl, by decide, by decide⟩
  · exact ⟨i, ':', rfl, by decide, by decide⟩

theorem brace_not_mem_of_mem_bodies {body : List Char} {count : Nat} (h : body ∈ bodies count) :
    '{' ∉ body := by
  obtain ⟨i, e, rfl, -, he⟩ := exists_of_mem_bodies h
  exact brace_not_mem_digits_append he

theorem any_bodies (count : Nat) (cs : List Char) :
    ((bodies count).any fun body => body.isPrefixOf cs) = readsNumber count cs := by
  simp [bodies, readsNumber, reads, List.any_flatMap]

/-- **The pass for all rules marks the numbers.** -/
theorem substitute_rules (count : Nat) (s : List Char) :
    substitute (rules count) s = mark (readsNumber count) s := by
  rw [rules_eq, substitute_eq_mark fun body => brace_not_mem_of_mem_bodies]
  simp only [any_bodies]

/-! ### The places of other spellings -/

theorem replace_naming {body : List Char} (h : '{' ∉ body) (s : List Char) :
    replace (naming body).1 (naming body).2 s = mark body.isPrefixOf s := replace_eq_mark h s

theorem isPrefixOf_append_brace {body : List Char} (h : '{' ∉ body) (cs rest : List Char) :
    body.isPrefixOf (cs ++ '{' :: rest) = body.isPrefixOf cs := by
  induction body generalizing cs with
  | nil => rfl
  | cons b body ih =>
    rw [List.mem_cons, not_or] at h
    obtain ⟨hb, hbody⟩ := h
    cases cs with
    | nil =>
      rw [List.nil_append, List.isPrefixOf_cons_cons, beq_false_of_ne (Ne.symm hb), Bool.false_and]
      rfl
    | cons c cs =>
      rw [List.cons_append, List.isPrefixOf_cons_cons, List.isPrefixOf_cons_cons, ih hbody]

/-- Marks in front of a brace are made without regard to what is behind it. -/
theorem mark_append_brace (hp : ∀ cs rest, p (cs ++ '{' :: rest) = p cs) (s rest : List Char) :
    mark p (s ++ '{' :: rest) = mark p s ++ mark p ('{' :: rest) := by
  induction s with
  | nil => rfl
  | cons c cs ih =>
    rw [List.cons_append, mark, mark, hp, ih]
    split
    · rfl
    · rfl

theorem head?_mark (c : Char) (cs : List Char) : (mark p (c :: cs)).head? = some c := by
  rw [mark]
  split
  · rfl
  · rfl

/-- The braces behind the marks are those of the text. -/
theorem exists_of_mark_eq_append (hp : ∀ cs rest, p (cs ++ '{' :: rest) = p cs)
    {s x t : List Char} (h : mark p s = x ++ '{' :: t) :
    ∃ a b, s = a ++ '{' :: b ∧ mark p a = x ∧ mark p ('{' :: b) = '{' :: t := by
  induction s generalizing x with
  | nil => cases x <;> cases h
  | cons c cs ih =>
    have hhead : some c = (x ++ '{' :: t).head? := by rw [← h, head?_mark]
    cases x with
    | nil =>
      obtain rfl := Option.some.inj hhead
      exact ⟨[], cs, rfl, rfl, h⟩
    | cons d x =>
      obtain rfl := Option.some.inj hhead
      cases hmarked : c == '{' && p cs with
      | true =>
        rw [mark_cons_of_pos hmarked] at h
        cases x with
        | nil => cases h
        | cons e x =>
          obtain ⟨rfl, hrest⟩ := List.cons.inj (List.cons.inj h).2
          obtain ⟨a, b, rfl, rfl, hb⟩ := ih hrest
          rw [hp] at hmarked
          exact ⟨c :: a, b, rfl, mark_cons_of_pos hmarked, hb⟩
      | false =>
        rw [mark_cons_of_neg hmarked] at h
        obtain ⟨a, b, rfl, rfl, hb⟩ := ih (List.cons.inj h).2
        rw [hp] at hmarked
        exact ⟨c :: a, b, rfl, mark_cons_of_neg hmarked, hb⟩

/-- What stands behind a brace that is not marked stands there after the marks just if it has
stood there before, between what the marks are made in. -/
theorem mark_eq_append_iff {body : List Char} (hp : ∀ cs rest, p (cs ++ '{' :: rest) = p cs)
    (hsettled : Settled body.isPrefixOf) (hbrace : '{' ∉ body)
    (hfree : ∀ rest, p (body ++ rest) = false) (s x y : List Char) :
    mark p s = x ++ '{' :: (body ++ y) ↔
      ∃ a b, s = a ++ '{' :: (body ++ b) ∧ mark p a = x ∧ mark p b = y := by
  have hfits : ∀ t, body.isPrefixOf (body ++ t) = true := by simp
  have hbody : ∀ t, mark p (body ++ t) = body ++ mark p t := mark_append (quiet_of_not_mem hbrace)
  constructor
  · intro h
    obtain ⟨a, cs, rfl, rfl, hcs⟩ := exists_of_mark_eq_append hp h
    cases hmarked : p cs with
    | true =>
      -- the mark is behind the brace, and the body does not begin with it
      rw [mark_brace_of_pos hmarked] at hcs
      have hmark := hsettled.marked (mark p cs)
      rw [(List.cons.inj hcs).2, hfits] at hmark
      cases hmark
    | false =>
      rw [mark_brace_of_neg hmarked] at hcs
      have hbegins := hsettled.mark_eq p cs
      rw [(List.cons.inj hcs).2, hfits] at hbegins
      obtain ⟨b, rfl⟩ := List.isPrefixOf_iff_prefix.mp hbegins.symm
      rw [hbody] at hcs
      exact ⟨a, b, rfl, rfl, List.append_cancel_left (List.cons.inj hcs).2⟩
  · rintro ⟨a, b, rfl, rfl, rfl⟩
    rw [mark_append_brace hp, mark_brace_of_neg (hfree b), hbody]

/-! ### What is behind the braces afterwards -/

/-- Behind a brace stands a mark or what has stood there. -/
theorem anyBrace_mark {q : List Char → Bool} (hq : ∀ r cs, q (mark r cs) = q cs) (s : List Char) :
    anyBrace q (mark p s) = anyBrace (fun cs => q (if p cs then 'f' :: cs else cs)) s := by
  induction s with
  | nil => rfl
  | cons c cs ih =>
    by_cases hc : c = '{'
    · subst hc
      cases hmarked : p cs with
      | true =>
        have hmark := hq p ('f' :: cs)
        rw [mark_cons_of_ne (by decide)] at hmark
        simp [mark_brace_of_pos hmarked, anyBrace, hmark, hmarked, ih]
      | false => simp [mark_brace_of_neg hmarked, anyBrace, hq, hmarked, ih]
    · simp [mark_cons_of_ne hc, anyBrace, beq_false_of_ne hc, ih]

theorem anyBrace_eq_false {q : List Char → Bool} (hq : ∀ cs, q cs = false) (s : List Char) :
    anyBrace q s = false := by
  induction s with
  | nil => rfl
  | cons c cs ih => rw [anyBrace, hq, Bool.and_false, ih, Bool.or_false]

/-! ### Different numbers -/

/-- Where the spelling of one number begins no other does. -/
theorem digits_eq_of_isPrefixOf {i j : Nat} {d e : Char} (hd : d.isDigit = false)
    (he : e.isDigit = false) {rest : List Char}
    (h : (digits i ++ [d]).isPrefixOf (digits j ++ [e] ++ rest) = true) :
    digits i ++ [d] = digits j ++ [e] := by
  obtain ⟨t, ht⟩ := List.isPrefixOf_iff_prefix.mp h
  rw [List.append_assoc, List.append_assoc] at ht
  have hdigits : digits i = digits j := calc
    digits i = (digits i ++ d :: t).takeWhile Char.isDigit :=
      (takeWhile_toString_append i hd t).symm
    _ = (digits j ++ e :: rest).takeWhile Char.isDigit := congrArg _ ht
    _ = digits j := takeWhile_toString_append j he rest
  rw [hdigits] at ht ⊢
  rw [(List.cons.inj (List.append_cancel_left ht)).1]

/-- **A replacement leaves the other spellings alone.**  After it they are where they have
been, between what it makes of the text in front of them and of the text behind them. -/
theorem replace_eq_append_iff {count : Nat} {r q : List Char × List Char} (hr : r ∈ rules count)
    (hq : q ∈ rules count) (hne : r ≠ q) (s x y : List Char) :
    replace r.1 r.2 s = x ++ (q.1 ++ y) ↔
      ∃ a b, s = a ++ (q.1 ++ b) ∧ replace r.1 r.2 a = x ∧ replace r.1 r.2 b = y := by
  rw [rules_eq, List.mem_map] at hr hq
  obtain ⟨body, hbody, rfl⟩ := hr
  obtain ⟨other, hother, rfl⟩ := hq
  have hbrace := brace_not_mem_of_mem_bodies hbody
  obtain ⟨i, d, rfl, hd, -⟩ := exists_of_mem_bodies hbody
  obtain ⟨j, e, rfl, he, he'⟩ := exists_of_mem_bodies hother
  have hfree : ∀ rest, (digits i ++ [d]).isPrefixOf (digits j ++ [e] ++ rest) = false := by
    intro rest
    rw [Bool.eq_false_iff]
    exact fun h => hne (congrArg naming (digits_eq_of_isPrefixOf hd he h))
  simp only [replace_naming hbrace]
  exact mark_eq_append_iff (isPrefixOf_append_brace hbrace) (settled_digits_append j he')
    (brace_not_mem_digits_append he') hfree s x y

/-- A spelling that has been replaced is found nowhere. -/
theorem not_infix_replace {count : Nat} {r : List Char × List Char} (hr : r ∈ rules count)
    (s : List Char) : ¬ r.1 <:+: replace r.1 r.2 s := by
  rw [rules_eq, List.mem_map] at hr
  obtain ⟨body, hbody, rfl⟩ := hr
  have hbrace := brace_not_mem_of_mem_bodies hbody
  obtain ⟨i, e, rfl, -, he⟩ := exists_of_mem_bodies hbody
  have hsettled := settled_digits_append i he
  have hnone : ∀ cs, (digits i ++ [e]).isPrefixOf
      (if (digits i ++ [e]).isPrefixOf cs then 'f' :: cs else cs) = false := by
    intro cs
    split
    · exact hsettled.marked cs
    · next hfits => exact Bool.eq_false_iff.mpr hfits
  rw [← occurs_iff, Bool.not_eq_true, replace_naming hbrace, naming, occurs_eq_anyBrace,
    anyBrace_mark hsettled.mark_eq, anyBrace_eq_false hnone]

/-! ### What is mentioned afterwards -/

theorem brace_not_mem_fieldName (i : Nat) : '{' ∉ fieldName i := by
  rw [fieldName, List.mem_cons]
  rintro (hf | hdigit)
  · cases hf
  · exact absurd (isDigit_of_mem_digits hdigit) (by decide)

theorem reads_mark {name : List Char} (h : '{' ∉ name) (r : List Char → Bool) (cs : List Char) :
    reads name (mark r cs) = reads name cs := by
  rw [reads, reads, isPrefixOf_mark (by simp [h]), isPrefixOf_mark (by simp [h])]

theorem reads_fieldName_f (i : Nat) (cs : List Char) :
    reads (fieldName i) ('f' :: cs) = reads (digits i) cs := by
  simp [reads, fieldName]

theorem reads_fieldName {count i : Nat} (hi : i < count) (cs : List Char) :
    reads (fieldName i) (if readsNumber count cs then 'f' :: cs else cs)
      = (reads (digits i) cs || reads (fieldName i) cs) := by
  cases hnumber : readsNumber count cs with
  | true =>
    -- what begins with a number does not begin with a name
    have hname : reads (fieldName i) cs = false := by
      cases cs with
      | nil => rfl
      | cons c cs =>
        have hc : c ≠ 'f' := by
          rintro rfl
          rw [(settled_readsNumber count).marked] at hnumber
          cases hnumber
        simp [reads, fieldName, List.isPrefixOf_cons_cons, hc.symm]
    rw [if_pos rfl, reads_fieldName_f, hname, Bool.or_false]
  | false =>
    have hdigits : reads (digits i) cs = false := by
      simpa using List.any_eq_false.mp hnumber i (List.mem_range.mpr hi)
    rw [if_neg Bool.false_ne_true, hdigits, Bool.false_or]

/-- **A name is mentioned after the naming just if it has been, or its number has been.** -/
theorem mentions_named {count i : Nat} (hi : i < count) (template : String) :
    mentions (named template count) (String.ofList (fieldName i))
      = (mentions template (toString i) || mentions template (String.ofList (fieldName i))) := by
  rw [mentions_eq, mentions_eq, mentions_eq, toList_named, anyBrace_or, String.toList_ofList,
    anyBrace_mark (reads_mark (brace_not_mem_fieldName i))]
  simp only [reads_fieldName hi]
  rfl

/-! ### One pass -/

theorem foldl_nameField_perm {is : List Nat} {count : Nat} (h : is.Perm (List.range count))
    (s : List Char) : is.foldl nameField s = mark (readsNumber count) s := by
  rw [foldl_nameField]
  simp only [h.any_eq]
  rfl

theorem named_named (template : String) (count : Nat) :
    named (named template count) count = named template count := by
  rw [← String.toList_inj, toList_named, toList_named, mark_mark (settled_readsNumber count)]
  simp only [Bool.or_self]

/-- **The replacements come to one pass.**  Naming the numbers below `count` is the pass over
the template that replaces both spellings of all of them, in whatever order the numbers are
named one after the other.  For a replacement makes and breaks no place of another spelling,
and leaves none of its own.  To name them once more changes nothing, and a name is mentioned
afterwards just if one of its spellings, or of those of its number, is a part of the
template. -/
theorem named_is_one_pass (template : String) (count : Nat) :
    (named template count).toList = substitute (rules count) template.toList ∧
    (∀ is : List Nat, is.Perm (List.range count) →
      is.foldl nameField template.toList = (named template count).toList) ∧
    (∀ r ∈ rules count, ∀ q ∈ rules count, r ≠ q → ∀ s x y,
      replace r.1 r.2 s = x ++ (q.1 ++ y) ↔
        ∃ a b, s = a ++ (q.1 ++ b) ∧ replace r.1 r.2 a = x ∧ replace r.1 r.2 b = y) ∧
    (∀ r ∈ rules count, ∀ s, ¬ r.1 <:+: replace r.1 r.2 s) ∧
    named (named template count) count = named template count ∧
    ∀ i < count, mentions (named template count) (String.ofList (fieldName i)) = true ↔
      plain (digits i) <:+: template.toList ∨ formatted (digits i) <:+: template.toList ∨
      plain (fieldName i) <:+: template.toList ∨ formatted (fieldName i) <:+: template.toList := by
  refine ⟨?_, fun is h => ?_, fun r hr q hq hne => replace_eq_append_iff hr hq hne,
    fun r hr => not_infix_replace hr, named_named template count, fun i hi => ?_⟩
  · rw [toList_named, substitute_rules]
  · rw [foldl_nameField_perm h, toList_named]
  · rw [mentions_named hi, Bool.or_eq_true, mentions_iff, mentions_iff, String.toList_ofList,
      or_assoc]
    rfl

/-- The beginning of a placeholder for argument 10 reads like one for argument 1 but for the
last digit, and it is in the way of none behind it. -/
theorem named_is_one_pass_two_digits :
    (10 :: List.range 10).Perm (List.range 11) ∧
      (10 :: List.range 10).foldl nameField (formatted (digits 10) ++ plain (digits 1))
        = (named (String.ofList (formatted (digits 10) ++ plain (digits 1))) 11).toList ∧
      (plain (digits 1), plain (fieldName 1)) ∈ rules 11 ∧
      (formatted (digits 10), formatted (fieldName 10)) ∈ rules 11 ∧
      plain (digits 1) ≠ formatted (digits 10) ∧
      replace (plain (digits 1)) (plain (fieldName 1))
          (['{', '1'] ++ (formatted (digits 10) ++ plain (digits 1)))
        = ['{', '1'] ++ (formatted (digits 10) ++ plain (fieldName 1)) ∧
      1 < 11 ∧
      mentions (named (String.ofList (formatted (digits 10) ++ plain (digits 1))) 11)
        (String.ofList (fieldName 1)) = true := by
  obtain ⟨-, horder, hplaces, -, -, hmentions⟩ :=
    named_is_one_pass (String.ofList (formatted (digits 10) ++ plain (digits 1))) 11
  rw [String.toList_ofList] at horder hmentions
  have hperm : (10 :: List.range 10).Perm (List.range 11) := by decide
  have hone : (plain (digits 1), plain (fieldName 1)) ∈ rules 11 := by decide +kernel
  have hten : (formatted (digits 10), formatted (fieldName 10)) ∈ rules 11 := by decide +kernel
  have hne : plain (digits 1) ≠ formatted (digits 10) := by decide +kernel
  have hreplace := (hplaces _ hone _ hten (fun h => hne (congrArg Prod.fst h)) _
    ['{', '1'] (plain (fieldName 1))).mpr
      ⟨['{', '1'], plain (digits 1), rfl, by decide +kernel, by decide +kernel⟩
  have hmentioned : plain (digits 1) <:+: formatted (digits 10) ++ plain (digits 1) :=
    (List.suffix_append _ _).isInfix
  exact ⟨hperm, horder _ hperm, hone, hten, hne, hreplace, by decide,
    (hmentions 1 (by decide)).mpr (.inl hmentioned)⟩

end WordMachine.Text.Template
