/-
WordMachine/Proofs/Placeholders.lean

Placeholders that are found and named by their spelling.

What is searched for begins with a brace and has no other brace in it.  So a search
looks at what is behind each brace (`mentions_eq`), and a replacement, or one pass that
makes many of them, puts an `f` behind some of the braces (`replace_eq_mark`,
`substitute_eq_mark`).  A later replacement for another number looks at the same braces
as it would have done before: what it looks for ends in front of the next brace, and a
number does not begin with an `f` (`Settled`).  Therefore all replacements come to one
pass over the template, in which the order of the numbers has no part: `toList_named`.
-/
import WordMachine.Proofs.Decimals
import WordMachine.Text.Template

namespace WordMachine.Text.Template

variable {p q : List Char → Bool}

/-! ### Braces -/

/-- Whether `p` holds of the text behind some brace. -/
def anyBrace (p : List Char → Bool) : List Char → Bool
  | [] => false
  | c :: cs => (c == '{' && p cs) || anyBrace p cs

/-- Puts an `f` behind the braces behind which `p` holds of the text. -/
def mark (p : List Char → Bool) : List Char → List Char
  | [] => []
  | c :: cs => if c == '{' && p cs then c :: 'f' :: mark p cs else c :: mark p cs

theorem mark_cons_of_pos {c : Char} {cs : List Char} (h : (c == '{' && p cs) = true) :
    mark p (c :: cs) = c :: 'f' :: mark p cs := by
  rw [mark, if_pos h]

theorem mark_cons_of_neg {c : Char} {cs : List Char} (h : (c == '{' && p cs) = false) :
    mark p (c :: cs) = c :: mark p cs := by
  rw [mark, if_neg (Bool.eq_false_iff.mp h)]

theorem mark_cons_of_ne {c : Char} (hc : c ≠ '{') (cs : List Char) :
    mark p (c :: cs) = c :: mark p cs := mark_cons_of_neg (by simp [hc])

theorem mark_brace_of_pos {cs : List Char} (h : p cs = true) :
    mark p ('{' :: cs) = '{' :: 'f' :: mark p cs := mark_cons_of_pos (by simp [h])

theorem mark_brace_of_neg {cs : List Char} (h : p cs = false) :
    mark p ('{' :: cs) = '{' :: mark p cs := mark_cons_of_neg (by simp [h])

/-- Behind no brace of `xs` does `p` hold, whatever follows `xs`. -/
def Quiet (p : List Char → Bool) : List Char → Prop
  | [] => True
  | c :: cs => (c = '{' → ∀ rest, p (cs ++ rest) = false) ∧ Quiet p cs

theorem quiet_of_not_mem {xs : List Char} (h : '{' ∉ xs) : Quiet p xs := by
  induction xs with
  | nil => trivial
  | cons x xs ih =>
    rw [List.mem_cons, not_or] at h
    exact ⟨fun hx => absurd hx.symm h.1, ih h.2⟩

theorem Quiet.append {xs ys : List Char} (hxs : Quiet p xs) (hys : Quiet p ys) :
    Quiet p (xs ++ ys) := by
  induction xs with
  | nil => exact hys
  | cons x xs ih =>
    refine ⟨fun hx rest => ?_, ih hxs.2⟩
    show p (xs ++ ys ++ rest) = false
    rw [List.append_assoc]
    exact hxs.1 hx (ys ++ rest)

/-- A quiet text is left as it is. -/
theorem mark_append {xs : List Char} (h : Quiet p xs) (s : List Char) :
    mark p (xs ++ s) = xs ++ mark p s := by
  induction xs with
  | nil => rfl
  | cons x xs ih =>
    rw [List.cons_append, List.cons_append]
    by_cases hx : x = '{'
    · subst hx
      rw [mark_brace_of_neg (h.1 rfl s), ih h.2]
    · rw [mark_cons_of_ne hx, ih h.2]

theorem mark_false (s : List Char) : mark (fun _ => false) s = s := by
  induction s with
  | nil => rfl
  | cons c cs ih => simp [mark, ih]

theorem anyBrace_append {xs : List Char} (h : Quiet p xs) (s : List Char) :
    anyBrace p (xs ++ s) = anyBrace p s := by
  induction xs with
  | nil => rfl
  | cons x xs ih =>
    rw [List.cons_append, anyBrace, ih h.2]
    by_cases hx : x = '{'
    · rw [h.1 hx s, Bool.and_false, Bool.false_or]
    · rw [beq_false_of_ne hx, Bool.false_and, Bool.false_or]

theorem anyBrace_or (s : List Char) :
    (anyBrace p s || anyBrace q s) = anyBrace (fun cs => p cs || q cs) s := by
  induction s with
  | nil => rfl
  | cons c cs ih =>
    simp only [anyBrace, ← ih, Bool.and_or_distrib_left]
    ac_rfl

/-! ### One brace after the other -/

/-- Whether a text begins like that behind the brace of a placeholder for a name. -/
def reads (name cs : List Char) : Bool :=
  (name ++ ['}']).isPrefixOf cs || (name ++ [':']).isPrefixOf cs

theorem occurs_eq_anyBrace (body s : List Char) :
    occurs ('{' :: body) s = anyBrace body.isPrefixOf s := by
  induction s with
  | nil => rfl
  | cons c cs ih =>
    rw [occurs, anyBrace, ih, List.isPrefixOf_cons_cons, BEq.comm]

/-- **A template mentions a name if it reads so behind some brace.** -/
theorem mentions_eq (template name : String) :
    mentions template name = anyBrace (reads name.toList) template.toList := by
  show (occurs ('{' :: (name.toList ++ ['}'])) _ || occurs ('{' :: (name.toList ++ [':'])) _) = _
  rw [occurs_eq_anyBrace, occurs_eq_anyBrace, anyBrace_or]
  rfl

/-- What is put behind a brace does not hide what has been there. -/
theorem isPrefixOf_mark {body : List Char} (h : '{' ∉ body) (cs : List Char) :
    body.isPrefixOf (mark q cs) = body.isPrefixOf cs := by
  induction body generalizing cs with
  | nil => rfl
  | cons b body ih =>
    rw [List.mem_cons, not_or] at h
    obtain ⟨hb, hbody⟩ := h
    cases cs with
    | nil => rfl
    | cons c cs =>
      by_cases hc : c = '{'
      · -- both texts begin with the brace, and the name does not
        subst hc
        have hne : (b == '{') = false := beq_false_of_ne (Ne.symm hb)
        cases hq : q cs with
        | false => rw [mark_brace_of_neg hq, List.isPrefixOf_cons_cons, List.isPrefixOf_cons_cons, hne]; rfl
        | true => rw [mark_brace_of_pos hq, List.isPrefixOf_cons_cons, List.isPrefixOf_cons_cons, hne]; rfl
      · rw [mark_cons_of_ne hc, List.isPrefixOf_cons_cons, List.isPrefixOf_cons_cons, ih hbody]

/-! ### One pass for many spellings -/

/-- One pass over a text, for rules that say what a spelling is replaced by.  Where a
spelling begins its replacement is written, and the pass goes on behind the spelling; any
other character is copied. -/
def substitute (rules : List (List Char × List Char)) : List Char → List Char
  | [] => []
  | c :: cs =>
    match rules.find? fun r => r.1.isPrefixOf (c :: cs) with
    | some r => r.2 ++ substitute rules (cs.drop (r.1.length - 1))
    | none => c :: substitute rules cs
  termination_by s => s.length
  decreasing_by
    · simp only [List.length_drop, List.length_cons]; omega
    · simp

theorem replace_eq_substitute (pattern new s : List Char) :
    replace pattern new s = substitute [(pattern, new)] s := by
  induction s using replace.induct pattern with
  | case1 => rw [replace, substitute]
  | case2 c cs hprefix ih => simp [replace, substitute, hprefix, ih]
  | case3 c cs hprefix ih => simp [replace, substitute, hprefix, ih]

/-- The rule that puts an `f` behind the brace in front of `body`. -/
def naming (body : List Char) : List Char × List Char := ('{' :: body, '{' :: 'f' :: body)

theorem isPrefixOf_naming (body : List Char) (c : Char) (cs : List Char) :
    (naming body).1.isPrefixOf (c :: cs) = (c == '{' && body.isPrefixOf cs) := by
  rw [naming, List.isPrefixOf_cons_cons, BEq.comm]

/-- **A pass that names what is behind braces marks them.** -/
theorem substitute_eq_mark {bodies : List (List Char)} (h : ∀ body ∈ bodies, '{' ∉ body)
    (s : List Char) :
    substitute (bodies.map naming) s
      = mark (fun cs => bodies.any fun body => body.isPrefixOf cs) s := by
  -- the recursion skips the spelling, so this is no induction on the characters
  induction s using substitute.induct (bodies.map naming) with
  | case1 => rw [substitute, mark]
  | case2 c cs r hfind ih =>
    obtain ⟨body, hmem, rfl⟩ := List.mem_map.mp (List.mem_of_find?_eq_some hfind)
    have hfits := List.find?_some hfind
    rw [isPrefixOf_naming, Bool.and_eq_true, beq_iff_eq] at hfits
    obtain ⟨rfl, hbody⟩ := hfits
    obtain ⟨rest, rfl⟩ := List.isPrefixOf_iff_prefix.mp hbody
    have hdrop : (body ++ rest).drop ((naming body).1.length - 1) = rest := List.drop_left
    have hmarked : (bodies.any fun b => b.isPrefixOf (body ++ rest)) = true :=
      List.any_eq_true.mpr ⟨body, hmem, hbody⟩
    rw [hdrop] at ih
    rw [substitute, hfind, mark_brace_of_pos hmarked, mark_append (quiet_of_not_mem (h body hmem))]
    simp only [hdrop, ih]
    rfl
  | case3 c cs hfind ih =>
    have hfree : ∀ body ∈ bodies, c = '{' → ¬ body <+: cs := by
      simpa [isPrefixOf_naming] using hfind
    have hnone : (c == '{' && bodies.any fun body => body.isPrefixOf cs) = false := by
      simpa using fun hc body hmem => hfree body hmem hc
    rw [substitute, hfind, mark_cons_of_neg hnone, ih]

/-- **A replacement marks braces.** -/
theorem replace_eq_mark {body : List Char} (h : '{' ∉ body) (s : List Char) :
    replace ('{' :: body) ('{' :: 'f' :: body) s = mark body.isPrefixOf s := by
  have hpass : substitute ([body].map naming) s = _ := substitute_eq_mark (by simpa using h) s
  simpa [replace_eq_substitute, naming] using hpass

/-! ### Numbers one after the other -/

/-- What is looked for behind a brace is none of the marks, and marks further on are
not in the way. -/
structure Settled (p : List Char → Bool) : Prop where
  marked : ∀ cs, p ('f' :: cs) = false
  mark_eq : ∀ q cs, p (mark q cs) = p cs

/-- Marks made one after the other can be made at the same time. -/
theorem mark_mark (h : Settled p) (s : List Char) :
    mark p (mark q s) = mark (fun cs => q cs || p cs) s := by
  induction s with
  | nil => rfl
  | cons c cs ih =>
    by_cases hc : c = '{'
    · subst hc
      cases hq : q cs with
      | true =>
        -- the mark stands behind the brace now, and `p` does not hold of it
        rw [mark_brace_of_pos hq, mark_brace_of_neg (h.marked _), mark_cons_of_ne (by decide), ih,
          mark_brace_of_pos (by rw [hq, Bool.true_or])]
      | false =>
        -- marks further on do not change what `p` says of the text behind this brace
        rw [mark_brace_of_neg hq]
        cases hp : p cs with
        | true =>
          rw [mark_brace_of_pos ((h.mark_eq q cs).trans hp), ih,
            mark_brace_of_pos (by rw [hp, Bool.or_true])]
        | false =>
          rw [mark_brace_of_neg ((h.mark_eq q cs).trans hp), ih,
            mark_brace_of_neg (by rw [hq, hp, Bool.false_or])]
    · rw [mark_cons_of_ne hc, mark_cons_of_ne hc, mark_cons_of_ne hc, ih]

theorem settled_isPrefixOf {b : Char} {body : List Char} (hb : b ≠ 'f') (h : '{' ∉ b :: body) :
    Settled (b :: body).isPrefixOf where
  marked cs := by rw [List.isPrefixOf_cons_cons, beq_false_of_ne hb, Bool.false_and]
  mark_eq q cs := isPrefixOf_mark h cs

theorem Settled.or (hp : Settled p) (hq : Settled q) : Settled fun cs => p cs || q cs where
  marked cs := by rw [hp.marked, hq.marked, Bool.false_or]
  mark_eq r cs := by rw [hp.mark_eq, hq.mark_eq]

theorem isDigit_of_mem_digits {i : Nat} {c : Char} (h : c ∈ digits i) : c.isDigit = true :=
  isDigit_of_mem_toString h

theorem exists_digits (i : Nat) : ∃ d ds, digits i = d :: ds ∧ d.isDigit = true := by
  obtain ⟨d, ds, hdigits⟩ := List.exists_cons_of_ne_nil (toList_toString_ne_nil i)
  exact ⟨d, ds, hdigits, isDigit_of_mem_digits (hdigits ▸ List.mem_cons_self)⟩

theorem brace_not_mem_digits_append {i : Nat} {e : Char} (he : e ≠ '{') :
    '{' ∉ digits i ++ [e] := by
  rw [List.mem_append, List.mem_singleton]
  rintro (hdigit | rfl)
  · exact absurd (isDigit_of_mem_digits hdigit) (by decide)
  · exact he rfl

theorem settled_digits_append (i : Nat) {e : Char} (he : e ≠ '{') :
    Settled (digits i ++ [e]).isPrefixOf := by
  obtain ⟨d, ds, hdigits, hd⟩ := exists_digits i
  have hne : d ≠ 'f' := by
    rintro rfl
    exact absurd hd (by decide)
  have hbrace := brace_not_mem_digits_append (i := i) he
  rw [hdigits] at hbrace ⊢
  exact settled_isPrefixOf hne hbrace

theorem settled_reads_digits (i : Nat) : Settled (reads (digits i)) :=
  (settled_digits_append i (by decide)).or (settled_digits_append i (by decide))

theorem nameField_eq_mark (s : List Char) (i : Nat) : nameField s i = mark (reads (digits i)) s := by
  show replace ('{' :: (digits i ++ [':'])) ('{' :: 'f' :: (digits i ++ [':']))
    (replace ('{' :: (digits i ++ ['}'])) ('{' :: 'f' :: (digits i ++ ['}'])) s) = _
  have hclose : '{' ∉ digits i ++ ['}'] := brace_not_mem_digits_append (by decide)
  have hcolon : '{' ∉ digits i ++ [':'] := brace_not_mem_digits_append (by decide)
  have hsettled : Settled (digits i ++ [':']).isPrefixOf := settled_digits_append i (by decide)
  rw [replace_eq_mark hcolon, replace_eq_mark hclose, mark_mark hsettled]
  rfl

theorem settled_any (is : List Nat) : Settled fun cs => is.any fun i => reads (digits i) cs where
  marked cs := by
    rw [List.any_eq_false]
    intro i _
    rw [(settled_reads_digits i).marked]
    exact Bool.false_ne_true
  mark_eq q cs := by simp only [(settled_reads_digits _).mark_eq]

theorem foldl_nameField (is : List Nat) (s : List Char) :
    is.foldl nameField s = mark (fun cs => is.any fun i => reads (digits i) cs) s := by
  induction is generalizing s with
  | nil => exact (mark_false s).symm
  | cons i is ih =>
    rw [List.foldl_cons, ih, nameField_eq_mark, mark_mark (settled_any is)]
    simp only [List.any_cons]

/-- Whether a text begins like that behind the brace of a placeholder for a number below
`count`. -/
def readsNumber (count : Nat) (cs : List Char) : Bool :=
  (List.range count).any fun i => reads (digits i) cs

theorem settled_readsNumber (count : Nat) : Settled (readsNumber count) :=
  settled_any (List.range count)

/-- **All arguments are named in one pass.** -/
theorem toList_named (template : String) (count : Nat) :
    (named template count).toList = mark (readsNumber count) template.toList := by
  unfold named
  rw [String.toList_ofList, foldl_nameField]
  simp only [List.any_reverse]
  rfl

end WordMachine.Text.Template
