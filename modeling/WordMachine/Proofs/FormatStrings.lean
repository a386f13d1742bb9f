/-
WordMachine/Proofs/FormatStrings.lean

Templates as their author writes them: literal text, doubled braces for braces, and
placeholders for an argument, with a format or without.

Placeholders are found by their spelling, and a doubled brace is a brace to the search.
So a template is read as it is written but for its decoys, the doubled braces behind
which the text goes on like a placeholder: `{{0}}` is a `0` in braces to its author and
has the placeholder `{0}` in it to the search.  One thing more is missed: a number
counts as one only if it is spelled without leading zeros.  These two are all that is
misread, and each of them is (`template_is_read_up_to_decoys`).
-/
import WordMachine.Proofs.Placeholders
import Mathlib.Data.List.Basic

namespace WordMachine.Text.Template

variable {p : List Char → Bool}

/-! ### The parts of a template -/

def isBrace (c : Char) : Bool :=
  c == '{' || c == '}'

/-- Whether a character may stand in an argument: it is none of the signs that end one or
follow a filling. -/
def isPlain (c : Char) : Bool :=
  !(isBrace c || c == ':' || c == '<' || c == '^' || c == '>')

/-- A name, which does not look like a number. -/
structure Name where
  text : List Char
  plain : text.all isPlain = true
  undigited : text.head?.any Char.isDigit = false

/-- What a placeholder stands for: an argument by its number, which may be spelled with
leading zeros, or by its name. -/
inductive Argument
  | index (zeros i : Nat)
  | name (n : Name)

def Argument.text : Argument → List Char
  | .index zeros i => List.replicate zeros '0' ++ digits i
  | .name n => n.text

inductive Alignment
  | left | centre | right

def Alignment.sign : Alignment → Char
  | .left => '<'
  | .centre => '^'
  | .right => '>'

/-- A format: an alignment, with a filling or without, and what else is asked for.  The
filling is any character, a brace too. -/
structure Format where
  placed : Option (Option Char × Alignment)
  rest : List Char
  unbraced : rest.any isBrace = false

/-- The text of an alignment. -/
def placing : Option (Option Char × Alignment) → List Char
  | none => []
  | some (none, a) => [a.sign]
  | some (some fill, a) => [fill, a.sign]

/-- What follows the argument of a placeholder. -/
def ending : Option Format → List Char
  | none => ['}']
  | some f => ':' :: (placing f.placed ++ f.rest ++ ['}'])

inductive Piece
  | literal (c : Char) (unbraced : isBrace c = false)
  | openBrace
  | closeBrace
  | placeholder (a : Argument) (f : Option Format)

def Piece.text : Piece → List Char
  | .literal c _ => [c]
  | .openBrace => ['{', '{']
  | .closeBrace => ['}', '}']
  | .placeholder a f => '{' :: (a.text ++ ending f)

def write (ps : List Piece) : List Char := ps.flatMap Piece.text

/-- The template that is written with some pieces. -/
def ofPieces (ps : List Piece) : String := String.ofList (write ps)

theorem write_cons (piece : Piece) (ps : List Piece) :
    write (piece :: ps) = piece.text ++ write ps :=
  List.flatMap_cons

theorem write_openBrace (ps : List Piece) : write (.openBrace :: ps) = '{' :: '{' :: write ps :=
  write_cons .openBrace ps

theorem write_placeholder (a : Argument) (f : Option Format) (ps : List Piece) :
    write (.placeholder a f :: ps) = '{' :: (a.text ++ (ending f ++ write ps)) := by
  rw [write_cons, Piece.text, List.cons_append, List.append_assoc]

/-! ### Names for numbers -/

theorem isPlain_of_isDigit {c : Char} (h : c.isDigit = true) : isPlain c = true := by
  by_contra hsign
  simp only [isPlain, isBrace, Bool.not_eq_true', Bool.not_eq_false, Bool.or_eq_true,
    beq_iff_eq] at hsign
  rcases hsign with ((((rfl | rfl) | rfl) | rfl) | rfl) | rfl
  all_goals exact absurd h (by decide)

theorem all_isPlain_digits (i : Nat) : (digits i).all isPlain = true :=
  List.all_eq_true.mpr fun _ hc => isPlain_of_isDigit (isDigit_of_mem_digits hc)

/-- The name of the argument with a number. -/
def Name.field (i : Nat) : Name where
  text := fieldName i
  plain := all_isPlain_digits i
  undigited := rfl

def Argument.named (count : Nat) : Argument → Argument
  | .index zeros i => if i < count then .name (.field i) else .index zeros i
  | .name n => .name n

/-- The piece with its number, if it has one below `count`, turned into a name. -/
def Piece.named (count : Nat) : Piece → Piece
  | .placeholder a f => .placeholder (a.named count) f
  | piece => piece

/-! ### Arguments are told apart by their texts -/

theorem ofDigitChars_replicate_append (zeros : Nat) (s : List Char) :
    Nat.ofDigitChars 10 (List.replicate zeros '0' ++ s) 0 = Nat.ofDigitChars 10 s 0 := by
  induction zeros with
  | zero => rfl
  | succ zeros ih =>
    rw [List.replicate_succ, List.cons_append, Nat.ofDigitChars_cons]
    exact ih

theorem ofDigitChars_index (zeros i : Nat) :
    Nat.ofDigitChars 10 (Argument.index zeros i).text 0 = i := by
  show Nat.ofDigitChars 10 (List.replicate zeros '0' ++ digits i) 0 = i
  rw [ofDigitChars_replicate_append]
  exact ofDigitChars_toString i

theorem isDigit_head_index (zeros i : Nat) :
    ((Argument.index zeros i).text.head?.any Char.isDigit) = true := by
  cases zeros with
  | zero =>
    obtain ⟨d, ds, hdigits, hd⟩ := exists_digits i
    show ((digits i).head?.any Char.isDigit) = true
    rw [hdigits]
    exact hd
  | succ zeros => rfl

theorem Argument.text_injective {a b : Argument} (h : a.text = b.text) : a = b := by
  cases a with
  | index zeros i =>
    cases b with
    | index zeros' j =>
      -- the text gives the number, and with it the number of zeros
      have hij : i = j := by
        rw [← ofDigitChars_index zeros i, h, ofDigitChars_index]
      subst hij
      have hzeros := congrArg List.length (List.append_cancel_right h)
      rw [List.length_replicate, List.length_replicate] at hzeros
      rw [hzeros]
    | name n =>
      -- a number begins with a digit, and a name does not
      have hdigit := isDigit_head_index zeros i
      rw [h] at hdigit
      exact absurd (hdigit.symm.trans n.undigited) (by decide)
  | name m =>
    cases b with
    | index zeros j =>
      have hdigit := isDigit_head_index zeros j
      rw [← h] at hdigit
      exact absurd (hdigit.symm.trans m.undigited) (by decide)
    | name n =>
      obtain ⟨m, _, _⟩ := m
      obtain ⟨n, _, _⟩ := n
      cases (show m = n from h)
      rfl

theorem Argument.plain (a : Argument) : ∀ c ∈ a.text, isPlain c = true := by
  rw [← List.all_eq_true]
  cases a with
  | index zeros i =>
    have hzeros : (List.replicate zeros '0').all isPlain = true := by
      rw [List.all_eq_true]
      intro c hc
      rw [List.eq_of_mem_replicate hc]
      decide
    show (List.replicate zeros '0' ++ digits i).all isPlain = true
    rw [List.all_append, hzeros, all_isPlain_digits]
    rfl
  | name n => exact n.plain

/-! ### What reads like a placeholder -/

theorem reads_iff {name cs : List Char} :
    reads name cs = true ↔
      ∃ e rest, (e = '}' ∨ e = ':') ∧ cs = name ++ e :: rest := by
  rw [reads, Bool.or_eq_true, List.isPrefixOf_iff_prefix, List.isPrefixOf_iff_prefix]
  constructor
  · rintro (⟨rest, rfl⟩ | ⟨rest, rfl⟩)
    · exact ⟨'}', rest, .inl rfl, List.append_assoc _ _ _⟩
    · exact ⟨':', rest, .inr rfl, List.append_assoc _ _ _⟩
  · rintro ⟨e, rest, rfl | rfl, rfl⟩
    · exact .inl ⟨rest, List.append_assoc _ _ _⟩
    · exact .inr ⟨rest, List.append_assoc _ _ _⟩

/-- An argument is what stands in front of the first sign. -/
theorem Argument.takeWhile_text (a : Argument) {e : Char} (he : isPlain e = false)
    (rest : List Char) : (a.text ++ e :: rest).takeWhile isPlain = a.text := by
  rw [List.takeWhile_append_of_pos a.plain,
    List.takeWhile_cons_of_neg (by rw [he]; exact Bool.false_ne_true), List.append_nil]

/-- Behind a brace only the argument of the placeholder is read. -/
theorem reads_text_iff (a b : Argument) (f : Option Format) (rest : List Char) :
    reads a.text (b.text ++ (ending f ++ rest)) = true ↔ b = a := by
  obtain ⟨e, tail, he, hending⟩ :
      ∃ e tail, (e = '}' ∨ e = ':') ∧ ending f ++ rest = e :: tail := by
    cases f with
    | none => exact ⟨'}', rest, .inl rfl, rfl⟩
    | some f => exact ⟨':', _, .inr rfl, rfl⟩
  have hsign : ∀ {e : Char}, e = '}' ∨ e = ':' → isPlain e = false := by
    rintro e (rfl | rfl) <;> rfl
  rw [reads_iff, hending]
  constructor
  · rintro ⟨e', rest', he', h⟩
    have htake := congrArg (List.takeWhile isPlain) h
    rw [b.takeWhile_text (hsign he), a.takeWhile_text (hsign he')] at htake
    exact Argument.text_injective htake
  · rintro rfl
    exact ⟨e, tail, he, rfl⟩

/-- Whether `p` is about arguments: it does not hold of a text that begins with a brace or
with the sign of an alignment. -/
structure Reader (p : List Char → Bool) : Prop where
  brace : ∀ cs, p ('{' :: cs) = false
  sign : ∀ (a : Alignment) cs, p (a.sign :: cs) = false

theorem reads_of_sign (a : Argument) {c : Char} (hc : isPlain c = false) (hclose : c ≠ '}')
    (hcolon : c ≠ ':') (cs : List Char) : reads a.text (c :: cs) = false := by
  rw [← Bool.not_eq_true, reads_iff]
  rintro ⟨e, rest, he, h⟩
  have hplain := a.plain
  -- the sign would be the end of the argument or stand in it
  cases htext : a.text with
  | nil =>
    rw [htext] at h
    cases h
    exact he.elim hclose hcolon
  | cons x xs =>
    rw [htext] at h hplain
    cases h
    have hx := hplain c List.mem_cons_self
    exact absurd (hx.symm.trans hc) (by decide)

theorem reader_reads (a : Argument) : Reader (reads a.text) where
  brace := reads_of_sign a rfl (by decide) (by decide)
  sign := by
    rintro (_ | _ | _)
    all_goals exact reads_of_sign a rfl (by decide) (by decide)

theorem reader_readsNumber (count : Nat) : Reader (readsNumber count) := by
  have hnone : ∀ {cs : List Char}, (∀ i, reads (Argument.index 0 i).text cs = false) →
      readsNumber count cs = false := by
    intro cs h
    rw [readsNumber, List.any_eq_false]
    intro i _
    rw [Bool.not_eq_true]
    exact h i
  exact ⟨fun cs => hnone fun i => (reader_reads (.index 0 i)).brace cs,
    fun a cs => hnone fun i => (reader_reads (.index 0 i)).sign a cs⟩

theorem readsNumber_text_iff (count : Nat) (a : Argument) (f : Option Format)
    (rest : List Char) :
    readsNumber count (a.text ++ (ending f ++ rest)) = true ↔ ∃ i < count, a = .index 0 i := by
  rw [readsNumber, List.any_eq_true]
  simp only [List.mem_range]
  exact exists_congr fun i => and_congr_right fun _ => reads_text_iff (.index 0 i) a f rest

/-! ### The braces of a template -/

theorem quiet_of_unbraced {xs : List Char} (h : xs.any isBrace = false) : Quiet p xs := by
  apply quiet_of_not_mem
  intro hmem
  rw [List.any_eq_false] at h
  exact h '{' hmem rfl

theorem quiet_singleton {c : Char} (hc : c ≠ '{') : Quiet p [c] :=
  ⟨fun h => absurd h hc, trivial⟩

theorem Alignment.sign_ne_brace (a : Alignment) : a.sign ≠ '{' := by
  cases a <;> decide

theorem quiet_literal {c : Char} (hc : isBrace c = false) : Quiet p (Piece.literal c hc).text :=
  quiet_of_unbraced (by rw [Piece.text, List.any_cons, hc, List.any_nil, Bool.or_false])

theorem quiet_closeBrace : Quiet p Piece.closeBrace.text :=
  quiet_of_not_mem (by decide)

/-- Nothing is found behind a filling, as the sign of the alignment stands there. -/
theorem quiet_placing (hp : Reader p) (placed : Option (Option Char × Alignment)) :
    Quiet p (placing placed) := by
  rcases placed with _ | ⟨_ | fill, a⟩
  · trivial
  · exact quiet_singleton a.sign_ne_brace
  · exact ⟨fun _ rest => hp.sign a rest, quiet_singleton a.sign_ne_brace⟩

/-- A brace in a format can only be a filling. -/
theorem quiet_ending (hp : Reader p) (f : Option Format) : Quiet p (ending f) := by
  have hclose : Quiet p ['}'] := quiet_singleton (by decide)
  cases f with
  | none => exact hclose
  | some f =>
    have hcolon : Quiet p [':'] := quiet_singleton (by decide)
    exact hcolon.append (((quiet_placing hp f.placed).append (quiet_of_unbraced f.unbraced)).append
      hclose)

theorem quiet_text (hp : Reader p) (a : Argument) (f : Option Format) :
    Quiet p (a.text ++ ending f) := by
  refine Quiet.append (quiet_of_not_mem fun hmem => ?_) (quiet_ending hp f)
  exact absurd (a.plain '{' hmem) (by decide)

/-- Whether `p` holds of the text behind a doubled brace. -/
inductive Decoy (p : List Char → Bool) : List Piece → Prop
  | here {ps : List Piece} : p (write ps) = true → Decoy p (.openBrace :: ps)
  | later {piece : Piece} {ps : List Piece} : Decoy p ps → Decoy p (piece :: ps)

theorem decoy_cons_iff {piece : Piece} {ps : List Piece} :
    Decoy p (piece :: ps) ↔ (piece = .openBrace ∧ p (write ps) = true) ∨ Decoy p ps := by
  constructor
  · rintro (h | h)
    · exact .inl ⟨rfl, h⟩
    · exact .inr h
  · rintro (⟨rfl, h⟩ | h)
    · exact .here h
    · exact .later h

/-! ### What is mentioned -/

theorem anyBrace_openBrace (hp : Reader p) (ps : List Piece) :
    anyBrace p (write (.openBrace :: ps)) = (p (write ps) || anyBrace p (write ps)) := by
  rw [write_openBrace, anyBrace, anyBrace, hp.brace, Bool.and_false, Bool.false_or]
  rfl

theorem anyBrace_placeholder (hp : Reader p) (a : Argument) (f : Option Format)
    (ps : List Piece) :
    anyBrace p (write (.placeholder a f :: ps))
      = (p (a.text ++ (ending f ++ write ps)) || anyBrace p (write ps)) := by
  rw [write_placeholder, anyBrace, ← List.append_assoc, anyBrace_append (quiet_text hp a f)]
  rfl

/-- The braces at which an argument is read are those of its placeholders and decoys. -/
theorem anyBrace_write_iff (a : Argument) (ps : List Piece) :
    anyBrace (reads a.text) (write ps) = true ↔
      (∃ f, .placeholder a f ∈ ps) ∨ Decoy (reads a.text) ps := by
  induction ps with
  | nil =>
    refine iff_of_false Bool.false_ne_true ?_
    rintro (⟨f, h⟩ | h)
    · exact List.not_mem_nil h
    · cases h
  | cons piece ps ih =>
    rw [decoy_cons_iff]
    cases piece with
    | literal c hc =>
      rw [write_cons, anyBrace_append (quiet_literal hc), ih]
      simp
    | openBrace =>
      rw [anyBrace_openBrace (reader_reads a), Bool.or_eq_true, ih]
      simp [or_left_comm]
    | closeBrace =>
      rw [write_cons, anyBrace_append quiet_closeBrace, ih]
      simp
    | placeholder b f =>
      rw [anyBrace_placeholder (reader_reads a), Bool.or_eq_true, ih, reads_text_iff]
      constructor
      · rintro (rfl | ⟨g, hg⟩ | h)
        · exact .inl ⟨f, List.mem_cons_self⟩
        · exact .inl ⟨g, List.mem_cons_of_mem _ hg⟩
        · exact .inr (.inr h)
      · rintro (⟨g, hg⟩ | ⟨h, _⟩ | h)
        · rcases List.mem_cons.mp hg with heq | hg
          · cases heq
            exact .inl rfl
          · exact .inr (.inl ⟨g, hg⟩)
        · cases h
        · exact .inr (.inr h)

/-! ### What is named -/

/-- A number below `count` is spelled without leading zeros. -/
def Argument.Unpadded (count : Nat) : Argument → Prop
  | .index zeros i => i < count → zeros = 0
  | .name _ => True

/-- A template without what is misread as a number below `count`, or not read as one: it has
no decoys for them, and its placeholders spell them without leading zeros. -/
structure Clear (count : Nat) (ps : List Piece) : Prop where
  undecoyed : ¬ Decoy (readsNumber count) ps
  unpadded : ∀ a f, .placeholder a f ∈ ps → a.Unpadded count

theorem clear_cons_iff {count : Nat} {piece : Piece} {ps : List Piece} :
    Clear count (piece :: ps) ↔
      ¬ (piece = .openBrace ∧ readsNumber count (write ps) = true) ∧
        (∀ a f, piece = .placeholder a f → a.Unpadded count) ∧ Clear count ps := by
  constructor
  · rintro ⟨hdecoy, hpadded⟩
    rw [decoy_cons_iff, not_or] at hdecoy
    exact ⟨hdecoy.1, fun a f h => hpadded a f (h ▸ List.mem_cons_self),
      hdecoy.2, fun a f h => hpadded a f (List.mem_cons_of_mem _ h)⟩
  · rintro ⟨hhere, hpiece, hdecoy, hpadded⟩
    refine ⟨?_, fun a f h => ?_⟩
    · rw [decoy_cons_iff, not_or]
      exact ⟨hhere, hdecoy⟩
    · rcases List.mem_cons.mp h with heq | h
      · exact hpiece a f heq.symm
      · exact hpadded a f h

/-- Naming the numbers leaves the first character of a template. -/
theorem head?_write_map (count : Nat) (ps : List Piece) :
    (write (ps.map (Piece.named count))).head? = (write ps).head? := by
  cases ps with
  | nil => rfl
  | cons piece ps => cases piece <;> rfl

theorem mark_openBrace_of_neg (hp : Reader p) {ps : List Piece} (h : p (write ps) = false) :
    mark p (write (.openBrace :: ps)) = '{' :: '{' :: mark p (write ps) := by
  rw [write_openBrace, mark_brace_of_neg (hp.brace _), mark_brace_of_neg h]

theorem mark_openBrace_of_pos (hp : Reader p) {ps : List Piece} (h : p (write ps) = true) :
    mark p (write (.openBrace :: ps)) = '{' :: '{' :: 'f' :: mark p (write ps) := by
  rw [write_openBrace, mark_brace_of_neg (hp.brace _), mark_brace_of_pos h]

theorem mark_placeholder_of_neg (hp : Reader p) {a : Argument} {f : Option Format}
    {ps : List Piece} (h : p (a.text ++ (ending f ++ write ps)) = false) :
    mark p (write (.placeholder a f :: ps))
      = '{' :: (a.text ++ (ending f ++ mark p (write ps))) := by
  rw [write_placeholder, mark_brace_of_neg h, ← List.append_assoc, mark_append (quiet_text hp a f),
    List.append_assoc]

theorem mark_placeholder_of_pos (hp : Reader p) {a : Argument} {f : Option Format}
    {ps : List Piece} (h : p (a.text ++ (ending f ++ write ps)) = true) :
    mark p (write (.placeholder a f :: ps))
      = '{' :: 'f' :: (a.text ++ (ending f ++ mark p (write ps))) := by
  rw [write_placeholder, mark_brace_of_pos h, ← List.append_assoc, mark_append (quiet_text hp a f),
    List.append_assoc]

/-- Behind a decoy stands a digit, also after naming. -/
theorem write_map_ne_f {count : Nat} {ps : List Piece}
    (h : readsNumber count (write ps) = true) (s : List Char) :
    write (ps.map (Piece.named count)) ≠ 'f' :: s := by
  intro hwrite
  have hhead := head?_write_map count ps
  rw [hwrite] at hhead
  obtain ⟨tail, htail⟩ := List.head?_eq_some_iff.mp hhead.symm
  rw [htail, (settled_readsNumber count).marked] at h
  exact Bool.false_ne_true h

theorem named_eq_self {count : Nat} {a : Argument} (hun : a.Unpadded count)
    (hnone : ¬ ∃ i < count, a = .index 0 i) : a.named count = a := by
  cases a with
  | index zeros i =>
    have hi : ¬ i < count := by
      intro hi
      cases hun hi
      exact hnone ⟨i, hi, rfl⟩
    exact if_neg hi
  | name n => rfl

theorem exists_of_not_unpadded {count : Nat} {a : Argument} (h : ¬ a.Unpadded count) :
    ∃ zeros i, i < count ∧ a = .index (zeros + 1) i := by
  cases a with
  | index zeros i =>
    obtain ⟨hi, hzeros⟩ := Classical.not_imp.mp h
    obtain ⟨zeros, rfl⟩ := Nat.exists_eq_succ_of_ne_zero hzeros
    exact ⟨zeros, i, hi, rfl⟩
  | name n => exact absurd trivial h

/-- A placeholder is named as it should be but for a number with leading zeros. -/
theorem mark_placeholder_eq_iff (count : Nat) (a : Argument) (f : Option Format)
    (ps : List Piece) (s : List Char) :
    mark (readsNumber count) (write (.placeholder a f :: ps))
        = '{' :: ((a.named count).text ++ (ending f ++ s)) ↔
      a.Unpadded count ∧ mark (readsNumber count) (write ps) = s := by
  have hp := reader_readsNumber count
  have hreads := readsNumber_text_iff count a f (write ps)
  by_cases hnamed : ∃ i < count, a = .index 0 i
  · -- the number of the placeholder is read as it is meant
    rw [mark_placeholder_of_pos hp (hreads.mpr hnamed)]
    obtain ⟨i, hi, rfl⟩ := hnamed
    have hname : (Argument.index 0 i).named count = .name (.field i) := if_pos hi
    rw [hname]
    show '{' :: 'f' :: (digits i ++ _) = '{' :: 'f' :: (digits i ++ _) ↔ _
    rw [List.cons_inj_right, List.cons_inj_right, List.append_right_inj, List.append_right_inj]
    exact (and_iff_right fun _ => rfl).symm
  · rw [mark_placeholder_of_neg hp (Bool.eq_false_iff.mpr (mt hreads.mp hnamed)),
      List.cons_inj_right]
    by_cases hun : a.Unpadded count
    · rw [named_eq_self hun hnamed, List.append_right_inj, List.append_right_inj]
      exact (and_iff_right hun).symm
    · -- the zero is left, and a name begins with a letter
      refine iff_of_false ?_ fun h => hun h.1
      obtain ⟨zeros, i, hi, rfl⟩ := exists_of_not_unpadded hun
      have hname : (Argument.index (zeros + 1) i).named count = .name (.field i) := if_pos hi
      rw [hname]
      intro h
      have hhead : '0' = 'f' := (List.cons.inj h).1
      exact absurd hhead (by decide)

/-- The numbers of a template are named as they should be just if it is clear. -/
theorem mark_write_eq_iff (count : Nat) (ps : List Piece) :
    mark (readsNumber count) (write ps) = write (ps.map (Piece.named count)) ↔
      Clear count ps := by
  induction ps with
  | nil =>
    refine iff_of_true rfl ⟨?_, fun a f h => absurd h List.not_mem_nil⟩
    rintro ⟨⟩
  | cons piece ps ih =>
    rw [List.map_cons, clear_cons_iff, ← ih]
    cases piece with
    | literal c hc =>
      rw [write_cons, mark_append (quiet_literal hc), write_cons]
      simp [Piece.named]
    | openBrace =>
      show _ = write (.openBrace :: ps.map (Piece.named count)) ↔ _
      rw [write_openBrace (ps.map _)]
      cases hreads : readsNumber count (write ps) with
      | false =>
        rw [mark_openBrace_of_neg (reader_readsNumber count) hreads]
        simp
      | true =>
        -- this is a decoy: an f is put where the digit of the decoy should stay
        rw [mark_openBrace_of_pos (reader_readsNumber count) hreads]
        refine iff_of_false ?_ fun h => h.1 ⟨rfl, rfl⟩
        intro h
        have hwrite := (List.cons.inj (List.cons.inj h).2).2
        exact write_map_ne_f hreads _ hwrite.symm
    | closeBrace =>
      rw [write_cons, mark_append quiet_closeBrace, write_cons]
      simp [Piece.named]
    | placeholder a f =>
      show _ = write (.placeholder (a.named count) f :: ps.map (Piece.named count)) ↔ _
      rw [write_placeholder (a.named count), mark_placeholder_eq_iff]
      simp

/-! ### Templates are read as they are written but for decoys -/

theorem named_ofPieces_iff (ps : List Piece) (count : Nat) :
    named (ofPieces ps) count = ofPieces (ps.map (Piece.named count)) ↔ Clear count ps := by
  rw [← String.toList_inj, toList_named, ofPieces, ofPieces, String.toList_ofList,
    String.toList_ofList, mark_write_eq_iff]

theorem mentions_ofPieces_iff (ps : List Piece) (a : Argument) :
    mentions (ofPieces ps) (String.ofList a.text) = true ↔
      (∃ f, .placeholder a f ∈ ps) ∨ Decoy (reads a.text) ps := by
  rw [mentions_eq, ofPieces, String.toList_ofList, String.toList_ofList, anyBrace_write_iff]

/-- **Templates are read up to decoys.**  Naming the numbers below `count` turns the
placeholders for them into placeholders for names and leaves the rest as it is, just if the
template has no decoys for them and no placeholder spells one of them with leading zeros.
An argument is mentioned just if a placeholder is for it or it has a decoy. -/
theorem template_is_read_up_to_decoys (ps : List Piece) :
    (∀ count, named (ofPieces ps) count = ofPieces (ps.map (Piece.named count)) ↔
      Clear count ps) ∧
    (∀ a : Argument, mentions (ofPieces ps) (String.ofList a.text) = true ↔
      (∃ f, .placeholder a f ∈ ps) ∨ Decoy (reads a.text) ps) :=
  ⟨named_ofPieces_iff ps, mentions_ofPieces_iff ps⟩

/-- A doubled brace in front of another name and a brace for a filling are no decoys. -/
theorem template_is_read_up_to_decoys_filled :
    named (ofPieces [.openBrace, .literal 'x' rfl, .closeBrace,
        .placeholder (.index 0 0) (some ⟨some (some '{', .right), ['4'], rfl⟩)]) 1
      = ofPieces [.openBrace, .literal 'x' rfl, .closeBrace,
        .placeholder (.name (.field 0)) (some ⟨some (some '{', .right), ['4'], rfl⟩)] := by
  refine ((template_is_read_up_to_decoys _).1 1).mpr ⟨?_, ?_⟩
  · intro h
    rcases h with hreads | ⟨- | ⟨- | ⟨- | ⟨⟨⟩⟩⟩⟩⟩
    exact absurd hreads (by decide)
  · intro a f h
    simp only [List.mem_cons, reduceCtorEq, List.not_mem_nil, or_false, false_or] at h
    cases h
    exact fun _ => rfl

/-- To the search `{{0}}` has a placeholder in it for the first argument, and `{{x}}` one for
`x`. -/
theorem doubled_braces_are_misread :
    named (ofPieces [.openBrace, .literal '0' rfl, .closeBrace]) 1
        ≠ ofPieces ([.openBrace, .literal '0' rfl, .closeBrace].map (Piece.named 1)) ∧
      mentions (ofPieces [.openBrace, .literal 'x' rfl, .closeBrace]) (String.ofList ['x']) = true ∧
      ∀ f, .placeholder (.name ⟨['x'], rfl, rfl⟩) f
        ∉ [Piece.openBrace, .literal 'x' rfl, .closeBrace] := by
  refine ⟨?_, ?_, fun f => by simp⟩
  · rw [Ne, named_ofPieces_iff]
    exact fun h => h.undecoyed (.here rfl)
  · exact (mentions_ofPieces_iff _ (.name ⟨['x'], rfl, rfl⟩)).mpr (.inr (.here rfl))

end WordMachine.Text.Template
