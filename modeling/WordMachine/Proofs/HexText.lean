/-
WordMachine/Proofs/HexText.lean

What hexadecimal text is read and written as.

An input text may have white space around it and one marker in front, and
`Carries` says which text is left when these are taken off: exactly one for
each input, which is what `payload` computes (`carries_iff`).  The text left is
accepted when it is `Legible`, an even number of digits.

Reading and writing meet in one equivalence, `decode_eq_some_iff`: the reader
makes the bytes `b` of a text exactly if the text in lower case is what the
writer makes of `b`.  It rests on the same equivalence for one digit
(`digit?_eq_some_iff`) and is carried from pair to pair of digits by
`decodeOnto_eq_some_iff`.  `hex_text_codec` puts the parts together for the
two readers, that of call data and that of code.
-/
import WordMachine.Machine
import Mathlib.Data.List.TakeWhile

namespace WordMachine

namespace Text

/-! ### What an input text carries -/

/-- A text of white space. -/
def AllBlank (s : List Char) : Prop := ∀ c ∈ s, isBlank c = true

instance (s : List Char) : Decidable (AllBlank s) := List.decidableBAll _ s

/-- A text that neither begins nor ends with white space. -/
def Tight (s : List Char) : Prop :=
  (∀ c ∈ s.head?, isBlank c = false) ∧ ∀ c ∈ s.getLast?, isBlank c = false

/-- One marker in front of a text is taken off, if there is one. -/
inductive Unmarks : List Char → List Char → Prop
  | marked {x : Char} {t : List Char} : x = 'x' ∨ x = 'X' → Unmarks ('0' :: x :: t) t
  | plain {t : List Char} :
      (∀ x rest, t = '0' :: x :: rest → x ≠ 'x' ∧ x ≠ 'X') → Unmarks t t

/-- The text `s` carries `t`, with white space around it and perhaps a marker. -/
def Carries (s : String) (t : List Char) : Prop :=
  ∃ front core back, s.toList = front ++ core ++ back ∧ AllBlank front ∧ AllBlank back ∧
    Tight core ∧ Unmarks core t

/-- White space in front of a text is taken off. -/
theorem dropWhile_append_of_allBlank {front core : List Char} (hfront : AllBlank front)
    (hcore : ∀ c ∈ core.head?, isBlank c = false) :
    (front ++ core).dropWhile isBlank = core := by
  rw [List.dropWhile_append_of_pos hfront]
  cases core with
  | nil => rfl
  | cons c core => exact List.dropWhile_cons_of_neg (by simp [hcore c rfl])

theorem AllBlank.reverse {s : List Char} (h : AllBlank s) : AllBlank s.reverse := by
  intro c hc
  exact h c (List.mem_reverse.mp hc)

theorem allBlank_takeWhile (s : List Char) : AllBlank (s.takeWhile isBlank) :=
  fun _ hc => List.mem_takeWhile_imp hc

/-- White space at both ends is taken off, and nothing else is. -/
theorem trim_append {front core back : List Char} (hfront : AllBlank front)
    (hback : AllBlank back) (hcore : Tight core) : trim (front ++ core ++ back) = core := by
  have hends : ((core ++ back).dropWhile isBlank).reverse.dropWhile isBlank = core.reverse := by
    cases core with
    | nil =>
      have : back.dropWhile isBlank = [] := List.dropWhile_eq_nil_iff.mpr hback
      simp [this]
    | cons c core =>
      have hc : isBlank c = false := hcore.1 c rfl
      rw [List.cons_append, List.dropWhile_cons_of_neg (by simp [hc]), ← List.cons_append,
        List.reverse_append]
      refine dropWhile_append_of_allBlank hback.reverse ?_
      rw [List.head?_reverse]
      exact hcore.2
  rw [trim, List.append_assoc, List.dropWhile_append_of_pos hfront, hends, List.reverse_reverse]

theorem head?_dropWhile_isBlank (s : List Char) :
    ∀ c ∈ (s.dropWhile isBlank).head?, isBlank c = false := by
  intro c hc
  have := List.head?_dropWhile_not isBlank s
  rw [Option.mem_def] at hc
  simpa [hc] using this

/-- What was taken off stood around the rest, and the rest is tight. -/
theorem exists_eq_append_trim (s : List Char) :
    ∃ front back, s = front ++ trim s ++ back ∧ AllBlank front ∧ AllBlank back ∧
      Tight (trim s) := by
  let rest := s.dropWhile isBlank
  have htrim : trim s = (rest.reverse.dropWhile isBlank).reverse := rfl
  have hback : rest = trim s ++ (rest.reverse.takeWhile isBlank).reverse := by
    rw [htrim, ← List.reverse_append, List.takeWhile_append_dropWhile, List.reverse_reverse]
  refine ⟨s.takeWhile isBlank, (rest.reverse.takeWhile isBlank).reverse, ?_,
    allBlank_takeWhile s, (allBlank_takeWhile _).reverse, ?_, ?_⟩
  · rw [List.append_assoc, ← hback, List.takeWhile_append_dropWhile]
  · -- A first character of `trim s` is the first of `rest`.
    intro c hc
    apply head?_dropWhile_isBlank s c
    change c ∈ rest.head?
    rw [hback, List.head?_append, Option.mem_def, Option.mem_def.mp hc]
    rfl
  · rw [htrim, List.getLast?_reverse]
    exact head?_dropWhile_isBlank rest.reverse

namespace Hex

/-- Taking the marker off is a function of the text. -/
theorem unmarks_iff {core t : List Char} : Unmarks core t ↔ dropMarker core = t := by
  constructor
  · rintro (⟨rfl | rfl⟩ | hplain)
    · rfl
    · rfl
    · unfold dropMarker
      split
      · exact absurd rfl (hplain _ _ rfl).1
      · exact absurd rfl (hplain _ _ rfl).2
      · rfl
  · rintro rfl
    unfold dropMarker
    split
    · exact .marked (.inl rfl)
    · exact .marked (.inr rfl)
    · next hx hX =>
      refine .plain fun x rest h => ⟨?_, ?_⟩
      · rintro rfl
        exact hx rest h
      · rintro rfl
        exact hX rest h

/-- An input text carries one text, its payload. -/
theorem carries_iff {s : String} {t : List Char} : Carries s t ↔ payload s = t := by
  constructor
  · rintro ⟨front, core, back, hs, hfront, hback, hcore, hmark⟩
    rw [payload, hs, trim_append hfront hback hcore]
    exact unmarks_iff.mp hmark
  · rintro rfl
    obtain ⟨front, back, hs, hfront, hback, hcore⟩ := exists_eq_append_trim s.toList
    exact ⟨front, trim s.toList, back, hs, hfront, hback, hcore, unmarks_iff.mpr rfl⟩

/-! ### One digit -/

/-- A digit of base sixteen, of either case. -/
def IsDigit (c : Char) : Prop := c ∈ "0123456789abcdefABCDEF".toList

instance (c : Char) : Decidable (IsDigit c) :=
  inferInstanceAs (Decidable (c ∈ "0123456789abcdefABCDEF".toList))

/-- The number a digit stands for: its place among the digits of lower case. -/
def digitValue (c : Char) : Nat := "0123456789abcdef".toList.idxOf c.toLower

/-- What holds of all digits is found out by going through them. -/
theorem IsDigit.of_all {p : Char → Bool} (h : "0123456789abcdefABCDEF".toList.all p = true)
    {c : Char} (hc : IsDigit c) : p c = true :=
  List.all_eq_true.mp h c hc

theorem toLower_of_le {c : Char} (hc : 128 ≤ c.toNat) : c.toLower = c := by
  have hupper : ¬ (c.val ≥ 'A'.val ∧ c.val ≤ 'Z'.val) := by
    rintro ⟨-, hZ⟩
    have : c.toNat ≤ 90 := UInt32.le_iff_toNat_le.mp hZ
    omega
  exact dif_neg hupper

theorem digit?_of_le {c : Char} (hc : 128 ≤ c.toNat) : digit? c = none := by
  have hlarge (d : Char) (hd : d.toNat < 128) : ¬ c ≤ d := by
    intro hle
    have : c.toNat ≤ d.toNat := Char.le_def.mp hle
    omega
  simp [digit?, hlarge]

/-- Beyond ASCII, where the characters cannot be gone through one by one, there
are no digits and no letters with a lower case. -/
theorem ascii_or_beyond (c : Char) :
    (∃ n : Fin 128, c = Char.ofNat n) ∨
      128 ≤ c.toNat ∧ c.toLower = c ∧ digit? c = none := by
  rcases Nat.lt_or_ge c.toNat 128 with hc | hc
  · exact .inl ⟨⟨c.toNat, hc⟩, (Char.ofNat_toNat c).symm⟩
  · exact .inr ⟨hc, toLower_of_le hc, digit?_of_le hc⟩

theorem toNat_digitChar_lt : ∀ d < 16, (Nat.digitChar d).toNat < 128 := by decide

theorem lt_of_digit? {c : Char} {d : Nat} (h : digit? c = some d) : d < 16 := by
  rcases ascii_or_beyond c with ⟨n, rfl⟩ | ⟨-, -, hnone⟩
  · have hall : ∀ n : Fin 128, ∀ d ∈ digit? (Char.ofNat n), d < 16 := by decide
    exact hall n d h
  · rw [hnone] at h
    cases h

/-- The reader takes a character for `d` exactly if the writer makes it of `d`,
up to case. -/
theorem digit?_eq_some_iff {c : Char} {d : Nat} :
    digit? c = some d ↔ d < 16 ∧ c.toLower = Nat.digitChar d := by
  rw [← and_iff_right_of_imp (lt_of_digit? (c := c) (d := d)), and_congr_right_iff]
  intro hd
  rcases ascii_or_beyond c with ⟨n, rfl⟩ | ⟨hc, hlower, hnone⟩
  · have hall : ∀ n : Fin 128, ∀ d : Fin 16,
        digit? (Char.ofNat n) = some d.val ↔ (Char.ofNat n).toLower = Nat.digitChar d := by
      decide +kernel
    exact hall n ⟨d, hd⟩
  · rw [hnone, hlower]
    constructor
    · intro h
      cases h
    · rintro rfl
      have := toNat_digitChar_lt d hd
      omega

/-- The digits are the characters the reader takes. -/
theorem isDigit_iff {c : Char} : IsDigit c ↔ ∃ d, digit? c = some d := by
  rw [← Option.isSome_iff_exists]
  rcases ascii_or_beyond c with ⟨n, rfl⟩ | ⟨hc, -, hnone⟩
  · have hall : ∀ n : Fin 128, Char.ofNat n ∈ "0123456789abcdefABCDEF".toList ↔
        (digit? (Char.ofNat n)).isSome = true := by
      decide +kernel
    exact hall n
  · rw [hnone]
    constructor
    · intro h
      have hascii : decide (c.toNat < 128) = true :=
        h.of_all (p := fun c => decide (c.toNat < 128)) (by decide)
      exact absurd (of_decide_eq_true hascii) (Nat.not_lt_of_le hc)
    · intro h
      cases h

theorem digitValue_of_toLower_eq {c : Char} {d : Nat} (hd : d < 16)
    (hc : c.toLower = Nat.digitChar d) : digitValue c = d := by
  have hall : ∀ d < 16, "0123456789abcdef".toList.idxOf (Nat.digitChar d) = d := by decide
  rw [digitValue, hc, hall d hd]

/-! ### A text of digits -/

/-- Two characters of a text are the digits of a byte. -/
theorem map_pair_iff {hi lo : Char} {x : UInt8} :
    [hi, lo].map Char.toLower = pair x ↔
      digit? hi = some (x.toNat / 16) ∧ digit? lo = some (x.toNat % 16) := by
  have hx : x.toNat < 256 := x.toNat_lt
  simp only [digit?_eq_some_iff, pair, List.map_cons, List.map_nil, List.cons.injEq, and_true,
    show x.toNat / 16 < 16 by omega, show x.toNat % 16 < 16 by omega, true_and]

theorem map_pair_ofNat {hi lo : Char} {d e : Nat} (hd : digit? hi = some d)
    (he : digit? lo = some e) :
    [hi, lo].map Char.toLower = pair (UInt8.ofNat (16 * d + e)) := by
  have hd16 := lt_of_digit? hd
  have he16 := lt_of_digit? he
  have hx : (UInt8.ofNat (16 * d + e)).toNat = 16 * d + e := by
    rw [UInt8.toNat_ofNat']
    omega
  rw [map_pair_iff, hx, hd, he]
  exact ⟨congrArg some (by omega), congrArg some (by omega)⟩

/-- One round of the reader takes the two digits of a byte. -/
theorem decodeOnto_cons_cons_iff {done b : Bytes} {hi lo : Char} {rest : List Char} :
    decodeOnto done (hi :: lo :: rest) = some b ↔
      ∃ x, [hi, lo].map Char.toLower = pair x ∧ decodeOnto (done.push x) rest = some b := by
  constructor
  · intro h
    rw [decodeOnto] at h
    split at h
    · next d e hd he => exact ⟨_, map_pair_ofNat hd he, h⟩
    · cases h
  · rintro ⟨x, hx, h⟩
    obtain ⟨hhi, hlo⟩ := map_pair_iff.mp hx
    simp only [decodeOnto, hhi, hlo, Nat.div_add_mod, UInt8.ofNat_toNat]
    exact h

theorem length_flatMap_pair (xs : List UInt8) : (xs.flatMap pair).length = 2 * xs.length := by
  induction xs with
  | nil => rfl
  | cons x xs ih =>
    rw [List.flatMap_cons, List.length_append, ih, List.length_cons]
    simp only [pair, List.length_cons, List.length_nil]
    omega

/-- The reader appends the bytes whose digits the text is, up to case. -/
theorem decodeOnto_eq_some_iff {b : Bytes} : ∀ {done : Bytes} {t : List Char},
    decodeOnto done t = some b ↔
      ∃ xs : List UInt8, b = done ++ xs.toArray ∧ t.map Char.toLower = xs.flatMap pair
  | done, [] => by
    constructor
    · intro h
      exact ⟨[], by simpa using (Option.some.inj h).symm, rfl⟩
    · rintro ⟨xs, rfl, hxs⟩
      cases xs with
      | nil => simp [decodeOnto]
      | cons x xs => cases hxs
  | done, [c] => by
    refine ⟨fun h => (Option.some_ne_none b h.symm).elim, ?_⟩
    rintro ⟨xs, -, hxs⟩
    have hlength := congrArg List.length hxs
    rw [length_flatMap_pair, List.length_map, List.length_singleton] at hlength
    omega
  | done, hi :: lo :: rest => by
    rw [decodeOnto_cons_cons_iff]
    constructor
    · rintro ⟨x, hx, h⟩
      obtain ⟨xs, rfl, hxs⟩ := decodeOnto_eq_some_iff.mp h
      refine ⟨x :: xs, by simp, ?_⟩
      rw [List.flatMap_cons, ← hx, ← hxs]
      rfl
    · rintro ⟨xs, rfl, hxs⟩
      cases xs with
      | nil => cases hxs
      | cons x xs =>
        obtain ⟨hx, hrest⟩ : [hi, lo].map Char.toLower = pair x ∧
            rest.map Char.toLower = xs.flatMap pair :=
          List.append_inj hxs rfl
        exact ⟨x, hx, decodeOnto_eq_some_iff.mpr ⟨xs, by simp, hrest⟩⟩

/-- **Reading undoes writing, and takes nothing else.**  A text is read as `b`
exactly if it is, up to case, what `b` is written as. -/
theorem decode_eq_some_iff {t : List Char} {b : Bytes} :
    decode t = some b ↔ t.map Char.toLower = digits b := by
  rw [decode, decodeOnto_eq_some_iff]
  constructor
  · rintro ⟨xs, rfl, hxs⟩
    simpa [digits] using hxs
  · intro h
    exact ⟨b.toList, by simp, h⟩

theorem map_toLower_digits (b : Bytes) : (digits b).map Char.toLower = digits b := by
  have hall : ∀ d < 16, (Nat.digitChar d).toLower = Nat.digitChar d := by decide
  have hpair : ∀ x : UInt8, (pair x).map Char.toLower = pair x := by
    intro x
    have hx : x.toNat < 256 := x.toNat_lt
    simp [pair, hall (x.toNat / 16) (by omega), hall (x.toNat % 16) (by omega)]
  simp only [digits, List.map_flatMap, hpair]

/-- What is written is read. -/
theorem decode_digits (b : Bytes) : decode (digits b) = some b :=
  decode_eq_some_iff.mpr (map_toLower_digits b)

theorem pair_inj {x y : UInt8} (h : pair x = pair y) : x = y := by
  have hdigits : digits #[x] = digits #[y] := by simpa [digits] using h
  have hread : some #[x] = some #[y] := by rw [← decode_digits, hdigits, decode_digits]
  simpa using hread

/-! ### Which texts are read, and as what -/

/-- A text that can be read: digits, two for each byte. -/
def Legible (t : List Char) : Prop := t.length % 2 = 0 ∧ ∀ c ∈ t, IsDigit c

instance (t : List Char) : Decidable (Legible t) :=
  @instDecidableAnd _ _ _ (List.decidableBAll _ t)

/-- The text `t` spells `b`: two digits a byte, that of the high half first. -/
def Spells (t : List Char) (b : Bytes) : Prop :=
  t.length = 2 * b.size ∧ ∀ (i : Nat) (hi : i < b.size), ∃ high low,
    t[2 * i]? = some high ∧ t[2 * i + 1]? = some low ∧
      b[i].toNat / 16 = digitValue high ∧ b[i].toNat % 16 = digitValue low

/-- Two digits stand for a byte. -/
theorem exists_map_pair_iff {hi lo : Char} :
    (∃ x, [hi, lo].map Char.toLower = pair x) ↔ IsDigit hi ∧ IsDigit lo := by
  simp only [isDigit_iff]
  constructor
  · rintro ⟨x, hx⟩
    obtain ⟨hhi, hlo⟩ := map_pair_iff.mp hx
    exact ⟨⟨_, hhi⟩, ⟨_, hlo⟩⟩
  · rintro ⟨⟨d, hd⟩, ⟨e, he⟩⟩
    exact ⟨_, map_pair_ofNat hd he⟩

theorem legible_cons_cons {hi lo : Char} {rest : List Char} :
    Legible (hi :: lo :: rest) ↔ (IsDigit hi ∧ IsDigit lo) ∧ Legible rest := by
  simp only [Legible, List.length_cons, List.forall_mem_cons, Nat.add_assoc, Nat.reduceAdd,
    Nat.add_mod_right]
  constructor
  · rintro ⟨heven, hhi, hlo, hrest⟩
    exact ⟨⟨hhi, hlo⟩, heven, hrest⟩
  · rintro ⟨⟨hhi, hlo⟩, heven, hrest⟩
    exact ⟨heven, hhi, hlo, hrest⟩

/-- The reader reads the legible texts. -/
theorem exists_decodeOnto_iff : ∀ {done : Bytes} {t : List Char},
    (∃ b, decodeOnto done t = some b) ↔ Legible t
  | done, [] => by simp [decodeOnto, Legible]
  | done, [c] => by simp [decodeOnto, Legible]
  | done, hi :: lo :: rest => by
    rw [legible_cons_cons, ← exists_map_pair_iff]
    simp only [decodeOnto_cons_cons_iff]
    constructor
    · rintro ⟨b, x, hx, h⟩
      exact ⟨⟨x, hx⟩, exists_decodeOnto_iff.mp ⟨b, h⟩⟩
    · rintro ⟨⟨x, hx⟩, hrest⟩
      obtain ⟨b, h⟩ := exists_decodeOnto_iff.mpr hrest
      exact ⟨b, x, hx, h⟩

/-- The digits of a byte stand at twice its position. -/
theorem getElem?_flatMap_pair {x : UInt8} : ∀ (xs : List UInt8) (i : Nat), xs[i]? = some x →
    (xs.flatMap pair)[2 * i]? = some (Nat.digitChar (x.toNat / 16)) ∧
      (xs.flatMap pair)[2 * i + 1]? = some (Nat.digitChar (x.toNat % 16))
  | _ :: _, 0, rfl => ⟨rfl, rfl⟩
  | _ :: xs, i + 1, h => getElem?_flatMap_pair xs i h

theorem spells_of_map_eq {t : List Char} {b : Bytes} (h : t.map Char.toLower = digits b) :
    Spells t b := by
  constructor
  · rw [← List.length_map, h, digits, length_flatMap_pair, Array.length_toList]
  · intro i hi
    have hx : b[i].toNat < 256 := b[i].toNat_lt
    have hbyte : b.toList[i]? = some b[i] := by simp
    obtain ⟨hhigh, hlow⟩ := getElem?_flatMap_pair b.toList i hbyte
    rw [← digits, ← h, List.getElem?_map, Option.map_eq_some_iff] at hhigh hlow
    obtain ⟨high, hgetHigh, hhigh⟩ := hhigh
    obtain ⟨low, hgetLow, hlow⟩ := hlow
    exact ⟨high, low, hgetHigh, hgetLow,
      (digitValue_of_toLower_eq (by omega) hhigh).symm,
      (digitValue_of_toLower_eq (by omega) hlow).symm⟩

/-! ### What is written can be read -/

theorem isBlank_of_isDigit {c : Char} (h : IsDigit c) : isBlank c = false := by
  have hblank : (!isBlank c) = true := h.of_all (p := fun c => !isBlank c) (by decide)
  simpa using hblank

theorem isDigit_of_mem {t : List Char} {b : Bytes} (h : t.map Char.toLower = digits b)
    {c : Char} (hc : c ∈ t) : IsDigit c := by
  have hlegible : Legible t := exists_decodeOnto_iff.mp ⟨b, decode_eq_some_iff.mpr h⟩
  exact hlegible.2 c hc

theorem tight_of_forall {s : List Char} (h : ∀ c ∈ s, isBlank c = false) : Tight s :=
  ⟨fun c hc => h c (List.mem_of_mem_head? hc), fun c hc => h c (List.mem_of_mem_getLast? hc)⟩

theorem eq_of_toLower_marker {c d : Char} (hc : c.toLower = '0') (hd : d.toLower = 'x') :
    c = '0' ∧ (d = 'x' ∨ d = 'X') := by
  have hall : ∀ n : Fin 128, ((Char.ofNat n).toLower = '0' → Char.ofNat n = '0') ∧
      ((Char.ofNat n).toLower = 'x' → Char.ofNat n = 'x' ∨ Char.ofNat n = 'X') := by
    decide +kernel
  constructor
  · rcases ascii_or_beyond c with ⟨n, rfl⟩ | ⟨-, hlower, -⟩
    · exact (hall n).1 hc
    · exact hlower.symm.trans hc
  · rcases ascii_or_beyond d with ⟨n, rfl⟩ | ⟨-, hlower, -⟩
    · exact (hall n).2 hd
    · exact .inl (hlower.symm.trans hd)

/-- Digits carry themselves: none of them is white space or belongs to a marker. -/
theorem carries_digits {front t back : List Char} {b : Bytes} (hfront : AllBlank front)
    (hback : AllBlank back) (ht : t.map Char.toLower = digits b) :
    Carries (String.ofList (front ++ t ++ back)) t := by
  have hdigit : ∀ c ∈ t, IsDigit c := fun c hc => isDigit_of_mem ht hc
  refine ⟨front, t, back, String.toList_ofList, hfront, hback,
    tight_of_forall fun c hc => isBlank_of_isDigit (hdigit c hc), .plain ?_⟩
  rintro x rest rfl
  have hx : IsDigit x := hdigit x (by simp)
  constructor
  · rintro rfl
    exact absurd hx (by decide)
  · rintro rfl
    exact absurd hx (by decide)

/-- A written text, with its marker in either case, carries its digits. -/
theorem carries_marked {front u back : List Char} {b : Bytes} (hfront : AllBlank front)
    (hback : AllBlank back) (hu : u.map Char.toLower = '0' :: 'x' :: digits b) :
    ∃ t, Carries (String.ofList (front ++ u ++ back)) t ∧ t.map Char.toLower = digits b := by
  obtain ⟨c, _, rfl, hc, hu⟩ := List.map_eq_cons_iff.mp hu
  obtain ⟨d, t, rfl, hd, ht⟩ := List.map_eq_cons_iff.mp hu
  obtain ⟨rfl, hd⟩ := eq_of_toLower_marker hc hd
  refine ⟨t, ⟨front, '0' :: d :: t, back, String.toList_ofList, hfront, hback,
    tight_of_forall ?_, .marked hd⟩, ht⟩
  simp only [List.forall_mem_cons]
  refine ⟨by decide, ?_, fun c hc => isBlank_of_isDigit (isDigit_of_mem ht hc)⟩
  rcases hd with rfl | rfl <;> decide

end Hex

end Text

open Text Text.Hex

/-! ### The two readers -/

theorem ofHexText_of_decode {s : String} {b : Bytes} (h : decode (payload s) = some b) :
    Bytes.ofHexText s = .ok b := by
  rw [Bytes.ofHexText, h]

theorem ofHexText_of_decode_none {s : String} (h : decode (payload s) = none) :
    Bytes.ofHexText s = .error (.invalidHex s) := by
  rw [Bytes.ofHexText, h]

/-- Code is read as call data is. -/
theorem Machine.ofHexText_eq {s : String} {r : Except Fault Bytes} (h : Bytes.ofHexText s = r)
    (calldata : Bytes) :
    Machine.ofHexText s calldata = r.map fun code => Machine.start code calldata := by
  rw [Machine.ofHexText, h]

/-- **Reading and writing hexadecimal text.**  An input text carries one text
`t`.  If that is legible, call data and code are read from it, as the bytes
that `t` spells, and these bytes are written as `t` in lower case; if not, both
readers refuse the input and give it back as it was.  What a byte string is
written as is read as that string, with or without the marker, in whatever
case and with whatever white space around it. -/
theorem hex_text_codec :
    (∀ s : String, ∃ t, (∀ u, Carries s u ↔ u = t) ∧
      (Legible t → ∃ b, Bytes.ofHexText s = .ok b ∧
        (∀ calldata, Machine.ofHexText s calldata = .ok (Machine.start b calldata)) ∧
        Spells t b ∧ (Element.mk b).text = "0x" ++ String.ofList (t.map Char.toLower)) ∧
      (¬ Legible t → Bytes.ofHexText s = .error (.invalidHex s) ∧
        ∀ calldata, Machine.ofHexText s calldata = .error (.invalidHex s))) ∧
    ∀ (b : Bytes) (front u back : List Char), AllBlank front → AllBlank back →
      (u.map Char.toLower = (Element.mk b).text.toList ∨
        u.map Char.toLower = (Element.mk b).text.toList.drop 2) →
      Bytes.ofHexText (String.ofList (front ++ u ++ back)) = .ok b ∧
        ∀ calldata, Machine.ofHexText (String.ofList (front ++ u ++ back)) calldata =
          .ok (Machine.start b calldata) := by
  constructor
  · intro s
    refine ⟨payload s, fun u => carries_iff.trans eq_comm, ?_, ?_⟩
    · intro hlegible
      obtain ⟨b, hb⟩ := exists_decodeOnto_iff.mpr hlegible
      have hread := ofHexText_of_decode hb
      have hdigits := decode_eq_some_iff.mp hb
      refine ⟨b, hread, Machine.ofHexText_eq hread, spells_of_map_eq hdigits, ?_⟩
      rw [hdigits, Element.text, encode, ← String.toList_inj]
      simp
    · intro hlegible
      have hnone : decode (payload s) = none :=
        Option.eq_none_iff_forall_ne_some.mpr fun b hb =>
          hlegible (exists_decodeOnto_iff.mp ⟨b, hb⟩)
      have hread := ofHexText_of_decode_none hnone
      exact ⟨hread, Machine.ofHexText_eq hread⟩
  · intro b front u back hfront hback hu
    have htext : (Element.mk b).text.toList = '0' :: 'x' :: digits b := String.toList_ofList
    obtain ⟨t, hcarries, ht⟩ :
        ∃ t, Carries (String.ofList (front ++ u ++ back)) t ∧ t.map Char.toLower = digits b := by
      rw [htext] at hu
      rcases hu with hu | hu
      · exact carries_marked hfront hback hu
      · exact ⟨u, carries_digits hfront hback hu, hu⟩
    have hread : Bytes.ofHexText (String.ofList (front ++ u ++ back)) = .ok b := by
      apply ofHexText_of_decode
      rw [carries_iff.mp hcarries]
      exact decode_eq_some_iff.mpr ht
    exact ⟨hread, Machine.ofHexText_eq hread⟩

/-- A text with white space, a marker and digits of both cases is read; one
with two markers is not. -/
theorem hex_text_codec_mixed_case :
    (∃ b, Bytes.ofHexText "\t0XaB\n" = .ok b ∧ Spells ['a', 'B'] b) ∧
      Bytes.ofHexText " 0x0x00" = .error (.invalidHex " 0x0x00") ∧
      Bytes.ofHexText "\t0XaB\n" = .ok #[0xab] := by
  obtain ⟨hread, hwritten⟩ := hex_text_codec
  refine ⟨?_, ?_, ?_⟩
  · obtain ⟨t, ht, hlegible, -⟩ := hread "\t0XaB\n"
    obtain rfl : ['a', 'B'] = t := (ht _).mp (carries_iff.mpr (by decide))
    obtain ⟨b, hb, -, hspells, -⟩ := hlegible (by decide)
    exact ⟨b, hb, hspells⟩
  · obtain ⟨t, ht, -, hillegible⟩ := hread " 0x0x00"
    obtain rfl : ['0', 'x', '0', '0'] = t := (ht _).mp (carries_iff.mpr (by decide))
    exact (hillegible (by decide)).1
  · exact (hwritten #[0xab] ['\t'] ['0', 'X', 'a', 'B'] ['\n'] (by decide) (by decide)
      (.inl (by decide))).1

end WordMachine
