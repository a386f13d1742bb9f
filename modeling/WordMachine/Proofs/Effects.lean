/-
WordMachine/Proofs/Effects.lean

The effects of the instructions that can refuse their operands.

The effect of any other instruction stands in its definition.  These first
look for a range of memory or for a position in the code, and each has a lemma
that says what it has found and what its effect is then.  Proofs about effects
go by these lemmas and open no instruction that makes a test.
-/
import WordMachine.Proofs.Execution

namespace WordMachine

namespace Instruction

variable {opcode : UInt8} {gas : Nat} {ctx : Context} {e : Effect}

/-! ### Operands on top of a stack -/

/-- The topmost operand. -/
abbrev first {n : Nat} (es : Vector Element (n + 1)) : Element :=
  es.get ⟨0, Nat.succ_pos n⟩

/-- The operand below it. -/
abbrev second {n : Nat} (es : Vector Element (n + 2)) : Element :=
  es.get ⟨1, Nat.succ_lt_succ (Nat.succ_pos n)⟩

/-- The third operand. -/
abbrev third {n : Nat} (es : Vector Element (n + 3)) : Element :=
  es.get ⟨2, Nat.succ_lt_succ (Nat.succ_lt_succ (Nat.succ_pos n))⟩

theorem toList_unary (es : Vector Element 1) (rest : List Element) :
    es.toList ++ rest = first es :: rest :=
  match es with
  | ⟨⟨[_]⟩, _⟩ => rfl

theorem toList_binary (es : Vector Element 2) (rest : List Element) :
    es.toList ++ rest = first es :: second es :: rest :=
  match es with
  | ⟨⟨[_, _]⟩, _⟩ => rfl

theorem toList_ternary (es : Vector Element 3) (rest : List Element) :
    es.toList ++ rest = first es :: second es :: third es :: rest :=
  match es with
  | ⟨⟨[_, _, _]⟩, _⟩ => rfl

/-! ### Ranges of memory -/

/-- A range that is accepted begins where the word says. -/
theorem offset_of_ofWord {offset : Word} {size : Nat} {span : Span size}
    (h : Span.ofWord offset size = .ok span) : span.offset = offset.toNat := by
  unfold Span.ofWord at h
  split at h
  · cases h
    rfl
  · cases h

theorem effect_of_loadWord {es : Vector Element 1} (h : loadWord.act es ctx = .ok e) :
    ∃ span, Span.ofWord (first es).word Bytes.wordSize = .ok span ∧ e =
      { gas := Gas.memoryLoad
        results := [⟨(ctx.memory.slice span).toArray⟩]
        operands := [.words (ctx.memory.growth span)]
        access := .read span } := by
  simp only [loadWord, unary] at h
  obtain ⟨span, hspan, rfl⟩ := ok_of_bind_pure h
  exact ⟨span, hspan, rfl⟩

theorem effect_of_storeElement {es : Vector Element 2}
    (h : storeElement.act es ctx = .ok e) :
    ∃ span, Span.ofWord (first es).word (second es).bytes.size = .ok span ∧ e =
      { gas := Gas.veryLow, access := .write span (second es).bytes.toVector } := by
  simp only [storeElement, binary] at h
  obtain ⟨span, hspan, rfl⟩ := ok_of_bind_pure h
  exact ⟨span, hspan, rfl⟩

theorem effect_of_storeLowByte {es : Vector Element 2}
    (h : storeLowByte.act es ctx = .ok e) :
    ∃ span, Span.ofWord (first es).word 1 = .ok span ∧ e =
      { gas := Gas.veryLow
        access := .write span #v[UInt8.ofNat (second es).word.toNat] } := by
  simp only [storeLowByte, binary] at h
  obtain ⟨span, hspan, rfl⟩ := ok_of_bind_pure h
  exact ⟨span, hspan, rfl⟩

theorem effect_of_hash {digest : Bytes → Vector UInt8 32} {es : Vector Element 2}
    (h : (hash digest).act es ctx = .ok e) :
    (second es).word.toNat ≤ Memory.capacity ∧
      ∃ span : Span (second es).word.toNat,
        Span.ofRange (first es).word (second es).word.toNat = .ok span ∧ e =
        { gas := Gas.keccak (second es).word.toNat
          results := [⟨(digest (ctx.memory.slice span).toArray).toArray⟩]
          operands := [.words (ctx.memory.growth span)]
          access := .read span } := by
  simp only [hash, binary] at h
  split at h
  · next hsize =>
    obtain ⟨span, hspan, rfl⟩ := ok_of_bind_pure h
    exact ⟨hsize, span, hspan, rfl⟩
  · cases h

theorem effect_of_copy {source : Context → Bytes} {es : Vector Element 3}
    (h : (copy opcode source).act es ctx = .ok e) :
    let data := (source ctx).window (second es).word.toOffsetClamped (third es).word.toNat
    (third es).word.toNat ≤ copyLimit ∧
      ∃ span, Span.ofRange (first es).word data.size = .ok span ∧ e =
        { gas := Gas.copy
          operands := [.words (ctx.memory.growth span)]
          access := .write span data.toVector } := by
  simp only [copy, ternary] at h
  split at h
  · next hsize =>
    obtain ⟨span, hspan, rfl⟩ := ok_of_bind_pure h
    exact ⟨hsize, span, hspan, rfl⟩
  · cases h

/-! ### Positions in the code -/

/-- A target is the position that the word names, and a marked one. -/
theorem target?_eq_some_iff {destination : Word} {position : Nat} :
    target? ctx destination = some position ↔
      destination.toNat < Word.offsetBound ∧ position = destination.toNat ∧
        ctx.code[position]? = some markerByte := by
  simp only [target?, Option.filter_eq_some_iff, Word.toOffset?, Option.ite_none_right_eq_some,
    Option.some.injEq, beq_iff_eq]
  constructor
  · rintro ⟨⟨hlt, rfl⟩, hmarker⟩
    exact ⟨hlt, rfl, hmarker⟩
  · rintro ⟨hlt, rfl, hmarker⟩
    exact ⟨⟨hlt, rfl⟩, hmarker⟩

/-- A target is a position in the code. -/
theorem lt_size_of_target? {destination : Word} {position : Nat}
    (h : target? ctx destination = some position) : position < ctx.code.size := by
  obtain ⟨_, _, hmarker⟩ := target?_eq_some_iff.mp h
  exact (Array.getElem?_eq_some_iff.mp hmarker).1

theorem effect_of_jumpTo {destination : Word}
    (h : jumpTo opcode gas destination ctx = .ok e) :
    ctx.code[destination.toNat]? = some markerByte ∧
      e = { gas, goto? := some destination.toNat } := by
  unfold jumpTo at h
  split at h
  · next position htarget =>
    obtain ⟨_, rfl, hmarker⟩ := target?_eq_some_iff.mp htarget
    exact ⟨hmarker, (Except.ok.inj h).symm⟩
  · cases h

theorem effect_of_jump {es : Vector Element 1} (h : (jump opcode).act es ctx = .ok e) :
    ctx.code[(first es).word.toNat]? = some markerByte ∧
      e = { gas := Gas.mid, goto? := some (first es).word.toNat } := by
  simp only [jump, unary] at h
  exact effect_of_jumpTo h

/-- Nothing is asked of the destination unless the jump is taken. -/
theorem effect_of_jumpIf {es : Vector Element 2} (h : (jumpIf opcode).act es ctx = .ok e) :
    ((second es).word = 0 ∧ e = { gas := Gas.high, goto? := some (ctx.pc + 1) }) ∨
      ((second es).word ≠ 0 ∧ ctx.code[(first es).word.toNat]? = some markerByte ∧
        e = { gas := Gas.high, goto? := some (first es).word.toNat }) := by
  simp only [jumpIf, binary] at h
  split at h
  · next hzero => exact .inl ⟨hzero, (Except.ok.inj h).symm⟩
  · next hnonzero => exact .inr ⟨hnonzero, effect_of_jumpTo h⟩

/-! ### Jumps that are taken -/

theorem target?_of_jumpTo {destination : Word}
    (h : jumpTo opcode gas destination ctx = .ok e) :
    target? ctx destination = some destination.toNat := by
  unfold jumpTo at h
  split at h
  · next position htarget =>
    obtain ⟨_, rfl, _⟩ := target?_eq_some_iff.mp htarget
    exact htarget
  · cases h

theorem target?_of_jump {es : Vector Element 1} (h : (jump opcode).act es ctx = .ok e) :
    target? ctx (first es).word = some (first es).word.toNat := by
  simp only [jump, unary] at h
  exact target?_of_jumpTo h

theorem target?_of_jumpIf {es : Vector Element 2} (h : (jumpIf opcode).act es ctx = .ok e)
    (hnonzero : (second es).word ≠ 0) :
    target? ctx (first es).word = some (first es).word.toNat := by
  simp only [jumpIf, binary] at h
  split at h
  · next hzero => exact absurd hzero hnonzero
  · exact target?_of_jumpTo h

end Instruction

end WordMachine
