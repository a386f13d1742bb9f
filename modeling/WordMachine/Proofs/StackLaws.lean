/-
WordMachine/Proofs/StackLaws.lean

The laws of the operand stack.

Each operation `Needs` a number of elements.  A stack that has fewer is left as it is,
and the fault names both numbers; one that has as many is worked on.  The numbers come
from three ways to count: a look at place `n` counts from zero, a copy counts from one
and takes zero for one, and an exchange counts how far below the top the other place is.

What a successful operation does is said by the elements alone, top first.  Elements
taken at once are those taken one after the other (`takeInTurn_pushAll`), they are put back
from the last to the first (`foldl_push_reverse`), a copy goes on top of what was there
(`dup_eq_ok`), and an exchange is undone by itself (`swap_eq_ok`).

Main result: `stack_laws`.
-/
import WordMachine.Proofs.StackEffect

namespace WordMachine

namespace Stack

variable {α β : Type} {s rest : Stack} {n : Nat} {e : Element}

/-! ### What operations need -/

/-- The operation works on every stack of at least `need` elements.  A shorter one is
left as it is, and the fault says how many were needed and how many there are. -/
structure Needs (need : Nat) (op : Stack → Except Fault α × Stack) : Prop where
  short : ∀ s : Stack, s.depth < need → op s = (.error (.stackUnderflow need s.depth), s)
  enough : ∀ s : Stack, need ≤ s.depth → ∃ a rest, op s = (.ok a, rest)

/-- A look at the stack as an operation, which leaves the stack as it is. -/
def looking (look : Stack → Except Fault α) (s : Stack) : Except Fault α × Stack := (look s, s)

/-- What is made of the result does not change what is needed for it. -/
theorem Needs.map {need : Nat} {op : Stack → Except Fault α × Stack} (h : Needs need op)
    (f : α → β) : Needs need fun s => ((op s).1.map f, (op s).2) where
  short s hs := by
    rw [h.short s hs]
    rfl
  enough s hs := by
    obtain ⟨a, rest, hop⟩ := h.enough s hs
    rw [hop]
    exact ⟨f a, rest, rfl⟩

theorem exists_split? (h : n ≤ s.depth) : ∃ es rest, s.split? n = some (es, rest) := by
  rcases hsplit : s.split? n with _ | ⟨es, rest⟩
  · have hlt := (split?_eq_none_iff s n).mp hsplit
    omega
  · exact ⟨es, rest, rfl⟩

theorem needs_popMany (n : Nat) : Needs n (popMany n) where
  short s hs := by
    unfold popMany
    rw [(split?_eq_none_iff s n).mpr hs]
    rfl
  enough s hs := by
    obtain ⟨es, rest, hsplit⟩ := exists_split? hs
    unfold popMany
    rw [hsplit]
    exact ⟨es, rest, rfl⟩

theorem needs_pop : Needs 1 pop := (needs_popMany 1).map (·[0])

theorem needs_popWord : Needs 1 popWord := needs_pop.map Element.word

theorem needs_peekAt (n : Nat) : Needs (n + 1) (looking (peekAt n)) where
  short s hs := by
    unfold looking peekAt
    rw [List.getElem?_eq_none (Nat.le_of_lt_succ hs)]
    rfl
  enough s hs := by
    unfold looking peekAt
    rw [List.getElem?_eq_getElem (show n < s.items.length from hs)]
    exact ⟨_, s, rfl⟩

theorem needs_peek : Needs 1 (looking peek) := needs_peekAt 0

theorem needs_dup (n : Nat) : Needs (max n 1) (dup n) where
  short s hs := by
    have hnone : s.items.length ≤ max n 1 - 1 := Nat.le_sub_one_of_lt hs
    unfold dup
    rw [List.getElem?_eq_none hnone]
    rfl
  enough s hs := by
    have hsome : max n 1 - 1 < s.items.length := by
      have hdepth : max n 1 ≤ s.items.length := hs
      omega
    unfold dup
    rw [List.getElem?_eq_getElem hsome]
    exact ⟨(), _, rfl⟩

theorem needs_swap (n : Nat) : Needs (n + 1) (swap n) where
  short s hs := by
    unfold swap
    rw [(split?_eq_none_iff s (n + 1)).mpr hs]
    rfl
  enough s hs := by
    obtain ⟨es, rest, hsplit⟩ := exists_split? hs
    unfold swap
    rw [hsplit]
    exact ⟨(), _, rfl⟩

/-! ### Looking -/

/-- What is seen at place `n` has `n` elements above it. -/
theorem peekAt_eq_ok_iff :
    s.peekAt n = .ok e ↔ ∃ above below, s.items = above ++ e :: below ∧ above.length = n := by
  have hlook : s.peekAt n = .ok e ↔ s.items[n]? = some e := by
    unfold peekAt
    rcases s.items[n]? with _ | seen
    · constructor
      · intro h
        cases h
      · intro h
        cases h
    · show Except.ok seen = .ok e ↔ some seen = some e
      rw [Except.ok.injEq, Option.some.injEq]
  rw [hlook]
  constructor
  · intro h
    obtain ⟨hn, rfl⟩ := List.getElem?_eq_some_iff.mp h
    refine ⟨s.items.take n, s.items.drop (n + 1), ?_, List.length_take_of_le (Nat.le_of_lt hn)⟩
    rw [List.getElem_cons_drop, List.take_append_drop]
  · rintro ⟨above, below, hitems, rfl⟩
    rw [hitems, List.getElem?_append_right (Nat.le_refl _), Nat.sub_self]
    rfl

/-! ### Taking one after the other, and putting back -/

theorem popMany_pushAll (s : Stack) (es : Vector Element n) :
    (s.pushAll es.toList).popMany n = (.ok es, s) := by
  unfold popMany
  rw [split?_pushAll]

theorem pop_push (s : Stack) (e : Element) : (s.push e).pop = (.ok e, s) := by
  have htop : (s.push e).popMany 1 = (.ok #v[e], s) := popMany_pushAll s #v[e]
  show (((s.push e).popMany 1).1.map (·[0]), ((s.push e).popMany 1).2) = _
  rw [htop]
  rfl

/-- Takes `n` elements one after the other, top first, and ends at the first that is
missing. -/
def takeInTurn : Nat → Stack → Except Fault (List Element) × Stack
  | 0, s => (.ok [], s)
  | n + 1, s =>
    match s.pop with
    | (.error f, rest) => (.error f, rest)
    | (.ok e, rest) =>
      match takeInTurn n rest with
      | (taken, rest) => (taken.map (e :: ·), rest)

theorem takeInTurn_pushAll (s : Stack) (es : List Element) :
    takeInTurn es.length (s.pushAll es) = (.ok es, s) := by
  induction es with
  | nil => rfl
  | cons e es ih =>
    have hpop : (s.pushAll (e :: es)).pop = (.ok e, s.pushAll es) := pop_push (s.pushAll es) e
    rw [List.length_cons, takeInTurn, hpop]
    show ((takeInTurn es.length (s.pushAll es)).1.map (e :: ·),
      (takeInTurn es.length (s.pushAll es)).2) = _
    rw [ih]
    rfl

/-- To push elements from the last to the first is to put them on top as they are. -/
theorem foldl_push_reverse (s : Stack) (es : List Element) :
    es.reverse.foldl push s = s.pushAll es := by
  induction es with
  | nil => rfl
  | cons e es ih =>
    rw [List.reverse_cons, List.foldl_append, ih]
    rfl

/-- What was taken is on top of what is left. -/
theorem eq_pushAll_of_popMany {es : Vector Element n} (h : s.popMany n = (.ok es, rest)) :
    s = rest.pushAll es.toList := by
  unfold popMany at h
  rcases hsplit : s.split? n with _ | ⟨es', rest'⟩
  · rw [hsplit] at h
    cases h
  · rw [hsplit] at h
    cases h
    exact congrArg Stack.mk (items_of_split? hsplit)

/-! ### Copies and exchanges -/

/-- A copy comes from the place that counts from one, and goes on top. -/
theorem dup_eq_ok (h : s.dup n = (.ok (), rest)) :
    ∃ e, s.peekAt (max n 1 - 1) = .ok e ∧ rest = s.push e := by
  unfold dup at h
  unfold peekAt
  rcases hseen : s.items[max n 1 - 1]? with _ | e
  · rw [hseen] at h
    cases h
  · rw [hseen] at h
    cases h
    exact ⟨e, rfl, rfl⟩

/-- An exchange moves two elements and is undone by itself. -/
theorem swap_eq_ok (h : s.swap n = (.ok (), rest)) :
    rest.swap n = (.ok (), s) ∧ rest.items.Perm s.items ∧
      ∀ j, rest.items[j]? = s.items[swapped n j]? := by
  unfold swap at h
  rcases hsplit : s.split? (n + 1) with _ | ⟨es, below⟩
  · rw [hsplit] at h
    cases h
  · rw [hsplit] at h
    cases h
    have hitems := items_of_split? hsplit
    refine ⟨?_, ?_, ?_⟩
    · unfold swap
      rw [split?_pushAll]
      show (Except.ok (), below.pushAll ((es.swap 0 n).swap 0 n).toList) = _
      rw [Vector.swap_swap]
      exact congrArg (fun items => (Except.ok (), Stack.mk items)) hitems.symm
    · have hperm : (es.swap 0 n (Nat.succ_pos n) (Nat.lt_add_one n)).Perm es :=
        Vector.swap_perm _ _
      rw [hitems]
      exact hperm.toList.append_right below.items
    · intro j
      rw [hitems]
      exact getElem?_swap_append es below.items j

/-- **The laws of the operand stack.**  To take one element or its word and to look at the
top needs one element; to look `n` places below the top or to exchange the top with that
place needs `n + 1`, to copy the `n`-th element `n` but at least one, and to take `n`
elements `n`.  On fewer elements each of them fails, says how many it needs and how many
there are, and leaves the stack as it is; on as many it succeeds.

What is seen `n` places below the top has `n` elements above it.  To take `n` elements is to
take one `n` times, and the stack is back when they are pushed from the last to the first.
The copy of the `n`-th element can be taken off again, which leaves the stack as it was.
An exchange is undone by itself; it moves the two elements and no others. -/
theorem stack_laws :
    (Needs 1 pop ∧ Needs 1 popWord ∧ Needs 1 (looking peek) ∧
      ∀ n, Needs (n + 1) (looking (peekAt n)) ∧ Needs (max n 1) (dup n) ∧
        Needs (n + 1) (swap n) ∧ Needs n (popMany n)) ∧
    ∀ (s rest : Stack) (n : Nat),
      (∀ e, s.peekAt n = .ok e ↔
        ∃ above below, s.items = above ++ e :: below ∧ above.length = n) ∧
      (∀ es, s.popMany n = (.ok es, rest) →
        s.takeInTurn n = (.ok es.toList, rest) ∧ es.toList.reverse.foldl push rest = s) ∧
      (s.dup n = (.ok (), rest) →
        ∃ e, s.peekAt (max n 1 - 1) = .ok e ∧ rest.pop = (.ok e, s)) ∧
      (s.swap n = (.ok (), rest) →
        rest.swap n = (.ok (), s) ∧ rest.items.Perm s.items ∧
          ∀ j, rest.items[j]? = s.items[swapped n j]?) := by
  refine ⟨⟨needs_pop, needs_popWord, needs_peek, fun n =>
    ⟨needs_peekAt n, needs_dup n, needs_swap n, needs_popMany n⟩⟩, ?_⟩
  intro s rest n
  refine ⟨fun e => peekAt_eq_ok_iff, ?_, ?_, swap_eq_ok⟩
  · intro es h
    -- both ways of taking are read off the stack with the elements put back
    have hstack := eq_pushAll_of_popMany h
    have hturn := takeInTurn_pushAll rest es.toList
    rw [← hstack, Vector.length_toList] at hturn
    exact ⟨hturn, (foldl_push_reverse rest es.toList).trans hstack.symm⟩
  · intro h
    obtain ⟨e, hseen, rfl⟩ := dup_eq_ok h
    exact ⟨e, hseen, pop_push s e⟩

/-- A stack of three elements, which is enough for the third to be taken, seen, copied and
exchanged, and not for a fourth. -/
theorem stack_laws_last_element :
    let a : Element := ⟨#[1]⟩
    let b : Element := ⟨#[2, 2]⟩
    let c : Element := ⟨#[]⟩
    let s : Stack := ⟨[a, b, c]⟩
    (s.depth < 4 ∧ s.popMany 4 = (.error (.stackUnderflow 4 3), s) ∧
      s.swap 3 = (.error (.stackUnderflow 4 3), s)) ∧
    (s.popMany 3 = (.ok #v[a, b, c], empty) ∧ s.takeInTurn 3 = (.ok [a, b, c], empty) ∧
      [c, b, a].foldl push empty = s) ∧
    (s.dup 3 = (.ok (), ⟨[c, a, b, c]⟩) ∧
      ∃ e, s.peekAt 2 = .ok e ∧ pop ⟨[c, a, b, c]⟩ = (.ok e, s)) ∧
    (s.swap 2 = (.ok (), ⟨[c, b, a]⟩) ∧ swap 2 ⟨[c, b, a]⟩ = (.ok (), s) ∧
      ∀ j : Nat, [c, b, a][j]? = s.items[swapped 2 j]?) := by
  intro a b c s
  obtain ⟨⟨_, _, _, hneeds⟩, hlaws⟩ := stack_laws
  have hshort : s.depth < 4 := by decide
  have htaken : s.popMany 3 = (.ok #v[a, b, c], empty) := by decide +kernel
  have hcopied : s.dup 3 = (.ok (), ⟨[c, a, b, c]⟩) := by decide +kernel
  have hmoved : s.swap 2 = (.ok (), ⟨[c, b, a]⟩) := by decide +kernel
  obtain ⟨hturn, hback⟩ := (hlaws s empty 3).2.1 _ htaken
  obtain ⟨hundo, _, hplaces⟩ := (hlaws s ⟨[c, b, a]⟩ 2).2.2.2 hmoved
  exact ⟨⟨hshort, (hneeds 4).2.2.2.short s hshort, (hneeds 3).2.2.1.short s hshort⟩,
    ⟨htaken, hturn, hback⟩, ⟨hcopied, (hlaws s ⟨[c, a, b, c]⟩ 3).2.2.1 hcopied⟩,
    hmoved, hundo, hplaces⟩

end Stack

end WordMachine
