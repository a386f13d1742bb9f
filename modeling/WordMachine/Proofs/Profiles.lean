/-
WordMachine/Proofs/Profiles.lean

Profiles to which amounts are added.

A profile cuts off in two places.  A counter is cut off at the largest amount by
every addition, and the total by every counter.  Each time this is a fold of
`Gas.add`, and such a fold is the exact sum, cut off once (`Gas.foldl_add`,
`Profile.get_addAll`); that the counters under a total have been cut off before
makes no difference either (`Gas.min_sum_min`).  What is left is exact sums, in
which the order of the additions does not matter.

Main result: `additions_accumulate`.
-/
import Mathlib.Algebra.BigOperators.Group.List.Basic
import Mathlib.Algebra.GroupWithZero.Nat
import WordMachine.Gas

namespace WordMachine

namespace Gas

/-! ### Saturating sums -/

theorem add_le (a b : Nat) : add a b ≤ maximum :=
  Nat.min_le_right _ _

/-- Saturating on the way makes no difference to a saturating sum. -/
theorem min_add_min (a b : Nat) : add a (min b maximum) = min (a + b) maximum := by
  unfold add
  omega

/-- Cutting off after every addition cuts off the sum. -/
theorem foldl_add (amounts : List Nat) {start : Nat} (h : start ≤ maximum) :
    amounts.foldl add start = min (start + amounts.sum) maximum := by
  induction amounts generalizing start with
  | nil => exact (Nat.min_eq_left h).symm
  | cons amount amounts ih =>
    rw [List.foldl_cons, ih (add_le _ _), List.sum_cons]
    unfold add
    omega

/-- Cutting off before adding makes no difference to a sum that is cut off. -/
theorem min_sum_min (amounts : List Nat) :
    min (amounts.map (min · maximum)).sum maximum = min amounts.sum maximum := by
  induction amounts with
  | nil => rfl
  | cons amount amounts ih =>
    rw [List.map_cons, List.sum_cons, List.sum_cons]
    omega

/-! ### Exact sums -/

/-- The exact sum of the amounts that belong to a category. -/
def sumIn (c : Category) (additions : List (Category × Nat)) : Nat :=
  ((additions.filter fun a => a.1 = c).map Prod.snd).sum

theorem sumIn_cons (c : Category) (a : Category × Nat) (additions : List (Category × Nat)) :
    sumIn c (a :: additions) = (if a.1 = c then a.2 else 0) + sumIn c additions := by
  unfold sumIn
  rw [List.filter_cons]
  by_cases h : a.1 = c
  · rw [if_pos (decide_eq_true h), if_pos h, List.map_cons, List.sum_cons]
  · rw [if_neg (mt of_decide_eq_true h), if_neg h, Nat.zero_add]

theorem sumIn_perm (c : Category) {additions additions' : List (Category × Nat)}
    (h : additions.Perm additions') : sumIn c additions = sumIn c additions' :=
  ((h.filter _).map _).sum_eq

end Gas

/-- An amount counted in one category is counted once. -/
theorem Category.sum_ite (c : Category) (amount : Nat) :
    (Category.all.map fun d => if c = d then amount else 0).sum = amount := by
  cases c <;> simp [Category.all]

/-- The categories share all amounts among them. -/
theorem Gas.sum_sumIn (additions : List (Category × Nat)) :
    (Category.all.map fun c => sumIn c additions).sum = (additions.map Prod.snd).sum := by
  induction additions with
  | nil => rfl
  | cons a additions ih =>
    have hsplit : (fun c => sumIn c (a :: additions)) = fun c =>
        (if a.1 = c then a.2 else 0) + sumIn c additions :=
      funext fun c => sumIn_cons c a additions
    rw [hsplit, List.sum_map_add, Category.sum_ite, ih, List.map_cons, List.sum_cons]

namespace Profile

/-! ### Additions -/

/-- A profile with further amounts added. -/
def addAll (p : Profile) (additions : List (Category × Nat)) : Profile :=
  additions.foldl (fun p a => p.add a.1 a.2) p

@[simp] theorem addAll_cons (p : Profile) (a : Category × Nat)
    (additions : List (Category × Nat)) :
    p.addAll (a :: additions) = (p.add a.1 a.2).addAll additions := rfl

/-- **Counters are saturating sums.** -/
theorem get_addAll (p : Profile) (additions : List (Category × Nat)) (c : Category)
    (h : p.get c ≤ Gas.maximum) :
    (p.addAll additions).get c = min (p.get c + Gas.sumIn c additions) Gas.maximum := by
  induction additions generalizing p with
  | nil => exact (Nat.min_eq_left h).symm
  | cons a additions ih =>
    rw [addAll_cons, Gas.sumIn_cons]
    by_cases hc : c = a.1
    · -- the bound on the counter holds again after the addition, which ends in it
      have hadd : (p.add a.1 a.2).get c = Gas.add (p.get c) a.2 := by
        rw [get_add, if_pos hc, hc]
      rw [ih _ (hadd ▸ Gas.add_le _ _), hadd, if_pos hc.symm]
      unfold Gas.add
      omega
    · have hkept : (p.add a.1 a.2).get c = p.get c := by
        rw [get_add, if_neg hc]
      rw [ih _ (hkept ▸ h), hkept, if_neg (Ne.symm hc), Nat.zero_add]

theorem get_empty_addAll (additions : List (Category × Nat)) (c : Category) :
    (empty.addAll additions).get c = min (Gas.sumIn c additions) Gas.maximum := by
  have hzero : empty.get c = 0 := get_empty c
  rw [get_addAll _ _ _ (by rw [hzero]; exact Nat.zero_le _), hzero, Nat.zero_add]

/-- **The total is the sum of the counters, cut off once.** -/
theorem total_eq (p : Profile) : p.total = min (Category.all.map p.get).sum Gas.maximum := by
  rw [total, toList_counts, Gas.foldl_add _ (Nat.zero_le _), Nat.zero_add]

/-- The total is the sum of all amounts, cut off once. -/
theorem total_empty_addAll (additions : List (Category × Nat)) :
    (empty.addAll additions).total = min (additions.map Prod.snd).sum Gas.maximum := by
  have hcounters : Category.all.map (empty.addAll additions).get =
      (Category.all.map fun c => Gas.sumIn c additions).map (min · Gas.maximum) := by
    rw [List.map_map]
    exact congrArg Category.all.map (funext (get_empty_addAll additions))
  rw [total_eq, hcounters, Gas.min_sum_min, Gas.sum_sumIn]

/-- The order of additions makes no difference. -/
theorem addAll_perm {additions additions' : List (Category × Nat)}
    (h : additions.Perm additions') : empty.addAll additions = empty.addAll additions' := by
  apply ext_get
  intro c
  rw [get_empty_addAll, get_empty_addAll, Gas.sumIn_perm c h]

/-- **Profiles accumulate what is added to them.**  After any additions to an empty
profile a counter shows the exact sum of the amounts of its category, and the
total the exact sum of all amounts, both cut off at the largest number of 64
bits; a report lists every category once, in the order of the categories and
with its counter; and the additions can be made in any order. -/
theorem additions_accumulate (additions : List (Category × Nat)) :
    (∀ c, (empty.addAll additions).get c =
      min ((additions.filter fun a => a.1 = c).map Prod.snd).sum (2 ^ 64 - 1)) ∧
    (empty.addAll additions).total = min (additions.map Prod.snd).sum (2 ^ 64 - 1) ∧
    (empty.addAll additions).entries =
      Category.all.map (fun c => (c, (empty.addAll additions).get c)) ∧
    Category.all.map Category.index = List.finRange 11 ∧
    ∀ additions', additions.Perm additions' →
      empty.addAll additions' = empty.addAll additions := by
  have hmaximum : 2 ^ 64 - 1 = Gas.maximum := by decide
  rw [hmaximum]
  refine ⟨get_empty_addAll additions, total_empty_addAll additions, entries_eq _,
    Category.map_index_all, ?_⟩
  intro additions' h
  exact (addAll_perm h).symm

/-- A counter that is full, and a total that is full as well. -/
theorem additions_accumulate_full :
    let additions := [(Category.memory, 2 ^ 64 - 2), (.stack, 7), (.memory, 5)]
    let reordered := [(Category.stack, 7), (.memory, 5), (.memory, 2 ^ 64 - 2)]
    additions.Perm reordered ∧
      (empty.addAll additions).get .memory = 2 ^ 64 - 1 ∧
      (empty.addAll additions).get .stack = 7 ∧
      (empty.addAll additions).total = 2 ^ 64 - 1 ∧
      empty.addAll reordered = empty.addAll additions := by
  intro additions reordered
  have hperm : additions.Perm reordered := by decide
  obtain ⟨hget, htotal, -, -, horder⟩ := additions_accumulate additions
  exact ⟨hperm, hget .memory, hget .stack, htotal, horder reordered hperm⟩

end Profile

end WordMachine
