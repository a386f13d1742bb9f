/-
WordMachine/Proofs/HookTables.lean

Tables of handlers after any calls that register and remove.

`HookTable.Change` is a call on a table, and `ofChanges` the table that calls
leave of a new one.  All that counts of them is, for each opcode, the last call
that is about it: `lastAbout` finds it in the list, without a table, and
`Hook.latest` is the hook that goes by it.

A call decides about its own opcode and no other (`handler?_apply`), so the
handler of an opcode is what the last call about it has left
(`handler?_ofChanges`), and the hook of the table is the hook of the list
(`toHook_ofChanges`).  Where a run comes upon no opcode with a handler the table
does as much as an empty one, and that is to leave the machine alone
(`runWith_of_avoided`).  Main result: `last_registration_wins`.
-/
import Mathlib.Data.List.Induction
import WordMachine.Machine.HookTable
import WordMachine.Proofs.Attempts

namespace WordMachine

variable {σ : Type}

/-! ### Calls on a table -/

namespace HookTable

/-- A call that changes a table. -/
inductive Change (σ : Type) where
  | on (op : UInt8) (h : Handler σ)
  | remove (op : UInt8)

namespace Change

/-- The opcode that a call is about. -/
def opcode : Change σ → UInt8
  | on op _ | remove op => op

/-- The handler that a call leaves for its opcode. -/
def handler? : Change σ → Option (Handler σ)
  | on _ h => some h
  | remove _ => none

theorem isSome_handler?_iff {c : Change σ} :
    c.handler?.isSome = true ↔ ∃ h, c = on c.opcode h := by
  cases c with
  | on op h => exact iff_of_true rfl ⟨h, rfl⟩
  | remove op => exact iff_of_false nofun nofun

end Change

/-- The table after a call. -/
def apply (t : HookTable σ) : Change σ → HookTable σ
  | .on op h => t.on op h
  | .remove op => (t.remove op).2

/-- What calls make of a new table. -/
def ofChanges (changes : List (Change σ)) : HookTable σ := changes.foldl apply empty

/-- The last call about an opcode. -/
def lastAbout (op : UInt8) (changes : List (Change σ)) : Option (Change σ) :=
  (changes.filter fun c => c.opcode = op).getLast?

/-! ### Handlers after calls -/

/-- Tables with the same handlers are the same. -/
theorem eq_of_handler? {t t' : HookTable σ} (h : ∀ op, t.handler? op = t'.handler? op) :
    t = t' :=
  congrArg HookTable.mk (funext h)

/-- A call decides about its own opcode and leaves the others alone. -/
theorem handler?_apply (t : HookTable σ) (c : Change σ) (op : UInt8) :
    (t.apply c).handler? op = if op = c.opcode then c.handler? else t.handler? op := by
  cases c with
  | on op' h => rfl
  | remove op' => rfl

theorem ofChanges_append (changes after : List (Change σ)) :
    ofChanges (changes ++ after) = after.foldl apply (ofChanges changes) :=
  List.foldl_append

theorem ofChanges_append_singleton (changes : List (Change σ)) (c : Change σ) :
    ofChanges (changes ++ [c]) = (ofChanges changes).apply c :=
  ofChanges_append changes [c]

theorem lastAbout_append_singleton (op : UInt8) (changes : List (Change σ)) (c : Change σ) :
    lastAbout op (changes ++ [c]) = if op = c.opcode then some c else lastAbout op changes := by
  unfold lastAbout
  rw [List.filter_append]
  by_cases h : op = c.opcode
  · have hlast : [c].filter (fun c => c.opcode = op) = [c] :=
      List.filter_cons_of_pos (decide_eq_true h.symm)
    rw [if_pos h, hlast, List.getLast?_concat]
  · have hlast : [c].filter (fun c => c.opcode = op) = [] :=
      List.filter_cons_of_neg (by simpa using Ne.symm h)
    rw [if_neg h, hlast, List.append_nil]

theorem opcode_lastAbout {op : UInt8} {changes : List (Change σ)} {c : Change σ}
    (h : lastAbout op changes = some c) : c.opcode = op := by
  have hmem := List.mem_of_getLast? h
  exact of_decide_eq_true (List.mem_filter.mp hmem).2

/-- **The last call about an opcode decides about its handler.**  Induction from
the back: the table is what the earlier calls have left, changed by the last. -/
theorem handler?_ofChanges (changes : List (Change σ)) (op : UInt8) :
    (ofChanges changes).handler? op = (lastAbout op changes).bind Change.handler? := by
  induction changes using List.reverseRecOn with
  | nil => rfl
  | append_singleton changes c ih =>
    rw [ofChanges_append_singleton, handler?_apply, lastAbout_append_singleton, ih]
    by_cases h : op = c.opcode
    · rw [if_pos h, if_pos h]
      rfl
    · rw [if_neg h, if_neg h]

theorem contains_ofChanges_iff (changes : List (Change σ)) (op : UInt8) :
    (ofChanges changes).contains op = true ↔ ∃ h, lastAbout op changes = some (.on op h) := by
  unfold contains
  rw [handler?_ofChanges]
  rcases hlast : lastAbout op changes with _ | c
  · exact iff_of_false nofun nofun
  · -- a call that was found for an opcode is about that opcode
    obtain rfl := opcode_lastAbout hlast
    simp only [Option.bind_some, Option.some.injEq]
    exact Change.isSome_handler?_iff

/-- Calls about different opcodes can change places. -/
theorem apply_comm (t : HookTable σ) {a b : Change σ} (h : a.opcode ≠ b.opcode) :
    (t.apply a).apply b = (t.apply b).apply a := by
  refine eq_of_handler? fun op => ?_
  simp only [handler?_apply]
  by_cases hb : op = b.opcode
  · -- so `a` is about another opcode, and has no say here
    have ha : op ≠ a.opcode := by
      rintro rfl
      exact h hb
    rw [if_pos hb, if_neg ha, if_pos hb]
  · rw [if_neg hb, if_neg hb]

end HookTable

/-- The hook that calls the handler of an opcode if the last call about it has
registered one. -/
def Hook.latest (changes : List (HookTable.Change σ)) : Hook σ := fun op s m =>
  match HookTable.lastAbout op changes with
  | some (.on _ h) =>
    match h s m with
    | (answer, s, m) => (some answer, s, m)
  | some (.remove _) | .none => (.none, s, m)

/-- The hook of a table goes by the last calls. -/
theorem HookTable.toHook_ofChanges (changes : List (Change σ)) :
    (ofChanges changes).toHook = Hook.latest changes := by
  funext op s m
  unfold toHook Hook.latest
  rw [handler?_ofChanges]
  rcases lastAbout op changes with _ | ⟨_, h⟩ | _
  · rfl
  · rfl
  · rfl

/-! ### Tables that no run comes upon -/

/-- A run as one with another state of the hook. -/
def Run.withState {τ : Type} (r : Run τ) (s : σ) : Run σ := { r with state := s }

namespace HookTable

/-- No step on the list begins at an opcode with a handler. -/
def AvoidedBy (t : HookTable σ) (begun : List Machine) : Prop :=
  ∀ m ∈ begun, ∀ op ∈ m.currentOp?, t.contains op = false

instance decidableAvoidedBy (t : HookTable σ) (begun : List Machine) :
    Decidable (t.AvoidedBy begun) :=
  inferInstanceAs (Decidable (∀ m ∈ begun, ∀ op ∈ m.currentOp?, t.contains op = false))

/-- The hook of an empty table leaves every opcode to the machine. -/
theorem transparent_empty : (empty : HookTable σ).toHook.Transparent :=
  fun _ s _ _ _ => ⟨s, .inl rfl⟩

theorem stepWith_empty {m m' : Machine} {r : Except Fault Step} (s : σ)
    (h : m.stepWith Hook.none () = (r, (), m')) :
    m.stepWith (empty : HookTable σ).toHook s = (r, s, m') := by
  have hconsult : ∀ {op answer m₁}, m.consult Hook.none op () = (answer, (), m₁) →
      m.consult (empty : HookTable σ).toHook op s = (answer, s, m₁) := by
    intro op answer m₁ hc
    show ((m.exec op).1, s, (m.exec op).2) = (answer, s, m₁)
    rw [consult_none_iff.mp hc]
  refine stepWith_eq_iff.mpr ?_
  cases stepWith_eq_iff.mp h with
  | stopped hm => exact .stopped hm
  | pastEnd hm hop => exact .pastEnd hm hop
  | failed hm hop hc => exact .failed hm hop (hconsult hc)
  | completed hm hop hc => exact .completed hm hop (hconsult hc)

/-- With an empty table a machine runs on its own. -/
theorem runWith_empty (m : Machine) (limit : Nat) (s : σ) :
    m.runWith (empty : HookTable σ).toHook limit s = (m.run limit).withState s := by
  obtain ⟨steps, c, hc⟩ := exists_concludes Hook.none limit () m
  -- the state on the way is `s` all along
  have hempty : Concludes (empty : HookTable σ).toHook limit s m steps
      ⟨c.ending, s, c.machine⟩ :=
    hc.mapState (f := fun _ => s) (stepWith_empty s)
  have hrun : m.run limit = .ofCourse limit steps c := runWith_of_concludes hc
  rw [runWith_of_concludes hempty, hrun]
  rfl

theorem toHook_of_not_contains {t : HookTable σ} {op : UInt8} (h : t.contains op = false)
    (s : σ) (m : Machine) : t.toHook op s m = (empty : HookTable σ).toHook op s m := by
  have hnone : t.handler? op = none :=
    Option.isNone_iff_eq_none.mp (Option.isSome_eq_false_iff.mp h)
  unfold toHook
  rw [hnone]
  rfl

/-- **A run that comes upon no handler is a run without a hook.**  It is the same
to say so of the run with the table and of the run without. -/
theorem runWith_of_avoided {t : HookTable σ} {m : Machine} {limit : Nat} {s : σ}
    (h : t.AvoidedBy (m.attempts t.toHook limit s) ∨
      t.AvoidedBy (m.attempts Hook.none limit ())) :
    m.runWith t.toHook limit s = (m.run limit).withState s := by
  rw [← runWith_empty]
  rcases h with h | h
  · refine runWith_congr limit s m fun begun hbegun op hop s => ?_
    exact toHook_of_not_contains (h begun hbegun op hop) s begun
  · -- the steps of a run without a hook are those of a run with the empty table
    refine (runWith_congr limit s m fun begun hbegun op hop s => ?_).symm
    rw [Machine.attempts_plain transparent_empty] at hbegun
    exact (toHook_of_not_contains (h begun hbegun op hop) s begun).symm

end HookTable

/-! ### Histories -/

/-- **The last registration wins.**

After any calls on a new table an opcode has a handler just if the last call
about it has registered one; to remove it answers whether it has one at that
moment; and every run is that with the hook that goes by the last calls.  Calls
about different opcodes can change places, and answer the same if they do.  A run
that comes upon no opcode with a handler is the run without a hook, which leaves
the state of the handlers alone. -/
theorem HookTable.last_registration_wins (changes : List (Change σ)) :
    (∀ op, ((ofChanges changes).contains op = true ↔
        ∃ h, lastAbout op changes = some (.on op h)) ∧
      ((ofChanges changes).remove op).1 = (ofChanges changes).contains op) ∧
    (∀ (m : Machine) (limit : Nat) (s : σ),
      m.runWith (ofChanges changes).toHook limit s =
        m.runWith (Hook.latest changes) limit s) ∧
    (∀ (a b : Change σ) (after : List (Change σ)), a.opcode ≠ b.opcode →
      ofChanges (changes ++ a :: b :: after) = ofChanges (changes ++ b :: a :: after) ∧
      ((ofChanges (changes ++ [a])).remove b.opcode).1 =
        ((ofChanges changes).remove b.opcode).1) ∧
    (∀ (m : Machine) (limit : Nat) (s : σ),
      (ofChanges changes).AvoidedBy (m.attempts (ofChanges changes).toHook limit s) ∨
        (ofChanges changes).AvoidedBy (m.attempts Hook.none limit ()) →
      m.runWith (ofChanges changes).toHook limit s = (m.run limit).withState s) := by
  refine ⟨fun op => ⟨contains_ofChanges_iff changes op, rfl⟩, ?_, ?_, ?_⟩
  · intro m limit s
    rw [toHook_ofChanges]
  · intro a b after hne
    refine ⟨?_, ?_⟩
    · simp only [ofChanges_append, List.foldl_cons, apply_comm _ hne]
    · show ((ofChanges (changes ++ [a])).handler? b.opcode).isSome = _
      rw [ofChanges_append_singleton, handler?_apply, if_neg hne.symm]
      rfl
  · intro m limit s h
    exact runWith_of_avoided h

/-- Costs a fixed amount and counts how often. -/
def Handler.counting (gas : Nat) : Handler Nat := fun s m => (.ok ⟨gas, []⟩, s + 1, m)

/-- Of two handlers for one opcode the second is left, and one for another has
been taken away again. -/
theorem HookTable.last_registration_wins_replaced :
    let changes : List (Change Nat) :=
      [.on 0x5b (.counting 7), .on 0x01 (.counting 1), .on 0x5b (.counting 9), .remove 0x01]
    let t := ofChanges changes
    let m := Machine.start #[0x5b, 0x60, 0x05, 0x60, 0x03, 0x01] #[]
    let unmet := Machine.start #[0x60, 0x05, 0x60, 0x03, 0x01] #[]
    (t.contains 0x5b = true ∧ (t.remove 0x01).1 = t.contains 0x01 ∧ t.contains 0x01 = false) ∧
      ((m.runWith (Hook.latest changes) 9 0).state = 1 ∧
        (m.runWith (Hook.latest changes) 9 0).outcome.map Profile.total = .ok 18 ∧
        m.runWith t.toHook 9 0 = m.runWith (Hook.latest changes) 9 0) ∧
      ofChanges (changes ++ [.remove 0x5b, .on 0x01 (.counting 3)]) =
        ofChanges (changes ++ [.on 0x01 (.counting 3), .remove 0x5b]) ∧
      t.AvoidedBy (unmet.attempts Hook.none 9 ()) ∧
      unmet.runWith t.toHook 9 0 = (unmet.run 9).withState 0 := by
  intro changes t m unmet
  obtain ⟨hcontains, hrun, hcomm, havoid⟩ := last_registration_wins changes
  have hunmet : t.AvoidedBy (unmet.attempts Hook.none 9 ()) := by decide +kernel
  exact ⟨⟨(hcontains 0x5b).1.mpr ⟨_, rfl⟩, (hcontains 0x01).2, rfl⟩,
    ⟨by decide +kernel, by decide +kernel, hrun m 9 0⟩,
    (hcomm (.remove 0x5b) (.on 0x01 (.counting 3)) [] (by decide)).1,
    hunmet, havoid unmet 9 0 (.inr hunmet)⟩

end WordMachine
