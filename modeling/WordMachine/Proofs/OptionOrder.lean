/-
WordMachine/Proofs/OptionOrder.lean

Command lines that ask for the same.

A command line that makes sense is a list of groups: options that stand alone, and
options with the word behind them, whatever that word looks like.  Reading takes
one group after the other (`read_words_append`), and what it has read at the end
can be told without any order from the groups: the last call data, the last number
of steps, and which of the other options there are (`Options.asked`).  That this is
what one more group changes is a case split on the group (`asked_concat`); nothing
else in the tracer looks at the words.

Main result: `sessions_agree`.
-/
import Mathlib.Data.List.Induction
import WordMachine.Proofs.GroupedNumbers
import WordMachine.Tracer.Session

namespace WordMachine.Tracer

open Options

/-! ### Groups -/

/-- The options that stand alone. -/
inductive Flag where
  | trace
  | watchJumpdest
  | verbose
  | hideTime
  deriving DecidableEq

namespace Flag

/-- The words for an option. -/
def names : Flag → List String
  | trace => ["--trace", "-t"]
  | watchJumpdest => ["--hook-jumpdest", "-j"]
  | verbose => ["--verbose", "-v"]
  | hideTime => ["--no-timestamp"]

/-- What an option changes. -/
def set (o : Options) : Flag → Options
  | trace => { o with trace := true }
  | watchJumpdest => { o with watchJumpdest := true }
  | verbose => { o with verbose := true }
  | hideTime => { o with showTime := false }

theorem flag?_of_mem {f : Flag} {word : String} (h : word ∈ f.names) (o : Options) :
    o.flag? word = some (f.set o) := by
  cases f with
  | trace | watchJumpdest | verbose =>
    rcases List.mem_pair.mp h with rfl | rfl
    · simp [flag?, set]
    · simp [flag?, set]
  | hideTime =>
    obtain rfl := List.mem_singleton.mp h
    simp [flag?, set]

end Flag

/-- An option as it is typed, with the word behind it if it takes one. -/
inductive Group where
  /-- Any word is one of call data, also one that looks like an option. -/
  | calldata (name : { word : String // word = "--calldata" ∨ word = "-c" }) (text : String)
  | maxSteps (name : { word : String // word = "--max-steps" ∨ word = "-n" }) (n : Nat)
      (typed : { word : String // StepLimit word n })
  | flag (f : Flag) (name : { word : String // word ∈ f.names })

namespace Group

/-- The words of a group. -/
def words : Group → List String
  | calldata name text => [name, text]
  | maxSteps name _ typed => [name, typed]
  | flag _ name => [name.val]

/-- The call data that a group gives. -/
def calldata? : Group → Option String
  | calldata _ text => some text
  | maxSteps .. | flag .. => none

/-- The number of steps that a group allows. -/
def maxSteps? : Group → Option Nat
  | maxSteps _ n _ => some n
  | calldata .. | flag .. => none

/-- The option of a group that stands alone. -/
def flag? : Group → Option Flag
  | flag f _ => some f
  | calldata .. | maxSteps .. => none

/-- What a group changes. -/
def apply (o : Options) : Group → Options
  | calldata _ text => { o with calldata? := some text }
  | maxSteps _ n _ => { o with maxSteps := n }
  | flag f _ => f.set o

/-- Groups that differ in spelling only. -/
inductive Synonym : Group → Group → Prop
  | calldata (name name') (text : String) : Synonym (.calldata name text) (.calldata name' text)
  | maxSteps (name name') (n : Nat) (typed typed') :
      Synonym (.maxSteps name n typed) (.maxSteps name' n typed')
  | flag (f : Flag) (name name') : Synonym (.flag f name) (.flag f name')

/-- **A group is read as what it changes.** -/
theorem read_words_append (g : Group) (o : Options) (rest : List String) :
    o.read (g.words ++ rest) = (g.apply o).read rest := by
  cases g with
  | calldata name text =>
    obtain ⟨name, h⟩ := name
    have hflag : o.flag? name = none := by
      rcases h with rfl | rfl
      · simp [Options.flag?]
      · simp [Options.flag?]
    have hparameter : parameter? name = some setCalldata := by
      rcases h with rfl | rfl
      · simp [parameter?]
      · simp [parameter?]
    exact read_parameter rest hflag hparameter rfl
  | maxSteps name n typed => exact read_of_stepLimit name.2 o rest typed.2
  | flag f name => exact read_flag rest (Flag.flag?_of_mem name.2 o)

end Group

/-! ### Command lines -/

/-- The words of groups, one group after the other. -/
def wordsOf (gs : List Group) : List String := gs.flatMap Group.words

/-- The options that groups ask for. -/
def Options.asked (gs : List Group) : Options where
  calldata? := (gs.filterMap Group.calldata?).getLast?
  maxSteps := (gs.filterMap Group.maxSteps?).getLast?.getD defaultSteps
  trace := .trace ∈ gs.filterMap Group.flag?
  watchJumpdest := .watchJumpdest ∈ gs.filterMap Group.flag?
  verbose := .verbose ∈ gs.filterMap Group.flag?
  showTime := .hideTime ∉ gs.filterMap Group.flag?

/-- A last group changes what the groups before it ask for. -/
theorem asked_concat (gs : List Group) (g : Group) : asked (gs ++ [g]) = g.apply (asked gs) := by
  unfold asked
  simp only [List.filterMap_append]
  cases g with
  | calldata name text => simp [Group.apply, Group.calldata?, Group.maxSteps?, Group.flag?]
  | maxSteps name n typed => simp [Group.apply, Group.calldata?, Group.maxSteps?, Group.flag?]
  | flag f name =>
    cases f <;>
      simp [Group.apply, Group.calldata?, Group.maxSteps?, Group.flag?, Flag.set]

/-- Groups are read one after the other. -/
theorem read_wordsOf (gs : List Group) (o : Options) :
    o.read (wordsOf gs) = (gs.foldl Group.apply o, none) := by
  induction gs generalizing o with
  | nil => rfl
  | cons g gs ih =>
    show o.read (g.words ++ wordsOf gs) = _
    rw [g.read_words_append, ih]
    rfl

theorem foldl_apply_standard (gs : List Group) : gs.foldl Group.apply standard = asked gs := by
  induction gs using List.reverseRecOn with
  | nil => rfl
  | append_singleton gs g ih => rw [List.foldl_concat, ih, asked_concat]

/-- **What is read of groups is what they ask for.** -/
theorem read_standard_wordsOf (gs : List Group) :
    standard.read (wordsOf gs) = (asked gs, none) := by
  rw [read_wordsOf, foldl_apply_standard]

/-! ### Command lines that agree -/

/-- Command lines with the same last call data and the same last number of steps, if
any, and with the same other options, be it once or more often. -/
structure Agree (gs gs' : List Group) : Prop where
  calldata : (gs.filterMap Group.calldata?).getLast? = (gs'.filterMap Group.calldata?).getLast?
  maxSteps : (gs.filterMap Group.maxSteps?).getLast? = (gs'.filterMap Group.maxSteps?).getLast?
  flags : ∀ f, f ∈ gs.filterMap Group.flag? ↔ f ∈ gs'.filterMap Group.flag?

variable {gs gs' : List Group}

theorem Agree.asked_eq (h : Agree gs gs') : asked gs = asked gs' := by
  unfold asked
  simp only [h.calldata, h.maxSteps, h.flags]

/-- The tracer sees no more of the words than what is read of them. -/
theorem session_congr (program : String) (files : Files) (code : String) {rest rest' : List String}
    (h : standard.read rest = standard.read rest') :
    session program files (code :: rest) = session program files (code :: rest') := by
  simp only [session, h]

/-- Only the order among call data and among numbers of steps matters. -/
theorem Agree.of_perm (h : gs.Perm gs')
    (hcalldata : gs.filterMap Group.calldata? = gs'.filterMap Group.calldata?)
    (hsteps : gs.filterMap Group.maxSteps? = gs'.filterMap Group.maxSteps?) : Agree gs gs' where
  calldata := congrArg List.getLast? hcalldata
  maxSteps := congrArg List.getLast? hsteps
  flags _ := (h.filterMap _).mem_iff

/-- An option that stands alone can be repeated anywhere. -/
theorem Agree.of_repeated {before after : List Group} {f : Flag} (name)
    (h : f ∈ (before ++ after).filterMap Group.flag?) :
    Agree (before ++ .flag f name :: after) (before ++ after) where
  calldata := by
    rw [List.filterMap_append, List.filterMap_append, List.filterMap_cons_none rfl]
  maxSteps := by
    rw [List.filterMap_append, List.filterMap_append, List.filterMap_cons_none rfl]
  flags f' := by
    have hmiddle : (before ++ .flag f name :: after).Perm (.flag f name :: (before ++ after)) :=
      List.perm_middle
    have hgroup : Group.flag? (.flag f name) = some f := rfl
    rw [(hmiddle.filterMap _).mem_iff, List.filterMap_cons_some hgroup, List.mem_cons]
    constructor
    · rintro (rfl | hf')
      · exact h
      · exact hf'
    · exact .inr

/-- Words for the same option can be exchanged. -/
theorem Agree.of_synonyms (h : List.Forall₂ Group.Synonym gs gs') : Agree gs gs' := by
  obtain ⟨hcalldata, hsteps, hflags⟩ :
      gs.filterMap Group.calldata? = gs'.filterMap Group.calldata? ∧
        gs.filterMap Group.maxSteps? = gs'.filterMap Group.maxSteps? ∧
        gs.filterMap Group.flag? = gs'.filterMap Group.flag? := by
    induction h with
    | nil => exact ⟨rfl, rfl, rfl⟩
    | cons hg _ ih =>
      obtain ⟨hcalldata, hsteps, hflags⟩ := ih
      cases hg with
      | calldata | maxSteps | flag =>
        simp only [List.filterMap_cons, Group.calldata?, Group.maxSteps?, Group.flag?, hcalldata,
          hsteps, hflags, and_self]
  exact ⟨congrArg List.getLast? hcalldata, congrArg List.getLast? hsteps,
    fun f => by rw [hflags]⟩

/-- **The order of options does not matter.**  Whatever stands for the code, command lines
that agree in their last call data, in their last number of steps and in which other options
they have give the same session: the same status, and at the same time the same output.  So
groups may change places as long as call data keep their order and numbers of steps keep
theirs, an option that stands alone may be repeated, and one word for an option may be used
instead of another.  What is read of groups is what they ask for; in particular the word
behind an option for call data is call data, whatever it looks like. -/
theorem sessions_agree (program : String) (files : Files) (code : String) :
    (∀ gs gs', Agree gs gs' →
      session program files (code :: wordsOf gs) = session program files (code :: wordsOf gs')) ∧
    (∀ gs gs' : List Group, gs.Perm gs' →
      gs.filterMap Group.calldata? = gs'.filterMap Group.calldata? →
      gs.filterMap Group.maxSteps? = gs'.filterMap Group.maxSteps? → Agree gs gs') ∧
    (∀ before after f name, f ∈ (before ++ after).filterMap Group.flag? →
      Agree (before ++ .flag f name :: after) (before ++ after)) ∧
    (∀ gs gs', List.Forall₂ Group.Synonym gs gs' → Agree gs gs') ∧
    ∀ gs, standard.read (wordsOf gs) = (asked gs, none) := by
  refine ⟨?_, fun _ _ => Agree.of_perm, fun _ _ _ name => Agree.of_repeated name,
    fun _ _ => Agree.of_synonyms, read_standard_wordsOf⟩
  intro gs gs' h
  apply session_congr
  rw [read_standard_wordsOf, read_standard_wordsOf, h.asked_eq]

theorem stepLimit_of_read? {word : String} {n : Nat} (h : Text.Grouped.read? word = some n)
    (hn : 1 ≤ n) : StepLimit word n := by
  obtain ⟨htyped, hlt⟩ := Text.Grouped.read?_eq_some_iff.mp h
  exact ⟨htyped, hn, hlt⟩

/-- A command line, the same in another order, with an option repeated, in other words, and
with more call data and steps in front of those that count.  The call data look like an
option. -/
theorem sessions_agree_reordered :
    ∃ first reordered repeated respelled overridden : List Group,
      wordsOf first = ["-t", "-c", "-v", "-n", "7"] ∧
      wordsOf reordered = ["-n", "7", "-c", "-v", "-t"] ∧
      wordsOf repeated = ["-n", "7", "--trace", "-c", "-v", "-t"] ∧
      wordsOf respelled = ["--max-steps", "+0,7", "-t", "--calldata", "-v", "--trace"] ∧
      wordsOf overridden =
        ["-c", "0x00", "-n", "1", "--max-steps", "+0,7", "-t", "--calldata", "-v"] ∧
      (first.Perm reordered ∧ Agree first reordered) ∧
      Agree repeated reordered ∧
      (List.Forall₂ Group.Synonym repeated respelled ∧ Agree repeated respelled) ∧
      Agree overridden respelled ∧
      session "evm_trace" (fun _ => none) ("0x5b00" :: wordsOf overridden) =
        session "evm_trace" (fun _ => none) ("0x5b00" :: wordsOf respelled) ∧
      standard.read (wordsOf first) =
        ({ standard with calldata? := some "-v", maxSteps := 7, trace := true }, none) := by
  have hseven : StepLimit "7" 7 := stepLimit_of_read? (by decide +kernel) (by decide)
  have hsigned : StepLimit "+0,7" 7 := stepLimit_of_read? (by decide +kernel) (by decide)
  have hone : StepLimit "1" 1 := stepLimit_of_read? (by decide +kernel) (by decide)
  obtain ⟨hsession, hperm, hrepeat, hsynonyms, hread⟩ :=
    sessions_agree "evm_trace" (fun _ => none) "0x5b00"
  let trace : Group := .flag .trace ⟨"-t", by decide⟩
  let trace' : Group := .flag .trace ⟨"--trace", by decide⟩
  let calldata : Group := .calldata ⟨"-c", .inr rfl⟩ "-v"
  let calldata' : Group := .calldata ⟨"--calldata", .inl rfl⟩ "-v"
  let steps : Group := .maxSteps ⟨"-n", .inr rfl⟩ 7 ⟨"7", hseven⟩
  let steps' : Group := .maxSteps ⟨"--max-steps", .inl rfl⟩ 7 ⟨"+0,7", hsigned⟩
  let before : List Group :=
    [.calldata ⟨"-c", .inr rfl⟩ "0x00", .maxSteps ⟨"-n", .inr rfl⟩ 1 ⟨"1", hone⟩]
  have hreversed : [trace, calldata, steps].Perm [steps, calldata, trace] :=
    (List.reverse_perm [trace, calldata, steps]).symm
  have hsynonymous : List.Forall₂ Group.Synonym [steps, trace', calldata, trace]
      [steps', trace, calldata', trace'] :=
    .cons (.maxSteps ..) (.cons (.flag ..) (.cons (.calldata ..) (.cons (.flag ..) .nil)))
  have hoverridden : Agree (before ++ [steps', trace, calldata'])
      [steps', trace, calldata', trace'] := by
    refine ⟨rfl, rfl, fun f => ?_⟩
    show f ∈ [Flag.trace] ↔ f ∈ [Flag.trace, Flag.trace]
    simp
  exact ⟨[trace, calldata, steps], [steps, calldata, trace], [steps, trace', calldata, trace],
    [steps', trace, calldata', trace'], before ++ [steps', trace, calldata'], rfl, rfl, rfl, rfl,
    rfl, ⟨hreversed, hperm _ _ hreversed rfl rfl⟩,
    hrepeat [steps] [calldata, trace] .trace _ (by simp [steps, calldata, trace, Group.flag?]),
    ⟨hsynonymous, hsynonyms _ _ hsynonymous⟩, hoverridden, hsession _ _ hoverridden,
    hread [trace, calldata, steps]⟩

end WordMachine.Tracer
