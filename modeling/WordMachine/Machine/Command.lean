/-
WordMachine/Machine/Command.lean

Everything that can be asked of a stack, of memory and of a machine, as data.
A command is performed and answers with a reply or a fault; whatever it
answers, there is a stack, a memory or a machine afterwards to ask the next
thing of.

Scripts are hooks written down: commands to perform on the machine, and what
to answer for the opcode when all of them have succeeded.  A command that
fails ends the script, and its fault is the answer.
-/
import WordMachine.Machine.HookTable
import WordMachine.Machine.Run

namespace WordMachine

/-- What a command answers. -/
inductive Reply where
  | nothing
  | element (e : Element)
  | word (w : Word)
  | elements (es : List Element)
  | depth (n : Nat)
  | text (s : String)
  /-- Bytes read, and the words memory grew by. -/
  | bytes (data : Bytes) (growth : Nat)
  /-- The words memory grew by. -/
  | growth (n : Nat)
  /-- The size of memory in bytes and in words. -/
  | size (bytes words : Nat)
  | receipt (r : Receipt)
  | step (s : Step)
  | profile (p : Profile)
  deriving DecidableEq

/-! ### Stacks and memory -/

/-- What can be asked of a stack. -/
inductive Stack.Command where
  | push (e : Element)
  | pushWord (w : Word)
  | pop
  | popWord
  | popMany (n : Nat)
  | peek
  | peekAt (n : Nat)
  | dup (n : Nat)
  | swap (n : Nat)
  | depth
  /-- Asks for the dump. -/
  | dump
  /-- Asks for the elements on one line. -/
  | inline
  deriving DecidableEq

/-- Performs a command on a stack. -/
def Stack.perform (s : Stack) : Stack.Command → Except Fault Reply × Stack
  | .push e => (.ok .nothing, s.push e)
  | .pushWord w => (.ok .nothing, s.pushWord w)
  | .pop => s.pop.map (·.map .element) id
  | .popWord => s.popWord.map (·.map .word) id
  | .popMany n => (s.popMany n).map (·.map fun es => .elements es.toList) id
  | .peek => (s.peek.map .element, s)
  | .peekAt n => ((s.peekAt n).map .element, s)
  | .dup n => (s.dup n).map (·.map fun _ => .nothing) id
  | .swap n => (s.swap n).map (·.map fun _ => .nothing) id
  | .depth => (.ok (.depth s.depth), s)
  | .dump => (.ok (.text s.text), s)
  | .inline => (.ok (.text s.inline), s)

/-- What can be asked of memory. -/
inductive Memory.Command where
  | load (offset : Nat)
  | fetch (offset size : Nat)
  | store (offset : Nat) (data : Bytes)
  | storeByte (offset : Nat) (x : UInt8)
  | size
  /-- Asks for the dump. -/
  | dump
  /-- Asks for the size, labelled. -/
  | inline
  deriving DecidableEq

/-- Performs a command on memory. -/
def Memory.perform (m : Memory) : Memory.Command → Except Fault Reply × Memory
  | .load offset => (m.load offset).map (·.map fun r => .bytes r.1 r.2) id
  | .fetch offset size => (m.fetch offset size).map (·.map fun r => .bytes r.1 r.2) id
  | .store offset data => (m.store offset data).map (·.map .growth) id
  | .storeByte offset x => (m.storeByte offset x).map (·.map .growth) id
  | .size => (.ok (.size m.size m.wordCount), m)
  | .dump => (.ok (.text m.text), m)
  | .inline => (.ok (.text m.inline), m)

/-! ### Machines -/

/-- What can be asked of a machine. -/
inductive Machine.Command where
  | stack (c : Stack.Command)
  | memory (c : Memory.Command)
  | step
  | run (limit : Nat)
  | exec (op : UInt8)
  | setPc (pc : Nat)
  | halt
  deriving DecidableEq

/-- What performing a command on a machine leaves. -/
structure Performed where
  result : Except Fault Reply
  /-- What a run has to say in the log. -/
  remark? : Option Log.Entry
  machine : Machine

/-- Performs a command on a machine. -/
def Machine.perform (m : Machine) : Machine.Command → Performed
  | .stack c =>
    match m.stack.perform c with
    | (result, stack) => ⟨result, none, { m with stack }⟩
  | .memory c =>
    let ⟨⟨code, calldata, pc, memory⟩, stack, stopped⟩ := m
    match memory.perform c with
    | (result, memory) => ⟨result, none, ⟨⟨code, calldata, pc, memory⟩, stack, stopped⟩⟩
  | .step =>
    match m.step with
    | (result, m) => ⟨result.map .step, none, m⟩
  | .run limit =>
    match m.run limit with
    | ⟨outcome, remark?, _, m⟩ => ⟨outcome.map .profile, remark?, m⟩
  | .exec op =>
    match m.exec op with
    | (result, m) => ⟨result.map .receipt, none, m⟩
  | .setPc pc => ⟨.ok .nothing, none, m.setPc pc⟩
  | .halt => ⟨.ok .nothing, none, m.halt⟩

/-! ### Scripts -/

/-- What a script answers for the opcode in the end. -/
inductive Verdict where
  /-- What the machine itself makes of the opcode, carried out at once. -/
  | base
  /-- Nothing: the opcode is left to the machine. -/
  | defer
  | answer (r : Receipt)
  | fail (f : Fault)
  deriving DecidableEq

/-- A hook written down. -/
structure Script where
  commands : List Machine.Command
  verdict : Verdict
  deriving DecidableEq

/-- Performs commands in order up to the first that fails. -/
def Machine.performAll (remarks : Array Log.Entry) (m : Machine) :
    List Machine.Command → Option Fault × Array Log.Entry × Machine
  | [] => (none, remarks, m)
  | c :: cs =>
    match m.perform c with
    | ⟨result, remark?, m⟩ =>
      let remarks := remarks ++ remark?.toArray
      match result with
      | .error f => (some f, remarks, m)
      | .ok _ => performAll remarks m cs

namespace Script

/-- Plays a script for an opcode. -/
def play (script : Script) (op : UInt8) (remarks : Array Log.Entry) (m : Machine) :
    Option (Except Fault Receipt) × Array Log.Entry × Machine :=
  match m.performAll remarks script.commands with
  | (some f, remarks, m) => (some (.error f), remarks, m)
  | (none, remarks, m) =>
    match script.verdict with
    | .base =>
      match m.exec op with
      | (answer, m) => (some answer, remarks, m)
    | .defer => (none, remarks, m)
    | .answer r => (some (.ok r), remarks, m)
    | .fail f => (some (.error f), remarks, m)

/-- The hook that plays the script chosen for an opcode, if there is one. -/
def hook (choose : UInt8 → Option Script) : Hook (Array Log.Entry) :=
  fun op remarks m =>
    match choose op with
    | none => (none, remarks, m)
    | some script => script.play op remarks m

/-- The script as the handler of an opcode.  A handler has to answer, so what
it would leave to the machine it has the machine do at once. -/
def handler (script : Script) (op : UInt8) : Handler (Array Log.Entry) :=
  fun remarks m =>
    match script.play op remarks m with
    | (answer?, remarks, m) =>
      match m.settle op answer? with
      | (answer, m) => (answer, remarks, m)

end Script

end WordMachine
