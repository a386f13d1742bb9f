/-
WordMachine/Machine/HookTable.lean

Hooks put together from handlers for single opcodes.  Registering a handler
replaces the one before it; an opcode without a handler is left to the
machine.

`Hook.recorded` and `Handler.recorded` keep a record of calls, each the opcode
and the program counter at the moment of the call, before anything else is
done.
-/
import WordMachine.Machine.Step

namespace WordMachine

/-- Answers for one opcode. -/
abbrev Handler (σ : Type) := σ → Machine → Except Fault Receipt × σ × Machine

/-- Handlers by opcode. -/
structure HookTable (σ : Type) where
  /-- The handler registered for a byte. -/
  handler? : UInt8 → Option (Handler σ)

namespace HookTable

variable {σ : Type}

/-- The table without handlers. -/
def empty : HookTable σ := ⟨fun _ => none⟩

/-- Registers a handler. -/
def on (op : UInt8) (h : Handler σ) (t : HookTable σ) : HookTable σ :=
  ⟨fun b => if b = op then some h else t.handler? b⟩

/-- Whether an opcode has a handler. -/
def contains (op : UInt8) (t : HookTable σ) : Bool := (t.handler? op).isSome

/-- Takes away the handler of an opcode, and says whether there was one. -/
def remove (op : UInt8) (t : HookTable σ) : Bool × HookTable σ :=
  (t.contains op, ⟨fun b => if b = op then none else t.handler? b⟩)

/-- The hook that calls the handler of the opcode. -/
def toHook (t : HookTable σ) : Hook σ := fun op s m =>
  match t.handler? op with
  | none => (none, s, m)
  | some h =>
    match h s m with
    | (answer, s, m) => (some answer, s, m)

end HookTable

/-! ### Records of calls -/

/-- A call of a hook: the opcode, and the program counter when it was made. -/
structure Call where
  opcode : UInt8
  pc : Nat
  deriving DecidableEq

/-- A hook that records each call before it goes on. -/
def Hook.recorded {σ : Type} (h : Hook σ) : Hook (Array Call × σ) :=
  fun op (calls, s) m =>
    let calls := calls.push ⟨op, m.pc⟩
    match h op s m with
    | (answer?, s, m) => (answer?, (calls, s), m)

/-- A handler of an opcode that records each call before it goes on. -/
def Handler.recorded {σ : Type} (op : UInt8) (h : Handler σ) :
    Handler (Array Call × σ) :=
  fun (calls, s) m =>
    let calls := calls.push ⟨op, m.pc⟩
    match h s m with
    | (answer, s, m) => (answer, (calls, s), m)

end WordMachine
