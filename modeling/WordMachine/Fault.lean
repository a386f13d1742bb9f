/-
WordMachine/Fault.lean

Everything that can go wrong, each with the numbers that say where and why.
None of these is recovered from inside: an operation that fails answers with
its fault, and whoever called it decides what becomes of the machine.

`message` gives the wording.  Numbers are decimal in it, opcodes two
hexadecimal digits.
-/
import WordMachine.Text.Hex

namespace WordMachine

/-- The cause of a failure. -/
inductive Fault where
  /-- An operation needed more stack elements than there are. -/
  | stackUnderflow (requested depth : Nat)
  /-- The byte at `pc` has no meaning to the machine. -/
  | unsupportedOpcode (opcode : UInt8) (pc : Nat)
  /-- The target of a jump is no jump destination inside the code. -/
  | invalidJump (opcode : UInt8) (pc : Nat) (destination : Word)
  /-- A copy asked for more bytes than one copy may move. -/
  | copyTooLarge (opcode : UInt8) (size : Word) (limit : Nat)
  /-- An access would make memory grow past its capacity. -/
  | memoryLimitExceeded (offset : Word) (size limit : Nat)
  /-- A step was asked of a machine that has stopped. -/
  | halted (pc : Nat)
  /-- The steps a run was allowed are used up. -/
  | stepLimitExceeded (limit : Nat)
  /-- A text is not hexadecimal. -/
  | invalidHex (input : String)
  deriving DecidableEq

namespace Fault

/-- An opcode as two hexadecimal digits behind their marker. -/
def opcodeText (opcode : UInt8) : String :=
  "0x" ++ String.ofList (Text.Hex.pair opcode)

/-- The wording of a fault. -/
def message : Fault → String
  | stackUnderflow requested depth =>
    "stack underflow: needed " ++ toString requested ++ " element(s), depth is "
      ++ toString depth
  | unsupportedOpcode opcode pc =>
    "unsupported opcode " ++ opcodeText opcode ++ " at pc " ++ toString pc
  | invalidJump _ pc destination =>
    "invalid jump from pc " ++ toString pc ++ " to " ++ toString destination.toNat
  | copyTooLarge opcode size limit =>
    "copy of " ++ toString size.toNat ++ " bytes exceeds the " ++ toString limit
      ++ "-byte limit (opcode " ++ opcodeText opcode ++ ")"
  | memoryLimitExceeded offset size limit =>
    "memory access at offset " ++ toString offset.toNat ++ " with size "
      ++ toString size ++ " exceeds " ++ toString limit ++ " bytes"
  | halted pc => "vm already halted at pc " ++ toString pc
  | stepLimitExceeded limit => "step limit of " ++ toString limit ++ " reached"
  | invalidHex input => "invalid hex input: " ++ input

/-- The opcode to blame, when there is one. -/
def opcode? : Fault → Option UInt8
  | unsupportedOpcode opcode _ => some opcode
  | invalidJump opcode _ _ => some opcode
  | copyTooLarge opcode _ _ => some opcode
  | _ => none

/-- Whether the fault says that the machine does not offer what was asked for:
an unknown opcode, an impossible jump, an oversized copy. -/
def isUnsupported (f : Fault) : Bool := f.opcode?.isSome

end Fault

/-- The bytes that an input text stands for.  The fault holds the text as it
was given, white space and marker included. -/
def Bytes.ofHexText (input : String) : Except Fault Bytes :=
  match Text.Hex.decode (Text.Hex.payload input) with
  | some b => .ok b
  | none => .error (.invalidHex input)

end WordMachine
