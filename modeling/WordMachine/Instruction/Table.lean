/-
WordMachine/Instruction/Table.lean

The instruction behind each opcode.  Opcodes that would need accounts, blocks,
storage to write to, logs or calls have none.  Those that only ask for a
constant of the surroundings are answered with a fixed value instead, zero or
the gas that is pretended to be left, so that a program which merely looks
around can be walked through.
-/
import WordMachine.Instruction
import WordMachine.Keccak
import WordMachine.Opcode

namespace WordMachine

open Instruction in
/-- The instruction behind an opcode, if the machine has one. -/
def Opcode.instruction? (op : Opcode) : Option Instruction :=
  match op with
  | push size => some (immediate size.val)
  | dup below => some (duplicate below.val)
  | swap below => some (exchange below.val)
  | .stop => some (Instruction.stop 0)
  | ret | revert => some (Instruction.stop Gas.halt)
  | add => some (combine Gas.veryLow (· + ·))
  | sub => some (combine Gas.veryLow (· - ·))
  | mul => some (combine Gas.low (· * ·))
  | div => some (combine Gas.low Word.div)
  | sdiv => some (combine Gas.low Word.sdiv)
  | mod => some (combine Gas.low Word.mod)
  | smod => some (combine Gas.low Word.smod)
  | addmod => some (combineModulo Gas.mid Word.addMod)
  | mulmod => some (combineModulo Gas.mid Word.mulMod)
  | exp => some power
  | signextend => some signExtend
  | lt => some (combine Gas.veryLow Word.lt)
  | gt => some (combine Gas.veryLow Word.gt)
  | slt => some (combine Gas.veryLow Word.slt)
  | sgt => some (combine Gas.veryLow Word.sgt)
  | eq => some (combine Gas.veryLow Word.eq)
  | iszero => some isZero
  | and => some (combine Gas.veryLow (· &&& ·))
  | or => some (combine Gas.veryLow (· ||| ·))
  | xor => some (combine Gas.veryLow (· ^^^ ·))
  | not => some complement
  | byte => some (combine Gas.veryLow Word.byteAt)
  | shl => some (combine Gas.veryLow Word.shl)
  | shr => some (combine Gas.veryLow Word.shr)
  | sar => some (combine Gas.veryLow Word.sar)
  | keccak256 => some (hash Keccak.digest)
  | address | origin | caller | callvalue | gasprice | coinbase | timestamp
  | number | prevrandao | gaslimit | chainid | selfbalance | basefee
  | returndatasize | blobbasefee => some (constant fun _ => 0)
  | gas => some (constant fun _ => BitVec.ofNat 256 Gas.remaining)
  | calldataload => some inputWord
  | calldatasize => some (constant fun ctx => BitVec.ofNat 256 ctx.calldata.size)
  | codesize => some (constant fun ctx => BitVec.ofNat 256 ctx.code.size)
  | calldatacopy => some (copy op.toByte Context.calldata)
  | codecopy => some (copy op.toByte Context.code)
  | pop => some drop
  | mload => some loadWord
  | mstore => some storeElement
  | mstore8 => some storeLowByte
  | msize => some (constant fun ctx => BitVec.ofNat 256 ctx.memory.size)
  | sload => some storageSlot
  | .jump => some (Instruction.jump op.toByte)
  | jumpi => some (jumpIf op.toByte)
  | jumpdest => some marker
  | pc => some (constant fun ctx => BitVec.ofNat 256 ctx.pc)
  | balance | extcodesize | extcodecopy | returndatacopy | extcodehash
  | blockhash | blobhash | sstore | tload | tstore | mcopy | log _ | create
  | call | callcode | delegatecall | create2 | staticcall | invalid
  | selfdestruct => none

end WordMachine
