/-
WordMachine/Opcode.lean

The opcodes: the bytes that have a name, their spelling and the category
their gas is counted under.

Design.  An opcode byte belongs to one of a few runs of consecutive bytes, so
the assignment is written as `blocks`: the first byte of each run and the
opcodes that follow one another from there.  Pushes, duplications, exchanges
and logs are families indexed by a bounded number, so that the number of
immediate bytes or the depth is read off the opcode and not tabulated.

Main statements: `ofByte?_toByte` and `toByte_of_ofByte?` say that the assignment
and the byte of an opcode are inverse to each other.
-/
import WordMachine.Gas
import WordMachine.Text.Hex

namespace WordMachine

/-- A named opcode. -/
inductive Opcode where
  | stop | add | mul | sub | div | sdiv | mod | smod | addmod | mulmod | exp
  | signextend
  | lt | gt | slt | sgt | eq | iszero | and | or | xor | not | byte | shl | shr
  | sar
  | keccak256
  | address | balance | origin | caller | callvalue | calldataload
  | calldatasize | calldatacopy | codesize | codecopy | gasprice | extcodesize
  | extcodecopy | returndatasize | returndatacopy | extcodehash | blockhash
  | coinbase | timestamp | number | prevrandao | gaslimit | chainid
  | selfbalance | basefee | blobhash | blobbasefee
  | pop | mload | mstore | mstore8 | sload | sstore | jump | jumpi | pc | msize
  | gas | jumpdest | tload | tstore | mcopy
  /-- Pushes the next `size` bytes of the code. -/
  | push (size : Fin 33)
  /-- Duplicates the element `below` places below the top. -/
  | dup (below : Fin 16)
  /-- Exchanges the top with the element `below + 1` places below it. -/
  | swap (below : Fin 16)
  | log (topics : Fin 5)
  | create | call | callcode | ret | delegatecall | create2
  | staticcall | revert | invalid | selfdestruct
  deriving DecidableEq

namespace Opcode

/-! ### Bytes -/

/-- The runs of assigned bytes: where each begins, and its opcodes in order. -/
def blocks : List (Nat × List Opcode) :=
  [(0x00, [stop, add, mul, sub, div, sdiv, mod, smod, addmod, mulmod, exp,
     signextend]),
   (0x10, [lt, gt, slt, sgt, eq, iszero, and, or, xor, not, byte, shl, shr, sar]),
   (0x20, [keccak256]),
   (0x30, [address, balance, origin, caller, callvalue, calldataload,
     calldatasize, calldatacopy, codesize, codecopy, gasprice, extcodesize,
     extcodecopy, returndatasize, returndatacopy, extcodehash, blockhash,
     coinbase, timestamp, number, prevrandao, gaslimit, chainid, selfbalance,
     basefee, blobhash, blobbasefee]),
   (0x50, [pop, mload, mstore, mstore8, sload, sstore, jump, jumpi, pc, msize,
     gas, jumpdest, tload, tstore, mcopy]),
   (0x5f, List.ofFn push),
   (0x80, List.ofFn dup),
   (0x90, List.ofFn swap),
   (0xa0, List.ofFn log),
   (0xf0, [create, call, callcode, ret, delegatecall, create2]),
   (0xfa, [staticcall]),
   (0xfd, [revert, invalid, selfdestruct])]

/-- The opcode assigned to a byte. -/
def ofByte? (b : UInt8) : Option Opcode :=
  blocks.findSome? fun (first, run) =>
    if first ≤ b.toNat then run[b.toNat - first]? else none

/-- The byte of an opcode. -/
def toByte : Opcode → UInt8
  | stop => 0x00
  | add => 0x01
  | mul => 0x02
  | sub => 0x03
  | div => 0x04
  | sdiv => 0x05
  | mod => 0x06
  | smod => 0x07
  | addmod => 0x08
  | mulmod => 0x09
  | exp => 0x0a
  | signextend => 0x0b
  | lt => 0x10
  | gt => 0x11
  | slt => 0x12
  | sgt => 0x13
  | eq => 0x14
  | iszero => 0x15
  | and => 0x16
  | or => 0x17
  | xor => 0x18
  | not => 0x19
  | byte => 0x1a
  | shl => 0x1b
  | shr => 0x1c
  | sar => 0x1d
  | keccak256 => 0x20
  | address => 0x30
  | balance => 0x31
  | origin => 0x32
  | caller => 0x33
  | callvalue => 0x34
  | calldataload => 0x35
  | calldatasize => 0x36
  | calldatacopy => 0x37
  | codesize => 0x38
  | codecopy => 0x39
  | gasprice => 0x3a
  | extcodesize => 0x3b
  | extcodecopy => 0x3c
  | returndatasize => 0x3d
  | returndatacopy => 0x3e
  | extcodehash => 0x3f
  | blockhash => 0x40
  | coinbase => 0x41
  | timestamp => 0x42
  | number => 0x43
  | prevrandao => 0x44
  | gaslimit => 0x45
  | chainid => 0x46
  | selfbalance => 0x47
  | basefee => 0x48
  | blobhash => 0x49
  | blobbasefee => 0x4a
  | pop => 0x50
  | mload => 0x51
  | mstore => 0x52
  | mstore8 => 0x53
  | sload => 0x54
  | sstore => 0x55
  | jump => 0x56
  | jumpi => 0x57
  | pc => 0x58
  | msize => 0x59
  | gas => 0x5a
  | jumpdest => 0x5b
  | tload => 0x5c
  | tstore => 0x5d
  | mcopy => 0x5e
  | push size => 0x5f + UInt8.ofNat size
  | dup below => 0x80 + UInt8.ofNat below
  | swap below => 0x90 + UInt8.ofNat below
  | log topics => 0xa0 + UInt8.ofNat topics
  | create => 0xf0
  | call => 0xf1
  | callcode => 0xf2
  | ret => 0xf3
  | delegatecall => 0xf4
  | create2 => 0xf5
  | staticcall => 0xfa
  | revert => 0xfd
  | invalid => 0xfe
  | selfdestruct => 0xff

/-- An opcode is the one assigned to its byte. -/
theorem ofByte?_toByte (op : Opcode) : ofByte? op.toByte = some op := by
  cases op with
  | push size => revert size; decide +kernel
  | dup below => revert below; decide +kernel
  | swap below => revert below; decide +kernel
  | log topics => revert topics; decide +kernel
  | _ => decide +kernel

/-- The byte of the opcode assigned to a byte is that byte. -/
theorem toByte_of_ofByte? {b : UInt8} {op : Opcode} (h : ofByte? b = some op) :
    op.toByte = b := by
  have all : ∀ n : Fin 256,
      ∀ op ∈ ofByte? (UInt8.ofNat n), op.toByte = UInt8.ofNat n := by
    decide +kernel
  have := all ⟨b.toNat, b.toNat_lt⟩ op (by simpa using h)
  simpa using this

/-! ### Spelling -/

/-- The name of an opcode, each of its words begun with a capital. -/
def title : Opcode → String
  | stop => "Stop"
  | add => "Add"
  | mul => "Mul"
  | sub => "Sub"
  | div => "Div"
  | sdiv => "SDiv"
  | mod => "Mod"
  | smod => "SMod"
  | addmod => "AddMod"
  | mulmod => "MulMod"
  | exp => "Exp"
  | signextend => "SignExtend"
  | lt => "Lt"
  | gt => "Gt"
  | slt => "SLt"
  | sgt => "SGt"
  | eq => "Eq"
  | iszero => "IsZero"
  | and => "And"
  | or => "Or"
  | xor => "Xor"
  | not => "Not"
  | byte => "Byte"
  | shl => "Shl"
  | shr => "Shr"
  | sar => "Sar"
  | keccak256 => "Keccak256"
  | address => "Address"
  | balance => "Balance"
  | origin => "Origin"
  | caller => "Caller"
  | callvalue => "CallValue"
  | calldataload => "CallDataLoad"
  | calldatasize => "CallDataSize"
  | calldatacopy => "CallDataCopy"
  | codesize => "CodeSize"
  | codecopy => "CodeCopy"
  | gasprice => "GasPrice"
  | extcodesize => "ExtCodeSize"
  | extcodecopy => "ExtCodeCopy"
  | returndatasize => "ReturnDataSize"
  | returndatacopy => "ReturnDataCopy"
  | extcodehash => "ExtCodeHash"
  | blockhash => "BlockHash"
  | coinbase => "Coinbase"
  | timestamp => "Timestamp"
  | number => "Number"
  | prevrandao => "PrevRandao"
  | gaslimit => "GasLimit"
  | chainid => "ChainId"
  | selfbalance => "SelfBalance"
  | basefee => "BaseFee"
  | blobhash => "BlobHash"
  | blobbasefee => "BlobBaseFee"
  | pop => "Pop"
  | mload => "MLoad"
  | mstore => "MStore"
  | mstore8 => "MStore8"
  | sload => "SLoad"
  | sstore => "SStore"
  | jump => "Jump"
  | jumpi => "JumpI"
  | pc => "Pc"
  | msize => "MSize"
  | gas => "Gas"
  | jumpdest => "JumpDest"
  | tload => "TLoad"
  | tstore => "TStore"
  | mcopy => "MCopy"
  | push size => "Push" ++ toString size.val
  | dup below => "Dup" ++ toString (below.val + 1)
  | swap below => "Swap" ++ toString (below.val + 1)
  | log topics => "Log" ++ toString topics.val
  | create => "Create"
  | call => "Call"
  | callcode => "CallCode"
  | ret => "Return"
  | delegatecall => "DelegateCall"
  | create2 => "Create2"
  | staticcall => "StaticCall"
  | revert => "Revert"
  | invalid => "Invalid"
  | selfdestruct => "SelfDestruct"

/-- The mnemonic: the name in capitals. -/
def mnemonic (op : Opcode) : String := op.title.map Char.toUpper

/-- The mnemonic of a byte; one without an opcode is called unknown. -/
def nameOfByte (b : UInt8) : String :=
  match ofByte? b with
  | some op => op.mnemonic
  | none => "UNKNOWN_0x" ++ String.ofList (Text.Hex.pair b)

/-! ### Categories and families -/

/-- The category an opcode is counted under. -/
def category : Opcode → Category
  | add | mul | sub | div | sdiv | mod | smod | addmod | mulmod | exp
  | signextend => .arithmetic
  | lt | gt | slt | sgt | eq | iszero => .comparison
  | and | or | xor | not | byte | shl | shr | sar => .bitwise
  | keccak256 => .hashing
  | calldataload | calldatasize | calldatacopy => .calldata
  | address | balance | origin | caller | callvalue | codesize | gasprice
  | extcodesize | extcodecopy | returndatasize | returndatacopy | extcodehash
  | blockhash | coinbase | timestamp | number | prevrandao | gaslimit | chainid
  | selfbalance | basefee | blobhash | blobbasefee | gas => .environment
  | codecopy | mload | mstore | mstore8 | msize | mcopy => .memory
  | sload | sstore | tload | tstore => .storage
  | stop | jump | jumpi | pc | jumpdest | ret | revert | invalid => .controlFlow
  | pop | push _ | dup _ | swap _ => .stack
  | log _ | create | call | callcode | delegatecall | create2 | staticcall
  | selfdestruct => .system

/-- The category of a byte; one without an opcode counts as a system call. -/
def categoryOfByte (b : UInt8) : Category :=
  match ofByte? b with
  | some op => op.category
  | none => .system

/-- The number of immediate bytes behind a push. -/
def pushSize? : Opcode → Option Nat
  | push size => some size.val
  | _ => none

/-- The place of the element a duplication copies, the top being the first. -/
def dupDepth? : Opcode → Option Nat
  | dup below => some (below.val + 1)
  | _ => none

/-- How far below the top an exchange reaches. -/
def swapDepth? : Opcode → Option Nat
  | swap below => some (below.val + 1)
  | _ => none

end Opcode

end WordMachine
