import WordMachine.Word
import WordMachine.Bytes
import WordMachine.Text.Align
import WordMachine.Text.Blank
import WordMachine.Text.Grouped
import WordMachine.Text.Hex
import WordMachine.Text.Template
import WordMachine.Binary64
import WordMachine.Calendar
import WordMachine.Log
import WordMachine.Element
import WordMachine.Fault
import WordMachine.Gas
import WordMachine.Opcode
import WordMachine.Stack
import WordMachine.Memory
import WordMachine.Keccak
import WordMachine.Instruction
import WordMachine.Instruction.Table
import WordMachine.Machine
import WordMachine.Machine.Step
import WordMachine.Machine.Run
import WordMachine.Machine.HookTable
import WordMachine.Machine.Command
import WordMachine.Tracer.Options
import WordMachine.Tracer.GasTable
import WordMachine.Tracer.Session
import WordMachine.Main
import WordMachine.Proofs.Decimals
import WordMachine.Proofs.Execution
import WordMachine.Proofs.Walk
import WordMachine.Proofs.StackFrame
import WordMachine.Proofs.HookTransparency
import WordMachine.Proofs.RunLaws
import WordMachine.Proofs.BigEndian
import WordMachine.Proofs.FlatMemory
import WordMachine.Proofs.MemoryOpcodes
import WordMachine.Proofs.StackEffect
import WordMachine.Proofs.Failures
import WordMachine.Proofs.Effects
import WordMachine.Proofs.ControlFlow
import WordMachine.Proofs.Operations
import WordMachine.Proofs.Readiness
import WordMachine.Proofs.Finality
import WordMachine.Proofs.WordStack
import WordMachine.Proofs.Visits
import WordMachine.Proofs.Surroundings
import WordMachine.Proofs.TrailingCode
import WordMachine.Proofs.InputPadding
import WordMachine.Proofs.WordArithmetic
import WordMachine.Proofs.Arithmetic
import WordMachine.Proofs.CommandLine
import WordMachine.Proofs.Monitors
import WordMachine.Proofs.TracerOutput
import WordMachine.Proofs.MemoryGrowth
import WordMachine.Proofs.Attempts
import WordMachine.Proofs.CallRecords
import WordMachine.Proofs.HookTables
import WordMachine.Proofs.ForwardRuns
import WordMachine.Proofs.GasBounds
import WordMachine.Proofs.Jumps
import WordMachine.Proofs.Pushes
import WordMachine.Proofs.HexText
import WordMachine.Proofs.Windows
import WordMachine.Proofs.Copies
import WordMachine.Proofs.MemoryFaults
import WordMachine.Proofs.SignedDivision
import WordMachine.Proofs.Shifts
import WordMachine.Proofs.SignExtension
import WordMachine.Proofs.Powers
import WordMachine.Proofs.SignedOrder
import WordMachine.Proofs.StackLaws
import WordMachine.Proofs.Gregorian
import WordMachine.Proofs.Timestamps
import WordMachine.Proofs.GroupedNumbers
import WordMachine.Proofs.Profiles
import WordMachine.Proofs.Cycles
import WordMachine.Proofs.FormatStrings
import WordMachine.Proofs.OptionOrder
import WordMachine.Proofs.Dumps
import WordMachine.Proofs.FaultMessages
import WordMachine.Proofs.Substitution
import WordMachine.Proofs.WordBytes
