/-
WordMachine/Tracer/Session.lean

A session of the tracer: code and call data in, a trace, the final stack and a
table of gas out.

Design.  A session is a value.  It says in order what is printed, what is
logged and when the usage is shown, under which settings the log is written,
and with which status the tracer ends; printing it is left to the outer layer,
which alone knows the time and the terminal.  The only question a session has
for its surroundings is whether a name is that of a file, and what is in it.
-/
import WordMachine.Machine.HookTable
import WordMachine.Machine.Run
import WordMachine.Tracer.GasTable
import WordMachine.Tracer.Options

namespace WordMachine.Tracer

/-- Something a session shows. -/
inductive Event where
  /-- A line on the standard output. -/
  | out (line : String)
  /-- An entry of the log, which goes to the standard error. -/
  | log (e : Log.Entry)
  /-- A line on the standard error outside the log. -/
  | err (line : String)
  deriving DecidableEq

/-- What a session shows, and how it ends. -/
structure Session where
  events : Array Event
  settings : Log.Settings
  /-- The exit status. -/
  status : Nat
  deriving DecidableEq

/-! ### Usage -/

/-- The lines of the usage. -/
def usage (program : String) : List String :=
  ["Usage: " ++ program ++ " <code> [OPTIONS]",
   "",
   "Arguments:",
   "  <code>                    Hex bytecode or path to a file holding it",
   "",
   "Options:",
   "  -c, --calldata <hex>      Calldata (default: empty)",
   "  -n, --max-steps <n>       Step budget (default: "
     ++ Text.Grouped.text Options.defaultSteps ++ ")",
   "  -t, --trace               Print every executed step",
   "  -j, --hook-jumpdest       Log memory whenever a JUMPDEST executes",
   "  -v, --verbose             Enable debug logging",
   "      --no-timestamp        Omit timestamps from log lines",
   "  -h, --help                Print this help message"]

/-- The usage on the standard error. -/
def usageEvents (program : String) : Array Event :=
  ((usage program).map Event.err).toArray

/-! ### Execution -/

/-- What is shown so far, and the steps added up. -/
structure Transcript where
  events : Array Event
  tally : Tally

/-- The line of a completed step: its number, the program counter before it
and what it did. -/
def traceLine (number pc : Nat) (s : Step) : String :=
  Text.pad .right ' ' 8 (toString number) ++ "  0x" ++ Text.Hex.number 4 pc ++ "  "
    ++ s.text

/-- Logs memory at a jump destination before the marker is carried out. -/
def dumpMemory : Handler Transcript := fun ⟨events, tally⟩ m =>
  let entry : Log.Entry :=
    ⟨.info, "JUMPDEST at pc " ++ toString m.pc ++ ", memory " ++ m.memory.text⟩
  match m.exec Instruction.markerByte with
  | (answer, m) => (answer, ⟨events.push (.log entry), tally⟩, m)

/-- The hooks that the options ask for. -/
def hooks (o : Options) : HookTable Transcript :=
  if o.watchJumpdest then HookTable.empty.on Instruction.markerByte dumpMemory
  else .empty

/-- Writes the transcript of a machine that is followed. -/
def scribe (o : Options) : Monitor Transcript where
  hook := (hooks o).toHook
  completed := fun ⟨events, tally⟩ pc step _ =>
    { events :=
        if o.trace then events.push (.out (traceLine tally.steps pc step)) else events
      tally := tally.add step }

/-- What is logged at the end: where the machine stopped, or why it did not
get there. -/
def conclusion (o : Options) (c : Course Transcript) : List Log.Entry :=
  let pc := toString c.machine.pc
  let steps := c.state.tally.steps
  match c.ending.fault? o.maxSteps with
  | none =>
    [⟨.info, "Halted at pc " ++ pc ++ " after " ++ Text.Grouped.text steps ++ " steps"⟩,
     ⟨.warn, "Gas figures are approximations, not the fee schedule."⟩]
  | some f =>
    [⟨.error, "Execution stopped at pc " ++ pc ++ " after " ++ toString steps
      ++ " steps: " ++ f.message⟩]

/-- Runs a machine under the options, after the events so far. -/
def execute (o : Options) (events : Array Event) (m : Machine) : Session :=
  let loaded : Log.Entry :=
    ⟨.info, "Loaded " ++ Text.Grouped.text m.code.size ++ " bytes of code, "
      ++ Text.Grouped.text m.calldata.size ++ " bytes of calldata"⟩
  let c := m.follow (scribe o) o.maxSteps ⟨events.push (.log loaded), .empty⟩
  let report := ("Stack: " ++ c.machine.stack.text)
    :: GasTable.lines c.state.tally.profile
  { events := c.state.events ++ report.map Event.out
      ++ (conclusion o c).map Event.log
    settings := o.logging
    status := if c.ending = .halted then 0 else 1 }

/-! ### Sessions -/

/-- A session that ends with an error in the log. -/
def fail (o : Options) (events : Array Event) (message : String) : Session :=
  { events := events.push (.log ⟨.error, message⟩)
    settings := o.logging
    status := 1 }

/-- The machine for a text of code and one of call data.  Faulty call data is
reported before faulty code. -/
def load (code : String) (calldata? : Option String) : Except String Machine := do
  let calldata ← match calldata? with
    | none => .ok #[]
    | some text => (Bytes.ofHexText text).mapError fun f => "Bad calldata: " ++ f.message
  (Machine.ofHexText code calldata).mapError fun f => "Bad bytecode: " ++ f.message

/-- Runs a text of code under the options, after the events so far. -/
def traceText (o : Options) (events : Array Event) (code : String) : Session :=
  match load code o.calldata? with
  | .error message => fail o events message
  | .ok m => execute o events m

/-- What there is under a name: nothing, a file that cannot be read, with the
reason, or the bytes of a file. -/
abbrev Files := String → Option (Except String Bytes)

/-- The text of a file. -/
def decodeText (b : Bytes) : Except String String :=
  match String.fromUTF8? ⟨b⟩ with
  | some text => .ok text
  | none => .error "stream did not contain valid UTF-8"

/-- Runs what the first word stands for under the options: the contents of a
file of that name, or else the word itself. -/
def trace (o : Options) (files : Files) (word : String) : Session :=
  match files word with
  | none => traceText o #[] word
  | some contents =>
    match contents.bind decodeText with
    | .error reason => fail o #[] ("Failed to read " ++ word ++ ": " ++ reason)
    | .ok code => traceText o #[.log ⟨.debug, "Read bytecode from " ++ word⟩] code

/-- The session for a command line. -/
def session (program : String) (files : Files) : List String → Session
  | [] => ⟨usageEvents program, .standard, 1⟩
  | word :: rest =>
    if word = "--help" ∨ word = "-h" then ⟨usageEvents program, .standard, 0⟩
    else
      match Options.standard.read rest with
      | (o, none) => trace o files word
      | (o, some c) =>
        let s := fail o #[] c.message
        match c with
        | .unexpected _ => { s with events := s.events ++ usageEvents program }
        | _ => s

namespace Session

/-- What a session writes to the standard output. -/
def stdout (s : Session) : String :=
  s.events.foldl (fun text e =>
    match e with
    | .out line => text ++ line ++ "\n"
    | _ => text) ""

/-- What a session writes to the standard error, all at one time. -/
def stderr (s : Session) (coloured : Bool) (time : Timestamp) : String :=
  s.events.foldl (fun text e =>
    match e with
    | .log entry => text ++ s.settings.line coloured time entry
    | .err line => text ++ line ++ "\n"
    | .out _ => text) ""

end Session

end WordMachine.Tracer
