/-
WordMachine/Tracer/Options.lean

The options of the tracer.  They are read from left to right; a later option
of the same kind replaces an earlier one, and reading stops at the first word
that makes no sense.  What has been read up to there still counts: it decides
how the complaint is logged.
-/
import WordMachine.Log
import WordMachine.Text.Grouped

namespace WordMachine.Tracer

/-- What the tracer was asked for besides the code. -/
structure Options where
  /-- The call data as hexadecimal text. -/
  calldata? : Option String
  maxSteps : Nat
  /-- Whether every step is printed. -/
  trace : Bool
  /-- Whether memory is logged at every jump destination. -/
  watchJumpdest : Bool
  /-- Whether debugging is logged. -/
  verbose : Bool
  /-- Whether lines of the log begin with the time. -/
  showTime : Bool
  deriving DecidableEq

namespace Options

/-- The steps allowed when nothing is said about them. -/
def defaultSteps : Nat := 100000

/-- What holds when no option is given. -/
def standard : Options :=
  { calldata? := none
    maxSteps := defaultSteps
    trace := false
    watchJumpdest := false
    verbose := false
    showTime := true }

/-- The settings of the log under these options. -/
def logging (o : Options) : Log.Settings :=
  { minimum := if o.verbose then .debug else Log.Settings.standard.minimum
    showTime := o.showTime
    showLevel := true }

end Options

/-- Why a command line makes no sense. -/
inductive Complaint where
  /-- An option stands at the end that needs a word behind it. -/
  | missingArgument (option : String)
  | notANumber (word : String)
  | noSteps
  | unexpected (word : String)
  deriving DecidableEq

/-- The wording of a complaint. -/
def Complaint.message : Complaint → String
  | missingArgument option => option ++ " requires an argument"
  | notANumber word => "Invalid step limit: '" ++ word ++ "' is not a valid number"
  | noSteps => "Step limit must be greater than 0"
  | unexpected word => "Unexpected argument: " ++ word ++ "\n"

namespace Options

/-- The options that stand alone. -/
def flag? (o : Options) (word : String) : Option Options :=
  if word = "--trace" ∨ word = "-t" then some { o with trace := true }
  else if word = "--hook-jumpdest" ∨ word = "-j" then some { o with watchJumpdest := true }
  else if word = "--verbose" ∨ word = "-v" then some { o with verbose := true }
  else if word = "--no-timestamp" then some { o with showTime := false }
  else none

/-- Sets the call data. -/
def setCalldata (word : String) (o : Options) : Except Complaint Options :=
  .ok { o with calldata? := some word }

/-- Sets the number of steps allowed, at least one. -/
def setMaxSteps (word : String) (o : Options) : Except Complaint Options :=
  match Text.Grouped.read? word with
  | none => .error (.notANumber word)
  | some 0 => .error .noSteps
  | some n => .ok { o with maxSteps := n }

/-- The options that need a word behind them, with what they do with it. -/
def parameter? (word : String) : Option (String → Options → Except Complaint Options) :=
  if word = "--calldata" ∨ word = "-c" then some setCalldata
  else if word = "--max-steps" ∨ word = "-n" then some setMaxSteps
  else none

/-- Reads the words behind the code.  The complaint is about the first word
that makes no sense. -/
def read (o : Options) : List String → Options × Option Complaint
  | [] => (o, none)
  | word :: rest =>
    match o.flag? word with
    | some o => read o rest
    | none =>
      match parameter? word, rest with
      | none, _ => (o, some (.unexpected word))
      | some _, [] => (o, some (.missingArgument word))
      | some set, argument :: rest =>
        match set argument o with
        | .error c => (o, some c)
        | .ok o => read o rest

end Options

end WordMachine.Tracer
