/-
WordMachine/Main.lean

The command line of the tracer.  Here a session meets its surroundings: the
file system is asked about the first word, events are printed in order, and
every line of the log gets the time at which it is printed.
-/
import Std.Time.DateTime.Timestamp
import WordMachine.Tracer.Session

namespace WordMachine.Tracer

/-- The name under which the tracer presents itself. -/
def programName : String := "evm_trace"

/-- What there is under a name in the file system. -/
def lookUp (name : String) : IO (Option (Except String Bytes)) := do
  try
    let contents ← IO.FS.readBinFile name
    return some (.ok contents.data)
  catch
    | .permissionDenied .. => return some (.error "Permission denied (os error 13)")
    | _ => return none

/-- The present moment. -/
def now : IO Timestamp := do
  let t ← Std.Time.Timestamp.now
  return ⟨t.toMillisecondsSinceUnixEpoch.val.toNat⟩

/-- Whether the terminal takes colours. -/
def takesColours : IO Bool := do
  let terminal ← IO.getEnv "TERM"
  let refused ← IO.getEnv "NO_COLOR"
  return terminal.any (· != "dumb") && refused.isNone

/-- Prints an event. -/
def print (settings : Log.Settings) (coloured : Bool) : Event → IO Unit
  | .out line => IO.println line
  | .err line => IO.eprintln line
  | .log entry => do IO.eprint (settings.line coloured (← now) entry)

end WordMachine.Tracer

open WordMachine.Tracer in
/-- Runs a session and prints it. -/
def main (args : List String) : IO UInt32 := do
  let word := args.headD ""
  let contents ← lookUp word
  let s := session programName (fun name => if name = word then contents else none) args
  let coloured ← takesColours
  for e in s.events do
    print s.settings coloured e
  return UInt32.ofNat s.status
