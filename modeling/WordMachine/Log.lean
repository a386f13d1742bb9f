/-
WordMachine/Log.lean

Levelled log lines.  What a computation has to say is a list of entries, each
a level and a text; which of them are written, and how, is decided afterwards
by the settings.  A line reads `<time> [LEVEL] text`, either part in front of
the text may be left out, and on a terminal with colours the line is painted
by its level.
-/
import WordMachine.Calendar

namespace WordMachine.Log

/-! ### Levels -/

/-- How much an entry matters. -/
inductive Level where
  | debug
  | info
  | warn
  | error
  deriving DecidableEq

namespace Level

/-- The place of a level, the least important first. -/
def rank : Level → Nat
  | debug => 0
  | info => 1
  | warn => 2
  | error => 3

/-- Levels in their order. -/
def compare (a b : Level) : Ordering := Ord.compare a.rank b.rank

/-- The name of a level. -/
def text : Level → String
  | debug => "DEBUG"
  | info => "INFO"
  | warn => "WARN"
  | error => "ERROR"

/-- The terminal's codes for the look of a level: bold, then dimmed, then the
colour. -/
def look : Level → List String
  | debug => ["2", "36"]
  | info => []
  | warn => ["1", "33"]
  | error => ["1", "31"]

end Level

/-- Something to be logged. -/
structure Entry where
  level : Level
  text : String
  deriving DecidableEq

/-! ### Lines -/

/-- Which entries are written, and what stands in front of them. -/
structure Settings where
  /-- The lowest level that is written. -/
  minimum : Level
  showTime : Bool
  showLevel : Bool
  deriving DecidableEq

namespace Settings

/-- Everything but debugging is written, with time and level. -/
def standard : Settings := ⟨.info, true, true⟩

/-- Whether entries of a level are written. -/
def enabled (s : Settings) (level : Level) : Bool := s.minimum.rank ≤ level.rank

/-- What stands in front of a text. -/
def heading (s : Settings) (level : Level) (time : Timestamp) : String :=
  (if s.showTime then time.text ++ " " else "")
    ++ (if s.showLevel then "[" ++ Text.pad .left ' ' 5 level.text ++ "] " else "")

/-- A control sequence that sets the look of a terminal. -/
def control (code : String) : String := "\x1b[" ++ code ++ "m"

/-- The line written for an entry, nothing if its level is too low. -/
def line (s : Settings) (coloured : Bool) (time : Timestamp) (e : Entry) : String :=
  if s.enabled e.level then
    let plain := s.heading e.level time ++ e.text ++ "\n"
    if coloured then
      control "0" ++ String.join (e.level.look.map control) ++ plain ++ control "0"
    else plain
  else ""

end Settings

end WordMachine.Log
