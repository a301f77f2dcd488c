import BitCalculus.Text.LowerCase
import BitCalculus.Text.Quoted

/-!
# Log lines

A log line has a level; lines below the chosen level are not shown.
-/

namespace BitCalculus

/-- The levels of log lines, from chatty to grave. -/
inductive LogLevel where
  | debug
  | info
  | warning
  | error
deriving DecidableEq

namespace LogLevel

/-- The place of a level in the order of gravity. -/
def rank : LogLevel → Nat
  | debug => 0
  | info => 1
  | warning => 2
  | error => 3

/-- The name of a level as settings write it. -/
def name : LogLevel → Bytes
  | debug => lit "debug"
  | info => lit "info"
  | warning => lit "warning"
  | error => lit "error"

/-- The mark of a level in front of a log line. -/
def label : LogLevel → Bytes
  | debug => lit "[DEBUG]"
  | info => lit "[INFO]"
  | warning => lit "[WARNING]"
  | error => lit "[ERROR]"

/-- All levels. -/
def all : List LogLevel := [debug, info, warning, error]

/-- The level with the given name, in whatever case it is written. -/
def ofName? (text : Bytes) : Option LogLevel :=
  all.find? fun level => level.name == text.toLower

/-- The report of a level name that is not known. -/
def unknownMessage (text : Bytes) : Bytes :=
  lit "unknown log level " ++ text.quoted

/-- The line that is shown for a message while `threshold` is the chosen level. -/
def line (threshold level : LogLevel) (message : Bytes) : Bytes :=
  if threshold.rank ≤ level.rank then level.label ++ lit " " ++ message ++ [10] else []

end LogLevel

end BitCalculus
