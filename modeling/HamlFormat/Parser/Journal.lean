import HamlFormat.Fault

/-!
# HamlFormat.Parser.Journal

What a run leaves behind beside its result: the records it logged and the input
of each program it started. Both are kept also when the run fails.
-/

namespace HamlFormat

/-- How much a record matters. -/
inductive Severity where
  | debug
  | warning
  deriving DecidableEq

/-- The name of a severity. -/
def Severity.name : Severity → String
  | .debug => "DEBUG"
  | .warning => "WARNING"

/-- A log record. -/
structure Record where
  severity : Severity
  logger : Text
  message : Text
  deriving DecidableEq

/-- A record on one line. -/
def Record.text (record : Record) : Text :=
  record.severity.name ++ " " ++ record.logger ++ ": " ++ record.message

/-- The logger above all others. -/
def rootLogger : Text :=
  "pulido"

/-- The full name of a logger: it starts with the name of the root logger. -/
def loggerName (name : Text) : Text :=
  let qualified := (rootLogger ++ ".").isPrefixOf name
  if name == rootLogger || qualified then name else rootLogger ++ "." ++ name

/-- The records of a run, if it keeps any, and the input of each program it
started, both in order. -/
structure Journal where
  verbose : Bool
  records : List Record := []
  inputs : List (List UInt8) := []

/-- A run that may fail and keeps a journal. -/
abbrev Journaled (α : Type) := ExceptT Fault (StateM Journal) α

namespace Journaled

/-- Log a message. A message is made only where records are kept, and making it
may fail. -/
def log (severity : Severity) (logger : Text) (message : Except Fault Text) :
    Journaled Unit := do
  if (← get).verbose then
    let message ← message
    modify fun journal =>
      { journal with records := journal.records ++ [⟨severity, logger, message⟩] }

/-- Note the input of a program that is being started. -/
def noteInput (input : List UInt8) : Journaled Unit :=
  modify fun journal => { journal with inputs := journal.inputs ++ [input] }

end Journaled

end HamlFormat
