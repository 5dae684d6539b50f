import HamlFormat.Parser.Journal
import HamlFormat.Text.Utf8
import HamlFormat.Tree.Read

/-!
# HamlFormat.Parser.External

Parsers are external programs. A parser gets the source on its standard input
and answers with a syntax tree as JSON on its standard output, or with a message
on its error output; a message wins over an answer.

What a program does is given by a `Host`, so a run is a function of it.
-/

namespace HamlFormat

/-- What becomes of a program that is started. -/
inductive Outcome where
  /-- It ended, having written these bytes. -/
  | finished (output errors : List UInt8)
  /-- There is no such program. -/
  | notFound
  /-- It did not end in time. -/
  | timedOut
  /-- The system refused to run it. -/
  | denied

/-- What each command does with its standard input. -/
abbrev Host := List Text → List UInt8 → Outcome

/-- A parser: a program, its arguments and a time limit in seconds. -/
structure Parser where
  program : Text
  arguments : List Text
  timeout : Json

namespace Parser

/-- The parser that a command runs; a command needs a program. -/
def ofCommand (command : List Text) (timeout : Json) : Except Fault Parser :=
  match command with
  | [] => .error .emptyCommand
  | program :: arguments => .ok ⟨program, arguments, timeout⟩

/-- A parser's program and arguments. -/
def command (parser : Parser) : List Text :=
  parser.program :: parser.arguments

/-- A parser as messages show it. -/
def literal (parser : Parser) : Text :=
  "ExternalParser(" ++ (Json.arr (parser.command.map .str)).literal ++ ")"

/-- The tree in a program's output. -/
def readAnswer (parser : Parser) (output : List UInt8) : Journaled Node := do
  match Text.ofUtf8? output with
  | none => throw .invalidUtf8
  | some answer =>
    match Json.read answer with
    | .error .invalidJson => throw (.parse .notJson parser.command)
    | .error fault => throw fault
    | .ok (.obj fields) =>
      let size := intText output.length
      Journaled.log .debug (loggerName "parser")
        (.ok ("Parser " ++ parser.program ++ " returned " ++ size ++ " bytes"))
      match Node.ofJson (.obj fields) with
      | .ok node => return node
      | .error (.malformedTree cause) => throw (.parse (.malformed cause) parser.command)
      | .error fault => throw fault
    | .ok data => throw (.parse (.notTree data) parser.command)

/-- Parse a source text. -/
def parse (host : Host) (parser : Parser) (source : Text) : Journaled Node := do
  let size := intText source.length
  Journaled.log .debug (loggerName "parser")
    (.ok ("Running parser " ++ parser.program ++ " on " ++ size ++ " characters"))
  match Text.toUtf8? source with
  | none => throw .unencodable
  | some input =>
    Journaled.noteInput input
    match host parser.command input with
    | .notFound => throw (.parse .notFound parser.command)
    | .timedOut => throw (.parse (.timedOut parser.timeout) parser.command)
    | .denied => throw .denied
    | .finished output errors =>
      let report := Text.ofUtf8Lossy errors
      if report.isEmpty then parser.readAnswer output
      else
        Journaled.log .warning (loggerName "parser")
          (.ok ("Parser " ++ parser.program ++ " reported an error"))
        throw (.parse (.reported report) parser.command)

end Parser

end HamlFormat
