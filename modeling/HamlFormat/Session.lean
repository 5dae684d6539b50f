import HamlFormat.Json.Access
import HamlFormat.Parser.External
import HamlFormat.Settings

/-!
# HamlFormat.Session

A format session. It has active settings, which apply where none are given;
blocks that replace them for a while and restore them when they are left; and a
formatter with settings and a parser of its own.
-/

namespace HamlFormat

/-- Parsers by name. -/
abbrev ParserTable := List (Text × Parser)

/-- What a session works with: what programs do, and the parsers to choose from
where no others are given. -/
structure Tools where
  host : Host
  parsers : ParserTable

/-- Settings and, if it does not go by them, a parser. -/
structure Formatter where
  settings : Settings := {}
  parser : Option Parser := none

/-- The state of a session. `blocks` holds the settings to restore when each open
block is left, those of the innermost block first. -/
structure Session where
  active : Settings := {}
  blocks : List Settings := []
  formatter : Formatter := {}
  journal : Journal

/-- Something done in a session. What it did to the session stays also when it
fails. -/
abbrev Action (α : Type) := ExceptT Fault (StateM Session) α

namespace Action

/-- A run that keeps a journal, done with the session's journal. -/
def ofJournaled {α : Type} (run : Journaled α) : Action α :=
  ExceptT.mk fun session =>
    let (result, journal) := run.run session.journal
    (result, { session with journal := journal })

/-- Log a message for debugging. -/
def log (logger : Text) (message : Except Fault Text) : Action Unit :=
  ofJournaled (Journaled.log .debug logger message)

/-- Make settings the active ones. -/
def activate (settings : Settings) : Action Unit :=
  modify fun session => { session with active := settings }

/-- The settings given, or else the active ones. -/
def effective (given : Option Settings) : Action Settings := do
  match given with
  | some settings => return settings
  | none => return (← get).active

/-- Do something with other settings active. Afterwards, also when it failed, the
default settings are. -/
def withReset {α : Type} (settings : Settings) (action : Action α) : Action α :=
  ExceptT.mk fun session =>
    let (result, after) := action.run { session with active := settings }
    (result, { after with active := {} })

end Action

/-! ## Formatting and parsing -/

/-- A width as records show it: the whole part of a number. -/
def widthText : Json → Except Fault Text
  | .float .nan => .error .undefinedInteger
  | .float x =>
    match x.truncate? with
    | some n => .ok (intText n)
    | none => .error .overflow
  | value =>
    match value.int? with
    | some n => .ok (intText n)
    | none => .error .mismatch

/-- Format a syntax tree parsed from a source. -/
def formatTree (given : Option Settings) (source : Text) (node : Node) : Action Text := do
  let settings ← Action.effective given
  Action.log rootLogger do
    let width ← widthText settings.printWidth
    return "Formatting " ++ node.className ++ " tree at width " ++ width
  Action.log (loggerName "printers") (.ok ("Printing " ++ node.className ++ " tree"))
  settings.format source node

/-- The parser that settings name. -/
def ParserTable.choose (table : ParserTable) (name : Json) : Except Fault Parser := do
  match (← name.key?).bind fun name => table.lookup name with
  | some parser => return parser
  | none => throw (.unknownParser name)

/-- Parse a source with the parser that the settings name. -/
def parseSource (tools : Tools) (given : Option Settings) (parsers : Option ParserTable)
    (source : Text) : Action Node := do
  let settings ← Action.effective given
  let parser ← (parsers.getD tools.parsers).choose settings.parser
  Action.ofJournaled (parser.parse tools.host source)

/-- Parse and format a source, with a certain parser or the one that the settings
name. -/
def formatSource (tools : Tools) (given : Option Settings) (parser : Option Parser)
    (source : Text) : Action Text := do
  let settings ← Action.effective given
  Action.log rootLogger (.ok ("Formatting " ++ intText source.length ++ " characters of source"))
  let node ← match parser with
    | some parser => Action.ofJournaled (parser.parse tools.host source)
    | none => parseSource tools (some settings) none source
  formatTree (some settings) source node

namespace Formatter

/-- Format one source after another. The default settings are active afterwards. -/
def formatAll (tools : Tools) (formatter : Formatter) (sources : List Text) :
    Action (List Text) :=
  Action.withReset formatter.settings
    (sources.mapM (formatSource tools (some formatter.settings) formatter.parser))

/-- Format a source. The default settings are active afterwards. -/
def format (tools : Tools) (formatter : Formatter) (source : Text) : Action Text :=
  Action.withReset formatter.settings
    (formatSource tools (some formatter.settings) formatter.parser source)

end Formatter

/-! ## Requests -/

/-- Something asked of a session. Settings that are not given are the active
ones. -/
inductive Request where
  /-- Nothing. -/
  | pass
  /-- Make settings the active ones. -/
  | activate (settings : Settings)
  /-- Make the default settings the active ones. -/
  | reset
  /-- Open a block with settings of its own. -/
  | enter (settings : Settings)
  /-- Leave the innermost block, possibly by failing in it. -/
  | leave (failure : Option Text)
  | layout (doc : Doc) (settings : Option Settings)
  | formatTree (node : Node) (source : Text) (settings : Option Settings)
  | parse (source : Text) (settings : Option Settings) (parsers : Option ParserTable)
  | formatSource (source : Text) (settings : Option Settings) (parser : Option Parser)
  /-- Replace the session's formatter. -/
  | configure (formatter : Formatter)
  /-- Format with the session's formatter. -/
  | format (source : Text)
  /-- Format several sources with the session's formatter. -/
  | formatAll (sources : List Text)
  /-- Format a tree with the settings of the session's formatter. -/
  | formatterTree (node : Node) (source : Text)

/-- What a session answers. -/
inductive Response where
  | done
  | text (text : Text)
  | texts (texts : List Text)
  | node (node : Node)
  | settings (settings : Settings)

namespace Session

/-- Leave the innermost block and restore the settings from before it. -/
def leaveBlock : Action Unit := do
  match (← get).blocks with
  | [] => throw .outOfRange
  | previous :: outer =>
    modify fun session => { session with active := previous, blocks := outer }

/-- Do what is asked. -/
def perform (tools : Tools) : Request → Action Response
  | .pass => return .done
  | .activate settings => do
    Action.activate settings
    return .done
  | .reset => do
    Action.activate {}
    return .done
  | .enter settings => do
    modify fun session =>
      { session with active := settings, blocks := session.active :: session.blocks }
    return .done
  | .leave failure => do
    leaveBlock
    match failure with
    | none => return .done
    | some message => throw (.callback message)
  | .layout doc given => do
    let settings ← Action.effective given
    return .text (← settings.layout doc)
  | .formatTree node source given => do
    return .text (← HamlFormat.formatTree given source node)
  | .parse source given parsers => do
    return .node (← parseSource tools given parsers source)
  | .formatSource source given parser => do
    return .text (← HamlFormat.formatSource tools given parser source)
  | .configure formatter => do
    modify fun session => { session with formatter := formatter }
    return .settings formatter.settings
  | .format source => do
    return .text (← (← get).formatter.format tools source)
  | .formatAll sources => do
    return .texts (← (← get).formatter.formatAll tools sources)
  | .formatterTree node source => do
    return .text (← HamlFormat.formatTree (some (← get).formatter.settings) source node)

/-- Do one thing asked of a session: the answer or the failure, and the session
afterwards. -/
def answer (tools : Tools) (session : Session) (request : Request) :
    Except Fault Response × Session :=
  (perform tools request).run session

end Session

end HamlFormat
