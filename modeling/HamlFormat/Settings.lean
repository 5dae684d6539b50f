import HamlFormat.Layout.Render
import HamlFormat.Print.Markup

/-!
# HamlFormat.Settings

The settings of a format run. Their values are not checked when they are given;
a value of the wrong kind fails where it is used, if it is.
-/

namespace HamlFormat

/-- The settings of a format run. -/
structure Settings where
  /-- The line width that the layout keeps to where it can. -/
  printWidth : Json := .int 80
  /-- The columns of a level of indentation. -/
  tabWidth : Json := .int 2
  /-- Indent with tabs instead of spaces. -/
  useTabs : Json := .bool false
  /-- Write symbol keys as labels. -/
  preferHashLabels : Json := .bool true
  /-- Put a comma after the last element of what is broken over lines. -/
  addTrailingCommas : Json := .bool false
  /-- The name of the parser to run on source text. -/
  parser : Json := .str "haml"
  deriving DecidableEq

namespace Settings

/-! ## Reading and showing -/

/-- Set the setting with a given name, in either of its spellings. Names that are
not known change nothing. -/
def set (settings : Settings) (name : Text) (value : Json) : Settings :=
  match name.toString? with
  | some "print_width" | some "printWidth" => { settings with printWidth := value }
  | some "tab_width" | some "tabWidth" => { settings with tabWidth := value }
  | some "use_tabs" | some "useTabs" => { settings with useTabs := value }
  | some "prefer_hash_labels" | some "preferHashLabels" =>
    { settings with preferHashLabels := value }
  | some "add_trailing_commas" | some "addTrailingCommas" =>
    { settings with addTrailingCommas := value }
  | some "parser" => { settings with parser := value }
  | _ => settings

/-- Settings from an object; where two fields name the same setting the later one
counts. -/
def ofJson : Json → Except Fault Settings
  | .obj fields => .ok (fields.foldl (fun settings f => settings.set f.1 f.2) {})
  | _ => .error .noMember

/-- All settings as an object. -/
def toJson (settings : Settings) : Json :=
  .obj [
    ("print_width", settings.printWidth),
    ("tab_width", settings.tabWidth),
    ("use_tabs", settings.useTabs),
    ("prefer_hash_labels", settings.preferHashLabels),
    ("add_trailing_commas", settings.addTrailingCommas),
    ("parser", settings.parser)]

/-! ## The page -/

/-- The columns that a setting gives, as `columns?` makes them of a number. -/
def columnsOf {α : Type} (columns? : Json → Option α) (value : Json) : Except Fault α :=
  match columns? value with
  | some columns => .ok columns
  | none => .error .mismatch

/-- The page that settings describe, with columns counted by what `columns?` makes
of a number. A level of indentation made of spaces needs a whole number of them;
fewer than none is none. -/
def page {α : Type} (settings : Settings) (columns? : Json → Option α) : Layout.Page α where
  width := columnsOf columns? settings.printWidth
  level :=
    if settings.useTabs.truthy then do return ⟨.tab, ← columnsOf columns? settings.tabWidth⟩
    else do
      let spaces ← spaceCount (← columnsOf Json.int? settings.tabWidth)
      return ⟨.spaces spaces, ← columnsOf columns? settings.tabWidth⟩

/-- Whether a setting that the layout counts with is not an integer. A level of
indentation made of spaces cannot have such a width. -/
def isFractional (settings : Settings) : Bool :=
  match settings.printWidth, settings.tabWidth with
  | .float _, _ => true
  | _, .float _ => settings.useTabs.truthy
  | _, _ => false

/-- Lay a document out as the settings say. -/
def layout (settings : Settings) (doc : Doc) : Except Fault Text :=
  if settings.isFractional then Layout.render (settings.page Layout.Measure.ofJson?) doc
  else Layout.render (settings.page Json.int?) doc

/-! ## Formatting -/

/-- How the settings print a tree parsed from a source. -/
def style (settings : Settings) (source : Text) : Style where
  labels := settings.preferHashLabels.truthy
  trailingCommas := settings.addTrailingCommas.truthy
  source := source

/-- Format a syntax tree parsed from a source. -/
def format (settings : Settings) (source : Text) (node : Node) : Except Fault Text := do
  settings.layout (← node.toDoc (settings.style source))

end Settings

end HamlFormat
