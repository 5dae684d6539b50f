import HamlFormat.Proofs.Doc.Shape
import HamlFormat.Proofs.Layout.Fits
import HamlFormat.Proofs.Text.Width

/-!
# HamlFormat.Proofs.Layout.Ahead

What it means that commands fit. Read one after another, each in its own mode, commands
are a sequence of signs: texts, the starts of groups that must break, and line breaks that
print. Reading them measures nothing and stops nowhere; the line ahead is what stands
before the first line break that prints (`lineAhead`).

The layout finds its answer another way. It takes columns off the room text by text, turns
to the next command only when one is read to its end, and gives up where the room is used
up or a group breaks that must not. The answer is the same: commands fit if the line ahead
is no wider than the room and, where it must be flat, no group on it must break
(`fits_eq_lineAhead`).

The flag of a group says that it must break, be it told to or be it found in a set of
groups that must. What holds of all documents therefore holds for every such set.
-/

namespace HamlFormat

namespace Layout

/-! ## Signs -/

/-- What is met in reading ahead. -/
inductive Sign where
  /-- A text, or the space of a line break that does not print. -/
  | text (s : Text)
  /-- The start of a group that must break. -/
  | forced
  /-- A line break that prints. -/
  | newline
  deriving DecidableEq

/-- The text that a sign puts on the line. -/
def Sign.shown : Sign → Text
  | .text s => s
  | .forced | .newline => []

end Layout

open Layout

namespace Doc

mutual

/-- The signs of a document that is read in a mode. -/
def signs (mode : Mode) : Doc → List Sign
  | .text s => [.text s]
  | .concat parts | .fill parts => listSigns mode parts
  | .indent contents | .align _ contents | .root contents => signs mode contents
  | .group contents shouldBreak =>
    if shouldBreak then .forced :: signs .broken contents else signs mode contents
  | .ifBreak whenBroken whenFlat =>
    match mode with
    | .broken => signs mode whenBroken
    | .flat => signs mode whenFlat
  | .line hard soft =>
    if mode = .broken ∨ hard = true then [.newline]
    else if soft then []
    else [.text " "]
  | .breakParent | .alien _ => []

/-- The signs of documents that are read one after another. -/
def listSigns (mode : Mode) : List Doc → List Sign
  | [] => []
  | part :: parts => signs mode part ++ listSigns mode parts

end

end Doc

namespace Layout

/-- The signs before the first line break that prints. -/
def upToNewline (signs : List Sign) : List Sign :=
  signs.takeWhile (· ≠ .newline)

/-- The line ahead: what commands come to before the first line break that prints. -/
def lineAhead (commands : List Command) : List Sign :=
  upToNewline (commands.flatMap fun command => command.doc.signs command.mode)

/-- The text of a line. -/
def shownText (line : List Sign) : Text :=
  line.flatMap Sign.shown

/-- Whether a line is no wider than the room and, where it must be flat, no group on it
must break. -/
def lineFits (strict : Bool) (line : List Sign) (room : Int) : Bool :=
  decide ((Text.width (shownText line) : Int) ≤ room ∧ (strict = true → .forced ∉ line))

/-! ## One sign -/

section

variable {strict : Bool} {signs : List Sign} {room : Int}

theorem lineFits_nil : lineFits strict (upToNewline []) room = decide (0 ≤ room) := by
  simp [lineFits, upToNewline, shownText]

/-- A text takes its columns off the room. -/
theorem lineFits_text (s : Text) :
    lineFits strict (upToNewline (.text s :: signs)) room =
      lineFits strict (upToNewline signs) (room - Text.width s) := by
  have hline : upToNewline (.text s :: signs) = .text s :: upToNewline signs := by
    simp [upToNewline]
  have hroom : ((Text.width s + Text.width (shownText (upToNewline signs)) : Nat) : Int) ≤ room ↔
      (Text.width (shownText (upToNewline signs)) : Int) ≤ room - Text.width s := by omega
  rw [hline, lineFits, lineFits, shownText, List.flatMap_cons, Sign.shown, Text.width_append,
    ← shownText]
  exact decide_eq_decide.mpr (and_congr hroom (by simp))

/-- At a line break that prints, there is nothing more to measure. -/
theorem lineFits_newline :
    lineFits strict (upToNewline (.newline :: signs)) room = decide (0 ≤ room) := by
  simp [lineFits, upToNewline, shownText]

/-- A group that must break does not fit where the line must be flat. -/
theorem lineFits_forced_of_strict :
    lineFits true (upToNewline (.forced :: signs)) room = false := by
  simp [lineFits, upToNewline]

theorem lineFits_forced :
    lineFits false (upToNewline (.forced :: signs)) room =
      lineFits false (upToNewline signs) room := by
  simp [lineFits, upToNewline, shownText, Sign.shown]

end

/-! ## Commands -/

section

variable {strict : Bool} {i : Indentation} {rest : List Command} {signs : List Sign}

theorem fits_forced_of_strict {mode : Mode} (contents : Doc) (room : Int) :
    fits true (⟨i, mode, .group contents true⟩ :: rest) room = .ok false := by
  rw [fits]
  split <;> rfl

/-- **A command in front is read as its signs**, if what follows it is read as signs. -/
theorem fits_cons_eq {doc : Doc} (hdoc : doc.all Doc.isProper = true) {mode : Mode}
    (hrest : ∀ room, fits strict rest room = .ok (lineFits strict (upToNewline signs) room))
    (room : Int) :
    fits strict (⟨i, mode, doc⟩ :: rest) room =
      .ok (lineFits strict (upToNewline (doc.signs mode ++ signs)) room) := by
  induction doc generalizing mode rest signs room with
  | text s => rw [fits_text, hrest, Doc.signs, List.singleton_append, lineFits_text]
  | concat parts ih | fill parts ih =>
      simp only [Doc.all, Bool.and_eq_true, Doc.listAll_eq_true] at hdoc
      first | rw [fits_concat] | rw [fits_fill]
      rw [Doc.signs]
      -- the parts that follow a part are in front of the rest
      have hparts := hdoc.2
      clear hdoc
      induction parts generalizing room with
      | nil => exact hrest room
      | cons part parts ihParts =>
          rw [List.forall_mem_cons] at hparts ih
          rw [Doc.listSigns, List.append_assoc]
          exact ih.1 hparts.1 (fun room => ihParts ih.2 room hparts.2) room
  | indent contents ih | align _ contents ih | root contents ih =>
      simp only [Doc.all, Bool.and_eq_true] at hdoc
      exact ih hdoc.2 hrest room
  | group contents shouldBreak ih =>
      simp only [Doc.all, Bool.and_eq_true] at hdoc
      cases shouldBreak with
      | false =>
          rw [fits_group (j := i), Doc.signs, if_neg Bool.false_ne_true]
          exact ih hdoc.2 hrest room
      | true =>
          rw [Doc.signs, if_pos rfl, List.cons_append]
          cases strict with
          | true => rw [fits_forced_of_strict, lineFits_forced_of_strict]
          | false =>
              rw [fits_forced (j := i), lineFits_forced]
              exact ih hdoc.2 hrest room
  | ifBreak whenBroken whenFlat ihBroken ihFlat =>
      simp only [Doc.all, Bool.and_eq_true] at hdoc
      cases mode with
      | broken => exact ihBroken hdoc.2.1 hrest room
      | flat => exact ihFlat hdoc.2.2 hrest room
  | line hard soft =>
      rw [Doc.signs]
      by_cases hprints : mode = .broken ∨ hard = true
      · rw [fits_newline hprints, if_pos hprints, List.singleton_append, lineFits_newline]
      · obtain ⟨rfl, rfl⟩ : mode = .flat ∧ hard = false := by
          cases mode <;> simp_all
        rw [if_neg hprints]
        cases soft with
        | true => exact hrest room
        | false =>
            rw [fits_spaced, hrest, if_neg Bool.false_ne_true, List.singleton_append,
              lineFits_text]
            rfl
  | breakParent => exact hrest room
  | alien value => cases hdoc

/-- **Commands fit exactly if the line ahead does.** -/
theorem fits_eq_lineAhead (strict : Bool) {commands : List Command}
    (hcommands : ∀ command ∈ commands, command.doc.all Doc.isProper = true) (room : Int) :
    fits strict commands room =
      .ok (decide ((Text.width (shownText (lineAhead commands)) : Int) ≤ room ∧
        (strict = true → .forced ∉ lineAhead commands))) := by
  change _ = Except.ok (lineFits strict (lineAhead commands) room)
  induction commands generalizing room with
  | nil => rw [fits_nil, lineAhead, List.flatMap_nil, lineFits_nil]
  | cons command commands ih =>
      rw [List.forall_mem_cons] at hcommands
      exact fits_cons_eq hcommands.1 (ih hcommands.2) room

/-- A flat command and the broken one behind it: the line goes on into the second up to its
line break, over a wide character. A group that must break is passed over, unless the line
must be flat. -/
theorem fits_eq_lineAhead_of_two :
    let first (told : Bool) : Doc := .concat [.text "a", .blankBreak,
      .group (.ifBreak (.text "日") (.text "bcd")) told, .fill [.text "e", .softBreak]]
    let second : Doc := .indent (.concat [.text "f", .breakParent, .softBreak, .text "ghi"])
    let commands (told : Bool) : List Command := [⟨[], .flat, first told⟩, ⟨[], .broken, second⟩]
    (∀ command ∈ commands true, command.doc.all Doc.isProper = true) ∧
      (∀ command ∈ commands false, command.doc.all Doc.isProper = true) ∧
      shownText (lineAhead (commands true)) = "a 日ef" ∧
      fits false (commands true) (6 : Int) = .ok true ∧
      fits false (commands true) (5 : Int) = .ok false ∧
      fits true (commands true) (6 : Int) = .ok false ∧
      fits true (commands false) (7 : Int) = .ok true := by
  intro first second commands
  have hforced : ∀ command ∈ commands true, command.doc.all Doc.isProper = true := by decide
  have hfree : ∀ command ∈ commands false, command.doc.all Doc.isProper = true := by decide
  refine ⟨hforced, hfree, by decide, ?_⟩
  simp only [fits_eq_lineAhead _ hforced, fits_eq_lineAhead _ hfree]
  decide +kernel

end

end Layout

end HamlFormat
