import HamlFormat.Proofs.Print.Page

/-!
# HamlFormat.Proofs.Print.Comment

Comments that are not rendered, on the page. A reader of the document takes as such a
comment its line, which starts with `-#`, and the lines under it: those that are blank or
indented deeper (`Text.isUnder`). A page is cut into segments, one for each comment and one
for each line of anything else (`flatMap_lines_listSegments`), and formatting gives the
texts of the segments in order.

Main statement: all lines of a comment stand under its first one exactly if it is written
as a block, or if the lines of its text do so by themselves from the second on
(`lines_commentText`). A comment that is not written as a block is put behind its mark as it
is, with the line ends that are in it.
-/

namespace HamlFormat

open Layout

namespace Text

/-- Whether a line stands under a line with this margin: it is blank, or it starts with the
margin and further indentation. -/
def isUnder (margin line : Text) : Bool :=
  line.all isBlank || (margin.isPrefixOf line && (line.drop margin.length).head?.any isIndent)

theorem isUnder_append {c : CodePoint} (hc : isIndent c = true) (margin rest : Text) :
    isUnder margin (margin ++ c :: rest) = true := by
  simp [isUnder, hc]

/-- A text without white space at its end has no spaces and tabs there. -/
theorem stripRight_isIndent_stripRight (t : Text) :
    stripRight isIndent (stripRight isBlank t) = stripRight isBlank t := by
  refine stripRight_eq_self fun c hc => ?_
  have hblank : isBlank c = false := getLast?_stripRight t c hc
  by_contra hindent
  rw [isBlank_of_isIndent (by simpa using hindent)] at hblank
  cases hblank

end Text

/-! ## Segments of a page -/

/-- A part of a page: a comment that is not rendered, or a line of anything else. -/
inductive Segment where
  | line (own : Place × Text)
  | comment (level : Nat) (text : Text) (number : Json)

namespace Segment

/-- The lines of a segment. The source tells which comments are written as a block. -/
def lines (source : Text) : Segment → List (Place × Text)
  | .line own => [own]
  | .comment level text number =>
    (Markup.commentLines source level text number).map fun l => (⟨l.1, 0⟩, l.2)

end Segment

namespace Markup

mutual

/-- The segments of markup at a level of a page. What is nested under a comment that is not
rendered has none. -/
def segments (w t : Int) (level : Nat) : Markup → List Segment
  | .root children _ => listSegments w t level children
  | .tag own children _ =>
    (own.pageLines w t level).map .line ++ listSegments w t (level + 1) children
  | .comment c children _ =>
    .line (⟨level, 0⟩, c.lineText) :: listSegments w t (level + 1) children
  | .doctype d _ => [.line (⟨level, 0⟩, d.lineText)]
  | .hamlComment text _ number => [.comment level (text.orElse (.str "")).text number]
  | .plain text _ => [.line (⟨level, 0⟩, text.text)]
  | .script text children _ =>
    .line (⟨level, 0⟩, "=" ++ text.text) :: listSegments w t (level + 1) children
  | .silentScript s children _ =>
    .line (⟨level, 0⟩, "-" ++ s.text.text) ::
      if s.keyword.isText "case" then clauseSegments w t level 0 children
      else listSegments w t (level + 1) children

/-- The segments of nodes at one level of a page. -/
def listSegments (w t : Int) (level : Nat) : List Markup → List Segment
  | [] => []
  | m :: ms => segments w t level m ++ listSegments w t level ms

/-- The segments of the children of a `case` at a level of a page, from the one with an index
on. -/
def clauseSegments (w t : Int) (level index : Nat) : List Markup → List Segment
  | [] => []
  | m :: ms => segments w t (level + index % 2) m ++ clauseSegments w t level (index + 1) ms

end

variable (w t : Int) (source : Text)

mutual

/-- The segments of a tree have the lines of the tree. -/
theorem flatMap_lines_segments : ∀ (m : Markup) (level : Nat),
    (m.segments w t level).flatMap (Segment.lines source) = m.pageLines w t source level
  | .root children _, level => flatMap_lines_listSegments children level
  | .tag own children _, level => by
      have hown : ((own.pageLines w t level).map Segment.line).flatMap (Segment.lines source) =
          own.pageLines w t level := by
        rw [List.flatMap_map]
        exact List.flatMap_singleton' _
      rw [segments, pageLines, List.flatMap_append, hown,
        flatMap_lines_listSegments children (level + 1)]
  | .comment _ children _, level | .script _ children _, level => by
      rw [segments, pageLines, List.flatMap_cons, flatMap_lines_listSegments children (level + 1)]
      rfl
  | .doctype _ _, _ | .plain _ _, _ => rfl
  | .hamlComment _ _ _, level => by
      rw [segments, pageLines, List.flatMap_singleton]
      rfl
  | .silentScript s children _, level => by
      rw [segments, pageLines, List.flatMap_cons]
      split
      · rw [flatMap_lines_clauseSegments children level 0]
        rfl
      · rw [flatMap_lines_listSegments children (level + 1)]
        rfl

theorem flatMap_lines_listSegments : ∀ (ms : List Markup) (level : Nat),
    (listSegments w t level ms).flatMap (Segment.lines source) =
      listPageLines w t source level ms
  | [], _ => rfl
  | m :: ms, level => by
      rw [listSegments, listPageLines, List.flatMap_append, flatMap_lines_segments m level,
        flatMap_lines_listSegments ms level]

theorem flatMap_lines_clauseSegments : ∀ (ms : List Markup) (level index : Nat),
    (clauseSegments w t level index ms).flatMap (Segment.lines source) =
      clausePageLines w t source level index ms
  | [], _, _ => rfl
  | m :: ms, level, index => by
      rw [clauseSegments, clausePageLines, List.flatMap_append, flatMap_lines_segments m,
        flatMap_lines_clauseSegments ms level (index + 1)]

end

end Markup

/-! ## The text of a segment -/

/-- The indentation of a level. -/
def levelMargin (unit : Text) (level : Nat) : Text :=
  (List.replicate level unit).flatten

/-- The text of a line of a page. -/
def pageLine (unit : Text) (line : Place × Text) : Text :=
  Text.stripRight Text.isIndent
    (levelMargin unit line.1.level ++ .repeated line.1.offset ' ' ++ line.2)

/-- A page that has lines, as these lines with a line end after each. -/
theorem pageText_eq_flatMap (unit : Text) {lines : List (Place × Text)} (hne : lines ≠ []) :
    pageText unit lines = lines.flatMap fun line => pageLine unit line ++ [Text.newline] := by
  have hmap : lines.map (pageLine unit) ≠ [] := List.map_eq_nil_iff.not.mpr hne
  have hjoin := flatMap_append_newline hmap
  rw [List.flatMap_map] at hjoin
  exact hjoin.symm

/-- The text of a segment. -/
def Segment.text (unit source : Text) (segment : Segment) : Text :=
  (segment.lines source).flatMap fun line => pageLine unit line ++ [Text.newline]

/-- A page is the texts of its segments in order. -/
theorem pageText_flatMap_lines (unit source : Text) {segments : List Segment}
    (hne : segments.flatMap (Segment.lines source) ≠ []) :
    pageText unit (segments.flatMap (Segment.lines source)) =
      segments.flatMap (Segment.text unit source) := by
  rw [pageText_eq_flatMap unit hne, List.flatMap_assoc]
  rfl

namespace Markup

theorem commentLines_ne_nil (source : Text) (level : Nat) (text : Text) (number : Json) :
    commentLines source level text number ≠ [] := by
  rw [commentLines]
  split
  · exact List.cons_ne_nil _ _
  · split <;> exact List.cons_ne_nil _ _

end Markup

/-! ## The lines of a comment -/

section Comment

variable {unit : Text}

theorem levelMargin_succ (unit : Text) (level : Nat) :
    levelMargin unit (level + 1) = levelMargin unit level ++ unit := by
  rw [levelMargin, List.replicate_succ', List.flatten_append, List.flatten_singleton]
  rfl

theorem pageLine_level (unit : Text) (level : Nat) (line : Text) :
    pageLine unit (⟨level, 0⟩, line) =
      Text.stripRight Text.isIndent (levelMargin unit level ++ line) := by
  simp [pageLine, Text.repeated]

/-- A text at a level that does not end in white space is put behind the indentation. -/
theorem pageLine_of_stripRight_eq {line : Text}
    (hstrip : Text.stripRight Text.isBlank line = line) (hne : line ≠ []) (level : Nat) :
    pageLine unit (⟨level, 0⟩, line) = levelMargin unit level ++ line := by
  have hkept : Text.stripRight Text.isIndent line = line := by
    rw [← hstrip]
    exact Text.stripRight_isIndent_stripRight line
  rw [pageLine_level, Text.stripRight_append, hkept, if_neg (by simpa using hne)]

variable (hindent : ∀ c ∈ unit, Text.isIndent c = true)

include hindent

theorem isIndent_of_mem_levelMargin {level : Nat} {c : CodePoint}
    (hc : c ∈ levelMargin unit level) : Text.isIndent c = true := by
  obtain ⟨part, hpart, hmem⟩ := List.mem_flatten.mp hc
  rw [List.eq_of_mem_replicate hpart] at hmem
  exact hindent c hmem

theorem isOneLine_levelMargin (level : Nat) : (levelMargin unit level).isOneLine = true := by
  rw [Text.isOneLine, List.all_eq_true]
  intro c hc
  rw [bne_iff_ne]
  rintro rfl
  have hnewline := isIndent_of_mem_levelMargin hindent hc
  rw [Text.isIndent_newline] at hnewline
  cases hnewline

theorem lines_pageLine {line : Text} (hline : line.isOneLine = true) (level : Nat) :
    Text.lines (pageLine unit (⟨level, 0⟩, line)) = [pageLine unit (⟨level, 0⟩, line)] := by
  refine Text.lines_of_isOneLine ?_
  rw [pageLine_level]
  refine Text.isOneLine_of_subset (List.rdropWhile_prefix _ _).subset ?_
  rw [Text.isOneLine_append, isOneLine_levelMargin hindent, hline]
  rfl

/-- A line of a block stands under the mark of its comment. -/
theorem isUnder_pageLine_of_mem_blockLines (hunit : unit ≠ []) {text line : Text}
    (hline : line ∈ blockLines text) (level : Nat) :
    Text.isUnder (levelMargin unit level) (pageLine unit (⟨level + 1, 0⟩, line)) = true := by
  by_cases hne : line = []
  · -- Nothing is left of the indentation of an empty line.
    have hblank : pageLine unit (⟨level + 1, 0⟩, line) = [] := by
      rw [pageLine_level, hne, List.append_nil, Text.stripRight_eq_nil_iff]
      exact fun c hc => isIndent_of_mem_levelMargin hindent hc
    rw [hblank]
    rfl
  · obtain ⟨c, rest, rfl⟩ := List.exists_cons_of_ne_nil hunit
    obtain ⟨source, -, rfl⟩ := List.mem_map.mp hline
    have hstrip := Text.stripRight_eq_self (Text.getLast?_stripRight (p := Text.isBlank) source)
    rw [pageLine_of_stripRight_eq hstrip hne, levelMargin_succ, List.append_assoc,
      List.cons_append]
    exact Text.isUnder_append (hindent c List.mem_cons_self) _ _

theorem all_isUnder_block (hunit : unit ≠ []) (text : Text) (level : Nat) :
    ((blockLines text).flatMap fun line =>
      Text.lines (pageLine unit (⟨level + 1, 0⟩, line))).all
        (Text.isUnder (levelMargin unit level)) = true := by
  rw [List.all_eq_true]
  intro shown hshown
  obtain ⟨line, hline, hmem⟩ := List.mem_flatMap.mp hshown
  rw [lines_pageLine hindent (isOneLine_of_mem_blockLines hline), List.mem_singleton] at hmem
  rw [hmem]
  exact isUnder_pageLine_of_mem_blockLines hindent hunit hline level

theorem lines_pageLine_mark (level : Nat) :
    Text.lines (pageLine unit (⟨level, 0⟩, Text.ofString "-#")) =
      [levelMargin unit level ++ "-#"] := by
  rw [lines_pageLine hindent (by decide), pageLine_of_stripRight_eq (by decide) (by decide)]

/-- A comment behind its mark leaves its lines from the second on as they are. -/
theorem exists_lines_pageLine_inline {comment : Text} (hne : comment ≠ [])
    (hstrip : Text.stripRight Text.isBlank comment = comment) (level : Nat) : ∃ first,
    Text.lines (pageLine unit (⟨level, 0⟩, Text.ofString "-# " ++ comment)) =
      (levelMargin unit level ++ "-#" ++ first) :: (Text.lines comment).tail := by
  obtain ⟨first, others, hlines⟩ := List.exists_cons_of_ne_nil (Text.lines_ne_nil comment)
  have hline : Text.stripRight Text.isBlank (Text.ofString "-# " ++ comment) =
      Text.ofString "-# " ++ comment := by
    rw [Text.stripRight_append, hstrip, if_neg (by simpa using hne)]
  have hfront : (levelMargin unit level ++ Text.ofString "-# ").isOneLine = true := by
    rw [Text.isOneLine_append, isOneLine_levelMargin hindent]
    decide
  refine ⟨Text.ofString " " ++ first, ?_⟩
  rw [pageLine_of_stripRight_eq hline (by simp [hne]), ← List.append_assoc,
    Text.lines_append_left hfront hlines, hlines]
  simp [Text.ofString]

omit hindent in
/-- The lines of a comment's text are those of the lines it is written in. -/
theorem lines_text_comment (source : Text) (level : Nat) (text : Text) (number : Json) :
    Text.lines (Segment.text unit source (.comment level text number)) =
      (Markup.commentLines source level text number).flatMap
        (fun l => Text.lines (pageLine unit (⟨l.1, 0⟩, l.2))) ++ [[]] := by
  have htext : Segment.text unit source (.comment level text number) =
      ((Markup.commentLines source level text number).map
        fun l => pageLine unit (⟨l.1, 0⟩, l.2)).flatMap fun line => line ++ [Text.newline] := by
    rw [Segment.text, Segment.lines, List.flatMap_map, List.flatMap_map]
  rw [htext, Text.lines_flatMap_append_newline, List.flatMap_map]

/-- **When the lines of a comment stand under its mark**: if it is written as a block, or if
the lines of its text do from the second on. -/
theorem lines_commentText (hunit : unit ≠ []) (source : Text) (level : Nat) (text : Text)
    (number : Json) : ∃ first others,
    Text.lines (Segment.text unit source (.comment level text number)) =
      (levelMargin unit level ++ "-#" ++ first) :: others ∧
    (others.all (Text.isUnder (levelMargin unit level)) = true ↔
      isBlockComment source number = true ∨
        (Text.lines (Text.strip Text.isBlank text)).tail.all
          (Text.isUnder (levelMargin unit level)) = true) := by
  have hblank : Text.isUnder (levelMargin unit level) [] = true := rfl
  rw [lines_text_comment, Markup.commentLines]
  by_cases hempty : (Text.strip Text.isBlank text).isEmpty = true
  · have hnone : Text.strip Text.isBlank text = [] := List.isEmpty_iff.mp hempty
    refine ⟨[], [[]], ?_, ?_⟩
    · simp [hempty, lines_pageLine_mark hindent]
    · simp [hnone, hblank, Text.lines, Text.splitWhere]
  · by_cases hblock : isBlockComment source number = true
    · refine ⟨[], (blockLines text).flatMap
        (fun line => Text.lines (pageLine unit (⟨level + 1, 0⟩, line))) ++ [[]], ?_, ?_⟩
      · simp [hempty, hblock, lines_pageLine_mark hindent, List.flatMap_map]
      · rw [List.all_append, all_isUnder_block hindent hunit]
        simp [hblock, hblank]
    · have hne : Text.strip Text.isBlank text ≠ [] := fun hnone => hempty (by rw [hnone]; rfl)
      obtain ⟨first, hfirst⟩ := exists_lines_pageLine_inline hindent hne
        (Text.stripRight_eq_self (Text.getLast?_stripRight _)) level
      refine ⟨first, (Text.lines (Text.strip Text.isBlank text)).tail ++ [[]], ?_, ?_⟩
      · simp [hempty, hblock, hfirst]
      · rw [List.all_append]
        simp [hblock, hblank]

end Comment

/-! ## Formatting -/

namespace Settings

variable {settings : Settings} {w t : Int}

/-- A level of at least one column is made of something. -/
theorem marks_text_ne_nil (hpos : 1 ≤ t) : (settings.marks t).text ≠ [] := by
  rw [marks]
  split
  · exact List.cons_ne_nil _ _
  · have hcount : t.toNat ≠ 0 := by omega
    simpa [Marks.text, Text.repeated] using hcount

/-- **What is read as a comment of a formatted tree.** Each comment that is not rendered has
its own text in the output, between those of the segments before and after it, and the first
line of it is its mark. The other lines stand under the mark exactly if it is written as a
block or the lines of its text do from the second on; so a comment of one line and a block
always stay comments. -/
theorem format_comment_isUnder_iff (hw : settings.printWidth.int? = some w)
    (ht : settings.tabWidth.int? = some t) (hpos : 1 ≤ t) (source : Text)
    {children : List Markup} (htyped : Markup.listAll Markup.isWellTyped children = true)
    (htext : Markup.listAll Markup.hasText children = true)
    (hnested : Markup.listAll Markup.isNested children = true) (line : Json) :
    ((settings.indents t = true ∨ Markup.listIsFlush source children = true) ∧
        Markup.listIsAligned children = true →
      ∀ before level text number after,
        Markup.listSegments w t 0 children = before ++ .comment level text number :: after →
        settings.format source (.markup (.root children line)) = .ok
          (before.flatMap (Segment.text (settings.marks t).text source) ++
            Segment.text (settings.marks t).text source (.comment level text number) ++
            after.flatMap (Segment.text (settings.marks t).text source)) ∧
        ∃ first others,
          Text.lines (Segment.text (settings.marks t).text source (.comment level text number)) =
            (levelMargin (settings.marks t).text level ++ "-#" ++ first) :: others ∧
          (others.all (Text.isUnder (levelMargin (settings.marks t).text level)) = true ↔
            isBlockComment source number = true ∨
              (Text.lines (Text.strip Text.isBlank text)).tail.all
                (Text.isUnder (levelMargin (settings.marks t).text level)) = true)) ∧
    (¬((settings.indents t = true ∨ Markup.listIsFlush source children = true) ∧
        Markup.listIsAligned children = true) →
      ∃ fault, settings.format source (.markup (.root children line)) = .error fault) := by
  refine ⟨fun hmade before level text number after hsegments => ⟨?_, ?_⟩,
    format_root_error hw ht source htyped htext hnested line⟩
  · have hlines : Markup.listPageLines w t source 0 children =
        (before ++ .comment level text number :: after).flatMap (Segment.lines source) := by
      rw [← hsegments, Markup.flatMap_lines_listSegments]
    have hne : (before ++ Segment.comment level text number :: after).flatMap
        (Segment.lines source) ≠ [] := by
      simp [Segment.lines, Markup.commentLines_ne_nil]
    rw [format_root_eq_pageText hw ht source htyped htext hnested line hmade, hlines,
      pageText_flatMap_lines _ _ hne, List.flatMap_append, List.flatMap_cons, List.append_assoc]
  · exact lines_commentText (fun _ => Marks.isIndent_of_mem) (marks_text_ne_nil hpos) source level
      text number

/-- The second line of a comment under a tag is read as one of the document. -/
theorem format_comment_of_two_lines :
    let settings : Settings := {}
    let tag : Tag := ⟨.str "p", [], false, false, false, .null, false, ⟨.null, .null⟩, .null⟩
    let children : List Markup := [.tag tag [.hamlComment (.str "a\nb") [] .null] .null]
    settings.format "" (.markup (.root children .null)) = .ok "%p\n  -# a\nb\n" ∧
      ∃ (first : Text) (others : List Text),
        Text.lines (Segment.text "  " "" (.comment 1 "a\nb" .null)) =
          (Text.ofString "  -#" ++ first) :: others ∧
        others.all (Text.isUnder "  ") = false := by
  intro settings tag children
  have hcomment := (@format_comment_isUnder_iff settings 80 2 rfl rfl (by decide) "" children
    (by decide +kernel) (by decide +kernel) (by decide +kernel) .null).1
    ⟨.inl (by decide), by decide +kernel⟩ [.line (⟨0, 0⟩, "%p")] 1 "a\nb" .null [] rfl
  obtain ⟨hformat, first, others, hlines, hunder⟩ := hcomment
  refine ⟨hformat.trans (congrArg Except.ok (by decide +kernel)), first, others, hlines, ?_⟩
  refine Bool.eq_false_iff.mpr fun hall => absurd (hunder.mp hall) ?_
  decide +kernel

end Settings

end HamlFormat
