import HamlFormat.Proofs.Print.Block
import HamlFormat.Proofs.Print.Nesting

/-!
# HamlFormat.Proofs.Print.Format

Indentation carries the tree. The document of each kind of line is that line, so the
document of a regular tree has the lines of the outline (`Markup.printed_toDoc`), and
formatting gives the outline as text, whatever the width of the page
(`Settings.format_eq_outlineText`).
-/

namespace HamlFormat

open Layout

/-! ## Headers -/

theorem Doc.ofJson_of_isOptionalText {value : Json} (h : value.isOptionalText = true)
    (htruthy : value.truthy = true) : Doc.ofJson value = .text value.text := by
  cases value with
  | str s => rfl
  | null => cases htruthy
  | _ => cases h

namespace Tag

variable {tag : Tag}

/-- The name, the classes, the id and the markers, each as far as it is written. -/
def leadingTexts (tag : Tag) : List Text :=
  tag.heads ++ (if tag.trimOutside then [Text.ofString ">"] else []) ++
    (if tag.trimInside then [Text.ofString "<"] else []) ++
    (if tag.selfClosing then [Text.ofString "/"] else [])

theorem leading_eq (h : tag.hashAttributes.isEmpty = true) :
    tag.leading = tag.leadingTexts.map .text := by
  simp only [leading, leadingTexts, h, if_true, List.append_nil, List.map_append]
  congr 1
  · congr 1
    · congr 1
      split <;> rfl
    · split <;> rfl
  · split <;> rfl

theorem flatten_leadingTexts (tag : Tag) :
    tag.leadingTexts.flatten = tag.heads.flatten ++ tag.markers := by
  simp only [leadingTexts, markers, List.flatten_append, List.append_assoc]
  congr 1
  congr 1
  · split <;> rfl
  · congr 1
    · split <;> rfl
    · split <;> rfl

/-- What is written at the start of a tag's line is not empty. -/
theorem ne_nil_of_mem_leadingTexts : ∀ s ∈ tag.leadingTexts, s ≠ [] := by
  have hunless : ∀ (hidden : Bool) {head : Text}, head ≠ [] →
      ∀ s ∈ (if hidden then [] else [head]), s ≠ [] := by
    intro hidden head hhead
    split
    · exact fun _ h => nomatch h
    · exact List.forall_mem_singleton.mpr hhead
  have hheads : ∀ s ∈ tag.heads, s ≠ [] := by
    simp only [heads, List.forall_mem_append]
    refine ⟨⟨hunless _ (List.cons_ne_nil _ _), ?_⟩, ?_⟩
    · split
      · exact fun _ h => nomatch h
      · exact hunless _ (List.cons_ne_nil _ _)
    · split
      · exact fun _ h => nomatch h
      · exact hunless _ (List.cons_ne_nil _ _)
  have hmarker : ∀ (shown : Bool) (marker : Text), marker ≠ [] →
      ∀ s ∈ (if shown then [marker] else []), s ≠ [] := by
    intro shown marker hmarker
    split
    · exact List.forall_mem_singleton.mpr hmarker
    · exact fun _ h => nomatch h
  simp only [leadingTexts, List.forall_mem_append]
  exact ⟨⟨⟨hheads, hmarker _ _ (by decide)⟩, hmarker _ _ (by decide)⟩, hmarker _ _ (by decide)⟩

/-- Nothing is written at the start of a tag's line only if its name is not. -/
theorem isText_div_of_leadingTexts (h : tag.leadingTexts = []) : tag.name.isText "div" = true := by
  simp only [leadingTexts, heads, List.append_eq_nil_iff] at h
  by_contra hname
  rw [if_neg hname] at h
  exact List.cons_ne_nil _ _ h.1.1.1.1.1

/-- The document of a tag's line without a hash is a group of texts, which make up the
line. -/
theorem exists_header_eq_texts (hhash : tag.hashAttributes.isEmpty = true)
    (hold : tag.dynamic.old.isOptionalText = true)
    (hreference : tag.objectRef.isOptionalText = true) :
    ∃ texts : List Text, tag.header = .group (.concat (texts.map .text)) false ∧
      texts.flatten = tag.lineText := by
  have hleading := leading_eq hhash
  have htext := flatten_leadingTexts tag
  have hempty : tag.leadingTexts.flatten.isEmpty = tag.leadingTexts.isEmpty := by
    cases htexts : tag.leadingTexts with
    | nil => rfl
    | cons first rest =>
        have hfirst : first ≠ [] :=
          ne_nil_of_mem_leadingTexts first (htexts ▸ List.mem_cons_self)
        cases first with
        | nil => exact absurd rfl hfirst
        | cons c cs => rfl
  simp only [header, trailing, lineText, hleading, hempty, ← htext]
  by_cases hvalue : tag.value.truthy = true
  · refine ⟨tag.leadingTexts ++
      [(if tag.parse then "=" else "") ++ " " ++ tag.value.text], ?_, ?_⟩
    · simp [hvalue]
    · simp [hvalue]
  · by_cases holdTruthy : tag.dynamic.old.truthy = true
    · refine ⟨tag.leadingTexts ++ [tag.dynamic.old.text], ?_, ?_⟩
      · simp [hvalue, holdTruthy, Doc.ofJson_of_isOptionalText hold holdTruthy]
      · simp [hvalue, holdTruthy]
    · by_cases hrefTruthy : tag.objectRef.truthy = true
      · refine ⟨(if tag.leadingTexts.isEmpty then [Text.ofString "%div"] else tag.leadingTexts) ++
          [tag.objectRef.text], ?_, ?_⟩
        · cases htexts : tag.leadingTexts <;>
            simp [hvalue, holdTruthy, hrefTruthy,
              Doc.ofJson_of_isOptionalText hreference hrefTruthy]
        · cases htexts : tag.leadingTexts <;> simp [hvalue, holdTruthy, hrefTruthy]
      · refine ⟨if tag.leadingTexts.isEmpty then [Text.ofString "%div"] else tag.leadingTexts,
          ?_, ?_⟩
        · cases htexts : tag.leadingTexts with
          | nil => simp [hvalue, holdTruthy, hrefTruthy, isText_div_of_leadingTexts htexts]
          | cons first rest => simp [hvalue, holdTruthy, hrefTruthy]
        · cases htexts : tag.leadingTexts <;> simp [hvalue, holdTruthy, hrefTruthy]

/-- **The document of a tag's line is that line.** -/
theorem renders_header (level : Nat) (hhash : tag.hashAttributes.isEmpty = true)
    (hold : tag.dynamic.old.isOptionalText = true)
    (hreference : tag.objectRef.isOptionalText = true) :
    tag.header.Renders level [(level, tag.lineText)] := by
  obtain ⟨texts, hheader, hline⟩ := exists_header_eq_texts hhash hold hreference
  rw [hheader, ← hline]
  exact (Doc.Renders.texts level texts).group false

end Tag

/-- The parts of a comment's line are that line. -/
theorem Comment.renders_parts {comment : Comment} (level : Nat)
    (hconditional : comment.conditional.isOptionalText = true)
    (htext : comment.text.isOptionalText = true) :
    (Doc.concat comment.parts).Renders level [(level, comment.lineText)] := by
  have hrevealed : ∃ texts : List Text,
      (if comment.revealed then [Doc.text "!"] else []) = texts.map .text ∧
        texts.flatten = if comment.revealed then "!" else "" := by
    split
    · exact ⟨["!"], rfl, rfl⟩
    · exact ⟨[], rfl, rfl⟩
  have hshown : ∃ texts : List Text,
      (if comment.conditional.truthy then [Doc.ofJson comment.conditional]
        else if comment.text.truthy then [.text " ", .ofJson comment.text] else []) =
          texts.map .text ∧
      texts.flatten = if comment.conditional.truthy then comment.conditional.text
        else if comment.text.truthy then " " ++ comment.text.text else [] := by
    by_cases hcondTruthy : comment.conditional.truthy = true
    · refine ⟨[comment.conditional.text], ?_, ?_⟩
      · rw [if_pos hcondTruthy, Doc.ofJson_of_isOptionalText hconditional hcondTruthy]
        rfl
      · rw [if_pos hcondTruthy, List.flatten_singleton]
    · rw [if_neg hcondTruthy, if_neg hcondTruthy]
      by_cases htextTruthy : comment.text.truthy = true
      · refine ⟨[" ", comment.text.text], ?_, ?_⟩
        · rw [if_pos htextTruthy, Doc.ofJson_of_isOptionalText htext htextTruthy]
          rfl
        · rw [if_pos htextTruthy, List.flatten_cons, List.flatten_singleton]
      · rw [if_neg htextTruthy, if_neg htextTruthy]
        exact ⟨[], rfl, rfl⟩
  obtain ⟨revealed, hrevealed, hrevealedText⟩ := hrevealed
  obtain ⟨shown, hshown, hshownText⟩ := hshown
  have hline : (Text.ofString "/" :: (revealed ++ shown)).flatten = comment.lineText := by
    rw [lineText, List.flatten_cons, List.flatten_append, hrevealedText, hshownText,
      List.append_assoc]
  rw [parts, hrevealed, hshown, ← List.map_append, ← hline]
  exact Doc.Renders.texts level (Text.ofString "/" :: (revealed ++ shown))

theorem Doctype.spelling?_eq {value : Json} (h : value.isOptionalText = true) :
    Doctype.spelling? value = .ok (Doctype.spelled value) := by
  cases value with
  | null => rfl
  | str s => rfl
  | _ => cases h

theorem Doc.separate_text (separator : Text) (texts : List Text) :
    Doc.separate (.text separator) (texts.map .text) =
      (texts.intersperse separator).map .text := by
  induction texts with
  | nil => rfl
  | cons first texts ih =>
      cases texts with
      | nil => rfl
      | cons second texts =>
          rw [List.map_cons, List.map_cons, Doc.separate, ← List.map_cons, ih]
          · rfl
          · exact List.cons_ne_nil _ _

/-- The document of a doctype is its line. -/
theorem Doctype.renders_toDoc {doctype : Doctype} (hkind : doctype.kind.isOptionalText = true)
    (hversion : doctype.version.isOptionalText = true)
    (hencoding : doctype.encoding.isOptionalText = true) :
    ∃ doc, doctype.toDoc = .ok doc ∧ ∀ level, doc.Renders level [(level, doctype.lineText)] := by
  obtain ⟨encoding, hencoded, hencodedText⟩ : ∃ texts : List Text,
      (if doctype.encoding.truthy then [Doc.ofJson doctype.encoding] else []) = texts.map .text ∧
        texts = if doctype.encoding.truthy then [doctype.encoding.text] else [] := by
    split
    · next htruthy =>
        exact ⟨_, by rw [Doc.ofJson_of_isOptionalText hencoding htruthy]; rfl, rfl⟩
    · exact ⟨[], rfl, rfl⟩
  have htoDoc : doctype.toDoc = .ok (Doc.join (.text " ") ((Text.ofString "!!!" ::
      ((Doctype.spelled doctype.kind <|> Doctype.spelled doctype.version).toList ++
        encoding)).map .text)) := by
    rw [toDoc, Doctype.spelling?_eq hkind, Fault.ok_bind, hencoded]
    cases Doctype.spelled doctype.kind with
    | some spelling => simp; rfl
    | none =>
        rw [Doctype.spelling?_eq hversion]
        simp
  refine ⟨_, htoDoc, fun level => ?_⟩
  rw [Doc.join, Doc.separate_text, lineText, ← hencodedText]
  exact Doc.Renders.texts level _

/-! ## Comments that are not rendered -/

theorem exists_sourceLine (source : Text) {line : Json}
    (hline : (line.isNull || line.int?.isSome) = true) :
    ∃ found, sourceLine source line = .ok found := by
  have hnumber : ∀ n : Int, ∃ found, (if n < 1 then .ok none
      else .ok (Text.lines source)[(n - 1).toNat]? : Except Fault (Option Text)) = .ok found :=
    fun n => ⟨_, (apply_ite Except.ok _ _ _).symm⟩
  cases line with
  | null => exact ⟨none, rfl⟩
  | int n => exact hnumber n
  | bool b => exact hnumber (if b then 1 else 0)
  | _ => cases hline

theorem Json.orElse_of_isOptionalText {text : Json} (h : text.isOptionalText = true) :
    text.orElse (.str "") = .str (text.orElse (.str "")).text := by
  rw [orElse]
  split
  · cases text with
    | str s => rfl
    | null => contradiction
    | _ => cases h
  · rfl

/-- The document of a comment that is not rendered has its lines. -/
theorem renders_hamlCommentDoc (style : Style) {text line : Json}
    (htext : text.isOptionalText = true)
    (hline : (line.isNull || line.int?.isSome) = true) :
    ∃ doc, hamlCommentDoc style text line = .ok doc ∧ ∀ level, doc.Renders level
      (Markup.commentLines style.source level (text.orElse (.str "")).text line) := by
  have hcontents := Json.orElse_of_isOptionalText htext
  obtain ⟨found, hfound⟩ := exists_sourceLine style.source hline
  generalize (text.orElse (.str "")).text = contents at hcontents ⊢
  have hblock : isBlockComment style.source line =
      decide (found.map (Text.strip Text.isBlank) = some "-#") := by
    rw [isBlockComment, hfound]
    cases found with
    | none => rfl
    | some own => simp [beq_eq_decide]
  simp only [hamlCommentDoc, Markup.commentLines, hcontents, hfound, hblock]
  by_cases hempty : (Text.strip Text.isBlank contents).isEmpty = true
  · refine ⟨_, if_pos hempty, fun level => ?_⟩
    rw [if_pos hempty]
    exact Doc.Renders.texts level ["-#"]
  · simp only [if_neg hempty, Fault.ok_bind]
    by_cases hsource : found.map (Text.strip Text.isBlank) = some "-#"
    · refine ⟨_, if_pos hsource, fun level => ?_⟩
      rw [if_pos (decide_eq_true hsource)]
      have hlines : (blockLines contents).map Doc.text ≠ [] :=
        List.map_eq_nil_iff.not.mpr (blockLines_ne_nil contents)
      exact (Doc.Renders.texts level ["-#"]).block (.texts (level + 1) (blockLines contents)) hlines
    · refine ⟨_, if_neg hsource, fun level => ?_⟩
      rw [if_neg (by simpa using hsource)]
      have hline : (Text.ofString "-# ") ++ Text.strip Text.isBlank contents =
          [Text.ofString "-#", Text.ofString " ", Text.strip Text.isBlank contents].flatten := by
        simp
        rfl
      rw [hline]
      exact Doc.Renders.texts level ["-#", " ", Text.strip Text.isBlank contents]

/-! ## Trees -/

/-- Whether a document has the lines of markup, at any level. -/
def Printed (source : Text) (doc : Doc) (m : Markup) : Prop :=
  ∀ level, doc.Renders level (m.outline source level)

section

variable {source : Text} {docs : List Doc} {ms : List Markup}

theorem attached_atLevel (h : List.Forall₂ (Printed source) docs ms) (level : Nat) :
    Attached (atLevel level docs) (Markup.listOutline source level ms) := by
  induction h with
  | nil => exact .nil
  | cons hdoc _ ih => exact .cons (hdoc level) ih

theorem attached_clauseItems (h : List.Forall₂ (Printed source) docs ms) (level index : Nat) :
    Attached (clauseItems level index docs) (Markup.clauseOutline source level index ms) := by
  induction h generalizing index with
  | nil => exact .nil
  | cons hdoc _ ih => exact .cons (hdoc (level + index % 2)) (ih (index + 1))

end

namespace Markup

mutual

/-- **The document of a regular tree has the lines of its outline.** -/
theorem printed_toDoc (style : Style) : ∀ m : Markup, m.all isRegular = true →
    ∃ doc, m.toDoc style = .ok doc ∧ Printed style.source doc m
  | .root _ _, h => by
      rw [Markup.all, isRegular] at h
      cases h
  | .tag t children _, h => by
      simp only [Markup.all, isRegular, Bool.and_eq_true] at h
      obtain ⟨⟨⟨hhash, hold⟩, hreference⟩, hchildren⟩ := h
      obtain ⟨docs, hdocs, hprinted⟩ := printed_listToDocs style children hchildren
      refine ⟨_, by rw [toDoc, hdocs, Fault.ok_bind]; rfl, fun level => ?_⟩
      have hheader := t.renders_header level hhash hold hreference
      cases hprinted with
      | nil => exact hheader
      | cons hfirst hrest =>
          exact hheader.singleton.nested (attached_atLevel (.cons hfirst hrest) (level + 1))
  | .comment c children _, h => by
      simp only [Markup.all, isRegular, Bool.and_eq_true] at h
      obtain ⟨⟨hconditional, htext⟩, hchildren⟩ := h
      obtain ⟨docs, hdocs, hprinted⟩ := printed_listToDocs style children hchildren
      refine ⟨_, by rw [toDoc, hdocs, Fault.ok_bind]; rfl, fun level => ?_⟩
      exact (c.renders_parts level hconditional htext).nested
        (attached_atLevel hprinted (level + 1))
  | .doctype d _, h => by
      simp only [Markup.all, isRegular, Bool.and_eq_true] at h
      obtain ⟨⟨hkind, hversion⟩, hencoding⟩ := h
      exact Doctype.renders_toDoc hkind hversion hencoding
  | .hamlComment text _ line, h => by
      simp only [Markup.all, isRegular, Bool.and_eq_true] at h
      exact renders_hamlCommentDoc style h.1.1 h.1.2
  | .plain text _, h => by
      cases text with
      | str s => exact ⟨_, rfl, fun level => .text level s⟩
      | _ => cases h
  | .script text children _, h => by
      simp only [Markup.all, isRegular, Bool.true_and] at h
      obtain ⟨docs, hdocs, hprinted⟩ := printed_listToDocs style children h
      refine ⟨_, by rw [toDoc, hdocs, Fault.ok_bind]; rfl, fun level => ?_⟩
      exact (Doc.Renders.text level _).singleton.nested (attached_atLevel hprinted (level + 1))
  | .silentScript s children _, h => by
      simp only [Markup.all, isRegular, Bool.true_and] at h
      obtain ⟨docs, hdocs, hprinted⟩ := printed_listToDocs style children h
      by_cases hcase : s.keyword.isText "case" = true
      · refine ⟨_, by rw [toDoc, hdocs, Fault.ok_bind, if_pos hcase]; rfl, fun level => ?_⟩
        rw [outline, if_pos hcase]
        exact (Doc.Renders.clauses (attached_clauseItems hprinted level 0)).group false
      · refine ⟨_, by rw [toDoc, hdocs, Fault.ok_bind, if_neg hcase]; rfl, fun level => ?_⟩
        rw [outline, if_neg hcase]
        exact (Doc.Renders.text level _).singleton.nested (attached_atLevel hprinted (level + 1))

theorem printed_listToDocs (style : Style) : ∀ ms : List Markup, listAll isRegular ms = true →
    ∃ docs, listToDocs style ms = .ok docs ∧ List.Forall₂ (Printed style.source) docs ms
  | [], _ => ⟨[], rfl, .nil⟩
  | m :: ms, h => by
      rw [listAll, Bool.and_eq_true] at h
      obtain ⟨doc, hdoc, hprinted⟩ := printed_toDoc style m h.1
      obtain ⟨docs, hdocs, hrest⟩ := printed_listToDocs style ms h.2
      refine ⟨doc :: docs, ?_, .cons hprinted hrest⟩
      rw [listToDocs, hdoc, hdocs]
      rfl

end

end Markup

/-! ## Formatting -/

/-- Lines that each end with a line end are lines with line ends between them and one
at the end. -/
theorem flatMap_append_newline {lines : List Text} (h : lines ≠ []) :
    (lines.flatMap fun l => l ++ [Text.newline]) = List.intercalate "\n" lines ++ "\n" := by
  induction lines with
  | nil => exact absurd rfl h
  | cons first lines ih =>
      cases lines with
      | nil => simp [Text.newline, Text.ofString]
      | cons second lines =>
          rw [List.flatMap_cons, ih (List.cons_ne_nil _ _), List.intercalate_cons_cons]
          simp [Text.newline, Text.ofString]

namespace Settings

variable {settings : Settings} {w t : Int}

/-- The margin of a line at a level is so many times the unit of indentation. -/
theorem margin_levels (hw : settings.printWidth.int? = some w)
    (ht : settings.tabWidth.int? = some t) {level : Nat}
    (hlevel : settings.indents t = true ∨ level = 0) :
    settings.margin (levels level) =
      (List.replicate level (settings.marks t).text).flatten := by
  obtain hindents | rfl := hlevel
  · have hpage := level_page ht hindents
    rw [← text_page_eq (isFractional_of_int hw ht)]
    induction level with
    | zero => rfl
    | succ level ih =>
        rw [List.replicate_succ', List.flatten_append, List.flatten_singleton, ← ih, levels,
          List.replicate_succ, Indentation.text]
        simp only [hpage]
        rfl
  · rfl

/-- A document with given lines is laid out as these lines, each after its
indentation. -/
theorem layout_root_of_renders {contents : Doc} {lines : List (Nat × Text)}
    (h : contents.Renders 0 lines) (hw : settings.printWidth.int? = some w)
    (ht : settings.tabWidth.int? = some t)
    (hlevels : settings.indents t = true ∨ ∀ line ∈ lines, line.1 = 0) :
    settings.layout (.root (.concat [contents, .hardBreak])) =
      .ok (outlineText (settings.marks t).text lines) := by
  have hfixed : (Doc.root (.concat [contents, .hardBreak])).all Doc.isFixed = true := by
    simpa [Doc.all, Doc.isFixed, Doc.hardBreak] using h.fixed
  have hflush : settings.indents t = true ∨
      (Doc.root (.concat [contents, .hardBreak])).all Doc.isFlush = true := by
    simpa [Doc.all, Doc.isFlush, Doc.hardBreak, h.flush] using hlevels
  have hlines : linesFrom ([], []) (leaves [] (.root (.concat [contents, .hardBreak]))) =
      lines.map placed ++ [([], [])] := by
    rw [← h.printed]
    exact linesFrom_append_line ([], []) (leaves [] contents) [] true false []
  rw [layout_eq_of_isFixed hw ht hfixed hflush hlines, List.append_nil, outlineText]
  obtain ⟨line, hline, -⟩ := h.exists_line
  rw [← flatMap_append_newline (List.map_eq_nil_iff.not.mpr (List.ne_nil_of_mem hline)),
    List.flatMap_map, List.flatMap_map]
  refine congrArg Except.ok (List.flatMap_congr fun line hline => ?_)
  have hlevel : settings.indents t = true ∨ line.1 = 0 :=
    hlevels.imp_right fun hzero => hzero line hline
  simp only [placed, margin_levels hw ht hlevel]

/-- A document with a line that needs a level that cannot be made is not laid out. -/
theorem layout_root_error_of_renders {contents : Doc} {lines : List (Nat × Text)}
    (h : contents.Renders 0 lines) (hw : settings.printWidth.int? = some w)
    (ht : settings.tabWidth.int? = some t) (hindents : settings.indents t = false)
    (hdeeper : ∃ line ∈ lines, line.1 ≠ 0) :
    ∃ fault, settings.layout (.root (.concat [contents, .hardBreak])) = .error fault := by
  have hflush : contents.all Doc.isFlush = false := by
    obtain ⟨line, hline, hlevel⟩ := hdeeper
    rw [← Bool.not_eq_true, h.flush]
    exact fun hall => hlevel (hall line hline)
  refine layout_error_of_isFixed hw ht ?_ hindents ?_
  · simpa [Doc.all, Doc.isFixed, Doc.hardBreak] using h.fixed
  · simp [Doc.all, Doc.listAll, Doc.isFlush, hflush]

/-- **Indentation encodes the tree.** A regular tree is formatted as its outline,
whatever the width of the page, if a level of indentation can be made or no line
needs one; else it is not formatted. -/
theorem format_eq_outlineText (hw : settings.printWidth.int? = some w)
    (ht : settings.tabWidth.int? = some t) (source : Text) {children : List Markup}
    (hchildren : Markup.listAll Markup.isRegular children = true) (line : Json) :
    (settings.indents t = true ∨ (∀ l ∈ Markup.listOutline source 0 children, l.1 = 0) →
      settings.format source (.markup (.root children line)) =
        .ok (outlineText (settings.marks t).text (Markup.listOutline source 0 children))) ∧
    (settings.indents t = false → (∃ l ∈ Markup.listOutline source 0 children, l.1 ≠ 0) →
      ∃ fault, settings.format source (.markup (.root children line)) = .error fault) := by
  obtain ⟨docs, hdocs, hprinted⟩ :=
    Markup.printed_listToDocs (settings.style source) children hchildren
  have hformat : settings.format source (.markup (.root children line)) =
      settings.layout (.root (.concat [.join .hardBreak docs, .hardBreak])) := by
    rw [format, Node.toDoc, Markup.toDoc, hdocs]
    rfl
  rw [hformat]
  cases hprinted with
  | nil =>
      -- a tree without lines is formatted as one that is empty
      have hblank : (Doc.join .hardBreak []).Renders 0 [(0, [])] := .texts 0 []
      refine ⟨fun _ => ?_, fun _ hdeeper => ?_⟩
      · rw [layout_root_of_renders hblank hw ht (.inr (by simp))]
        rfl
      · obtain ⟨l, hl, -⟩ := hdeeper
        cases hl
  | cons hfirst hrest =>
      have hlines := Doc.Renders.join (attached_atLevel (.cons hfirst hrest) 0)
        (List.cons_ne_nil _ _)
      exact ⟨layout_root_of_renders hlines hw ht, layout_root_error_of_renders hlines hw ht⟩

/-- A `case` under a tag, with a comment between its clauses that was written as a
block, and a clause that has a line of its own. -/
theorem format_eq_outlineText_of_clauses :
    let settings : Settings := { useTabs := .bool true }
    let tag (name : Text) (children : List Markup) : Markup :=
      .tag ⟨.str name, [], false, false, false, .null, false, ⟨.null, .null⟩, .null⟩ children .null
    let clause (text : Text) (children : List Markup) : Markup :=
      .silentScript ⟨.str text, .str "when"⟩ children .null
    let children : List Markup := [tag "p" [.silentScript ⟨.str " case x", .str "case"⟩
      [clause " when 1" [.plain (.str "one") .null], .hamlComment (.str "\n  a\n   b ") [] (.int 2),
        clause " else" [tag "br" []]] .null], .plain (.str "end ") .null]
    settings.format "%p\n -# \n" (.markup (.root children .null)) = .ok
    "%p\n\t- case x\n\t- when 1\n\t\tone\n\t\t-#\n\t\t\ta\n\t\t\t b\n\t- else\n\t\t%br\nend\n" := by
  intro settings tag clause children
  have hformat := (@format_eq_outlineText settings 80 2 rfl rfl "%p\n -# \n" children (by decide)
    .null).1 (.inl (by decide))
  rw [hformat]
  exact congrArg Except.ok (by decide +kernel)

/-- A level of spaces that is too wide to be made fails also where it would be on a
blank line, which the outline leaves empty. -/
theorem format_ne_outlineText_of_wide_level :
    let settings : Settings := { tabWidth := .int countLimit }
    let tag : Tag := ⟨.str "p", [], false, false, false, .null, false, ⟨.null, .null⟩, .null⟩
    let children : List Markup := [.tag tag [.plain (.str "") .null] .null]
    Markup.listAll Markup.isRegular children = true ∧ 0 ≤ countLimit ∧
      outlineText (settings.marks countLimit).text (Markup.listOutline "" 0 children) = "%p\n\n" ∧
      settings.format "" (.markup (.root children .null)) = .error .overflow := by
  intro settings tag children
  refine ⟨by decide, by decide, ?_, by decide +kernel⟩
  have hlines : Markup.listOutline "" 0 children = [(0, Text.ofString "%p"), (1, [])] := by
    decide +kernel
  -- the unit itself is too long to be computed
  have hblank : Text.stripRight Text.isIndent (settings.marks countLimit).text = [] :=
    Text.stripRight_eq_nil_iff.mpr fun _ => Marks.isIndent_of_mem
  rw [hlines, outlineText, List.map_cons, List.map_singleton, List.append_nil,
    List.replicate_one, List.flatten_singleton, hblank]
  decide

end Settings

end HamlFormat
