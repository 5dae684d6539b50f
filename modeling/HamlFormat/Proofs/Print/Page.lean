import HamlFormat.Proofs.Print.Header

/-!
# HamlFormat.Proofs.Print.Page

A HAML document on a page. `Markup.pageLines` gives the lines of a tree on a page of a
given width, each with the place where it starts: as the outline of the tree has them,
but with the attribute hashes of tags wrapped to the page. A tag with a hash is one line
if that fits, with everything that follows the hash; else a pair goes on the line of the
pair before it if it fits there, after a comma and a space, and starts a line under the
first pair otherwise (`Tag.pageLines`).

Formatting a document gives these lines (`Settings.format_eq_pageText`), if the
indentation that it needs can be made; else it fails.
-/

namespace HamlFormat

open Layout

/-! ## Lines of a page -/

/-- Where a line starts: at a level, and so many spaces past it. -/
structure Place where
  level : Nat
  offset : Nat
  deriving DecidableEq

/-- The indentation of a place. -/
def Place.indentation (place : Place) : Indentation :=
  (levels place.level).aligned place.offset

namespace Tag

/-- What follows on a tag's line: the content, else the dynamic attributes, else the
object reference. -/
def trailingText (tag : Tag) : Text :=
  if tag.value.truthy then (if tag.parse then "=" else "") ++ " " ++ tag.value.text
  else if tag.dynamic.old.truthy then tag.dynamic.old.text
  else if tag.objectRef.truthy then tag.objectRef.text
  else []

/-- The lines of a tag at a level, on a page so many columns wide whose levels are so many
columns each. -/
def pageLines (w t : Int) (level : Nat) (tag : Tag) : List (Place × Text) :=
  match tag.hashAttributes.map attributePair with
  | [] => [(⟨level, 0⟩, tag.lineText)]
  | first :: others =>
    let start := tag.heads.flatten
    let tail := tag.markers ++ tag.trailingText
    let line := hashLineText start (first :: others) tail
    let column := level * t + Text.width start + 1
    if level * t + Text.width line ≤ w then [(⟨level, 0⟩, line)]
    else
      hang ⟨level, 0⟩ ⟨level, Text.width start + 1⟩
        (wrap w column "," (Text.ofString "\x7d" ++ tail) (column + Text.width first)
          (start ++ "\x7b" ++ first) others)

end Tag

namespace Markup

/-- Not a whole document. -/
def isNested : Markup → Bool
  | .root _ _ => false
  | _ => true

mutual

/-- The lines of markup at a level of a page. -/
def pageLines (w t : Int) (source : Text) (level : Nat) : Markup → List (Place × Text)
  | .root children _ => listPageLines w t source level children
  | .tag own children _ =>
    own.pageLines w t level ++ listPageLines w t source (level + 1) children
  | .comment c children _ =>
    (⟨level, 0⟩, c.lineText) :: listPageLines w t source (level + 1) children
  | .doctype d _ => [(⟨level, 0⟩, d.lineText)]
  | .hamlComment text _ line =>
    (commentLines source level (text.orElse (.str "")).text line).map fun l => (⟨l.1, 0⟩, l.2)
  | .plain text _ => [(⟨level, 0⟩, text.text)]
  | .script text children _ =>
    (⟨level, 0⟩, "=" ++ text.text) :: listPageLines w t source (level + 1) children
  | .silentScript s children _ =>
    (⟨level, 0⟩, "-" ++ s.text.text) ::
      if s.keyword.isText "case" then clausePageLines w t source level 0 children
      else listPageLines w t source (level + 1) children

/-- The lines of nodes at one level of a page. -/
def listPageLines (w t : Int) (source : Text) (level : Nat) : List Markup → List (Place × Text)
  | [] => []
  | m :: ms => pageLines w t source level m ++ listPageLines w t source level ms

/-- The lines of the children of a `case` at a level of a page, from the one with an index
on: those with an even index at its level, the others one deeper. -/
def clausePageLines (w t : Int) (source : Text) (level index : Nat) :
    List Markup → List (Place × Text)
  | [] => []
  | m :: ms =>
    pageLines w t source (level + index % 2) m ++ clausePageLines w t source level (index + 1) ms

end

end Markup

/-- The lines of a page as text: each after as many units of indentation as its level says
and the spaces past it, without the spaces and tabs at its end. -/
def pageText (unit : Text) (lines : List (Place × Text)) : Text :=
  List.intercalate "\n" (lines.map fun line => Text.stripRight Text.isIndent
    ((List.replicate line.1.level unit).flatten ++ .repeated line.1.offset ' ' ++ line.2)) ++ "\n"

/-! ## Tags -/

/-- A line of a page with its indentation. -/
def situated (line : Place × Text) : Indentation × Text :=
  (line.1.indentation, line.2)

theorem map_situated_hang (first others : Place) (lines : List Text) :
    (hang first others lines).map situated = hang first.indentation others.indentation lines := by
  cases lines with
  | nil => rfl
  | cons line lines => simp [hang, situated]

/-- Lines of an outline start at their levels. -/
theorem map_situated_placed (lines : List (Nat × Text)) :
    (lines.map fun l => ((⟨l.1, 0⟩ : Place), l.2)).map situated = lines.map placed := by
  rw [List.map_map]
  rfl

namespace Tag

variable {tag : Tag}

theorem widthOf_eq (texts : List Text) : widthOf texts = Text.width texts.flatten := by
  induction texts with
  | nil => rfl
  | cons s texts ih => rw [widthOf, ih, List.flatten_cons, Text.width_append]

theorem hashDoc_eq (headerWidth : Nat) (attributes : List (Text × Text)) :
    hashDoc headerWidth attributes =
      .group (hashContents (headerWidth + 1) (attributes.map attributePair)) false := by
  rw [hashDoc, hashContents, wordDocs, List.map_map]
  rfl

/-- A tag with a hash starts with the hash among texts. -/
theorem exists_leading_eq (hhash : tag.hashAttributes.isEmpty = false) :
    ∃ marks : List Text, marks.flatten = tag.markers ∧
      tag.leading = tag.heads.map .text ++
        hashDoc (widthOf tag.heads) tag.hashAttributes :: marks.map .text := by
  have hmark : ∀ (shown : Bool) (mark : Text), ∃ marks : List Text,
      marks.flatten = (if shown then mark else []) ∧
        (if shown then [Doc.text mark] else []) = marks.map .text := by
    intro shown mark
    cases shown with
    | true => exact ⟨[mark], List.flatten_singleton, rfl⟩
    | false => exact ⟨[], rfl, rfl⟩
  obtain ⟨outside, houtside, houtsideDocs⟩ := hmark tag.trimOutside ">"
  obtain ⟨inside, hinside, hinsideDocs⟩ := hmark tag.trimInside "<"
  obtain ⟨closing, hclosing, hclosingDocs⟩ := hmark tag.selfClosing "/"
  refine ⟨outside ++ inside ++ closing, ?_, ?_⟩
  · rw [List.flatten_append, List.flatten_append, houtside, hinside, hclosing]
    rfl
  · rw [leading, hhash, houtsideDocs, hinsideDocs, hclosingDocs]
    simp

/-- What follows on the line of a tag that starts with something is a text. -/
theorem exists_trailing_eq (hleading : tag.leading.isEmpty = false)
    (hold : tag.dynamic.old.isOptionalText = true)
    (hreference : tag.objectRef.isOptionalText = true) :
    ∃ texts : List Text, texts.flatten = tag.trailingText ∧ tag.trailing = texts.map .text := by
  unfold trailing trailingText
  split
  · exact ⟨[_], List.flatten_singleton, rfl⟩
  · split
    · next htruthy =>
        refine ⟨[_], List.flatten_singleton, ?_⟩
        rw [Doc.ofJson_of_isOptionalText hold htruthy]
        rfl
    · split
      · next htruthy =>
          refine ⟨[_], List.flatten_singleton, ?_⟩
          rw [Doc.ofJson_of_isOptionalText hreference htruthy, hleading]
          rfl
      · exact ⟨[], rfl, rfl⟩

/-- The document of a tag's line with a hash. -/
theorem exists_header_eq (hhash : tag.hashAttributes.isEmpty = false)
    (hold : tag.dynamic.old.isOptionalText = true)
    (hreference : tag.objectRef.isOptionalText = true) :
    ∃ tails : List Text, tails.flatten = tag.markers ++ tag.trailingText ∧
      tag.header = .group (hashLine tag.heads (widthOf tag.heads + 1)
        (tag.hashAttributes.map attributePair) tails) false := by
  obtain ⟨marks, hmarks, hleading⟩ := exists_leading_eq hhash
  have hne : tag.leading.isEmpty = false := by simp [hleading]
  obtain ⟨texts, htexts, htrailing⟩ := exists_trailing_eq hne hold hreference
  refine ⟨marks ++ texts, by rw [List.flatten_append, hmarks, htexts], ?_⟩
  rw [header, htrailing, hleading, hashDoc_eq, hashLine]
  simp

end Tag

/-- A page so many columns wide, whose levels, if they can be made, take so many columns
each. -/
structure Layout.Page.Measures (page : Page Int) (w t : Int) (indents : Bool) : Prop where
  width : page.width = .ok w
  level : indents = true → ∃ marks, page.level = .ok ⟨marks, t⟩

section

variable {page : Page Int} {w t : Int} {indents : Bool}

theorem columns_levels (hpage : page.Measures w t indents) {level : Nat}
    (hlevel : level = 0 ∨ indents = true) : (levels level).columns page = level * t := by
  obtain rfl | hindents := hlevel
  · simp [levels, Indentation.columns]
  · obtain ⟨marks, hmarks⟩ := hpage.level hindents
    induction level with
    | zero => simp [levels, Indentation.columns]
    | succ level ih =>
        rw [levels, List.replicate_succ, Indentation.columns, ← levels]
        simp only [hmarks, ih]
        rw [Int.natCast_succ, Int.add_mul, Int.one_mul]

/-- A document whose lines are known writes them. -/
theorem Doc.Renders.writes (hpage : page.Measures w t indents) {doc : Doc} {level : Nat}
    {lines : List (Nat × Text)} (h : doc.Renders level lines)
    (hfeasible : doc.all (Doc.isFeasible indents) = true) :
    Writes page (levels level) [⟨levels level, .broken, doc.raise⟩]
      ((lines.map fun l => ((⟨l.1, 0⟩ : Place), l.2)).map situated) := by
  rw [map_situated_placed, ← h.printed]
  exact writes_of_isFixed hpage.width (fun hindents => ⟨_, (hpage.level hindents).choose_spec⟩)
    h.fixed hfeasible

/-- **The document of a tag's line writes the lines of the tag.** -/
theorem Tag.writes_header (hpage : page.Measures w t indents) {tag : Tag}
    (hold : tag.dynamic.old.isOptionalText = true)
    (hreference : tag.objectRef.isOptionalText = true)
    (hfeasible : tag.header.all (Doc.isFeasible indents) = true) {level : Nat}
    (hlevel : level = 0 ∨ indents = true) :
    Writes page (levels level) [⟨levels level, .broken, tag.header.raise⟩]
      ((tag.pageLines w t level).map situated) := by
  cases hpairs : tag.hashAttributes.map attributePair with
  | nil =>
      have hhash : tag.hashAttributes.isEmpty = true :=
        List.isEmpty_iff.mpr (List.map_eq_nil_iff.mp hpairs)
      rw [pageLines, hpairs]
      exact (renders_header level hhash hold hreference).writes hpage hfeasible
  | cons first others =>
      have hhash : tag.hashAttributes.isEmpty = false := by
        rw [← List.isEmpty_map (f := attributePair), hpairs]
        rfl
      have haligned : (widthOf tag.heads : Int) + 1 < memoryLimit := by
        rw [(demands_header hold hreference).feasible, Bool.or_true, Bool.true_and, isAligned,
          hhash, Bool.false_or] at hfeasible
        exact of_decide_eq_true hfeasible
      obtain ⟨tails, htails, hheader⟩ := exists_header_eq hhash hold hreference
      rw [hpairs] at hheader
      obtain ⟨j, hj⟩ := (levels level).align_ok haligned
      have hwrites := writes_hashLine hpage.width hj tag.heads first others tails
      have hplace : j = Place.indentation ⟨level, Text.width tag.heads.flatten + 1⟩ := by
        rw [Indentation.align_eq hj, widthOf_eq]
        rfl
      have hcolumns : j.columns page = level * t + Text.width tag.heads.flatten + 1 := by
        have hpos : ¬((Text.width tag.heads.flatten + 1 : Nat) : Int) ≤ 0 := by omega
        rw [hplace, Place.indentation, Indentation.aligned, if_neg hpos, Indentation.columns,
          columns_levels hpage hlevel]
        simp [Int.add_assoc]
      have hforces : tag.header.forces = false := by
        rw [hheader, Doc.forces, forces_hashLine]
        rfl
      have hstart : Place.indentation ⟨level, 0⟩ = levels level := rfl
      rw [Doc.raise_eq_self hforces, hheader, pageLines, hpairs]
      rw [hcolumns, columns_levels hpage hlevel, htails] at hwrites
      simp only
      split
      · next hfits =>
          rw [if_pos hfits] at hwrites
          exact hwrites
      · next hwide =>
          rw [if_neg hwide] at hwrites
          rw [map_situated_hang, ← hplace, hstart]
          exact hwrites

end

/-! ## Nested lines -/

theorem Doc.forces_concat_of_mem {part : Doc} {parts : List Doc} (hpart : part ∈ parts)
    (h : part.forces = true) : (Doc.concat parts).forces = true := by
  rw [← Bool.not_eq_false, forces, listForces_eq_false]
  intro hall
  rw [hall part hpart] at h
  cases h

theorem Doc.map_raise_separate (separator : Doc) (parts : List Doc) :
    (separate separator parts).map raise = separate separator.raise (parts.map raise) := by
  fun_induction separate separator parts with
  | case1 => rfl
  | case2 part => rfl
  | case3 part parts hne ih =>
      rw [List.map_cons, List.map_cons, ih, List.map_cons, separate]
      exact fun h => hne (List.map_eq_nil_iff.mp h)

/-- Lines nested under a line are on lines of their own. -/
theorem Doc.raise_nested (parts : List Doc) {children : List Doc} (hne : children ≠ []) :
    (nested parts children).raise = .group (.concat (parts.map raise ++
      [.indent (.concat [.hardBreak, .join .hardBreak (children.map raise)])])) true := by
  have hforces : (Doc.concat (parts ++ [.indented children])).forces = true :=
    forces_concat_of_mem (List.mem_append_right _ List.mem_cons_self) rfl
  rw [nested, if_neg (by simpa using hne), raise, hforces, raise, listRaise_eq_map,
    List.map_append]
  simp only [indented, join, List.map_cons, List.map_nil, raise, listRaise_eq_map,
    map_raise_separate]
  rfl

/-- A document that writes the lines of markup at every level that there is. -/
def Doc.Places (page : Page Int) (w t : Int) (indents : Bool) (source : Text) (doc : Doc)
    (m : Markup) : Prop :=
  doc.all (Doc.isFeasible indents) = true → ∀ level, level = 0 ∨ indents = true →
    Writes page (levels level) [⟨levels level, .broken, doc.raise⟩]
      ((m.pageLines w t source level).map situated)

section

variable {page : Page Int} {w t : Int} {indents : Bool} {source : Text} {docs : List Doc}
  {ms : List Markup} {level : Nat}

/-- Documents on lines of their own write the lines of all. -/
theorem writes_join (h : List.Forall₂ (Doc.Places page w t indents source) docs ms)
    (hne : docs ≠ []) (hfeasible : ∀ doc ∈ docs, doc.all (Doc.isFeasible indents) = true)
    (hlevel : level = 0 ∨ indents = true) :
    Writes page (levels level) [⟨levels level, .broken, .join .hardBreak (docs.map Doc.raise)⟩]
      ((Markup.listPageLines w t source level ms).map situated) := by
  refine Writes.concat ?_
  induction h with
  | nil => exact absurd rfl hne
  | cons hdoc hrest ih =>
      rw [List.forall_mem_cons] at hfeasible
      have hfirst := hdoc hfeasible.1 level hlevel
      rw [Markup.listPageLines, List.map_append]
      cases hrest with
      | nil => simpa [Doc.separate, Markup.listPageLines] using hfirst
      | cons hsecond hothers =>
          exact hfirst.append (.of_writes (ih (List.cons_ne_nil _ _) hfeasible.2))

/-- Lines nested under a line come after it, one level deeper. -/
theorem writes_nested (hpage : page.Measures w t indents) {parts : List Doc}
    {lines : List (Indentation × Text)}
    (hparts : Writes page (levels level) ((parts.map Doc.raise).map (⟨levels level, .broken, ·⟩))
      lines)
    (h : List.Forall₂ (Doc.Places page w t indents source) docs ms) (hne : docs ≠ [])
    (hfeasible : (Doc.nested parts docs).all (Doc.isFeasible indents) = true) :
    Writes page (levels level) [⟨levels level, .broken, (Doc.nested parts docs).raise⟩]
      (lines ++ (Markup.listPageLines w t source (level + 1) ms).map situated) := by
  obtain ⟨hindents, hdocs⟩ : indents = true ∧
      ∀ doc ∈ docs, doc.all (Doc.isFeasible indents) = true := by
    rw [Doc.nested, if_neg (by simpa using hne)] at hfeasible
    simp only [Doc.all, Bool.and_eq_true, Doc.listAll_eq_true, List.forall_mem_append,
      List.forall_mem_singleton] at hfeasible
    have hblock := hfeasible.2.2.2
    simp only [Doc.indented, Doc.join, Doc.all, Bool.and_eq_true, Doc.listAll_eq_true,
      List.forall_mem_cons] at hblock
    exact ⟨hblock.1, (Doc.forall_mem_separate
      (P := fun doc => doc.all (Doc.isFeasible indents) = true) rfl docs).mp hblock.2.2.2.1.2⟩
  obtain ⟨marks, hmarks⟩ := hpage.level hindents
  have hchildren : Writes page (levels (level + 1)) [⟨levels (level + 1), .broken,
      .join .hardBreak (docs.map Doc.raise)⟩] _ := writes_join h hne hdocs (.inr hindents)
  rw [Doc.raise_nested parts hne]
  refine Writes.forced (.concat ?_)
  rw [List.map_append]
  exact hparts.append (.indent hmarks (.concat (.of_writes hchildren)))

/-- Lines nested under a line that leaves nothing open. -/
theorem writes_nested_of_renders (hpage : page.Measures w t indents) {parts : List Doc}
    {header : Text} (hheader : (Doc.concat parts).Renders level [(level, header)])
    (h : List.Forall₂ (Doc.Places page w t indents source) docs ms)
    (hfeasible : (Doc.nested parts docs).all (Doc.isFeasible indents) = true) :
    Writes page (levels level) [⟨levels level, .broken, (Doc.nested parts docs).raise⟩]
      (((⟨level, 0⟩, header) :: Markup.listPageLines w t source (level + 1) ms).map situated) := by
  cases h with
  | nil =>
      have hnone : Attached (atLevel (level + 1) []) [] := .nil
      exact (hheader.nested hnone).writes hpage hfeasible
  | cons hfirst hrest =>
      have hown : (Doc.concat parts).all (Doc.isFeasible indents) = true :=
        Settings.isFeasible_of_isFixed hheader.fixed
          (.inr (hheader.flush.mpr (List.forall_mem_singleton.mpr rfl)))
      have hline := hheader.writes hpage hown
      rw [Doc.raise, Doc.listRaise_eq_map] at hline
      exact writes_nested hpage hline.of_concat (.cons hfirst hrest) (List.cons_ne_nil _ _)
        hfeasible

/-- The clauses of a `case` and what comes between them. -/
theorem adds_caseLines (hpage : page.Measures w t indents)
    (h : List.Forall₂ (Doc.Places page w t indents source) docs ms) (index : Nat)
    (hfeasible : ∀ part ∈ caseLines (isDeeper index) docs,
      part.all (Doc.isFeasible indents) = true) (hlevel : level = 0 ∨ indents = true) :
    Adds page (((caseLines (isDeeper index) docs).map Doc.raise).map (⟨levels level, .broken, ·⟩))
      ((Markup.clausePageLines w t source level index ms).map situated) := by
  induction h generalizing index with
  | nil => exact .nil
  | @cons doc m _ _ hdoc _ ih =>
      rw [caseLines, List.forall_mem_cons, ← isDeeper_succ] at hfeasible
      rw [caseLines, ← isDeeper_succ, Markup.clausePageLines, List.map_append]
      have hrest := ih (index + 1) hfeasible.2
      refine Adds.append (?_ : Adds page [_] _) hrest
      have hown := hfeasible.1
      obtain heven | hodd := Nat.mod_two_eq_zero_or_one index
      · have hdeeper : isDeeper index = false := by rw [isDeeper, heven]; rfl
        simp only [hdeeper, Bool.false_eq_true, if_false, Doc.all, Bool.and_eq_true,
          Doc.listAll_eq_true, List.forall_mem_cons] at hown
        rw [hdeeper, heven]
        exact .concat (.of_writes (hdoc hown.2.2.1 level hlevel))
      · have hdeeper : isDeeper index = true := by rw [isDeeper, hodd]; rfl
        simp only [hdeeper, if_true, Doc.all, Bool.and_eq_true, Doc.listAll_eq_true,
          List.forall_mem_cons] at hown
        obtain ⟨marks, hmarks⟩ := hpage.level hown.1
        have hwrites := hdoc hown.2.2.2.1 (level + 1) (.inr hown.1)
        rw [hdeeper, hodd]
        exact .indent hmarks (.concat (.of_writes hwrites))

/-- A `case` with its clauses and what comes between them. -/
theorem writes_clauses (hpage : page.Measures w t indents) (header : Text)
    (h : List.Forall₂ (Doc.Places page w t indents source) docs ms)
    (hfeasible : (Doc.group (.concat (.text header :: caseLines false docs)) false).all
      (Doc.isFeasible indents) = true) (hlevel : level = 0 ∨ indents = true) :
    Writes page (levels level) [⟨levels level, .broken,
        (Doc.group (.concat (.text header :: caseLines false docs)) false).raise⟩]
      (((⟨level, 0⟩, header) :: Markup.clausePageLines w t source level 0 ms).map situated) := by
  have hline := Doc.Renders.text level header
  cases h with
  | nil => exact (hline.singleton.group false).writes hpage hfeasible
  | @cons doc _ docs _ hfirst hrest =>
      have hforces : (Doc.concat (.text header :: caseLines false (doc :: docs))).forces = true :=
        Doc.forces_concat_of_mem (List.mem_cons_of_mem _ List.mem_cons_self) rfl
      simp only [Doc.all, Bool.and_eq_true, Doc.listAll_eq_true, List.forall_mem_cons] at hfeasible
      have hclauses := adds_caseLines hpage (.cons hfirst hrest) 0 hfeasible.2.2.2 hlevel
      rw [Doc.raise, hforces, Doc.raise, Doc.listRaise_eq_map]
      exact .forced (.concat ((hline.writes hpage rfl).append hclauses))

end

namespace Markup

variable {page : Page Int} {w t : Int} {indents : Bool}

mutual

/-- **The document of a tree writes the lines of the tree.** -/
theorem places_toDoc (hpage : page.Measures w t indents) (style : Style) : ∀ m : Markup,
    m.all isWellTyped = true → m.all hasText = true → m.all isNested = true →
      ∃ doc, m.toDoc style = .ok doc ∧ doc.Places page w t indents style.source m
  | .root _ _, _, _, hnested => by
      rw [all, isNested] at hnested
      cases hnested
  | .tag own children _, htyped, htext, hnested => by
      simp only [all, isWellTyped, Bool.and_eq_true] at htyped htext hnested
      obtain ⟨docs, hdocs, hplaces⟩ :=
        places_listToDocs hpage style children htyped.2 htext.2 hnested.2
      refine ⟨_, by rw [toDoc, hdocs]; rfl, fun hfeasible level hlevel => ?_⟩
      have hheader := own.writes_header hpage htyped.1.1.2 htyped.1.2
      rw [pageLines, List.map_append]
      cases hplaces with
      | nil =>
          rw [listPageLines, List.map_nil, List.append_nil]
          exact hheader hfeasible hlevel
      | cons hfirst hrest =>
          have hown : own.header.all (Doc.isFeasible indents) = true := by
            simp only [List.isEmpty_cons, Bool.false_eq_true, if_false, Doc.nested, Doc.all,
              Bool.and_eq_true, Doc.listAll_eq_true, List.forall_mem_append,
              List.forall_mem_singleton] at hfeasible
            exact hfeasible.2.2.1
          exact writes_nested hpage (hheader hown hlevel) (.cons hfirst hrest)
            (List.cons_ne_nil _ _) hfeasible
  | .comment c children _, htyped, htext, hnested => by
      simp only [all, isWellTyped, Bool.and_eq_true] at htyped htext hnested
      obtain ⟨docs, hdocs, hplaces⟩ :=
        places_listToDocs hpage style children htyped.2 htext.2 hnested.2
      refine ⟨_, by rw [toDoc, hdocs]; rfl, fun hfeasible level _ => ?_⟩
      exact writes_nested_of_renders hpage (c.renders_parts level htyped.1.1 htyped.1.2) hplaces
        hfeasible
  | .doctype d _, htyped, _, _ => by
      simp only [all, isWellTyped, Bool.and_eq_true] at htyped
      obtain ⟨doc, hdoc, hrenders⟩ :=
        Doctype.renders_toDoc htyped.1.1 htyped.1.2 htyped.2
      exact ⟨doc, hdoc, fun hfeasible level _ => (hrenders level).writes hpage hfeasible⟩
  | .hamlComment text _ line, htyped, _, _ => by
      simp only [all, isWellTyped, Bool.and_eq_true] at htyped
      obtain ⟨doc, hdoc, hrenders⟩ := renders_hamlCommentDoc style htyped.1.1 htyped.1.2
      exact ⟨doc, hdoc, fun hfeasible level _ => (hrenders level).writes hpage hfeasible⟩
  | .plain text _, htyped, htext, _ => by
      cases text with
      | str s =>
          exact ⟨.text s, rfl, fun hfeasible level _ =>
            (Doc.Renders.text level s).writes hpage hfeasible⟩
      | null => cases htext
      | _ => cases htyped
  | .script text children _, htyped, htext, hnested => by
      simp only [all, Bool.and_eq_true] at htyped htext hnested
      obtain ⟨docs, hdocs, hplaces⟩ :=
        places_listToDocs hpage style children htyped.2 htext.2 hnested.2
      refine ⟨_, by rw [toDoc, hdocs]; rfl, fun hfeasible level _ => ?_⟩
      exact writes_nested_of_renders hpage (Doc.Renders.text level _).singleton hplaces hfeasible
  | .silentScript s children _, htyped, htext, hnested => by
      simp only [all, Bool.and_eq_true] at htyped htext hnested
      obtain ⟨docs, hdocs, hplaces⟩ :=
        places_listToDocs hpage style children htyped.2 htext.2 hnested.2
      by_cases hcase : s.keyword.isText "case" = true
      · refine ⟨_, by rw [toDoc, hdocs, Fault.ok_bind, if_pos hcase]; rfl,
          fun hfeasible level hlevel => ?_⟩
        rw [pageLines, if_pos hcase]
        exact writes_clauses hpage _ hplaces hfeasible hlevel
      · refine ⟨_, by rw [toDoc, hdocs, Fault.ok_bind, if_neg hcase]; rfl,
          fun hfeasible level _ => ?_⟩
        rw [pageLines, if_neg hcase]
        exact writes_nested_of_renders hpage (Doc.Renders.text level _).singleton hplaces hfeasible

theorem places_listToDocs (hpage : page.Measures w t indents) (style : Style) :
    ∀ ms : List Markup, listAll isWellTyped ms = true → listAll hasText ms = true →
      listAll isNested ms = true → ∃ docs, listToDocs style ms = .ok docs ∧
        List.Forall₂ (Doc.Places page w t indents style.source) docs ms
  | [], _, _, _ => ⟨[], rfl, .nil⟩
  | m :: ms, htyped, htext, hnested => by
      simp only [listAll, Bool.and_eq_true] at htyped htext hnested
      obtain ⟨doc, hdoc, hplaces⟩ :=
        places_toDoc hpage style m htyped.1 htext.1 hnested.1
      obtain ⟨docs, hdocs, hrest⟩ :=
        places_listToDocs hpage style ms htyped.2 htext.2 hnested.2
      refine ⟨doc :: docs, ?_, .cons hplaces hrest⟩
      rw [listToDocs, hdoc, hdocs]
      rfl

end

/-! ## Levels -/

variable {source : Text}

theorem level_of_mem_tagPageLines {own : Tag} {level : Nat} :
    ∀ line ∈ own.pageLines w t level, line.1.level = level := by
  unfold Tag.pageLines
  split
  · exact List.forall_mem_singleton.mpr rfl
  · simp only
    split
    · exact List.forall_mem_singleton.mpr rfl
    · generalize wrap _ _ _ _ _ _ _ = lines
      cases lines with
      | nil => simp [hang]
      | cons first others => simp [hang]

theorem level_of_mem_commentLines {text : Text} {number : Json}
    (h : ((commentLines source 0 text number).all fun l => l.1 == 0) = true) (level : Nat) :
    ∀ line ∈ commentLines source level text number, line.1 = level := by
  simp only [commentLines] at h ⊢
  split at h
  · next hempty =>
      rw [if_pos hempty]
      exact List.forall_mem_singleton.mpr rfl
  · next hempty =>
      rw [if_neg hempty]
      split at h
      · obtain ⟨first, others, hlines⟩ := List.exists_cons_of_ne_nil (blockLines_ne_nil text)
        simp [hlines] at h
      · next hblock =>
          rw [if_neg hblock]
          exact List.forall_mem_singleton.mpr rfl

mutual

/-- A tree with nothing nested under a line has all its lines at its level. -/
theorem level_of_mem_pageLines : ∀ m : Markup, m.isFlush source = true → ∀ level,
    ∀ line ∈ m.pageLines w t source level, line.1.level = level
  | .root children _, h, level => level_of_mem_listPageLines children h level
  | .tag own children _, h, level => by
      rw [isFlush, List.isEmpty_iff] at h
      rw [pageLines, h, listPageLines, List.append_nil]
      exact level_of_mem_tagPageLines
  | .comment _ children _, h, level | .script _ children _, h, level => by
      rw [isFlush, List.isEmpty_iff] at h
      rw [pageLines, h, listPageLines]
      exact List.forall_mem_singleton.mpr rfl
  | .doctype _ _, _, _ | .plain _ _, _, _ => List.forall_mem_singleton.mpr rfl
  | .hamlComment _ _ _, h, level => by
      rw [pageLines, List.forall_mem_map]
      exact level_of_mem_commentLines h level
  | .silentScript s children _, h, level => by
      rw [isFlush] at h
      rw [pageLines]
      split at h
      · next hcase =>
          rw [if_pos hcase, List.forall_mem_cons]
          exact ⟨rfl, level_of_mem_clausePageLines children 0 h level⟩
      · next hcase =>
          rw [List.isEmpty_iff] at h
          rw [if_neg hcase, h, listPageLines]
          exact List.forall_mem_singleton.mpr rfl

theorem level_of_mem_listPageLines : ∀ ms : List Markup, listIsFlush source ms = true →
    ∀ level, ∀ line ∈ listPageLines w t source level ms, line.1.level = level
  | [], _, _ => by simp [listPageLines]
  | m :: ms, h, level => by
      rw [listIsFlush, Bool.and_eq_true] at h
      rw [listPageLines, List.forall_mem_append]
      exact ⟨level_of_mem_pageLines m h.1 level, level_of_mem_listPageLines ms h.2 level⟩

theorem level_of_mem_clausePageLines : ∀ (ms : List Markup) (index : Nat),
    clausesAreFlush source (isDeeper index) ms = true →
    ∀ level, ∀ line ∈ clausePageLines w t source level index ms, line.1.level = level
  | [], _, _, _ => by simp [clausePageLines]
  | m :: ms, index, h, level => by
      rw [clausesAreFlush, ← isDeeper_succ, Bool.and_eq_true, Bool.and_eq_true] at h
      rw [clausePageLines, List.forall_mem_append]
      have heven : index % 2 = 0 := by
        have hdeeper := h.1.1
        simp only [isDeeper, beq_iff_eq] at hdeeper
        omega
      rw [heven]
      exact ⟨level_of_mem_pageLines m h.1.2 level,
        level_of_mem_clausePageLines ms (index + 1) h.2 level⟩

end

end Markup

/-! ## Formatting -/

/-- Lines with a blank one after them, each without the spaces and tabs at its end. -/
theorem intercalate_trimmedLines (margin : Indentation → Text) (hmargin : margin [] = [])
    (lines : List (Indentation × Text)) :
    List.intercalate "\n" (trimmedLines margin (lines ++ [([], [])])) =
      lines.flatMap fun line =>
        Text.stripRight Text.isIndent (margin line.1 ++ line.2) ++ [Text.newline] := by
  induction lines with
  | nil => simp [trimmedLines, hmargin]
  | cons line lines ih =>
      obtain ⟨next, rest, hnext⟩ := List.exists_cons_of_ne_nil
        (List.append_ne_nil_of_right_ne_nil lines
          (List.cons_ne_nil (([], []) : Indentation × Text) []))
      obtain ⟨first, others, htrimmed⟩ := exists_trimmedLines_eq_cons margin next rest
      rw [List.cons_append, hnext, trimmedLines, htrimmed, List.intercalate_cons_cons, ← htrimmed,
        ← hnext, ih, List.flatMap_cons]
      simp [Text.newline, Text.ofString]

namespace Settings

variable {settings : Settings} {w t : Int}

theorem measures_page (hw : settings.printWidth.int? = some w)
    (ht : settings.tabWidth.int? = some t) :
    (settings.page Json.int?).Measures w t (settings.indents t) where
  width := width_page hw
  level h := ⟨_, level_page ht h⟩

/-- A document that writes lines is laid out as these lines. -/
theorem layout_eq_of_writes (hw : settings.printWidth.int? = some w)
    (ht : settings.tabWidth.int? = some t) {doc : Doc} (hdoc : doc.all Doc.isProper = true)
    {lines : List (Indentation × Text)}
    (h : Writes (settings.page Json.int?) [] [⟨[], .broken, doc.raise⟩] lines) :
    settings.layout doc = .ok (List.intercalate "\n" (trimmedLines settings.margin lines)) := by
  have hwhole := isFractional_of_int hw ht
  obtain ⟨ps, hps, hrun⟩ := h.printed
  have houtput := hrun 0 [] [] .nil
  rw [layout, hwhole, if_neg Bool.false_ne_true, Layout.render_eq, Doc.settle_eq hdoc,
    Fault.ok_bind]
  refine houtput.trans ?_
  rw [Machine.output_nil, List.append_nil, List.reverse_reverse, assemble_eq,
    Rows.text_eq_intercalate, text_page_eq hwhole, lines_rowsOf rfl, hps]

theorem margin_indentation (hw : settings.printWidth.int? = some w)
    (ht : settings.tabWidth.int? = some t) {place : Place}
    (hlevel : settings.indents t = true ∨ place.level = 0) :
    settings.margin place.indentation =
      (List.replicate place.level (settings.marks t).text).flatten ++
        .repeated place.offset ' ' := by
  rw [← margin_levels hw ht hlevel, Place.indentation, Indentation.aligned]
  by_cases hoffset : place.offset = 0
  · simp [hoffset, Text.repeated]
  · rw [if_neg (by omega), Int.toNat_natCast]
    rfl

/-- Lines are laid out as a page with these lines. -/
theorem layout_root_of_writes (hw : settings.printWidth.int? = some w)
    (ht : settings.tabWidth.int? = some t) {contents : Doc}
    (hcontents : contents.all Doc.isProper = true) {lines : List (Place × Text)}
    (hlevels : settings.indents t = true ∨ ∀ line ∈ lines, line.1.level = 0)
    (h : Writes (settings.page Json.int?) [] [⟨[], .broken, contents.raise⟩]
      (lines.map situated)) :
    settings.layout (.root (.concat [contents, .hardBreak])) =
      .ok (pageText (settings.marks t).text lines) := by
  have hproper : (Doc.root (.concat [contents, .hardBreak])).all Doc.isProper = true := by
    simp [Doc.all, Doc.isProper, Doc.hardBreak, hcontents]
  have hwrites : Writes (settings.page Json.int?) [] [⟨[], .broken,
      (Doc.root (.concat [contents, .hardBreak])).raise⟩] (lines.map situated ++ [([], [])]) :=
    .root (.concat (h.append (.of_writes .nil)))
  have hne : lines ≠ [] := List.map_eq_nil_iff.not.mp h.ne_nil
  rw [layout_eq_of_writes hw ht hproper hwrites, intercalate_trimmedLines _ rfl, pageText,
    ← flatMap_append_newline (List.map_eq_nil_iff.not.mpr hne), List.flatMap_map, List.flatMap_map]
  refine congrArg Except.ok (List.flatMap_congr fun line hline => ?_)
  have hlevel : settings.indents t = true ∨ line.1.level = 0 :=
    hlevels.imp_right fun hzero => hzero line hline
  simp only [situated, margin_indentation hw ht hlevel]

section Root

variable (hw : settings.printWidth.int? = some w) (ht : settings.tabWidth.int? = some t)
  (source : Text) {children : List Markup}
  (htyped : Markup.listAll Markup.isWellTyped children = true)
  (htext : Markup.listAll Markup.hasText children = true)
  (hnested : Markup.listAll Markup.isNested children = true) (line : Json)

include hw ht htyped htext hnested

/-- A tree is formatted by laying out the documents of its lines under each other, and it says
itself whether that can be done. -/
theorem exists_format_eq_layout : ∃ docs root,
    List.Forall₂ (Doc.Places (settings.page Json.int?) w t (settings.indents t) source)
      docs children ∧
    root = .root (.concat [.join .hardBreak docs, .hardBreak]) ∧
    settings.format source (.markup (.root children line)) = settings.layout root ∧
    root.all Doc.isPlainChoice = true ∧
    (root.all (Doc.isFeasible (settings.indents t)) = true ↔
      (settings.indents t = true ∨ Markup.listIsFlush source children = true) ∧
        Markup.listIsAligned children = true) := by
  obtain ⟨docs, hdocs, hplaces⟩ := Markup.places_listToDocs (measures_page hw ht)
    (settings.style source) children htyped htext hnested
  obtain ⟨root, hroot, hdemands⟩ := Markup.demands_toDoc (settings.style source)
    (.root children line) (by rw [Markup.all, htyped]; rfl) (by rw [Markup.all, htext]; rfl)
  refine ⟨docs, root, hplaces, ?_, ?_, ?_, ?_⟩
  · rw [Markup.toDoc, hdocs] at hroot
    exact (Except.ok.inj hroot).symm
  · rw [format, Node.toDoc, hroot]
    rfl
  · exact Doc.all_mono (fun _ hd => (Bool.and_eq_true_iff.mp hd).2) hdemands.ordinary
  · rw [hdemands.feasible, Bool.and_eq_true, Bool.or_eq_true]
    rfl

/-- A tree is formatted as the lines of its page if their indentation can be made. -/
theorem format_root_eq_pageText
    (hmade : (settings.indents t = true ∨ Markup.listIsFlush source children = true) ∧
      Markup.listIsAligned children = true) :
    settings.format source (.markup (.root children line)) = .ok
      (pageText (settings.marks t).text (Markup.listPageLines w t source 0 children)) := by
  obtain ⟨docs, root, hplaces, hshape, hformat, -, hfeasible⟩ :=
    exists_format_eq_layout hw ht source htyped htext hnested line
  have hlevels : settings.indents t = true ∨
      ∀ l ∈ Markup.listPageLines w t source 0 children, l.1.level = 0 :=
    hmade.1.imp_right fun hflush => Markup.level_of_mem_listPageLines children hflush 0
  rw [← hfeasible, hshape] at hmade
  rw [hformat, hshape]
  simp only [Doc.all, Bool.and_eq_true, Doc.listAll_eq_true, List.forall_mem_cons] at hmade
  have hjoin := hmade.2.2.1
  have hproper := Doc.all_mono (fun _ => Doc.isProper_of_isFeasible) hjoin
  cases hplaces with
  | nil =>
      -- a tree without lines is formatted as one that is empty
      have hblank : Writes (settings.page Json.int?) [] [⟨[], .broken,
          (Doc.join .hardBreak []).raise⟩] ([(⟨0, 0⟩, [])].map situated) := .concat .nil
      rw [layout_root_of_writes hw ht hproper (.inr (by simp)) hblank]
      rfl
  | @cons doc _ docs _ hfirst hrest =>
      simp only [Doc.join, Doc.all, Bool.and_eq_true, Doc.listAll_eq_true] at hjoin
      have hall := (Doc.forall_mem_separate
        (P := fun d => d.all (Doc.isFeasible (settings.indents t)) = true) rfl _).mp hjoin.2
      have hlines := writes_join (.cons hfirst hrest) (List.cons_ne_nil _ _) hall (.inl rfl)
      refine layout_root_of_writes hw ht hproper hlevels ?_
      rw [Doc.join, Doc.raise, Doc.listRaise_eq_map, Doc.map_raise_separate]
      exact hlines

/-- A tree is not formatted if an indentation that it needs cannot be made. -/
theorem format_root_error
    (hmissing : ¬((settings.indents t = true ∨ Markup.listIsFlush source children = true) ∧
      Markup.listIsAligned children = true)) :
    ∃ fault, settings.format source (.markup (.root children line)) = .error fault := by
  obtain ⟨docs, root, -, -, hformat, hplain, hfeasible⟩ :=
    exists_format_eq_layout hw ht source htyped htext hnested line
  rw [← hfeasible] at hmissing
  rw [hformat]
  cases hout : settings.layout root with
  | error fault => exact ⟨fault, rfl⟩
  | ok out => exact absurd ((layout_ok_iff hw ht hplain).mp ⟨out, hout⟩) hmissing

end Root

/-- **A tree is formatted line by line, with its attribute hashes wrapped to the page.** The
lines are those of the page if a level of indentation can be made or no line needs one, and
if the columns before each hash fit in memory; else the tree is not formatted. -/
theorem format_eq_pageText (hw : settings.printWidth.int? = some w)
    (ht : settings.tabWidth.int? = some t) (source : Text) {children : List Markup}
    (htyped : Markup.listAll Markup.isWellTyped children = true)
    (htext : Markup.listAll Markup.hasText children = true)
    (hnested : Markup.listAll Markup.isNested children = true) (line : Json) :
    ((settings.indents t = true ∨ Markup.listIsFlush source children = true) ∧
        Markup.listIsAligned children = true →
      settings.format source (.markup (.root children line)) = .ok
        (pageText (settings.marks t).text (Markup.listPageLines w t source 0 children))) ∧
    (¬((settings.indents t = true ∨ Markup.listIsFlush source children = true) ∧
        Markup.listIsAligned children = true) →
      ∃ fault, settings.format source (.markup (.root children line)) = .error fault) :=
  ⟨format_root_eq_pageText hw ht source htyped htext hnested line,
    format_root_error hw ht source htyped htext hnested line⟩

/-- Two pairs fill the line of a tag between the clauses of a `case` to its edge, behind a
wide character; the third starts under the first. -/
theorem format_eq_pageText_of_clauses :
    let settings : Settings :=
      { printWidth := .int 32, useTabs := .bool true, tabWidth := .int 4 }
    let tag (name : Text) (attributes : List (Text × Text)) (value : Json)
        (children : List Markup) : Markup :=
      .tag ⟨.str name, attributes, true, false, false, value, false, ⟨.null, .null⟩, .null⟩
        children .null
    let children : List Markup := [.silentScript ⟨.str " case x", .str "case"⟩
      [.silentScript ⟨.str " when 1", .str "when"⟩ [] .null,
        tag "a" [("b", "c"), ("class", "日"), ("d", "e"), ("f", "g")] (.str "h ")
          [tag "div" [("i", "j")] .null []]] .null]
    settings.format "" (.markup (.root children .null)) = .ok
      ("- case x\n- when 1\n\t%a.日\x7b\"b\" => \"c\", \"d\" => \"e\",\n" ++
        "\t      \"f\" => \"g\"\x7d/ h\n\t\t\x7b\"i\" => \"j\"\x7d/\n") := by
  intro settings tag children
  have hformat := (@format_eq_pageText settings 32 4 rfl rfl "" children (by decide +kernel)
    (by decide +kernel) (by decide +kernel) .null).1 ⟨.inl (by decide), by decide +kernel⟩
  rw [hformat]
  exact congrArg Except.ok (by decide +kernel)

/-- A level of spaces that is too wide to be made fails also where only a blank line under a
tag would have it. -/
theorem format_ne_pageText_of_wide_level :
    let settings : Settings := { tabWidth := .int countLimit }
    let tag : Tag :=
      ⟨.str "p", [("a", "b")], false, false, false, .null, false, ⟨.null, .null⟩, .null⟩
    let children : List Markup := [.tag tag [.plain (.str "") .null] .null]
    Markup.listAll Markup.isWellTyped children = true ∧
      Markup.listAll Markup.isNormal children = true ∧
      Markup.listAll Markup.isNested children = true ∧ 0 ≤ countLimit ∧
      pageText (settings.marks countLimit).text
        (Markup.listPageLines 80 countLimit "" 0 children) = "%p\x7b\"a\" => \"b\"\x7d\n\n" ∧
      settings.format "" (.markup (.root children .null)) = .error .overflow := by
  intro settings tag children
  refine ⟨by decide +kernel, by decide +kernel, by decide +kernel, by decide, ?_,
    by decide +kernel⟩
  have hlines : Markup.listPageLines 80 countLimit "" 0 children =
      [(⟨0, 0⟩, Text.ofString "%p\x7b\"a\" => \"b\"\x7d"), (⟨1, 0⟩, [])] := by
    decide +kernel
  -- the unit itself is too long to be computed
  have hblank : Text.stripRight Text.isIndent (settings.marks countLimit).text = [] :=
    Text.stripRight_eq_nil_iff.mpr fun _ => Marks.isIndent_of_mem
  rw [hlines, pageText, List.map_cons, List.map_singleton]
  simp only [List.replicate_one, List.flatten_singleton, Text.repeated, List.replicate_zero,
    List.append_nil, hblank]
  decide +kernel

end Settings

end HamlFormat
