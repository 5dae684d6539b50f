import HamlFormat.Proofs.Layout.Outcome
import HamlFormat.Proofs.Layout.Preservation
import HamlFormat.Proofs.Print.Composition

/-!
# HamlFormat.Proofs.Print.Literals

The comma after the last element of an array or a hash. `Display` is a tree over an output:
the pieces written for an expression, with the expressions inside it as subtrees. Every
output of an expression has one (`Ruby.displayed`), so each array and each hash in it can be
looked at in its place (`Ruby.Framed`).

The elements of an array break where its brackets do, and a comma follows the last one exactly
then. The pairs of a hash are a group of their own inside the braces. They may fit on one line
where the braces do not fit around them, and then no comma follows the last pair although the
braces are on different lines (`Settings.format_literals`).
-/

namespace HamlFormat

open Layout

/-! ## Displays -/

/-- A part of an output: a piece, or what is written for an expression. -/
inductive Display where
  | piece (p : Piece)
  | expr (r : Ruby) (parts : List Display)

namespace Display

mutual

/-- The pieces of a part. -/
def pieces : Display → List Piece
  | .piece p => [p]
  | .expr _ parts => listPieces parts

/-- The pieces of parts one after another. -/
def listPieces : List Display → List Piece
  | [] => []
  | part :: parts => pieces part ++ listPieces parts

end

mutual

/-- The expressions in a part, each with its parts. -/
def nodes : Display → List (Ruby × List Display)
  | .piece _ => []
  | .expr r parts => (r, parts) :: listNodes parts

/-- The expressions in parts one after another. -/
def listNodes : List Display → List (Ruby × List Display)
  | [] => []
  | part :: parts => nodes part ++ listNodes parts

end

/-- The expression that a part is written for. -/
def root? : Display → Option Ruby
  | .piece _ => none
  | .expr r _ => some r

/-- Parts with a comma and a line break between each two. -/
def between (separator : Piece) : List Display → List Display
  | [] => []
  | [part] => [part]
  | part :: parts => part :: .piece (.text ",") :: .piece separator :: between separator parts

/-- Parts in delimiters, each delimiter with a line break inside of it. -/
def framed (opening closing : Text) (soft : Bool) (mode : Mode) (i : Indentation)
    (inner : List Display) : List Display :=
  [.piece (.text opening), .piece (lineBreak mode soft (.level :: i))] ++ inner ++
    [.piece (lineBreak mode soft i), .piece (.text closing)]

/-- Whether parts are on one line. -/
def onOneLine (parts : List Display) : Bool :=
  (listPieces parts).all Piece.isInline

@[simp] theorem listPieces_append (xs ys : List Display) :
    listPieces (xs ++ ys) = listPieces xs ++ listPieces ys := by
  induction xs with
  | nil => rfl
  | cons x xs ih => rw [List.cons_append, listPieces, listPieces, ih, List.append_assoc]

@[simp] theorem listNodes_append (xs ys : List Display) :
    listNodes (xs ++ ys) = listNodes xs ++ listNodes ys := by
  induction xs with
  | nil => rfl
  | cons x xs ih => rw [List.cons_append, listNodes, listNodes, ih, List.append_assoc]

@[simp] theorem listPieces_singleton (part : Display) : listPieces [part] = part.pieces :=
  List.append_nil _

@[simp] theorem listNodes_singleton (part : Display) : listNodes [part] = part.nodes :=
  List.append_nil _

/-- Texts alone show no expression. -/
theorem texts_eq (texts : List Text) :
    listPieces (texts.map fun s => .piece (.text s)) = texts.map .text ∧
      listNodes (texts.map fun s => .piece (.text s)) = [] := by
  induction texts with
  | nil => exact ⟨rfl, rfl⟩
  | cons s texts ih => simp [listPieces, listNodes, pieces, nodes, ih]

variable {opening closing : Text} {soft : Bool} {mode : Mode} {i : Indentation}
  {inner : List Display}

theorem listPieces_framed :
    listPieces (framed opening closing soft mode i inner) =
      [.text opening, lineBreak mode soft (.level :: i)] ++ listPieces inner ++
        [lineBreak mode soft i, .text closing] := by
  simp [framed, listPieces, pieces]

theorem listNodes_framed :
    listNodes (framed opening closing soft mode i inner) = listNodes inner := by
  simp [framed, listNodes, nodes]

theorem filterMap_framed :
    (framed opening closing soft mode i inner).filterMap root? = inner.filterMap root? := by
  simp [framed, List.filterMap_cons, root?]

theorem filterMap_of_map_eq {elements : List Display} {rs : List Ruby}
    (h : elements.map root? = rs.map some) : elements.filterMap root? = rs := by
  calc elements.filterMap root?
      = (elements.map root?).filterMap id := by rw [List.filterMap_map]; rfl
    _ = (rs.map some).filterMap id := by rw [h]
    _ = rs := by simp

theorem filterMap_between (separator : Piece) (elements : List Display) :
    (between separator elements).filterMap root? = elements.filterMap root? := by
  induction elements with
  | nil => rfl
  | cons e es ih =>
      cases es with
      | nil => rfl
      | cons f es =>
          have hcons : between separator (e :: f :: es) =
              e :: .piece (.text ",") :: .piece separator :: between separator (f :: es) := rfl
          rw [hcons, List.filterMap_cons, List.filterMap_cons, List.filterMap_cons, ih,
            List.filterMap_cons]
          rfl

/-- Delimiters are on one line exactly if the line breaks inside of them are flat, when then
nothing else ends the line. -/
theorem flat_iff_onOneLine
    (h : mode = .flat → ∀ p ∈ listPieces (framed opening closing soft mode i inner),
      p.isInline = true) :
    mode = .flat ↔ onOneLine (framed opening closing soft mode i inner) = true := by
  rw [onOneLine, List.all_eq_true]
  refine ⟨h, fun hall => ?_⟩
  cases mode with
  | flat => rfl
  | broken =>
      have hbreak := hall (.newline (.level :: i)) (by simp [listPieces_framed, lineBreak])
      cases hbreak

end Display

open Display (listPieces listNodes between framed onOneLine)

/-! ## Literals in their places -/

namespace Ruby

variable {style : Style} {page : Page Int} {w : Int}

/-- The text after the last element: a comma if the elements are broken over lines and the
style asks for one. -/
def lastText (style : Style) (mode : Mode) : Text :=
  if style.trailingCommas = true ∧ mode = .broken then "," else ""

/-- An array in its place. Its elements have commas and line breaks between them, and its
brackets a line break inside of each; all of these line breaks end their lines, or none does.
A comma follows the last element if they do and the style asks for it. -/
def ArrayShown (style : Style) (es : List Ruby) (parts : List Display) : Prop :=
  ∃ (mode : Mode) (i : Indentation) (elements : List Display),
    elements.map Display.root? = es.map some ∧
    parts = framed "[" "]" true mode i
      (between (lineBreak mode false (.level :: i)) elements ++
        [.piece (.text (lastText style mode))]) ∧
    (mode = .flat ↔ onOneLine parts = true)

/-- A hash in its place. The line breaks inside its braces end their lines, or neither does. The
line breaks between its pairs do so if those do and the pairs are too wide for one line of their
own. A comma follows the last pair if the line breaks between them end their lines and the
style asks for it. -/
def HashShown (page : Page Int) (w : Int) (style : Style) (ps : List Pair) (line : Json)
    (parts : List Display) : Prop :=
  ∃ (mode inner : Mode) (i : Indentation) (pairs : List Display) (commas : List Text) (body : Doc),
    pairs.map Display.root? = (ps.map .pair).map some ∧
    parts = framed "\x7b" "\x7d" false mode i [.expr (.pairs (.mk ps line))
      (between (lineBreak inner false (.level :: i)) pairs ++
        commas.map fun comma => .piece (.text comma))] ∧
    commas.flatten = lastText style inner ∧
    (mode = .flat ↔ onOneLine parts = true) ∧
    pairsToDoc style (.mk ps line) = .ok body ∧
    (inner = .broken ↔
      mode = .broken ∧ w < Indentation.columns page (.level :: i) + body.flatWidth)

/-- What is said of arrays and hashes that are not empty. -/
def Framed (page : Page Int) (w : Int) (style : Style) : Ruby → List Display → Prop
  | .array (some es) _, parts => es ≠ [] → ArrayShown style es parts
  | .hash (some (.mk ps line)) _, parts => ps ≠ [] → HashShown page w style ps line parts
  | _, _ => True

/-- What is said of an expression with the parts that are written for it: they are written for
the expressions inside it and for what stands between them, and their pieces are the leaves of
its document. -/
structure Shown (page : Page Int) (w : Int) (style : Style) (r : Ruby) (parts : List Display) :
    Prop where
  children : parts.filterMap Display.root? = r.children
  prints : ∃ doc chosen i, r.toDoc style = .ok doc ∧ doc.Resolves chosen ∧
    List.Forall₂ Leaf.Prints (leaves i chosen) (listPieces parts)
  framed : r.Framed page w style parts

/-- Whether everything that may be written for an expression can be displayed. -/
def IsDisplayed (page : Page Int) (w : Int) (style : Style) (r : Ruby) : Prop :=
  ∀ {doc : Doc} {rest : List Command} {column : Int} {i : Indentation} {mode : Mode}
    {ps : List Piece} {after : Int}, r.toDoc style = .ok doc → doc.all Doc.isProper = true →
    Yields page rest column ⟨i, mode, doc⟩ ps after →
    ∃ parts, listPieces parts = ps ∧ ∀ node ∈ (Display.expr r parts).nodes,
      Shown page w style node.1 node.2

variable {rest : List Command} {column after : Int} {i : Indentation} {mode : Mode}
  {ps : List Piece} {rs : List Ruby}

/-- What is written for a document that is made of expressions can be displayed if these
expressions can. -/
theorem Made.exists_parts {doc : Doc} (hmade : Made style doc rs)
    (hproper : doc.all Doc.isProper = true) (ih : ∀ r ∈ rs, IsDisplayed page w style r)
    (h : Yields page rest column ⟨i, mode, doc⟩ ps after) :
    ∃ parts, parts.filterMap Display.root? = rs ∧ listPieces parts = ps ∧
      ∀ node ∈ listNodes parts, Shown page w style node.1 node.2 := by
  have hpiece : ∀ p : Piece, ∃ parts, parts.filterMap Display.root? = [] ∧ listPieces parts = [p] ∧
      ∀ node ∈ listNodes parts, Shown page w style node.1 node.2 := by
    intro p
    exact ⟨[.piece p], rfl, rfl, fun _ hnode => absurd hnode List.not_mem_nil⟩
  induction hmade generalizing rest column i mode ps after with
  | value value =>
      cases value with
      | str s =>
          cases h
          exact hpiece _
      | _ => cases h
  | line soft =>
      rw [h.line_eq.1]
      exact hpiece _
  | choice s t =>
      cases h with
      | whenBroken h | whenFlat h =>
          cases h
          exact hpiece _
  | child hr =>
      obtain ⟨parts, hparts, hnodes⟩ := ih _ List.mem_cons_self hr hproper h
      refine ⟨[.expr _ parts], rfl, ?_, ?_⟩
      · rwa [Display.listPieces_singleton]
      · rwa [Display.listNodes_singleton]
  | nil =>
      cases h with
      | concat h =>
          cases h
          exact ⟨[], rfl, rfl, fun _ hnode => absurd hnode List.not_mem_nil⟩
  | cons _ _ ihFirst ihRest =>
      rw [List.forall_mem_append] at ih
      simp only [Doc.all, Doc.listAll, Bool.and_eq_true] at hproper
      cases h with
      | concat h =>
          rw [List.map_cons] at h
          cases h with
          | cons hfirst hrest =>
              obtain ⟨xs, hxs, hxsPieces, hxsNodes⟩ := ihFirst hproper.2.1 ih.1 hfirst
              obtain ⟨ys, hys, hysPieces, hysNodes⟩ :=
                ihRest (by simp [Doc.all, Doc.isProper, hproper.2.2]) ih.2 (.concat hrest)
              refine ⟨xs ++ ys, ?_, ?_, ?_⟩
              · rw [List.filterMap_append, hxs, hys]
              · rw [Display.listPieces_append, hxsPieces, hysPieces]
              · rw [Display.listNodes_append]
                exact List.forall_mem_append.mpr ⟨hxsNodes, hysNodes⟩
  | group _ ihContents =>
      obtain ⟨inner, -, hcontents⟩ := h.exists_of_group
      exact ihContents hproper ih hcontents
  | indent _ ihContents =>
      cases h with
      | indent h => exact ihContents hproper ih h

theorem eq_of_yields_comma (h : Yields page rest column ⟨i, mode, comma⟩ ps after) :
    ps = [.text ",", lineBreak mode false i] := by
  cases h with
  | concat h =>
      cases h with
      | cons htext h =>
          cases h with
          | cons hline h =>
              cases h
              cases htext
              rw [hline.line_eq.1]
              rfl

/-- What is written for expressions with commas between them. -/
theorem exists_between {docs : List Doc} (hdocs : listToDocs style rs = .ok docs)
    (hproper : ∀ doc ∈ docs, doc.all Doc.isProper = true)
    (ih : ∀ r ∈ rs, IsDisplayed page w style r)
    (h : YieldsAll page rest column ((Doc.separate comma docs).map (⟨i, mode, ·⟩)) ps after) :
    ∃ elements, elements.map Display.root? = rs.map some ∧
      listPieces (between (lineBreak mode false i) elements) = ps ∧
      ∀ node ∈ listNodes (between (lineBreak mode false i) elements),
        Shown page w style node.1 node.2 := by
  induction rs generalizing docs column ps with
  | nil =>
      cases hdocs
      cases h
      exact ⟨[], rfl, rfl, fun _ hnode => absurd hnode List.not_mem_nil⟩
  | cons r rs ihList =>
      obtain ⟨first, hfirst, hrest⟩ := Fault.bind_eq_ok.mp hdocs
      obtain ⟨others, hothers, hdocs⟩ := Fault.bind_eq_ok.mp hrest
      cases hdocs
      rw [List.forall_mem_cons] at hproper ih
      have hempty := isEmpty_of_listToDocs hothers
      cases others with
      | nil =>
          cases rs with
          | cons _ _ => cases hempty
          | nil =>
              cases h with
              | cons h hnil =>
                  cases hnil
                  obtain ⟨parts, hparts, hnodes⟩ := ih.1 hfirst hproper.1 h
                  refine ⟨[.expr r parts], rfl, ?_, ?_⟩
                  · rw [between, Display.listPieces_singleton, List.append_nil]
                    exact hparts
                  · rwa [between, Display.listNodes_singleton]
      | cons second others =>
          cases h with
          | cons h hlater =>
              cases hlater with
              | cons hcomma hlater =>
                  obtain ⟨parts, hparts, hnodes⟩ := ih.1 hfirst hproper.1 h
                  obtain ⟨elements, helements, hpieces, helementNodes⟩ :=
                    ihList hothers hproper.2 ih.2 hlater
                  cases elements with
                  | nil =>
                      cases rs with
                      | nil => cases hempty
                      | cons _ _ => cases helements
                  | cons e es =>
                      refine ⟨.expr r parts :: e :: es, ?_, ?_, ?_⟩
                      · rw [List.map_cons, helements]
                        rfl
                      · rw [← hparts, eq_of_yields_comma hcomma, ← hpieces]
                        rfl
                      · exact List.forall_mem_append.mpr ⟨hnodes, helementNodes⟩

theorem all_isProper_of_separate {docs : List Doc}
    (h : ∀ part ∈ Doc.separate comma docs, part.all Doc.isProper = true) :
    ∀ doc ∈ docs, doc.all Doc.isProper = true :=
  (Doc.forall_mem_separate (P := fun part => part.all Doc.isProper = true) rfl docs).mp h

theorem all_isProper_of_bracketsDoc {docs : List Doc}
    (h : (bracketsDoc style docs).all Doc.isProper = true) :
    ∀ doc ∈ docs, doc.all Doc.isProper = true := by
  simp only [bracketsDoc, Doc.all, Doc.listAll, Doc.join, Bool.and_eq_true,
    Doc.listAll_eq_true] at h
  obtain ⟨-, -, -, ⟨-, -, -, ⟨-, helements⟩, -⟩, -⟩ := h
  exact all_isProper_of_separate helements

theorem all_isProper_of_bodyDoc {docs : List Doc}
    (h : (bodyDoc style docs).all Doc.isProper = true) :
    ∀ doc ∈ docs, doc.all Doc.isProper = true := by
  simp only [bodyDoc, Doc.all, Bool.and_eq_true, Doc.listAll_eq_true, List.forall_mem_append] at h
  obtain ⟨-, -, hpairs, -⟩ := h
  exact all_isProper_of_separate hpairs

theorem all_isProper_of_bracesDoc {body : Doc} (h : (bracesDoc body).all Doc.isProper = true) :
    body.all Doc.isProper = true := by
  simp only [bracesDoc, Doc.all, Doc.listAll, Bool.and_eq_true] at h
  obtain ⟨-, -, -, ⟨-, -, -, hbody, -⟩, -⟩ := h
  exact hbody

/-- What is written after the last element of an array. -/
theorem eq_of_yields_last
    (h : Yields page rest column ⟨i, mode,
      if style.trailingCommas then .ifBreak (.text ",") (.text "") else .text ""⟩ ps after) :
    ps = [.text (lastText style mode)] := by
  unfold lastText
  split at h
  · next hstyle =>
      cases h with
      | whenBroken h | whenFlat h =>
          cases h
          simp [hstyle]
  · next hstyle =>
      cases h
      simp [hstyle]

/-- What is written after the last pair of a hash. -/
theorem exists_of_yieldsAll_lastComma
    (h : YieldsAll page rest column ((lastComma style).map (⟨i, mode, ·⟩)) ps after) :
    ∃ commas : List Text, ps = commas.map .text ∧ commas.flatten = lastText style mode := by
  unfold lastComma at h
  unfold lastText
  split at h
  · next hstyle =>
      obtain _ | ⟨hcomma, _ | _⟩ := h
      cases hcomma with
      | whenBroken h | whenFlat h =>
          cases h
          refine ⟨[_], rfl, ?_⟩
          simp [hstyle]
  · next hstyle =>
      cases h
      refine ⟨[], rfl, ?_⟩
      simp [hstyle]
      rfl

/-- What is written for an array. -/
theorem exists_of_yields_brackets {es : List Ruby} {docs : List Doc}
    (hdocs : listToDocs style es = .ok docs) (hforces : (bracketsDoc style docs).forces = false)
    (hproper : (bracketsDoc style docs).all Doc.isProper = true)
    (ih : ∀ r ∈ es, IsDisplayed page w style r)
    (h : Yields page rest column ⟨i, mode, bracketsDoc style docs⟩ ps after) :
    ∃ parts, ArrayShown style es parts ∧ parts.filterMap Display.root? = es ∧
      listPieces parts = ps ∧ ∀ node ∈ listNodes parts, Shown page w style node.1 node.2 := by
  obtain ⟨m, -, hcontents⟩ := h.exists_of_group
  have hflat : m = .flat → ∀ p ∈ ps, p.isInline = true := by
    rintro rfl
    rw [bracketsDoc, Doc.forces, Bool.or_false] at hforces
    exact hcontents.isInline hforces
  have hpieces : ∃ elements, elements.map Display.root? = es.map some ∧
      ps = listPieces (framed "[" "]" true m i
        (between (lineBreak m false (.level :: i)) elements ++
          [.piece (.text (lastText style m))])) ∧
      ∀ node ∈ listNodes (between (lineBreak m false (.level :: i)) elements),
        Shown page w style node.1 node.2 := by
    obtain _ | ⟨hopen, _ | ⟨hindent, _ | ⟨hclosing, _ | ⟨hclose, _ | _⟩⟩⟩⟩ := hcontents.of_concat
    obtain _ | ⟨hopening, _ | ⟨helements, _ | ⟨hlast, _ | _⟩⟩⟩ := hindent.of_indent.of_concat
    cases hopen
    cases hclose
    obtain ⟨elements, hroots, hbetween, hnodes⟩ :=
      exists_between hdocs (all_isProper_of_bracketsDoc hproper) ih helements.of_concat
    refine ⟨elements, hroots, ?_, hnodes⟩
    rw [hopening.line_eq.1, hclosing.line_eq.1, eq_of_yields_last hlast, Display.listPieces_framed,
      Display.listPieces_append, hbetween]
    simp [listPieces, Display.pieces]
  obtain ⟨elements, hroots, rfl, hnodes⟩ := hpieces
  refine ⟨_, ⟨m, i, elements, hroots, rfl, Display.flat_iff_onOneLine hflat⟩, ?_, rfl, ?_⟩
  · rw [Display.filterMap_framed, List.filterMap_append, Display.filterMap_between,
      Display.filterMap_of_map_eq hroots]
    exact List.append_nil _
  · rw [Display.listNodes_framed, Display.listNodes_append]
    exact List.forall_mem_append.mpr ⟨hnodes, fun _ hnode => absurd hnode List.not_mem_nil⟩

/-- The pairs of a hash are broken if its braces are and the pairs are too wide for one line of
their own, and only then. -/
theorem exists_of_yields_body (hwidth : page.width = .ok w) {contents : Doc} {m : Mode}
    (hforces : contents.forces = false) (hproper : contents.all Doc.isProper = true)
    (hcolumn : m = .broken → column = Indentation.columns page (.level :: i))
    (h : Yields page (⟨i, m, .concat [.blankBreak, .text "\x7d"]⟩ :: rest) column
      ⟨.level :: i, m, .group contents false⟩ ps after) :
    ∃ inner, (inner = .broken ↔
        m = .broken ∧ w < Indentation.columns page (.level :: i) + contents.flatWidth) ∧
      Yields page (⟨i, m, .concat [.blankBreak, .text "\x7d"]⟩ :: rest) column
        ⟨.level :: i, inner, contents⟩ ps after := by
  cases m with
  | flat =>
      obtain ⟨inner, hinner, hcontents⟩ := h.exists_of_group
      cases hinner rfl
      exact ⟨.flat, by simp, hcontents⟩
  | broken =>
      -- The closing brace is on a line of its own, so only the pairs count.
      have hrest : ∀ room : Int,
          fits false (⟨i, .broken, .concat [.blankBreak, .text "\x7d"]⟩ :: rest) room =
            .ok (decide (0 ≤ room)) := by
        intro room
        rw [fits_concat, List.map_cons, List.cons_append]
        exact fits_newline (.inl rfl)
      obtain ⟨inner, hinner, hcontents⟩ :=
        h.exists_of_group_broken hwidth hproper hforces hrest
      refine ⟨inner, ?_, hcontents⟩
      rw [hinner, hcolumn rfl]
      simp

/-- What is written for a group in braces. -/
theorem exists_of_yields_bracesDoc (hwidth : page.width = .ok w) {contents : Doc}
    (hforces : contents.forces = false) (hproper : contents.all Doc.isProper = true)
    (h : Yields page rest column ⟨i, mode, bracesDoc (.group contents false)⟩ ps after) :
    ∃ (m inner : Mode) (later : List Command) (before : Int) (body : List Piece) (middle : Int),
      ps = [.text "\x7b", lineBreak m false (.level :: i)] ++ body ++
        [lineBreak m false i, .text "\x7d"] ∧
      (m = .flat → ∀ p ∈ ps, p.isInline = true) ∧
      (inner = .broken ↔
        m = .broken ∧ w < Indentation.columns page (.level :: i) + contents.flatWidth) ∧
      Yields page later before ⟨.level :: i, inner, contents⟩ body middle := by
  obtain ⟨m, -, hcontents⟩ := h.exists_of_group
  have hflat : m = .flat → ∀ p ∈ ps, p.isInline = true := by
    rintro rfl
    refine hcontents.isInline ?_
    simp [Doc.forces, Doc.listForces, hforces, Doc.blankBreak]
  obtain _ | ⟨hopen, _ | ⟨hindent, _ | ⟨hclosing, _ | _⟩⟩⟩ := hcontents.of_concat
  obtain _ | ⟨hopening, _ | ⟨hbody, _ | _⟩⟩ := hindent.of_indent.of_concat
  obtain _ | ⟨hbreak, _ | ⟨hclose, _ | _⟩⟩ := hclosing.of_concat
  cases hopen
  cases hclose
  obtain ⟨inner, hinner, hbody⟩ :=
    exists_of_yields_body hwidth hforces hproper hopening.line_eq.2 hbody
  refine ⟨m, inner, _, _, _, _, ?_, hflat, hinner, hbody⟩
  rw [hopening.line_eq.1, hbreak.line_eq.1]
  simp

/-- What is written for the pairs of a hash. -/
theorem exists_of_yields_pairs {docs : List Doc} (hdocs : listToDocs style rs = .ok docs)
    (hproper : ∀ doc ∈ docs, doc.all Doc.isProper = true)
    (ih : ∀ r ∈ rs, IsDisplayed page w style r)
    (h : Yields page rest column
      ⟨i, mode, .concat (Doc.separate comma docs ++ lastComma style)⟩ ps after) :
    ∃ (pairs : List Display) (commas : List Text), pairs.map Display.root? = rs.map some ∧
      commas.flatten = lastText style mode ∧
      listPieces (between (lineBreak mode false i) pairs ++
        commas.map fun comma => .piece (.text comma)) = ps ∧
      ∀ node ∈ listNodes (between (lineBreak mode false i) pairs ++
        commas.map fun comma => .piece (.text comma)), Shown page w style node.1 node.2 := by
  have hall := h.of_concat
  rw [List.map_append] at hall
  obtain ⟨front, middle, back, hfront, hback, rfl⟩ := hall.of_append
  obtain ⟨pairs, hroots, hpieces, hnodes⟩ := exists_between hdocs hproper ih hfront
  obtain ⟨commas, rfl, hcommas⟩ := exists_of_yieldsAll_lastComma hback
  refine ⟨pairs, commas, hroots, hcommas, ?_, ?_⟩
  · rw [Display.listPieces_append, hpieces, (Display.texts_eq commas).1]
  · rw [Display.listNodes_append, (Display.texts_eq commas).2, List.append_nil]
    exact hnodes

/-- What is written for a hash. -/
theorem exists_of_yields_braces (hwidth : page.width = .ok w) {pairs : List Pair} {line : Json}
    {body : Doc} (hpairs : pairs ≠ []) (hbody : pairsToDoc style (.mk pairs line) = .ok body)
    (hproper : body.all Doc.isProper = true)
    (ih : ∀ r ∈ pairs.map Ruby.pair, IsDisplayed page w style r)
    (h : Yields page rest column ⟨i, mode, bracesDoc body⟩ ps after) :
    ∃ parts, HashShown page w style pairs line parts ∧
      parts.filterMap Display.root? = [.pairs (.mk pairs line)] ∧
      listPieces parts = ps ∧ ∀ node ∈ listNodes parts, Shown page w style node.1 node.2 := by
  have htoDoc : (Ruby.pairs (.mk pairs line)).toDoc style = .ok body := by rwa [toDoc]
  have hforces := forces_toDoc htoDoc
  obtain ⟨docs, hdocs, rfl⟩ := exists_of_pairsToDoc hpairs hbody
  have hdocsProper := all_isProper_of_bodyDoc hproper
  rw [bodyDoc, Doc.forces, Bool.or_false] at hforces
  rw [bodyDoc, Doc.all, Bool.and_eq_true] at hproper
  obtain ⟨m, inner, later, before, body, middle, rfl, hflat, hinner, hyields⟩ :=
    exists_of_yields_bracesDoc hwidth hforces hproper.2 h
  obtain ⟨shown, commas, hroots, hcommas, rfl, hnodes⟩ :=
    exists_of_yields_pairs hdocs hdocsProper ih hyields
  have hshown : Shown page w style (.pairs (.mk pairs line))
      (between (lineBreak inner false (.level :: i)) shown ++
        commas.map fun comma => .piece (.text comma)) := by
    refine ⟨?_, ?_, trivial⟩
    · rw [List.filterMap_append, Display.filterMap_between, Display.filterMap_of_map_eq hroots,
        List.filterMap_map]
      simp [children, Display.root?, Function.comp_def]
    · obtain ⟨chosen, hchosen, hprints⟩ := hyields.prints
      exact ⟨_, _, _, htoDoc, .group hchosen, hprints⟩
  have hpieces : ∀ parts, listPieces (framed "\x7b" "\x7d" false m i
      [.expr (.pairs (.mk pairs line)) parts]) = [.text "\x7b", lineBreak m false (.level :: i)] ++
        listPieces parts ++ [lineBreak m false i, .text "\x7d"] := by
    intro parts
    rw [Display.listPieces_framed, Display.listPieces_singleton, Display.pieces]
  refine ⟨_, ⟨m, inner, i, shown, commas, _, hroots, rfl, hcommas,
    Display.flat_iff_onOneLine ?_, hbody, hinner⟩, ?_, hpieces _, ?_⟩
  · rwa [hpieces]
  · rw [Display.filterMap_framed]
    rfl
  · rw [Display.listNodes_framed, Display.listNodes_singleton, Display.nodes]
    exact List.forall_mem_cons.mpr ⟨hshown, hnodes⟩

/-- What is written for an expression, if smaller ones can be displayed. -/
theorem exists_framed (hwidth : page.width = .ok w) {r : Ruby} {doc : Doc}
    (hdoc : r.toDoc style = .ok doc) (hproper : doc.all Doc.isProper = true)
    (ih : ∀ s : Ruby, sizeOf s < sizeOf r → IsDisplayed page w style s)
    (h : Yields page rest column ⟨i, mode, doc⟩ ps after) :
    ∃ parts, r.Framed page w style parts ∧ parts.filterMap Display.root? = r.children ∧
      listPieces parts = ps ∧ ∀ node ∈ listNodes parts, Shown page w style node.1 node.2 := by
  have hchildren : ∀ child ∈ r.children, IsDisplayed page w style child := fun child hchild =>
    ih child (sizeOf_lt_of_mem_children hchild)
  -- These parts will do wherever nothing more is said of the expression.
  obtain ⟨parts, hparts⟩ := (made_toDoc hdoc).exists_parts hproper hchildren h
  cases r with
  | array elements line =>
      cases elements with
      | none => exact ⟨parts, trivial, hparts⟩
      | some es =>
          by_cases hes : es = []
          · exact ⟨parts, fun hne => absurd hes hne, hparts⟩
          · have hforces := forces_toDoc hdoc
            obtain ⟨docs, hdocs, rfl⟩ := exists_of_toDoc_array hes hdoc
            obtain ⟨parts, hshown, hparts⟩ :=
              exists_of_yields_brackets hdocs hforces hproper hchildren h
            exact ⟨parts, fun _ => hshown, hparts⟩
  | hash body outer =>
      cases body with
      | none => exact ⟨parts, trivial, hparts⟩
      | some body =>
          obtain ⟨pairs, line⟩ := body
          by_cases hpairs : pairs = []
          · exact ⟨parts, fun hne => absurd hpairs hne, hparts⟩
          · have hempty : (Pairs.mk pairs line).isEmpty = false := by
              simpa [Pairs.isEmpty] using hpairs
            have hbodyChild : (Ruby.hash (some (.mk pairs line)) outer).children =
                [.pairs (.mk pairs line)] := by
              rw [children, hempty]
              rfl
            have hlt : sizeOf (Ruby.pairs (.mk pairs line)) <
                sizeOf (Ruby.hash (some (.mk pairs line)) outer) :=
              sizeOf_lt_of_mem_children (hbodyChild ▸ List.mem_cons_self)
            obtain ⟨body, hbody, rfl⟩ := exists_of_toDoc_hash hempty hdoc
            obtain ⟨parts, hshown, hparts⟩ := exists_of_yields_braces hwidth hpairs hbody
              (all_isProper_of_bracesDoc hproper)
              (fun s hs => ih s ((sizeOf_lt_of_mem_children hs).trans hlt)) h
            rw [hbodyChild]
            exact ⟨parts, fun _ => hshown, hparts⟩
  | _ => exact ⟨parts, trivial, hparts⟩

/-- **Everything that is written for an expression can be displayed.** -/
theorem displayed (hwidth : page.width = .ok w) (r : Ruby) : IsDisplayed page w style r := by
  -- On the size: a hash is taken apart down to its pairs, which are not its own children.
  induction hsize : sizeOf r using Nat.strong_induction_on generalizing r with
  | _ size ih =>
      subst hsize
      intro doc rest column i mode ps after hdoc hproper h
      obtain ⟨parts, hframed, hchildren, hpieces, hnodes⟩ :=
        exists_framed hwidth hdoc hproper (fun s hs => ih _ hs s rfl) h
      refine ⟨parts, hpieces, ?_⟩
      rw [Display.nodes]
      refine List.forall_mem_cons.mpr ⟨⟨hchildren, ?_, hframed⟩, hnodes⟩
      obtain ⟨chosen, hchosen, hprints⟩ := h.prints
      exact ⟨doc, chosen, i, hdoc, hchosen, hpieces ▸ hprints⟩

end Ruby

/-! ## Formatted expressions -/

namespace Settings

/-- **Commas after the last elements.** With integer widths, what is formatted of an expression
on one line is the text of a display of it. In it each array that is not empty has a comma
after its last element exactly if its brackets are on different lines and the settings ask for
commas. Each hash that is not empty has one exactly if, moreover, its pairs are too wide for one
line of their own. -/
theorem format_literals {settings : Settings} {w t : Int} {source : Text} {r : Ruby} {out : Text}
    (hw : settings.printWidth.int? = some w) (ht : settings.tabWidth.int? = some t)
    (hr : r.isOneLine = true) (h : settings.format source (.ruby r) = .ok out) :
    ∃ display : Display, display.root? = some r ∧
      out = (rowsOf settings.margin display.pieces).text ∧
      Text.lines out = (rowsOf settings.margin display.pieces).lines ∧
      ∀ node ∈ display.nodes,
        Ruby.Shown (settings.page Json.int?) w (settings.style source) node.1 node.2 := by
  obtain ⟨doc, hdoc, hlayout⟩ := Fault.bind_eq_ok.mp h
  have hsimple : doc.all Ruby.isSimple = true := Ruby.all_toDoc hr hdoc
  have hfill : doc.all Doc.isNoFill = true :=
    Doc.all_mono (fun _ hd => (Bool.and_eq_true_iff.mp hd).1) hsimple
  have hone : doc.all Doc.isOneLine = true :=
    Doc.all_mono (fun _ hd => (Bool.and_eq_true_iff.mp hd).2) hsimple
  obtain ⟨ps, hps, rfl⟩ := pieces_of_layout (isFractional_of_int hw ht) hlayout
  obtain ⟨after, hyields⟩ := yields_of_pieces (Ruby.forces_toDoc hdoc) hfill hps
  obtain ⟨parts, rfl, hnodes⟩ :=
    Ruby.displayed (width_page hw) r hdoc (all_isProper_of_layout hlayout) hyields
  obtain ⟨chosen, hchosen, hprints⟩ := hyields.prints
  exact ⟨.expr r parts, rfl, rfl, lines_of_layout hchosen hprints hone, hnodes⟩

theorem format_literals_nested :
    let settings : Settings := { printWidth := .int 14, addTrailingCommas := .bool true }
    let number (digit : Text) : Ruby := .token ⟨.str "@int", digit, .null⟩
    let label (text : Text) : Ruby := .label (.str text) .null
    let hash : Ruby := .hash (some (.mk [.mk (label "a:") (number "1") .null,
      .mk (label "b:") (number "2") .null] .null)) .null
    let r : Ruby := .array (some [hash, number "3"]) .null
    let out : Text := "[\n  \x7b\n    a: 1, b: 2\n  \x7d,\n  3,\n]"
    settings.format "" (.ruby r) = .ok out ∧
      ∃ display : Display, display.root? = some r ∧
        out = (rowsOf settings.margin display.pieces).text ∧
        Text.lines out = (rowsOf settings.margin display.pieces).lines ∧
        ∀ node ∈ display.nodes,
          Ruby.Shown (settings.page Json.int?) 14 (settings.style "") node.1 node.2 := by
  intro settings number label hash r out
  have hout : settings.format "" (.ruby r) = .ok out := by decide +kernel
  exact ⟨hout, format_literals rfl rfl (by decide) hout⟩

end Settings

end HamlFormat
