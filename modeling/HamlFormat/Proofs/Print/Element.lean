import HamlFormat.Proofs.Print.Hash

/-!
# HamlFormat.Proofs.Print.Element

How the line of a tag starts. A line of HAML is an element if it starts with `%`, `.` or
`#`, and is read as something else otherwise. The line of a tag starts so if its name, its
classes or its id are written. A `div` with neither classes nor an id goes without its name,
and is named after all only where nothing but an object reference is left to write. In
between, what comes first on its line is the hash of its attributes, a marker, its content
or its dynamic attributes, and the line is no element unless the dynamic attributes happen
to start like one (`Tag.startsElement_header_iff`).
-/

namespace HamlFormat

open Layout

/-- Whether a character starts an element. -/
def isElementMark (c : CodePoint) : Bool :=
  c == '%' || c == '.' || c == '#'

/-- Whether a text starts like an element. -/
def startsElement (t : Text) : Bool :=
  t.head?.any isElementMark

theorem startsElement_cons (c : CodePoint) (t : Text) :
    startsElement (c :: t) = isElementMark c := rfl

theorem startsElement_append {s : Text} (h : s ≠ []) (t : Text) :
    startsElement (s ++ t) = startsElement s := by
  rw [startsElement, List.head?_append_of_ne_nil _ h, startsElement]

/-! ## The first character of an output -/

/-- Stripping the end of a text keeps a first character that is not to strip. -/
theorem exists_stripRight_cons {p : CodePoint → Bool} {c : CodePoint} (hc : p c = false)
    (t : Text) : ∃ rest, Text.stripRight p (c :: t) = c :: rest := by
  have hkeep : ∀ d ∈ [c].getLast?, p d = false := by
    intro d hd
    rw [List.getLast?_singleton, Option.mem_some_iff] at hd
    rwa [← hd]
  exact ⟨_, Text.stripRight_append_of_keep hkeep t⟩

/-- An output that starts with something that shows keeps its first character, whatever is
trimmed later. -/
theorem exists_rowsOf_cons {margin : Indentation → Text} {c : CodePoint}
    (hc : Text.isIndent c = false) (s : Text) (ps : List Piece) :
    ∃ rest, (rowsOf margin (.text (c :: s) :: ps)).text = c :: rest := by
  induction ps using List.reverseRecOn with
  | nil =>
      refine ⟨s, ?_⟩
      simp [rowsOf, Rows.write, Rows.text, Row.text, Row.body, Piece.inline]
  | append_singleton ps piece ih =>
      obtain ⟨rest, hrest⟩ := ih
      rw [← List.cons_append, rowsOf_concat]
      cases piece with
      | newline i =>
          obtain ⟨kept, hkept⟩ := exists_stripRight_cons hc rest
          rw [Rows.text_write_newline, hrest, hkept]
          exact ⟨_, List.cons_append⟩
      | text _ | unbroken _ =>
          rw [Rows.text_write_inline _ (by simp), hrest]
          exact ⟨_, List.cons_append⟩

/-- What is written for texts alone is these texts. -/
theorem text_rowsOf_texts {margin : Indentation → Text} (texts : List Text) :
    (rowsOf margin (texts.map .text)).text = texts.flatten := by
  induction texts using List.reverseRecOn with
  | nil => rfl
  | append_singleton texts s ih =>
      rw [List.map_append, List.map_singleton, rowsOf_concat, Rows.text_write_inline _ (by simp),
        ih, List.flatten_append, List.flatten_singleton]
      rfl

/-- The leaves of texts are these texts. -/
theorem flatMap_leaves_texts (i : Indentation) (texts : List Text) :
    (texts.map Doc.text).flatMap (leaves i) = texts.map Leaf.text := by
  rw [List.flatMap_map]
  exact List.map_eq_flatMap.symm

/-- Texts are printed as themselves. -/
theorem eq_of_prints_texts {texts : List Text} {ps : List Piece}
    (h : List.Forall₂ Leaf.Prints (texts.map Leaf.text) ps) : ps = texts.map .text := by
  induction texts generalizing ps with
  | nil => cases h; rfl
  | cons s texts ih =>
      cases h with
      | cons hfirst hrest =>
          cases hfirst
          rw [ih hrest, List.map_cons]

namespace Settings

variable {settings : Settings} {out : Text}

/-- A group of texts is laid out as these texts. -/
theorem eq_flatten_of_layout_texts {texts : List Text}
    (h : settings.layout (.group (.concat (texts.map .text)) false) = .ok out) :
    out = texts.flatten := by
  have hchoice : (Doc.group (.concat (texts.map .text)) false).all Doc.isNoChoice = true := by
    simp [Doc.all, Doc.isNoChoice]
  obtain ⟨chosen, ps, hchosen, hprints, rfl⟩ := exists_leaves_of_layout h
  rw [← eq_of_resolves hchosen hchoice, leaves, leaves, listLeaves_eq_flatMap,
    flatMap_leaves_texts] at hprints
  rw [eq_of_prints_texts hprints, text_rowsOf_texts]

/-- The leaves of a line with a hash start with what stands before the hash, and its brace. -/
theorem exists_prints_of_layout_hashLine {heads pairs tails : List Text} {columns : Int}
    (h : settings.layout (.group (hashLine heads columns pairs tails) false) = .ok out) :
    ∃ rest ps, List.Forall₂ Leaf.Prints
        ((heads ++ [Text.ofString "\x7b"]).map Leaf.text ++ rest) ps ∧
      out = (rowsOf settings.margin ps).text := by
  have hchoice : (Doc.group (hashLine heads columns pairs tails) false).all Doc.isNoChoice =
      true := by
    have hwords : ∀ doc ∈ wordDocs "," pairs, doc.all Doc.isNoChoice = true :=
      forall_mem_wordDocs (P := fun d => d.all Doc.isNoChoice = true) rfl (fun _ => rfl) _
    simpa [hashLine, hashContents, Doc.all, Doc.isNoChoice, or_imp, forall_and] using hwords
  obtain ⟨chosen, ps, hchosen, hprints, hout⟩ := exists_leaves_of_layout h
  rw [← eq_of_resolves hchosen hchoice] at hprints
  have hleaves : ∃ rest, leaves [] (.group (hashLine heads columns pairs tails) false) =
      (heads ++ [Text.ofString "\x7b"]).map Leaf.text ++ rest := by
    have hbrace : ∃ rest, leaves [] (hashContents columns pairs) = .text "\x7b" :: rest := ⟨_, rfl⟩
    obtain ⟨rest, hbrace⟩ := hbrace
    refine ⟨rest ++ tails.map Leaf.text, ?_⟩
    rw [hashLine, leaves, leaves, listLeaves_eq_flatMap, List.flatMap_append, List.flatMap_cons,
      flatMap_leaves_texts, flatMap_leaves_texts, leaves, hbrace]
    simp
  obtain ⟨rest, hleaves⟩ := hleaves
  exact ⟨rest, ps, hleaves ▸ hprints, hout⟩

/-- A line with a hash starts with what stands before the hash, or else with its brace. -/
theorem exists_cons_of_layout_hashLine {heads pairs tails : List Text} {columns : Int}
    (h : settings.layout (.group (hashLine heads columns pairs tails) false) = .ok out)
    {c : CodePoint} (hc : Text.isIndent c = false) {s : Text} {others : List Text}
    (hstart : heads ++ [Text.ofString "\x7b"] = (c :: s) :: others) :
    ∃ rest, out = c :: rest := by
  obtain ⟨rest, ps, hprints, rfl⟩ := exists_prints_of_layout_hashLine h
  rw [hstart, List.map_cons, List.cons_append] at hprints
  cases hprints with
  | cons hfirst _ =>
      cases hfirst
      exact exists_rowsOf_cons hc s _

end Settings

namespace Tag

variable {tag : Tag}

/-- Whether the name of a tag, its classes or its id are written. -/
def isIntroduced (tag : Tag) : Bool :=
  !tag.name.isText "div" || (tag.attribute? "class").any (!·.isEmpty) ||
    (tag.attribute? "id").any (!·.isEmpty)

/-- Whether a tag has neither a hash nor markers nor content, and no dynamic attributes but such
that start like an element. -/
def isBare (tag : Tag) : Bool :=
  tag.hashAttributes.isEmpty && !tag.trimOutside && !tag.trimInside && !tag.selfClosing &&
    !tag.value.truthy && (!tag.dynamic.old.truthy || startsElement tag.dynamic.old.text)

/-- What is written of the name, the classes and the id starts an element. -/
theorem startsElement_of_mem_heads : ∀ s ∈ tag.heads, startsElement s = true := by
  have hhidden : ∀ (hidden : Bool) {head : Text}, startsElement head = true →
      ∀ s ∈ (if hidden then [] else [head]), startsElement s = true := by
    intro hidden head hhead
    cases hidden with
    | true => simp
    | false => exact List.forall_mem_singleton.mpr hhead
  simp only [heads, List.forall_mem_append]
  refine ⟨⟨hhidden _ rfl, ?_⟩, ?_⟩
  · cases tag.attribute? "class" with
    | none => simp
    | some value => exact hhidden _ rfl
  · cases tag.attribute? "id" with
    | none => simp
    | some value => exact hhidden _ rfl

/-- The name, the classes or the id are written exactly if the tag is introduced. -/
theorem heads_eq_nil_iff : tag.heads = [] ↔ tag.isIntroduced = false := by
  have hhidden : ∀ (hidden : Bool) (head : Text), (if hidden then [] else [head]) = [] ↔
      hidden = true := by
    intro hidden head
    cases hidden <;> simp
  simp only [heads, isIntroduced, List.append_eq_nil_iff, Bool.or_eq_false_iff, Bool.not_eq_false']
  refine and_congr (and_congr (hhidden _ _) ?_) ?_
  · cases tag.attribute? "class" with
    | none => simp
    | some value => simp
  · cases tag.attribute? "id" with
    | none => simp
    | some value => simp

/-- The start of a line with a name, classes or an id. -/
theorem exists_cons_of_isIntroduced (h : tag.isIntroduced = true) :
    ∃ c s others, isElementMark c = true ∧ tag.heads = (c :: s) :: others := by
  have hne : tag.heads ≠ [] := fun hnil => by simp [heads_eq_nil_iff.mp hnil] at h
  obtain ⟨first, others, hheads⟩ := List.exists_cons_of_ne_nil hne
  have hfirst : startsElement first = true :=
    startsElement_of_mem_heads first (hheads ▸ List.mem_cons_self)
  cases first with
  | nil => cases hfirst
  | cons c s => exact ⟨c, s, others, hfirst, hheads⟩

/-! ## Lines without a hash -/

/-- Markers are no start of an element. -/
theorem startsElement_markers (tag : Tag) : startsElement tag.markers = false := by
  unfold markers
  cases tag.trimOutside <;> cases tag.trimInside <;> cases tag.selfClosing <;> decide

theorem markers_eq_nil_iff :
    tag.markers = [] ↔ (!tag.trimOutside && !tag.trimInside && !tag.selfClosing) = true := by
  unfold markers
  cases tag.trimOutside <;> cases tag.trimInside <;> cases tag.selfClosing <;> decide

/-- What is written of the start of a line comes first on it. -/
theorem exists_lineText_eq_append (h : tag.heads.flatten ++ tag.markers ≠ []) :
    ∃ rest, tag.lineText = (tag.heads.flatten ++ tag.markers) ++ rest := by
  have hnamed : (tag.heads.flatten ++ tag.markers).isEmpty = false := by simpa using h
  simp only [lineText, hnamed]
  split
  · exact ⟨_, by rw [List.append_assoc, List.append_assoc]⟩
  · split
    · exact ⟨_, rfl⟩
    · split
      · exact ⟨_, rfl⟩
      · exact ⟨[], (List.append_nil _).symm⟩

/-- A line with nothing at its start is the content, the dynamic attributes or a `div`. -/
theorem lineText_of_leading_eq_nil (h : tag.heads.flatten ++ tag.markers = []) :
    tag.lineText =
      if tag.value.truthy then (if tag.parse then "=" else "") ++ " " ++ tag.value.text
      else if tag.dynamic.old.truthy then tag.dynamic.old.text
      else Text.ofString "%div" ++ if tag.objectRef.truthy then tag.objectRef.text else [] := by
  unfold lineText
  rw [h]
  split
  · simp
  · split
    · rfl
    · split
      · rfl
      · rw [List.append_nil]
        rfl

theorem text_ne_nil_of_isOptionalText {value : Json} (h : value.isOptionalText = true)
    (htruthy : value.truthy = true) : value.text ≠ [] := by
  cases value with
  | str s =>
      intro hnil
      rw [show s = [] from hnil] at htruthy
      cases htruthy
  | null => cases htruthy
  | _ => cases h

/-- A line with nothing at its start is no element if it has content, and is one if it has
no dynamic attributes either. -/
theorem startsElement_lineText_iff_of_leading_eq_nil
    (hold : tag.dynamic.old.isOptionalText = true)
    (h : tag.heads.flatten ++ tag.markers = []) :
    tag.lineText ≠ [] ∧ (startsElement tag.lineText = true ↔ tag.value.truthy = false ∧
      (tag.dynamic.old.truthy = true → startsElement tag.dynamic.old.text = true)) := by
  rw [lineText_of_leading_eq_nil h]
  cases hvalue : tag.value.truthy with
  | true =>
      have hcontent : ∀ parse : Bool, startsElement
          ((if parse then "=" else "") ++ Text.ofString " " ++ tag.value.text) = false := by
        intro parse
        cases parse <;> rfl
      rw [if_pos rfl, hcontent]
      exact ⟨by simp [Text.ofString], by simp⟩
  | false =>
      rw [if_neg Bool.false_ne_true]
      cases htruthy : tag.dynamic.old.truthy with
      | true =>
          rw [if_pos rfl]
          exact ⟨text_ne_nil_of_isOptionalText hold htruthy, by simp⟩
      | false =>
          have hdiv : ∀ rest : Text, startsElement (Text.ofString "%div" ++ rest) = true :=
            fun _ => rfl
          rw [if_neg Bool.false_ne_true, hdiv]
          exact ⟨List.cons_ne_nil _ _, by simp⟩

/-- **How the line of a tag without a hash starts.** -/
theorem startsElement_lineText_iff (hhash : tag.hashAttributes.isEmpty = true)
    (hold : tag.dynamic.old.isOptionalText = true) :
    tag.lineText ≠ [] ∧
      (startsElement tag.lineText = true ↔ tag.isIntroduced = true ∨ tag.isBare = true) := by
  cases hintroduced : tag.isIntroduced with
  | true =>
      obtain ⟨c, s, others, hc, hheads⟩ := exists_cons_of_isIntroduced hintroduced
      have hne : tag.heads.flatten ++ tag.markers ≠ [] := by simp [hheads]
      obtain ⟨rest, hline⟩ := exists_lineText_eq_append hne
      have hcons : tag.lineText = c :: (s ++ others.flatten ++ tag.markers ++ rest) := by
        rw [hline, hheads]
        simp
      rw [hcons, startsElement_cons, hc]
      simp
  | false =>
      have hheads : tag.heads.flatten = [] := by
        rw [heads_eq_nil_iff.mpr hintroduced]
        rfl
      by_cases hmarkers : tag.markers = []
      · have hleading : tag.heads.flatten ++ tag.markers = [] := by
          rw [hheads, hmarkers]
          rfl
        obtain ⟨hne, hiff⟩ := startsElement_lineText_iff_of_leading_eq_nil hold hleading
        have hnone := markers_eq_nil_iff.mp hmarkers
        simp only [Bool.and_eq_true] at hnone
        refine ⟨hne, hiff.trans ?_⟩
        simp only [isBare, hhash, hnone]
        cases tag.value.truthy <;> cases tag.dynamic.old.truthy <;> simp
      · have hne : tag.heads.flatten ++ tag.markers ≠ [] := by simpa [hheads] using hmarkers
        obtain ⟨rest, hline⟩ := exists_lineText_eq_append hne
        have hbare : tag.isBare = false := by
          have hsome := markers_eq_nil_iff.not.mp hmarkers
          rw [isBare, hhash, Bool.true_and, (Bool.not_eq_true _).mp hsome]
          rfl
        rw [hline, startsElement_append hne, hheads, List.nil_append, startsElement_markers, hbare]
        exact ⟨by simp [hmarkers], by simp⟩

/-! ## All lines -/

theorem levelFree_header (hold : tag.dynamic.old.isOptionalText = true)
    (hreference : tag.objectRef.isOptionalText = true) :
    tag.header.all Doc.isLevelFree = true := by
  cases hhash : tag.hashAttributes.isEmpty with
  | true =>
      obtain ⟨texts, hheader, -⟩ := exists_header_eq_texts hhash hold hreference
      simp [hheader, Doc.all, Doc.isLevelFree]
  | false =>
      obtain ⟨tails, -, hheader⟩ := exists_header_eq hhash hold hreference
      have hgroup := levelFree_hashGroup (widthOf tag.heads + 1)
        (tag.hashAttributes.map attributePair)
      simpa [hheader, hashLine, Doc.all, Doc.isLevelFree, or_imp, forall_and] using hgroup

/-- **Which tags are written as elements.** The line of a tag is never empty. It starts like
an element exactly if the name, the classes or the id are written, or if there is nothing to
write but an object reference, or dynamic attributes that start like an element themselves. On
a page of integer width the line is laid out if the columns before its hash fit in memory, and
not otherwise. -/
theorem startsElement_header_iff (hold : tag.dynamic.old.isOptionalText = true)
    (hreference : tag.objectRef.isOptionalText = true) (settings : Settings) :
    (∀ out, settings.layout tag.header = .ok out →
      out ≠ [] ∧ (startsElement out = true ↔ tag.isIntroduced = true ∨ tag.isBare = true)) ∧
    ∀ w, settings.printWidth.int? = some w →
      ((∃ out, settings.layout tag.header = .ok out) ↔ tag.isAligned = true) := by
  refine ⟨fun out hout => ?_, fun w hw => ?_⟩
  · cases hhash : tag.hashAttributes.isEmpty with
    | true =>
        obtain ⟨texts, hheader, hline⟩ := exists_header_eq_texts hhash hold hreference
        rw [hheader] at hout
        rw [Settings.eq_flatten_of_layout_texts hout, hline]
        exact startsElement_lineText_iff hhash hold
    | false =>
        obtain ⟨tails, -, hheader⟩ := exists_header_eq hhash hold hreference
        rw [hheader] at hout
        have hbare : tag.isBare = false := by rw [isBare, hhash]; rfl
        cases hintroduced : tag.isIntroduced with
        | true =>
            obtain ⟨c, s, others, hc, hheads⟩ := exists_cons_of_isIntroduced hintroduced
            have hshown : Text.isIndent c = false := by
              rw [isElementMark, Bool.or_eq_true, Bool.or_eq_true, beq_iff_eq, beq_iff_eq,
                beq_iff_eq] at hc
              obtain (rfl | rfl) | rfl := hc <;> decide
            obtain ⟨rest, rfl⟩ := Settings.exists_cons_of_layout_hashLine hout hshown
              (by rw [hheads]; rfl)
            rw [startsElement_cons, hc]
            simp
        | false =>
            obtain ⟨rest, rfl⟩ := Settings.exists_cons_of_layout_hashLine (c := '\x7b') hout
              (by decide) (by rw [heads_eq_nil_iff.mpr hintroduced]; rfl)
            rw [startsElement_cons, hbare]
            exact ⟨List.cons_ne_nil _ _, by decide⟩
  · have hdemands := demands_header hold hreference
    have hordinary := (Doc.all_and (p := Doc.isProper) (q := Doc.isPlainChoice) _).mp
      hdemands.ordinary
    rw [(Settings.layout_ok_iff_of_isLevelFree hw hordinary.1 (levelFree_header hold hreference)
      hordinary.2).1, hdemands.feasible, Bool.true_or, Bool.true_and]

/-- A `div` with content is a line of plain text, one with an attribute a line in braces and one
that closes itself a comment; a class or an object reference makes it an element. -/
theorem startsElement_header_iff_of_div :
    let div (attributes : List (Text × Text)) (closing : Bool) (value ref : Json) : Tag :=
      ⟨.str "div", attributes, closing, false, false, value, false, ⟨.null, .null⟩, ref⟩
    let lost : List Tag := [div [] false (.str "hi") .null, div [("title", "t")] false .null .null,
      div [] true .null (.str "[x]")]
    let kept : List Tag := [div [("class", "a")] false (.str "hi") .null,
      div [] false .null (.str "[x]"), div [] false .null .null]
    lost.map (fun tag => Settings.layout {} tag.header) =
        [.ok " hi", .ok "\x7b\"title\" => \"t\"\x7d", .ok "/[x]"] ∧
      kept.map (fun tag => Settings.layout {} tag.header) =
        [.ok ".a hi", .ok "%div[x]", .ok "%div"] ∧
      (∀ tag ∈ lost ++ kept, tag.dynamic.old.isOptionalText = true ∧
        tag.objectRef.isOptionalText = true) ∧
      (∀ tag ∈ lost, ∀ out, Settings.layout {} tag.header = .ok out →
        startsElement out = false) ∧
      ∀ tag ∈ kept, ∀ out, Settings.layout {} tag.header = .ok out → startsElement out = true := by
  intro div lost kept
  have htexts : ∀ tag ∈ lost ++ kept, tag.dynamic.old.isOptionalText = true ∧
      tag.objectRef.isOptionalText = true := by decide +kernel
  have hlost : ∀ tag ∈ lost, (tag.isIntroduced || tag.isBare) = false := by decide +kernel
  have hkept : ∀ tag ∈ kept, (tag.isIntroduced || tag.isBare) = true := by decide +kernel
  refine ⟨by decide +kernel, by decide +kernel, htexts, fun tag htag out hout => ?_,
    fun tag htag out hout => ?_⟩
  · obtain ⟨hold, hreference⟩ := htexts tag (List.mem_append_left _ htag)
    rw [← Bool.not_eq_true, ((startsElement_header_iff hold hreference {}).1 out hout).2,
      ← Bool.or_eq_true, hlost tag htag]
    exact Bool.false_ne_true
  · obtain ⟨hold, hreference⟩ := htexts tag (List.mem_append_right _ htag)
    rw [((startsElement_header_iff hold hreference {}).1 out hout).2, ← Bool.or_eq_true]
    exact hkept tag htag

end Tag

end HamlFormat
