import Mathlib.Data.Set.List
import HamlFormat.Proofs.Print.Element

/-!
# HamlFormat.Proofs.Print.Classes

What a tag's line shows of its class attribute. The classes are the words of its value, and
each is written after a dot (`Tag.flatten_classHeads`), so the white space around them does not
show. There is one exception: a value of white space alone has no words, and is written as a
dot nevertheless, where an empty value is not written. Two values with the same words therefore
give the same line unless one of them is empty and the other one is blank, and then they never do
(`Tag.header_withClass_iff`).
-/

namespace HamlFormat

open Layout

/-! ## The start of a line -/

/-- An output that starts with a text that ends in a character that shows keeps that text,
whatever is trimmed later. -/
theorem exists_rowsOf_append {margin : Indentation → Text} {texts : List Text}
    (hkeep : ∀ c ∈ texts.flatten.getLast?, Text.isIndent c = false) (ps : List Piece) :
    ∃ rest, (rowsOf margin (texts.map .text ++ ps)).text = texts.flatten ++ rest := by
  induction ps using List.reverseRecOn with
  | nil => exact ⟨[], by rw [List.append_nil, text_rowsOf_texts, List.append_nil]⟩
  | append_singleton ps piece ih =>
      obtain ⟨rest, hrest⟩ := ih
      rw [← List.append_assoc, rowsOf_concat]
      cases piece with
      | newline i =>
          rw [Rows.text_write_newline, hrest, Text.stripRight_append_of_keep hkeep]
          exact ⟨_, List.append_assoc _ _ _⟩
      | text _ | unbroken _ =>
          rw [Rows.text_write_inline _ (by simp), hrest]
          exact ⟨_, List.append_assoc _ _ _⟩

namespace Settings

variable {settings : Settings} {out : Text}

/-- A line with a hash starts with what stands before the hash, and with its brace. -/
theorem exists_append_of_layout_hashLine {heads pairs tails : List Text} {columns : Int}
    (h : settings.layout (.group (hashLine heads columns pairs tails) false) = .ok out) :
    ∃ rest, out = heads.flatten ++ Text.ofString "\x7b" ++ rest := by
  obtain ⟨rest, ps, hprints, rfl⟩ := exists_prints_of_layout_hashLine h
  obtain ⟨others, hps⟩ : ∃ others, ps = (heads ++ [Text.ofString "\x7b"]).map .text ++ others := by
    have hfront :=
      List.forall₂_take ((heads ++ [Text.ofString "\x7b"]).map Leaf.text).length hprints
    rw [List.take_left] at hfront
    exact ⟨ps.drop _, by rw [← eq_of_prints_texts hfront, List.take_append_drop]⟩
  have hkeep : ∀ c ∈ (heads ++ [Text.ofString "\x7b"]).flatten.getLast?,
      Text.isIndent c = false := by
    intro c hc
    rw [List.flatten_append, List.flatten_singleton, List.getLast?_append] at hc
    cases hc
    decide
  obtain ⟨rest, hrest⟩ : ∃ rest, (rowsOf settings.margin ps).text =
      (heads ++ [Text.ofString "\x7b"]).flatten ++ rest := hps ▸ exists_rowsOf_append hkeep others
  exact ⟨rest, by rw [hrest, List.flatten_append, List.flatten_singleton]⟩

end Settings

/-! ## Tags with a class attribute -/

namespace Tag

variable {tag : Tag} {front back : List (Text × Text)} {settings : Settings} {out : Text}

/-- What is written of a tag's name. -/
def nameHeads (tag : Tag) : List Text :=
  if tag.name.isText "div" then [] else ["%" ++ tag.name.text]

/-- What is written of the classes. -/
def classHeads (value : Text) : List Text :=
  if value.isEmpty then [] else ["." ++ List.intercalate "." (Text.words value)]

/-- What is written of the id. -/
def idHeads (tag : Tag) : List Text :=
  match tag.attribute? "id" with
  | none => []
  | some value => if value.isEmpty then [] else ["#" ++ value]

/-- The tag with a class attribute of a given value, between other attributes. -/
def withClass (tag : Tag) (front back : List (Text × Text)) (value : Text) : Tag :=
  { tag with attributes := front ++ (Text.ofString "class", value) :: back }

theorem attribute?_withClass (hfront : ∀ a ∈ front, a.1 ≠ "class") (value : Text) :
    (tag.withClass front back value).attribute? "class" = some value := by
  have hnone : front.lookup (Text.ofString "class") = none := by
    rw [List.lookup_eq_none_iff]
    intro a ha
    simpa using (hfront a ha).symm
  simp [attribute?, withClass, List.lookup_append, hnone]

/-- Other attributes do not depend on the classes. -/
theorem attribute?_withClass_of_ne {name : Text} (hname : name ≠ "class") (value : Text) :
    (tag.withClass front back value).attribute? name = (front ++ back).lookup name := by
  have hne : (name == Text.ofString "class") = false := by simpa using hname
  simp [attribute?, withClass, List.lookup_append, List.lookup_cons, hne]

theorem idHeads_eq_or (tag : Tag) :
    tag.idHeads = [] ∨ ∃ value : Text, tag.idHeads = ["#" ++ value] := by
  unfold idHeads
  split
  · exact .inl rfl
  · split
    · exact .inl rfl
    · exact .inr ⟨_, rfl⟩

theorem heads_eq (tag : Tag) :
    tag.heads = tag.nameHeads ++ ((tag.attribute? "class").map classHeads).getD [] ++
      tag.idHeads := by
  cases hclass : tag.attribute? "class" with
  | none => simp only [heads, hclass]; rfl
  | some value => simp only [heads, hclass]; rfl

theorem idHeads_withClass (value : Text) :
    (tag.withClass front back value).idHeads = (tag.withClass front back []).idHeads := by
  have hname : Text.ofString "id" ≠ "class" := by decide
  rw [idHeads, idHeads, attribute?_withClass_of_ne hname, attribute?_withClass_of_ne hname]

theorem heads_withClass (hfront : ∀ a ∈ front, a.1 ≠ "class") (value : Text) :
    (tag.withClass front back value).heads =
      tag.nameHeads ++ classHeads value ++ (tag.withClass front back []).idHeads := by
  rw [heads_eq, attribute?_withClass hfront, idHeads_withClass]
  rfl

theorem hashAttributes_withClass (value : Text) :
    (tag.withClass front back value).hashAttributes =
      (tag.withClass front back []).hashAttributes := by
  simp [hashAttributes, withClass, isShorthand]

/-- The line of a tag depends on the attributes by what is written of the classes and the id,
and by the hash. -/
theorem header_congr {as bs : List (Text × Text)}
    (hheads : { tag with attributes := as }.heads = { tag with attributes := bs }.heads)
    (hhash : { tag with attributes := as }.hashAttributes =
      { tag with attributes := bs }.hashAttributes) :
    { tag with attributes := as }.header = { tag with attributes := bs }.header := by
  have hleading :
      { tag with attributes := as }.leading = { tag with attributes := bs }.leading := by
    simp only [leading, hheads, hhash]
  have htrailing :
      { tag with attributes := as }.trailing = { tag with attributes := bs }.trailing := by
    simp only [trailing, hleading]
  simp only [header, hleading, htrailing]

/-! ## What follows the start of a line -/

/-- What follows on a line is given as texts and as values of the tag. -/
theorem exists_of_mem_trailing {doc : Doc} (h : doc ∈ tag.trailing) :
    (∃ s, doc = .text s) ∨ ∃ value, doc = .ofJson value := by
  unfold trailing at h
  split_ifs at h with _ _ _ hleading
  · exact .inl ⟨_, List.mem_singleton.mp h⟩
  · exact .inl ⟨_, List.mem_singleton.mp h⟩
  · exact .inr ⟨_, List.mem_singleton.mp h⟩
  · rcases List.mem_cons.mp h with h | h
    · exact .inl ⟨_, h⟩
    · exact .inr ⟨_, List.mem_singleton.mp h⟩
  · exact .inr ⟨_, List.mem_singleton.mp h⟩
  · cases h

/-- What follows on a line that is laid out is made of texts. -/
theorem exists_trailing_eq_of_layout (h : settings.layout tag.header = .ok out) :
    ∃ texts : List Text, tag.trailing = texts.map .text := by
  have hproper := Settings.all_isProper_of_layout h
  have htexts : ∀ doc ∈ tag.trailing, doc ∈ Set.range Doc.text := by
    intro doc hdoc
    have hne : (tag.leading ++ tag.trailing).isEmpty = false := by
      simp [List.ne_nil_of_mem hdoc]
    simp only [header, hne, Bool.false_and, Doc.all, Doc.listAll_eq_true, Doc.isProper,
      Bool.true_and] at hproper
    have hdocProper := hproper doc (List.mem_append_right _ hdoc)
    obtain ⟨s, rfl⟩ | ⟨value, rfl⟩ := exists_of_mem_trailing hdoc
    · exact ⟨s, rfl⟩
    · cases value with
      | str s => exact ⟨s, rfl⟩
      | _ => cases hdocProper
  have hrange : tag.trailing ∈ Set.range (List.map Doc.text) := by
    rw [Set.range_list_map]
    exact htexts
  obtain ⟨texts, htexts⟩ := hrange
  exact ⟨texts, htexts.symm⟩

/-- The line of a tag with a hash starts with the name, the classes and the id, and the brace. -/
theorem exists_append_of_layout_header (hhash : tag.hashAttributes.isEmpty = false)
    (h : settings.layout tag.header = .ok out) :
    ∃ rest, out = tag.heads.flatten ++ Text.ofString "\x7b" ++ rest := by
  obtain ⟨texts, htexts⟩ := exists_trailing_eq_of_layout h
  obtain ⟨marks, -, hleading⟩ := exists_leading_eq hhash
  have hheader : tag.header = .group (hashLine tag.heads (widthOf tag.heads + 1)
      (tag.hashAttributes.map attributePair) (marks ++ texts)) false := by
    rw [header, htexts, hleading, hashDoc_eq, hashLine]
    simp
  rw [hheader] at h
  exact Settings.exists_append_of_layout_hashLine h

/-- The line of a tag without a hash is the start and what follows it, or a `div` if there is
neither. -/
theorem eq_of_layout_header (hhash : tag.hashAttributes.isEmpty = true) {texts : List Text}
    (htexts : tag.trailing = texts.map .text) (h : settings.layout tag.header = .ok out) :
    out = if (tag.leadingTexts ++ texts).isEmpty then Text.ofString "%div"
      else (tag.leadingTexts ++ texts).flatten := by
  have hdocs : tag.leading ++ tag.trailing = (tag.leadingTexts ++ texts).map .text := by
    rw [leading_eq hhash, htexts, List.map_append]
  cases hparts : (tag.leadingTexts ++ texts).isEmpty with
  | true =>
      have hname : tag.name.isText "div" = true :=
        isText_div_of_leadingTexts (List.append_eq_nil_iff.mp (List.isEmpty_iff.mp hparts)).1
      have hheader : tag.header = .group (.concat ([Text.ofString "%div"].map .text)) false := by
        simp only [header, hdocs, List.isEmpty_map, hparts, hname]
        rfl
      rw [hheader] at h
      exact Settings.eq_flatten_of_layout_texts h
  | false =>
      have hheader : tag.header =
          .group (.concat ((tag.leadingTexts ++ texts).map .text)) false := by
        simp only [header, hdocs, List.isEmpty_map, hparts]
        rfl
      rw [hheader] at h
      exact Settings.eq_flatten_of_layout_texts h

/-- The line of a tag starts with the name, the classes and the id. -/
theorem exists_heads_of_layout_header (h : settings.layout tag.header = .ok out) :
    ∃ rest, out = tag.heads.flatten ++ rest := by
  cases hhash : tag.hashAttributes.isEmpty with
  | true =>
      obtain ⟨texts, htexts⟩ := exists_trailing_eq_of_layout h
      rw [eq_of_layout_header hhash htexts h]
      split
      · next hempty =>
          have hleading := (List.append_eq_nil_iff.mp (List.isEmpty_iff.mp hempty)).1
          have hheads : tag.heads.flatten ++ tag.markers = [] := by
            rw [← flatten_leadingTexts, hleading]
            rfl
          exact ⟨_, by rw [(List.append_eq_nil_iff.mp hheads).1, List.nil_append]⟩
      · exact ⟨_, by rw [List.flatten_append, flatten_leadingTexts, List.append_assoc]⟩
  | false =>
      obtain ⟨rest, rfl⟩ := exists_append_of_layout_header hhash h
      exact ⟨_, by rw [List.append_assoc]⟩

/-! ## Classes -/

/-- **Each class is written after a dot.** A value of white space alone is written as a dot,
though it has no classes. -/
theorem flatten_classHeads (value : Text) :
    (classHeads value).flatten =
      if (Text.words value).isEmpty && !value.isEmpty then Text.ofString "."
      else (Text.words value).flatMap fun token => Text.ofString "." ++ token := by
  have hjoin : ∀ (first : Text) (others : List Text),
      Text.ofString "." ++ List.intercalate (Text.ofString ".") (first :: others) =
        (first :: others).flatMap fun token => Text.ofString "." ++ token := by
    intro first others
    induction others generalizing first with
    | nil => simp
    | cons second others ih =>
        rw [List.intercalate_cons_cons, List.flatMap_cons, ← ih second]
        simp
  cases value with
  | nil => rfl
  | cons c cs =>
      have hheads : (classHeads (c :: cs)).flatten =
          Text.ofString "." ++ List.intercalate (Text.ofString ".") (Text.words (c :: cs)) :=
        List.flatten_singleton
      rw [hheads]
      cases Text.words (c :: cs) with
      | nil => rfl
      | cons first others => exact hjoin first others

theorem classHeads_eq_nil_iff {value : Text} : classHeads value = [] ↔ value.isEmpty = true := by
  cases value with
  | nil => exact ⟨fun _ => rfl, fun _ => rfl⟩
  | cons c cs => exact ⟨fun h => absurd h (List.cons_ne_nil _ _), fun h => by cases h⟩

/-- Two values with the same classes are written alike unless one is empty and the other is
blank. -/
theorem classHeads_eq_iff {c₁ c₂ : Text} (hwords : Text.words c₁ = Text.words c₂) :
    classHeads c₁ = classHeads c₂ ↔ Text.words c₁ ≠ [] ∨ c₁.isEmpty = c₂.isEmpty := by
  constructor
  · intro h
    refine .inr (Bool.eq_iff_iff.mpr ?_)
    rw [← classHeads_eq_nil_iff, ← classHeads_eq_nil_iff, h]
  · rintro (hne | hempty)
    · have hfilled : ∀ c, Text.words c ≠ [] → c.isEmpty = false := by
        intro c hc
        cases c with
        | nil => exact absurd rfl hc
        | cons _ _ => rfl
      rw [classHeads, classHeads, hfilled c₁ hne, hfilled c₂ (hwords ▸ hne), hwords]
    · rw [classHeads, classHeads, hempty, hwords]

/-- What follows the start of a line does not depend on it if there is one; if there is not,
an object reference may come after a `div`. -/
theorem trailing_eq_or {as bs : List (Text × Text)}
    (hbs : { tag with attributes := bs }.leading.isEmpty = false) :
    { tag with attributes := as }.trailing = { tag with attributes := bs }.trailing ∨
      { tag with attributes := as }.leading.isEmpty = true ∧
        { tag with attributes := as }.trailing =
          .text "%div" :: { tag with attributes := bs }.trailing := by
  cases has : { tag with attributes := as }.leading.isEmpty with
  | false =>
      left
      simp only [trailing, has, hbs]
  | true =>
      simp only [trailing, has, hbs]
      cases tag.value.truthy <;> cases tag.dynamic.old.truthy <;>
        cases tag.objectRef.truthy <;> simp

/-- Lines without a hash have different lengths if one starts with a character more: they
differ by that, or by a `div` in its place. -/
theorem length_ne_of_layout_header {as bs : List (Text × Text)} {out' : Text}
    (has : { tag with attributes := as }.hashAttributes.isEmpty = true)
    (hbs : { tag with attributes := bs }.hashAttributes.isEmpty = true)
    (hlonger : { tag with attributes := bs }.leadingTexts.flatten.length =
      { tag with attributes := as }.leadingTexts.flatten.length + 1)
    (hout : settings.layout { tag with attributes := as }.header = .ok out)
    (hout' : settings.layout { tag with attributes := bs }.header = .ok out') :
    out.length ≠ out'.length := by
  obtain ⟨texts, htexts⟩ := exists_trailing_eq_of_layout hout
  obtain ⟨texts', htexts'⟩ := exists_trailing_eq_of_layout hout'
  have hnamed : { tag with attributes := bs }.leadingTexts ≠ [] := by
    intro hnil
    rw [hnil] at hlonger
    cases hlonger
  have hleading : { tag with attributes := bs }.leading.isEmpty = false := by
    rw [leading_eq hbs]
    simpa using hnamed
  have hlength' : out'.length =
      { tag with attributes := as }.leadingTexts.flatten.length + 1 + texts'.flatten.length := by
    rw [eq_of_layout_header hbs htexts' hout', if_neg (by simp [hnamed]), List.flatten_append,
      List.length_append, hlonger]
  have hdiv : (Text.ofString "%div").length = 4 := rfl
  have hsame : ∀ {xs ys : List Text}, xs.map Doc.text = ys.map .text → xs = ys := fun h =>
    List.map_injective_iff.mpr (fun _ _ h => Doc.text.inj h) h
  have hlength := congrArg List.length (eq_of_layout_header has htexts hout)
  obtain hequal | ⟨hempty, hnew⟩ := @trailing_eq_or tag as bs hleading
  · rw [htexts, htexts'] at hequal
    rw [hsame hequal] at hlength
    split at hlength
    · next h =>
        rw [List.isEmpty_iff, List.append_eq_nil_iff] at h
        rw [h.1, h.2] at hlength'
        simp at hlength'
        omega
    · rw [List.flatten_append, List.length_append] at hlength
      omega
  · rw [htexts, htexts'] at hnew
    have hstart : { tag with attributes := as }.leadingTexts = [] := by
      rw [leading_eq has] at hempty
      simpa using hempty
    have hcons : texts = Text.ofString "%div" :: texts' := hsame hnew
    rw [hstart, hcons, if_neg (by simp), List.nil_append, List.flatten_cons,
      List.length_append] at hlength
    rw [hstart, List.flatten_nil, List.length_nil] at hlength'
    omega

/-- An empty and a blank class attribute never give the same line. -/
theorem ne_of_layout_blank (hfront : ∀ a ∈ front, a.1 ≠ "class") {blank : Text}
    (hblank : blank.isEmpty = false) (hwords : Text.words blank = []) {dotted : Text}
    (hout : settings.layout (tag.withClass front back []).header = .ok out)
    (hdotted : settings.layout (tag.withClass front back blank).header = .ok dotted) :
    out ≠ dotted := by
  have hheads : (tag.withClass front back []).heads.flatten =
      tag.nameHeads.flatten ++ (tag.withClass front back []).idHeads.flatten := by
    rw [heads_withClass hfront, List.flatten_append, List.flatten_append]
    exact congrArg (· ++ _) (List.append_nil _)
  have hheadsDotted : (tag.withClass front back blank).heads.flatten =
      tag.nameHeads.flatten ++ Text.ofString "." ++
        (tag.withClass front back []).idHeads.flatten := by
    have hdot : classHeads blank = [Text.ofString "."] := by
      rw [classHeads, hblank, hwords]
      rfl
    rw [heads_withClass hfront, hdot, List.flatten_append, List.flatten_append,
      List.flatten_singleton]
  have hhash : (tag.withClass front back blank).hashAttributes =
      (tag.withClass front back []).hashAttributes := hashAttributes_withClass blank
  intro heq
  cases hempty : (tag.withClass front back []).hashAttributes.isEmpty with
  | false =>
      -- the id or the brace of the hash stands where the dot does
      obtain ⟨rest, hrest⟩ := exists_append_of_layout_header hempty hout
      obtain ⟨restDotted, hrestDotted⟩ :=
        exists_append_of_layout_header (by rw [hhash, hempty]) hdotted
      rw [hrest, hrestDotted, hheads, hheadsDotted] at heq
      simp only [List.append_assoc, List.append_cancel_left_eq] at heq
      obtain hid | ⟨value, hid⟩ := idHeads_eq_or (tag.withClass front back [])
      · rw [hid] at heq
        exact absurd (List.cons.inj heq).1 (by decide)
      · rw [hid] at heq
        exact absurd (List.cons.inj heq).1 (by decide)
  | true =>
      have hlonger : (tag.withClass front back blank).leadingTexts.flatten.length =
          (tag.withClass front back []).leadingTexts.flatten.length + 1 := by
        have hmarkers : (tag.withClass front back blank).markers =
          (tag.withClass front back []).markers := rfl
        rw [flatten_leadingTexts, flatten_leadingTexts, hheads, hheadsDotted, hmarkers]
        simp [Text.ofString]
        omega
      exact length_ne_of_layout_header hempty (by rw [← hhash] at hempty; exact hempty) hlonger
        hout hdotted (congrArg List.length heq)

/-- A tag with an empty class attribute has the line that it has without it. -/
theorem header_withClass_nil (hfront : ∀ a ∈ front, a.1 ≠ "class")
    (hback : ∀ a ∈ back, a.1 ≠ "class") :
    (tag.withClass front back []).header = { tag with attributes := front ++ back }.header := by
  have hclass : { tag with attributes := front ++ back }.attribute? "class" = none := by
    rw [attribute?, List.lookup_eq_none_iff]
    intro a ha
    simpa using ((List.forall_mem_append.mpr ⟨hfront, hback⟩) a ha).symm
  have hid : { tag with attributes := front ++ back }.idHeads =
      (tag.withClass front back []).idHeads := by
    rw [idHeads, idHeads, attribute?_withClass_of_ne (by decide)]
    rfl
  refine header_congr ?_ ?_
  · rw [heads_eq { tag with attributes := front ++ back }, hclass, hid]
    exact heads_withClass hfront []
  · simp [hashAttributes, isShorthand]

/-- **What a line shows of the classes.** For two values of a tag's class attribute with the same
words, the lines are the same if there are such words, or if both values are empty or neither
is; and else they never are. The line starts with the name, with a dot and a class for each
word in order, and with the id. Without words a dot stands in place of the classes, unless the
value is empty: then the line is that of the tag without the attribute. -/
theorem header_withClass_iff (hfront : ∀ a ∈ front, a.1 ≠ "class") {c₁ c₂ : Text}
    (hwords : Text.words c₁ = Text.words c₂) :
    (Text.words c₁ ≠ [] ∨ c₁.isEmpty = c₂.isEmpty →
      (tag.withClass front back c₁).header = (tag.withClass front back c₂).header) ∧
    (∀ (settings : Settings) (out₁ out₂ : Text),
      settings.layout (tag.withClass front back c₁).header = .ok out₁ →
      settings.layout (tag.withClass front back c₂).header = .ok out₂ →
      (out₁ = out₂ ↔ Text.words c₁ ≠ [] ∨ c₁.isEmpty = c₂.isEmpty)) ∧
    (∀ (settings : Settings) (out : Text),
      settings.layout (tag.withClass front back c₁).header = .ok out →
      ∃ rest, out = tag.nameHeads.flatten ++
        (if (Text.words c₁).isEmpty && !c₁.isEmpty then Text.ofString "."
          else (Text.words c₁).flatMap fun token => Text.ofString "." ++ token) ++
        (tag.withClass front back c₁).idHeads.flatten ++ rest) ∧
    ((∀ a ∈ back, a.1 ≠ "class") →
      (tag.withClass front back []).header = { tag with attributes := front ++ back }.header) := by
  have hheader : Text.words c₁ ≠ [] ∨ c₁.isEmpty = c₂.isEmpty →
      (tag.withClass front back c₁).header = (tag.withClass front back c₂).header := by
    intro h
    have hclasses := (classHeads_eq_iff hwords).mpr h
    refine header_congr ?_ ((hashAttributes_withClass c₁).trans (hashAttributes_withClass c₂).symm)
    refine (heads_withClass hfront c₁).trans ?_
    rw [hclasses]
    exact (heads_withClass hfront c₂).symm
  refine ⟨hheader, fun settings out₁ out₂ h₁ h₂ => ⟨fun heq => ?_, fun h => ?_⟩,
    fun settings out h => ?_, header_withClass_nil hfront⟩
  · by_contra hnot
    rw [not_or, not_not] at hnot
    obtain ⟨hnone, hdiffer⟩ := hnot
    cases hempty₁ : c₁.isEmpty with
    | true =>
        cases List.isEmpty_iff.mp hempty₁
        have hempty₂ : c₂.isEmpty = false := by simpa [hempty₁] using hdiffer
        exact ne_of_layout_blank hfront hempty₂ (hwords ▸ hnone) h₁ h₂ heq
    | false =>
        have hempty₂ : c₂.isEmpty = true := by simpa [hempty₁] using hdiffer
        cases List.isEmpty_iff.mp hempty₂
        exact ne_of_layout_blank hfront hempty₁ hnone h₂ h₁ heq.symm
  · rw [hheader h, h₂] at h₁
    exact (Except.ok.inj h₁).symm
  · obtain ⟨rest, hrest⟩ := exists_heads_of_layout_header h
    refine ⟨rest, ?_⟩
    rw [hrest, heads_withClass hfront, List.flatten_append, List.flatten_append,
      flatten_classHeads, idHeads_withClass c₁]

/-- White space around classes and between them does not show; a blank value shows as a dot,
and an empty one does not. -/
theorem header_withClass_iff_of_spaces :
    let tag : Tag := ⟨.str "p", [], false, false, false, .null, false, ⟨.null, .null⟩, .null⟩
    let line (value : Text) : Except Fault Text :=
      Settings.layout {} (tag.withClass [("title", "t")] [("id", "x")] value).header
    line " a\t\u00a0b\n" = .ok "%p.a.b#x\x7b\"title\" => \"t\"\x7d" ∧
      line " a\t\u00a0b\n" = line "a b" ∧
      line "" = .ok "%p#x\x7b\"title\" => \"t\"\x7d" ∧
      line "\u3000" = .ok "%p.#x\x7b\"title\" => \"t\"\x7d" ∧ line "" ≠ line "\u3000" := by
  intro tag line
  have hfront : ∀ a ∈ [(Text.ofString "title", Text.ofString "t")], a.1 ≠ "class" := by decide
  have hempty : line "" = .ok "%p#x\x7b\"title\" => \"t\"\x7d" := by decide +kernel
  have hblank : line "\u3000" = .ok "%p.#x\x7b\"title\" => \"t\"\x7d" := by decide +kernel
  refine ⟨by decide +kernel, ?_, hempty, hblank, fun heq => ?_⟩
  · exact congrArg (Settings.layout {})
      ((header_withClass_iff hfront (by decide)).1 (.inl (by decide)))
  · rw [hempty, hblank] at heq
    have hsame := ((header_withClass_iff hfront (by decide)).2.1 {} _ _ hempty hblank).mp
      (Except.ok.inj heq)
    revert hsame
    decide

end Tag

end HamlFormat
