import HamlFormat.Doc.Describe
import HamlFormat.Proofs.Json.Number
import HamlFormat.Proofs.Json.Strings
import HamlFormat.Proofs.Layout.Alike
import HamlFormat.Settings

/-!
# HamlFormat.Proofs.Doc.Describe

Builder calls say which document they make. A hard line break is described without
saying whether it is soft, which no layout looks at; but for that, two documents with
the same description are the same (`describe_eq_iff`).

Descriptions can be read from left to right. Each starts with a word that tells the
kind of the document, and none of these words is the start of another one
(`opening_eq_of_append`); a string ends at its first quote that is not escaped, a
number at the comma after it, and a list of arguments goes on with a comma or ends with
a bracket. So a text that starts with the description of a document starts with that of
no other, and the description ends at one place only (`isReadable`).
-/

namespace HamlFormat

/-! ## Strings and numbers -/

namespace Json

/-- What a character is read as that is written as it is where a string can hold it. -/
def plainPart (c : CodePoint) : StringPart :=
  if (escapeLetter? c).isSome || isStringText c then .char c else .unit c.val

theorem plainPart_inj {c d : CodePoint} (h : plainPart c = plainPart d) : c = d := by
  simp only [plainPart] at h
  split at h <;> split at h
  · exact StringPart.char.inj h
  · cases h
  · cases h
  · exact Fin.ext (StringPart.unit.inj h)

/-- A character is read as itself, or as the unit that it was written as. -/
theorem stringParts_escapePlain (c : CodePoint) {t rest : Text} {parts : List StringPart}
    (h : stringParts t = .ok (parts, rest)) :
    stringParts (escapeChar isStringText c ++ t) = .ok (plainPart c :: parts, rest) := by
  rw [escapeChar, plainPart]
  cases hletter : escapeLetter? c with
  | some letter =>
      obtain ⟨hread, hne⟩ := letterEscape?_of_escapeLetter? hletter
      show stringParts (CodePoint.ofChar '\\' :: letter :: t) = .ok (.char c :: parts, rest)
      rw [stringParts.eq_def]
      simp only [beq_false_of_ne hne, hread, h, Fault.ok_bind]
      rfl
  | none =>
      by_cases hplain : isStringText c = true
      · have hquote : (c == CodePoint.ofChar '"') = false := by
          rw [beq_eq_false_iff_ne]
          rintro rfl
          cases hletter
        have hbackslash : (c == CodePoint.ofChar '\\') = false := by
          rw [beq_eq_false_iff_ne]
          rintro rfl
          cases hletter
        have hcontrol : ¬c.val < 0x20 := by
          simp only [isStringText, decide_eq_true_eq] at hplain
          omega
        simp only [hplain, Bool.or_true, if_true]
        show stringParts (c :: t) = .ok (.char c :: parts, rest)
        rw [stringParts.eq_def]
        simp only [hquote, hbackslash, hcontrol, h, Fault.ok_bind]
        rfl
      · have hbasic : c.val < 0x10000 := by
          simp only [isStringText, decide_eq_true_eq] at hplain
          omega
        simp only [hplain, numericEscape, hbasic, Option.isSome_none, Bool.or_self,
          Bool.false_eq_true, if_false, if_true]
        exact stringParts_unitEscape hbasic h

/-- **A string ends where its description says.** -/
theorem describeText_append_inj {s t r q : Text}
    (h : Doc.describeText s ++ r = Doc.describeText t ++ q) : s = t ∧ r = q := by
  have hread : ∀ (s rest : Text), stringParts (s.flatMap (escapeChar isStringText) ++
      CodePoint.ofChar '"' :: rest) = .ok (s.map plainPart, rest) := by
    intro s rest
    induction s with
    | nil => exact stringParts_quote rest
    | cons c s ih =>
        rw [List.flatMap_cons, List.append_assoc]
        exact stringParts_escapePlain c ih
  simp only [Doc.describeText, stringText, List.append_assoc, List.append_cancel_left_eq] at h
  have hparts := (hread s r).symm.trans ((congrArg stringParts h).trans (hread t q))
  simp only [Except.ok.injEq, Prod.mk.injEq] at hparts
  exact ⟨List.map_injective_iff.mpr (fun _ _ => plainPart_inj) hparts.1, hparts.2⟩

/-- Integers are written without commas. -/
theorem comma_notMem_intText (n : Int) : CodePoint.ofChar ',' ∉ intText n := by
  rw [intText, List.mem_append, not_or]
  constructor
  · split <;> decide
  · intro hdigit
    have := isDigit_of_mem_digitsOf _ hdigit
    revert this
    decide

/-- Integers that are written alike are the same. -/
theorem intText_inj {m n : Int} (h : intText m = intText n) : m = n := by
  have hminus : ∀ k, CodePoint.ofChar '-' ∉ Decimal.digitsOf k := by
    intro k hdigit
    have := isDigit_of_mem_digitsOf _ hdigit
    revert this
    decide
  have habs : ∀ {a b : Int}, Decimal.digitsOf a.natAbs = Decimal.digitsOf b.natAbs →
      a.natAbs = b.natAbs := by
    intro a b hdigits
    rw [← digitsValue_digitsOf a.natAbs, hdigits, digitsValue_digitsOf]
  simp only [intText] at h
  split at h <;> split at h
  · have := habs (List.append_cancel_left h)
    omega
  · have hmem : CodePoint.ofChar '-' ∈ Text.ofString "" ++ Decimal.digitsOf n.natAbs :=
      h ▸ List.mem_append_left _ (by decide)
    exact absurd hmem (hminus n.natAbs)
  · have hmem : CodePoint.ofChar '-' ∈ Text.ofString "" ++ Decimal.digitsOf m.natAbs :=
      h ▸ List.mem_append_left _ (by decide)
    exact absurd hmem (hminus m.natAbs)
  · have := habs (List.append_cancel_left h)
    omega

/-- **An integer ends at the comma after it.** -/
theorem intText_append_inj {m n : Int} {r q : Text}
    (h : intText m ++ CodePoint.ofChar ',' :: r = intText n ++ CodePoint.ofChar ',' :: q) :
    m = n ∧ r = q := by
  have hfirst : ∀ (k : Int) (rest : Text), (intText k ++ CodePoint.ofChar ',' :: rest).takeWhile
      (· != CodePoint.ofChar ',') = intText k := by
    intro k rest
    rw [List.takeWhile_append_of_pos, List.takeWhile_cons_of_neg (by simp), List.append_nil]
    intro c hc
    rw [bne_iff_ne]
    rintro rfl
    exact comma_notMem_intText k hc
  have htext : intText m = intText n := by rw [← hfirst m r, h, hfirst]
  rw [htext, List.append_cancel_left_eq, List.cons.injEq] at h
  exact ⟨intText_inj htext, h.2⟩

end Json

namespace Doc

/-! ## Builder calls -/

mutual

/-- The builder calls that make a document. A plain value has none. -/
def calls : Doc → Text
  | .text s => describeText s
  | .concat parts => "concat([" ++ itemCalls parts
  | .fill parts => "fill([" ++ itemCalls parts
  | .group contents shouldBreak =>
    "group(" ++ calls contents ++ (if shouldBreak then ", should_break=True)" else ")")
  | .indent contents => "indent(" ++ calls contents ++ ")"
  | .align columns contents => "align(" ++ intText columns ++ ", " ++ calls contents ++ ")"
  | .root contents => "mark_as_root(" ++ calls contents ++ ")"
  | .ifBreak whenBroken whenFlat =>
    "if_break(" ++ calls whenBroken ++
      if whenFlat.isEmptyText then Text.ofString ")" else ", " ++ calls whenFlat ++ ")"
  | .line hard soft => if hard then "hardline" else if soft then "softline" else "line"
  | .breakParent => "break_parent"
  | .alien _ => []

/-- The arguments in a list and the brackets that close it. -/
def itemCalls : List Doc → Text
  | [] => "])"
  | part :: parts => calls part ++ moreCalls parts

/-- The arguments after others in a list and the brackets that close it. -/
def moreCalls : List Doc → Text
  | [] => "])"
  | part :: parts => ", " ++ calls part ++ moreCalls parts

end

/-- The arguments in a list have commas between them. -/
theorem intercalate_calls (parts : List Doc) :
    List.intercalate ", " (parts.map calls) ++ "])" = itemCalls parts := by
  cases parts with
  | nil => rfl
  | cons part parts =>
      rw [List.map_cons, itemCalls]
      generalize part.calls = first
      induction parts generalizing first with
      | nil => simp [moreCalls]
      | cons part parts ih =>
          rw [List.map_cons, List.intercalate_cons_cons, List.append_assoc, ih, moreCalls]
          simp

theorem describeList_eq {parts : List Doc} (h : ∀ part ∈ parts, part.describe = .ok part.calls) :
    describeList parts = .ok (parts.map calls) := by
  induction parts with
  | nil => rfl
  | cons part parts ih =>
      rw [describeList, h part (by simp), ih fun d hd => h d (by simp [hd])]
      rfl

/-- **Every document without plain values is described by its builder calls.** -/
theorem describe_eq {doc : Doc} (h : doc.all isProper = true) : doc.describe = .ok doc.calls := by
  induction doc with
  | text s => rfl
  | concat parts ih | fill parts ih =>
      simp only [all, Bool.and_eq_true, listAll_eq_true] at h
      rw [describe, describeList_eq fun d hd => ih d hd (h.2 d hd), calls, ← intercalate_calls]
      simp only [Fault.ok_bind, List.append_assoc]
      rfl
  | group contents shouldBreak ih =>
      simp only [all, Bool.and_eq_true] at h
      cases shouldBreak <;> rw [describe, ih h.2, calls] <;> rfl
  | indent _ ih | align _ _ ih | root _ ih =>
      simp only [all, Bool.and_eq_true] at h
      rw [describe, ih h.2, calls]
      rfl
  | ifBreak whenBroken whenFlat ihBroken ihFlat =>
      simp only [all, Bool.and_eq_true] at h
      rw [describe, ihBroken h.2.1, ihFlat h.2.2, calls]
      cases whenFlat.isEmptyText <;> simp [Fault.ok_bind]
  | line hard soft => cases hard <;> cases soft <;> rfl
  | breakParent => rfl
  | alien value => cases h

/-! ## Reading builder calls -/

/-- The word that the builder calls of a document start with. -/
def opening : Doc → String
  | .text _ => "\""
  | .concat _ => "concat(["
  | .fill _ => "fill(["
  | .group _ _ => "group("
  | .indent _ => "indent("
  | .align _ _ => "align("
  | .root _ => "mark_as_root("
  | .ifBreak _ _ => "if_break("
  | .line hard soft => if hard then "hardline" else if soft then "softline" else "line"
  | .breakParent => "break_parent"
  | .alien _ => ""

theorem isProper_of_all {doc : Doc} (h : doc.all isProper = true) : doc.isProper = true := by
  cases doc with
  | alien value => exact h
  | _ => rfl

/-- The words that builder calls start with. -/
def openings : List String :=
  ["\"", "concat([", "fill([", "group(", "indent(", "align(", "mark_as_root(", "if_break(",
    "hardline", "softline", "line", "break_parent"]

theorem opening_mem_openings {doc : Doc} (h : doc.isProper = true) : doc.opening ∈ openings := by
  cases doc with
  | alien value => cases h
  | line hard soft => cases hard <;> cases soft <;> decide
  | _ => simp [opening, openings]

theorem exists_calls_eq (doc : Doc) : ∃ t, doc.calls = Text.ofString doc.opening ++ t := by
  cases doc with
  | text s => exact ⟨_, List.append_assoc _ _ _⟩
  | line hard soft => exact ⟨[], by cases hard <;> cases soft <;> rfl⟩
  | breakParent | alien _ => exact ⟨[], rfl⟩
  | concat parts | fill parts => exact ⟨itemCalls parts, rfl⟩
  | align _ _ =>
      exact ⟨_, by rw [calls, List.append_assoc, List.append_assoc, List.append_assoc]; rfl⟩
  | _ => exact ⟨_, List.append_assoc _ _ _⟩

/-- The words that builder calls start with can be told apart wherever they stand. -/
theorem opening_eq_of_append {d e : Doc} (hd : d.isProper = true) (he : e.isProper = true)
    {r q : Text} (h : d.calls ++ r = e.calls ++ q) : d.opening = e.opening := by
  have hfree : ∀ a ∈ openings, ∀ b ∈ openings,
      Text.ofString a <+: Text.ofString b → a = b := by decide
  have hda := opening_mem_openings hd
  have heb := opening_mem_openings he
  obtain ⟨t, ht⟩ := d.exists_calls_eq
  obtain ⟨u, hu⟩ := e.exists_calls_eq
  rw [ht, hu, List.append_assoc, List.append_assoc] at h
  have hstart : Text.ofString d.opening <+: Text.ofString e.opening ++ (u ++ q) := ⟨_, h⟩
  obtain hshort | hlong := List.prefix_or_prefix_of_prefix hstart (List.prefix_append _ _)
  · exact hfree _ hda _ heb hshort
  · exact (hfree _ heb _ hda hlong).symm

/-- No argument starts with a bracket that closes a list. -/
theorem calls_append_ne_bracket {doc : Doc} (h : doc.isProper = true) (r q : Text) :
    doc.calls ++ r ≠ CodePoint.ofChar ']' :: q := by
  have hfirst : ∀ a ∈ openings, ∃ c t, Text.ofString a = c :: t ∧ c ≠ CodePoint.ofChar ']' := by
    simp only [openings, List.forall_mem_cons]
    refine ⟨?_, ?_, ?_, ?_, ?_, ?_, ?_, ?_, ?_, ?_, ?_, ?_, List.forall_mem_nil _⟩ <;>
      exact ⟨_, _, rfl, by decide⟩
  obtain ⟨t, ht⟩ := doc.exists_calls_eq
  obtain ⟨c, u, hc, hne⟩ := hfirst _ (opening_mem_openings h)
  rw [ht, hc]
  intro heq
  exact hne (List.cons.inj heq).1

mutual

/-- The document with every hard line break written as `hardBreak`. -/
def canonical : Doc → Doc
  | .text s => .text s
  | .concat parts => .concat (listCanonical parts)
  | .group contents shouldBreak => .group (canonical contents) shouldBreak
  | .indent contents => .indent (canonical contents)
  | .align columns contents => .align columns (canonical contents)
  | .fill parts => .fill (listCanonical parts)
  | .ifBreak whenBroken whenFlat => .ifBreak (canonical whenBroken) (canonical whenFlat)
  | .line hard soft => if hard then .hardBreak else .line false soft
  | .breakParent => .breakParent
  | .root contents => .root (canonical contents)
  | .alien value => .alien value

/-- Several documents with every hard line break written as `hardBreak`. -/
def listCanonical : List Doc → List Doc
  | [] => []
  | part :: parts => canonical part :: listCanonical parts

end

@[simp] theorem listCanonical_eq_map (parts : List Doc) :
    listCanonical parts = parts.map canonical := by
  induction parts with
  | nil => rfl
  | cons part parts ih => rw [listCanonical, List.map_cons, ih]

/-- What is known of a document from the start of a text: which one it is, and where its
builder calls end. -/
def IsReadable (d : Doc) : Prop :=
  ∀ {e : Doc} {r q : Text}, e.all isProper = true → d.calls ++ r = e.calls ++ q →
    d.canonical = e.canonical ∧ r = q

/-- The arguments after others in a list end with the list. -/
theorem moreCalls_append_inj {ds es : List Doc} {r q : Text} (ih : ∀ d ∈ ds, IsReadable d)
    (hes : ∀ e ∈ es, e.all isProper = true) (h : moreCalls ds ++ r = moreCalls es ++ q) :
    ds.map canonical = es.map canonical ∧ r = q := by
  induction ds generalizing es with
  | nil =>
      cases es with
      | nil => exact ⟨rfl, List.append_cancel_left h⟩
      | cons e es => exact absurd (List.cons.inj h).1 (by decide)
  | cons d ds ihds =>
      cases es with
      | nil => exact absurd (List.cons.inj h).1 (by decide)
      | cons e es =>
          simp only [moreCalls, List.append_assoc, List.append_cancel_left_eq] at h
          obtain ⟨hhead, h⟩ := ih d (by simp) (hes e (by simp)) h
          obtain ⟨htail, hrest⟩ := ihds (fun x hx => ih x (by simp [hx]))
            (fun x hx => hes x (by simp [hx])) h
          exact ⟨by rw [List.map_cons, List.map_cons, hhead, htail], hrest⟩

/-- The arguments in a list end with the list. -/
theorem itemCalls_append_inj {ds es : List Doc} {r q : Text} (ih : ∀ d ∈ ds, IsReadable d)
    (hds : ∀ d ∈ ds, d.all isProper = true) (hes : ∀ e ∈ es, e.all isProper = true)
    (h : itemCalls ds ++ r = itemCalls es ++ q) :
    ds.map canonical = es.map canonical ∧ r = q := by
  cases ds with
  | nil =>
      cases es with
      | nil => exact ⟨rfl, List.append_cancel_left h⟩
      | cons e es =>
          rw [itemCalls, itemCalls, List.append_assoc] at h
          exact absurd h.symm (calls_append_ne_bracket (isProper_of_all (hes e (by simp))) _ _)
  | cons d ds =>
      cases es with
      | nil =>
          rw [itemCalls, itemCalls, List.append_assoc] at h
          exact absurd h (calls_append_ne_bracket (isProper_of_all (hds d (by simp))) _ _)
      | cons e es =>
          rw [itemCalls, itemCalls, List.append_assoc, List.append_assoc] at h
          obtain ⟨hhead, h⟩ := ih d (by simp) (hes e (by simp)) h
          obtain ⟨htail, hrest⟩ := moreCalls_append_inj (fun x hx => ih x (by simp [hx]))
            (fun x hx => hes x (by simp [hx])) h
          exact ⟨by rw [List.map_cons, List.map_cons, hhead, htail], hrest⟩

theorem eq_of_isEmptyText {doc : Doc} (h : doc.isEmptyText = true) : doc = .text [] := by
  cases doc with
  | text s => rw [List.isEmpty_iff.mp h]
  | _ => cases h

/-- A flat branch that is left out is told from one that is written. -/
theorem flatCalls_append_inj {d e : Doc} {r q : Text} (ih : IsReadable d)
    (he : e.all isProper = true)
    (h : (if d.isEmptyText then Text.ofString ")" else ", " ++ d.calls ++ ")") ++ r =
      (if e.isEmptyText then Text.ofString ")" else ", " ++ e.calls ++ ")") ++ q) :
    d.canonical = e.canonical ∧ r = q := by
  by_cases hd' : d.isEmptyText = true <;> by_cases he' : e.isEmptyText = true
  · rw [if_pos hd', if_pos he'] at h
    rw [eq_of_isEmptyText hd', eq_of_isEmptyText he']
    exact ⟨rfl, List.append_cancel_left h⟩
  · rw [if_pos hd', if_neg he'] at h
    exact absurd (List.cons.inj h).1 (by decide)
  · rw [if_neg hd', if_pos he'] at h
    exact absurd (List.cons.inj h).1 (by decide)
  · rw [if_neg hd', if_neg he'] at h
    simp only [List.append_assoc, List.append_cancel_left_eq] at h
    obtain ⟨hflat, h⟩ := ih he h
    exact ⟨hflat, List.append_cancel_left h⟩

namespace IsReadable

theorem text (s : Text) : IsReadable (.text s) := by
  intro e r q he h
  have hkind := opening_eq_of_append rfl (isProper_of_all he) h
  cases e with
  | text t =>
      obtain ⟨rfl, hrest⟩ := Json.describeText_append_inj h
      exact ⟨rfl, hrest⟩
  | _ => grind [opening]

theorem concat {ds : List Doc} (hds : ∀ d ∈ ds, d.all isProper = true)
    (ih : ∀ d ∈ ds, IsReadable d) : IsReadable (.concat ds) := by
  intro e r q he h
  have hkind := opening_eq_of_append rfl (isProper_of_all he) h
  cases e with
  | concat es =>
      simp only [all, Bool.and_eq_true, listAll_eq_true] at he
      simp only [calls, List.append_assoc, List.append_cancel_left_eq] at h
      obtain ⟨hparts, hrest⟩ := itemCalls_append_inj ih hds he.2 h
      exact ⟨by rw [canonical, canonical, listCanonical_eq_map, listCanonical_eq_map, hparts],
        hrest⟩
  | _ => grind [opening]

theorem fill {ds : List Doc} (hds : ∀ d ∈ ds, d.all isProper = true)
    (ih : ∀ d ∈ ds, IsReadable d) : IsReadable (.fill ds) := by
  intro e r q he h
  have hkind := opening_eq_of_append rfl (isProper_of_all he) h
  cases e with
  | fill es =>
      simp only [all, Bool.and_eq_true, listAll_eq_true] at he
      simp only [calls, List.append_assoc, List.append_cancel_left_eq] at h
      obtain ⟨hparts, hrest⟩ := itemCalls_append_inj ih hds he.2 h
      exact ⟨by rw [canonical, canonical, listCanonical_eq_map, listCanonical_eq_map, hparts],
        hrest⟩
  | _ => grind [opening]

theorem group {contents : Doc} (ih : IsReadable contents) (shouldBreak : Bool) :
    IsReadable (.group contents shouldBreak) := by
  intro e r q he h
  have hkind := opening_eq_of_append rfl (isProper_of_all he) h
  cases e with
  | group contents' shouldBreak' =>
      simp only [all, Bool.and_eq_true] at he
      simp only [calls, List.append_assoc, List.append_cancel_left_eq] at h
      obtain ⟨hcontents, h⟩ := ih he.2 h
      have hflag : shouldBreak = shouldBreak' ∧ r = q := by
        cases shouldBreak <;> cases shouldBreak'
        · exact ⟨rfl, List.append_cancel_left h⟩
        · exact absurd (List.cons.inj h).1 (by decide)
        · exact absurd (List.cons.inj h).1 (by decide)
        · exact ⟨rfl, List.append_cancel_left h⟩
      exact ⟨by rw [canonical, canonical, hcontents, hflag.1], hflag.2⟩
  | _ => grind [opening]

theorem indent {contents : Doc} (ih : IsReadable contents) : IsReadable (.indent contents) := by
  intro e r q he h
  have hkind := opening_eq_of_append rfl (isProper_of_all he) h
  cases e with
  | indent contents' =>
      simp only [all, Bool.and_eq_true] at he
      simp only [calls, List.append_assoc, List.append_cancel_left_eq] at h
      obtain ⟨hcontents, h⟩ := ih he.2 h
      exact ⟨by rw [canonical, canonical, hcontents], List.append_cancel_left h⟩
  | _ => grind [opening]

theorem root {contents : Doc} (ih : IsReadable contents) : IsReadable (.root contents) := by
  intro e r q he h
  have hkind := opening_eq_of_append rfl (isProper_of_all he) h
  cases e with
  | root contents' =>
      simp only [all, Bool.and_eq_true] at he
      simp only [calls, List.append_assoc, List.append_cancel_left_eq] at h
      obtain ⟨hcontents, h⟩ := ih he.2 h
      exact ⟨by rw [canonical, canonical, hcontents], List.append_cancel_left h⟩
  | _ => grind [opening]

theorem align {contents : Doc} (ih : IsReadable contents) (columns : Int) :
    IsReadable (.align columns contents) := by
  intro e r q he h
  have hkind := opening_eq_of_append rfl (isProper_of_all he) h
  cases e with
  | align columns' contents' =>
      simp only [all, Bool.and_eq_true] at he
      simp only [calls, List.append_assoc, List.append_cancel_left_eq] at h
      obtain ⟨hcolumns, h⟩ := Json.intText_append_inj h
      obtain ⟨hcontents, h⟩ := ih he.2 (List.cons.inj h).2
      exact ⟨by rw [canonical, canonical, hcolumns, hcontents], List.append_cancel_left h⟩
  | _ => grind [opening]

theorem ifBreak {whenBroken whenFlat : Doc} (ihBroken : IsReadable whenBroken)
    (ihFlat : IsReadable whenFlat) : IsReadable (.ifBreak whenBroken whenFlat) := by
  intro e r q he h
  have hkind := opening_eq_of_append rfl (isProper_of_all he) h
  cases e with
  | ifBreak whenBroken' whenFlat' =>
      simp only [all, Bool.and_eq_true] at he
      simp only [calls, List.append_assoc, List.append_cancel_left_eq] at h
      obtain ⟨hbroken, h⟩ := ihBroken he.2.1 h
      obtain ⟨hflat, hrest⟩ := flatCalls_append_inj ihFlat he.2.2 h
      exact ⟨by rw [canonical, canonical, hbroken, hflat], hrest⟩
  | _ => grind [opening]

theorem line (hard soft : Bool) : IsReadable (.line hard soft) := by
  intro e r q he h
  have hkind := opening_eq_of_append rfl (isProper_of_all he) h
  cases e with
  | line hard' soft' =>
      simp only [calls] at h
      cases hard <;> cases hard' <;> cases soft <;> cases soft' <;>
        first
        | exact absurd hkind (by decide)
        | exact ⟨rfl, List.append_cancel_left h⟩
  | _ => grind [opening]

theorem breakParent : IsReadable .breakParent := by
  intro e r q he h
  have hkind := opening_eq_of_append rfl (isProper_of_all he) h
  cases e with
  | breakParent => exact ⟨rfl, List.append_cancel_left h⟩
  | _ => grind [opening]

end IsReadable

/-- **A text starts with the builder calls of one document only**, and these end at one
place only. -/
theorem isReadable {d : Doc} (hd : d.all isProper = true) : d.IsReadable := by
  induction d with
  | text s => exact IsReadable.text s
  | concat ds ih =>
      simp only [all, Bool.and_eq_true, listAll_eq_true] at hd
      exact IsReadable.concat hd.2 fun x hx => ih x hx (hd.2 x hx)
  | fill ds ih =>
      simp only [all, Bool.and_eq_true, listAll_eq_true] at hd
      exact IsReadable.fill hd.2 fun x hx => ih x hx (hd.2 x hx)
  | group contents shouldBreak ih =>
      simp only [all, Bool.and_eq_true] at hd
      exact IsReadable.group (ih hd.2) shouldBreak
  | indent contents ih =>
      simp only [all, Bool.and_eq_true] at hd
      exact IsReadable.indent (ih hd.2)
  | root contents ih =>
      simp only [all, Bool.and_eq_true] at hd
      exact IsReadable.root (ih hd.2)
  | align columns contents ih =>
      simp only [all, Bool.and_eq_true] at hd
      exact IsReadable.align (ih hd.2) columns
  | ifBreak whenBroken whenFlat ihBroken ihFlat =>
      simp only [all, Bool.and_eq_true] at hd
      exact IsReadable.ifBreak (ihBroken hd.2.1) (ihFlat hd.2.2)
  | line hard soft => exact IsReadable.line hard soft
  | breakParent => exact IsReadable.breakParent
  | alien value => cases hd

/-- Documents that are the same but for how their hard line breaks are written have the
same builder calls. -/
theorem calls_canonical (doc : Doc) : doc.canonical.calls = doc.calls := by
  induction doc with
  | concat parts ih | fill parts ih =>
      have hitems : itemCalls (parts.map canonical) = itemCalls parts := by
        have hmap : parts.map (calls ∘ canonical) = parts.map calls := List.map_congr_left ih
        rw [← intercalate_calls, ← intercalate_calls, List.map_map, hmap]
      rw [canonical, listCanonical_eq_map, calls, calls, hitems]
  | group _ _ ih | indent _ ih | align _ _ ih | root _ ih => rw [canonical, calls, calls, ih]
  | ifBreak whenBroken whenFlat ihBroken ihFlat =>
      have hempty : whenFlat.canonical.isEmptyText = whenFlat.isEmptyText := by
        cases whenFlat with
        | line hard soft => cases hard <;> rfl
        | _ => rfl
      rw [canonical, calls, calls, ihBroken, ihFlat, hempty]
  | line hard soft => cases hard <;> rfl
  | text _ | breakParent | alien _ => rfl

/-! ## Layouts -/

open Layout

section

variable {α : Type} [Columns α] [LawfulColumns α] {page : Page α}

/-- All hard line breaks are laid out alike. -/
theorem interchangeable_hardBreak (soft : Bool) :
    Interchangeable page (.line true soft) .hardBreak := by
  intro i mode xs ys hrest
  have hself : Alike page (⟨i, mode, .hardBreak⟩ :: xs) (⟨i, mode, .hardBreak⟩ :: ys) :=
    Interchangeable.refl .hardBreak i mode hrest
  constructor
  · intro strict room hroom
    rw [fits_cons_congr (show scan strict mode (.line true soft) room =
      scan strict mode .hardBreak room by cases mode <;> rfl)]
    exact hself.fits_eq strict hroom
  · intro column written written' hcolumn htext
    rw [Machine.output_cons, show perform page column written ⟨i, mode, .line true soft⟩ xs =
      perform page column written ⟨i, mode, .hardBreak⟩ xs by cases mode <;> rfl,
      ← Machine.output_cons]
    exact hself.output_eq hcolumn htext

theorem settlesAlike_canonical (doc : Doc) : SettlesAlike page doc doc.canonical := by
  induction doc with
  | text s => exact .refl _
  | concat parts ih =>
      rw [canonical, listCanonical_eq_map]
      exact .concat (.of_forall₂ (List.forall₂_map_right_iff.mpr (List.forall₂_same.mpr ih)))
  | fill parts ih =>
      rw [canonical, listCanonical_eq_map]
      exact .fill (.of_forall₂ (List.forall₂_map_right_iff.mpr (List.forall₂_same.mpr ih)))
  | group contents shouldBreak ih => exact ih.group shouldBreak
  | indent contents ih => exact ih.indent
  | align columns contents ih => exact ih.align columns
  | ifBreak whenBroken whenFlat ihBroken ihFlat => exact ihBroken.ifBreak ihFlat
  | line hard soft =>
      cases hard with
      | false => exact .refl _
      | true => exact .ok ⟨rfl, interchangeable_hardBreak soft⟩
  | breakParent | alien _ => exact .refl _
  | root contents ih => exact ih.root

end

/-- The layout does not depend on how hard line breaks are written. -/
theorem layout_canonical (settings : Settings) (doc : Doc) :
    settings.layout doc.canonical = settings.layout doc := by
  rw [Settings.layout, Settings.layout]
  split
  · exact (settlesAlike_canonical doc).symm.render_eq
  · exact (settlesAlike_canonical doc).symm.render_eq

/-- **Descriptions are unambiguous.** Every document without plain values has one; two of
them have the same description exactly if they are the same but for how their hard line
breaks are written, and are then laid out alike under all settings. -/
theorem describe_eq_iff {d e : Doc} (hd : d.all isProper = true) (he : e.all isProper = true) :
    (∃ text, d.describe = .ok text) ∧
      (d.describe = e.describe ↔ d.canonical = e.canonical) ∧
        (d.describe = e.describe →
          ∀ settings : Settings, settings.layout d = settings.layout e) := by
  have hiff : d.describe = e.describe ↔ d.canonical = e.canonical := by
    rw [describe_eq hd, describe_eq he, Except.ok.injEq]
    constructor
    · intro h
      exact (isReadable hd he (congrArg (· ++ []) h)).1
    · intro h
      rw [← calls_canonical d, h, calls_canonical]
  refine ⟨⟨d.calls, describe_eq hd⟩, hiff, fun h settings => ?_⟩
  rw [← layout_canonical settings d, hiff.mp h, layout_canonical]

/-- A text that reads like two arguments is told from two arguments, and a hard line
break that is soft is not told from one that is not. -/
theorem describe_eq_iff_of_quoted_arguments :
    (ifBreak (.text "a\", \"b") (.text "")).describe ≠
        (ifBreak (.text "a") (.text "b")).describe ∧
      (concat [.text "a", .line true true]).describe = (concat [.text "a", .hardBreak]).describe ∧
        ∀ settings : Settings, settings.layout (.concat [.text "a", .line true true]) =
          settings.layout (.concat [.text "a", .hardBreak]) := by
  have hquoted := describe_eq_iff (d := ifBreak (.text "a\", \"b") (.text ""))
    (e := ifBreak (.text "a") (.text "b")) rfl rfl
  have hhard := describe_eq_iff (d := concat [.text "a", .line true true])
    (e := concat [.text "a", .hardBreak]) rfl rfl
  have hsame := hhard.2.1.mpr rfl
  refine ⟨fun h => ?_, hsame, hhard.2.2 hsame⟩
  have htexts := hquoted.2.1.mp h
  simp only [canonical, ifBreak.injEq, text.injEq] at htexts
  exact absurd htexts.2 (by decide)

end Doc

end HamlFormat
