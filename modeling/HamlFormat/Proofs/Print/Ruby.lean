import HamlFormat.Print.Ruby
import HamlFormat.Proofs.Doc.Shape
import HamlFormat.Proofs.Fault

/-!
# HamlFormat.Proofs.Print.Ruby

The documents of Ruby expressions. They hold no fills, and if the texts in an
expression stay on one line so do the texts of its document (`all_toDoc`).
-/

namespace HamlFormat

/-! ## Expressions on one line -/

/-- Whether a value is no text with a line end in it. -/
def Json.isOneLine : Json → Bool
  | .str s => s.isOneLine
  | _ => true

namespace Ruby

mutual

/-- Whether the texts in an expression hold no line end. -/
def isOneLine : Ruby → Bool
  | .token t | .varRef t _ => t.text.isOneLine
  | .label text _ => text.isOneLine
  | .symbol name _ => name.text.isOneLine
  | .quotedSymbol segments quote _ | .string segments quote _ =>
    listIsOneLine segments && quote.isOneLine
  | .interpolation expression _ => isOneLine expression
  | .array none _ | .hash none _ => true
  | .array (some elements) _ => listIsOneLine elements
  | .binary left operator right _ =>
    isOneLine left && operator.isOneLine && isOneLine right
  | .pair p => pairIsOneLine p
  | .pairs ps | .hash (some ps) _ => pairsIsOneLine ps
  | .bareHash ps _ => pairListIsOneLine ps

/-- Whether the texts in expressions hold no line end. -/
def listIsOneLine : List Ruby → Bool
  | [] => true
  | r :: rs => isOneLine r && listIsOneLine rs

/-- Whether the texts in a pair hold no line end. -/
def pairIsOneLine : Pair → Bool
  | .mk key value _ => isOneLine key && isOneLine value

/-- Whether the texts in the pairs of a hash hold no line end. -/
def pairsIsOneLine : Pairs → Bool
  | .mk ps _ => pairListIsOneLine ps

/-- Whether the texts in pairs hold no line end. -/
def pairListIsOneLine : List Pair → Bool
  | [] => true
  | p :: ps => pairIsOneLine p && pairListIsOneLine ps

end

/-! ## Documents of expressions -/

/-- Neither a fill nor a text with a line end in it. -/
def isSimple (doc : Doc) : Bool :=
  doc.isNoFill && doc.isOneLine

theorem all_text {s : Text} : (Doc.text s).all isSimple = s.isOneLine := rfl

theorem all_ofJson {value : Json} (h : value.isOneLine = true) :
    (Doc.ofJson value).all isSimple = true := by
  cases value with
  | str s => exact h
  | _ => rfl

/-- A concatenation is simple if its parts are. -/
theorem all_concat {parts : List Doc} :
    (Doc.concat parts).all isSimple = true ↔ ∀ part ∈ parts, part.all isSimple = true := by
  simp [Doc.all, isSimple, Doc.isNoFill, Doc.isOneLine]

theorem all_group {contents : Doc} {shouldBreak : Bool} :
    (Doc.group contents shouldBreak).all isSimple = contents.all isSimple := rfl

theorem all_indent {contents : Doc} : (Doc.indent contents).all isSimple = contents.all isSimple :=
  rfl

theorem all_separate {docs : List Doc} (h : ∀ doc ∈ docs, doc.all isSimple = true) :
    ∀ part ∈ Doc.separate comma docs, part.all isSimple = true :=
  (Doc.forall_mem_separate (P := fun part => part.all isSimple = true) rfl docs).mpr h

theorem all_lastComma (style : Style) : ∀ part ∈ lastComma style, part.all isSimple = true := by
  rw [lastComma]
  split <;> simp +decide

/-- The name in a label on one line stays on one line. -/
theorem isOneLine_labelName {text : Json} {name : Text} (h : text.isOneLine = true)
    (hname : labelName text = .ok name) : name.isOneLine = true := by
  cases text with
  | str s =>
      rw [labelName] at hname
      split at hname
      · cases hname
        exact List.all_eq_true.mpr fun c hc =>
          List.all_eq_true.mp h c (List.dropLast_subset s hc)
      · cases hname
        exact h
  | _ => cases hname

/-- A key with its separator is as simple as the key. -/
theorem all_separated {style : Style} {key : Ruby} {keyDoc doc : Doc}
    (hkey : key.isOneLine = true) (hkeyDoc : keyDoc.all isSimple = true)
    (h : separated style key keyDoc = .ok doc) : doc.all isSimple = true := by
  have harrow : (Doc.concat [keyDoc, .text " =>"]).all isSimple = true := by
    rw [all_concat]
    simp +decide [hkeyDoc]
  unfold separated at h
  split at h
  · split at h
    · cases h
      exact hkeyDoc
    · obtain ⟨name, hname, hdoc⟩ := Fault.bind_eq_ok.mp h
      cases hdoc
      have hone : Text.isOneLine name = true := isOneLine_labelName hkey hname
      simp +decide [Doc.all, isSimple, Doc.isNoFill, Doc.isOneLine, hone]
  · next name _ =>
      have hlabel : (Doc.concat [.text name.text, .text ":"]).all isSimple = true := by
        rw [all_concat]
        simpa +decide [all_text, isOneLine] using hkey
      split at h
      · obtain ⟨asLabel, -, hdoc⟩ := Fault.bind_eq_ok.mp h
        cases asLabel with
        | true => cases hdoc; exact hlabel
        | false => cases hdoc; exact harrow
      · cases h
        exact harrow
  · cases h
    split
    · simp only [isOneLine, listIsOneLine, Bool.and_true, Bool.and_eq_true] at hkey
      rw [all_concat]
      simpa +decide [all_text, all_ofJson hkey.2] using hkey.1
    · exact harrow
  · cases h
    exact harrow

mutual

/-- **The document of an expression on one line is simple.** -/
theorem all_toDoc {style : Style} : ∀ {r : Ruby} {doc : Doc}, r.isOneLine = true →
    r.toDoc style = .ok doc → doc.all isSimple = true
  | .token t, doc, hr, h | .varRef t _, doc, hr, h => by
      cases h
      exact hr
  | .label text _, doc, hr, h => by
      cases h
      exact all_ofJson hr
  | .symbol name _, doc, hr, h => by
      cases h
      rw [all_concat]
      simpa +decide [all_text, isOneLine] using hr
  | .quotedSymbol segments quote _, doc, hr, h => by
      simp only [isOneLine, Bool.and_eq_true] at hr
      obtain ⟨docs, hdocs, hdoc⟩ := Fault.bind_eq_ok.mp h
      cases hdoc
      have hsegments := all_listToDocs hr.1 hdocs
      rw [all_concat]
      simpa +decide [or_imp, forall_and, all_ofJson hr.2] using hsegments
  | .string segments quote _, doc, hr, h => by
      simp only [isOneLine, Bool.and_eq_true] at hr
      obtain ⟨docs, hdocs, hdoc⟩ := Fault.bind_eq_ok.mp h
      cases hdoc
      have hsegments := all_listToDocs hr.1 hdocs
      rw [all_concat]
      simpa +decide [or_imp, forall_and, all_ofJson hr.2] using hsegments
  | .interpolation expression _, doc, hr, h => by
      rw [isOneLine] at hr
      obtain ⟨inner, hinner, hdoc⟩ := Fault.bind_eq_ok.mp h
      cases hdoc
      rw [all_concat]
      simpa +decide using all_toDoc hr hinner
  | .array none _, doc, hr, h | .hash none _, doc, hr, h => by
      cases h
      rfl
  | .array (some elements) _, doc, hr, h => by
      rw [isOneLine] at hr
      obtain ⟨docs, hdocs, hdoc⟩ := Fault.bind_eq_ok.mp h
      have helements : (Doc.join comma docs).all isSimple = true := by
        rw [Doc.join, all_concat]
        exact all_separate (all_listToDocs hr hdocs)
      split at hdoc
      · cases hdoc
        rfl
      · cases hdoc
        rw [all_group, all_concat]
        split <;> simp +decide [all_indent, all_concat, helements]
  | .binary left operator right _, doc, hr, h => by
      simp only [isOneLine, Bool.and_eq_true] at hr
      obtain ⟨leftDoc, hleft, hrest⟩ := Fault.bind_eq_ok.mp h
      obtain ⟨rightDoc, hright, hdoc⟩ := Fault.bind_eq_ok.mp hrest
      cases hdoc
      have hleftDoc := all_toDoc hr.1.1 hleft
      have hrightDoc := all_toDoc hr.2 hright
      rw [all_group, all_concat]
      simp +decide [all_indent, all_concat, all_text, hleftDoc, hrightDoc, hr.1.2]
  | .pair p, doc, hr, h => all_pairToDoc hr h
  | .pairs ps, doc, hr, h => all_pairsToDoc hr h
  | .bareHash ps _, doc, hr, h => by
      obtain ⟨docs, hdocs, hdoc⟩ := Fault.bind_eq_ok.mp h
      cases hdoc
      rw [all_group, Doc.join, all_concat]
      exact all_separate (all_pairListToDocs hr hdocs)
  | .hash (some ps) _, doc, hr, h => by
      rw [toDoc] at h
      split at h
      · cases h
        rfl
      · obtain ⟨body, hbody, hdoc⟩ := Fault.bind_eq_ok.mp h
        cases hdoc
        have hbodyDoc := all_pairsToDoc hr hbody
        rw [all_group, all_concat]
        simp +decide [all_indent, all_concat, hbodyDoc]

theorem all_listToDocs {style : Style} : ∀ {rs : List Ruby} {docs : List Doc},
    listIsOneLine rs = true → listToDocs style rs = .ok docs →
    ∀ doc ∈ docs, doc.all isSimple = true
  | [], docs, hrs, h => by
      cases h
      exact fun _ hdoc => nomatch hdoc
  | r :: rs, docs, hrs, h => by
      simp only [listIsOneLine, Bool.and_eq_true] at hrs
      obtain ⟨first, hfirst, hrest⟩ := Fault.bind_eq_ok.mp h
      obtain ⟨others, hothers, hdocs⟩ := Fault.bind_eq_ok.mp hrest
      cases hdocs
      exact List.forall_mem_cons.mpr ⟨all_toDoc hrs.1 hfirst, all_listToDocs hrs.2 hothers⟩

theorem all_pairToDoc {style : Style} : ∀ {p : Pair} {doc : Doc}, pairIsOneLine p = true →
    pairToDoc style p = .ok doc → doc.all isSimple = true
  | .mk key value _, doc, hp, h => by
      simp only [pairIsOneLine, Bool.and_eq_true] at hp
      obtain ⟨own, hown, hrest⟩ := Fault.bind_eq_ok.mp h
      obtain ⟨keyDoc, hkey, hrest⟩ := Fault.bind_eq_ok.mp hrest
      obtain ⟨valueDoc, hvalue, hdoc⟩ := Fault.bind_eq_ok.mp hrest
      have hkeyDoc := all_separated hp.1 (all_toDoc hp.1 hown) hkey
      have hvalueDoc := all_toDoc hp.2 hvalue
      split at hdoc
      · cases hdoc
        rw [all_group, all_concat]
        simp +decide [hkeyDoc, hvalueDoc]
      · cases hdoc
        rw [all_group, all_concat]
        simp +decide [all_indent, all_concat, hkeyDoc, hvalueDoc]

theorem all_pairsToDoc {style : Style} : ∀ {ps : Pairs} {doc : Doc}, pairsIsOneLine ps = true →
    pairsToDoc style ps = .ok doc → doc.all isSimple = true
  | .mk ps _, doc, hps, h => by
      obtain ⟨docs, hdocs, hdoc⟩ := Fault.bind_eq_ok.mp h
      cases hdoc
      rw [all_group, all_concat, List.forall_mem_append]
      refine ⟨all_separate (all_pairListToDocs hps hdocs), ?_⟩
      split
      · simp
      · exact all_lastComma style

theorem all_pairListToDocs {style : Style} : ∀ {ps : List Pair} {docs : List Doc},
    pairListIsOneLine ps = true → pairListToDocs style ps = .ok docs →
    ∀ doc ∈ docs, doc.all isSimple = true
  | [], docs, hps, h => by
      cases h
      exact fun _ hdoc => nomatch hdoc
  | p :: ps, docs, hps, h => by
      simp only [pairListIsOneLine, Bool.and_eq_true] at hps
      obtain ⟨first, hfirst, hrest⟩ := Fault.bind_eq_ok.mp h
      obtain ⟨others, hothers, hdocs⟩ := Fault.bind_eq_ok.mp hrest
      cases hdocs
      exact List.forall_mem_cons.mpr ⟨all_pairToDoc hps.1 hfirst, all_pairListToDocs hps.2 hothers⟩

end

end Ruby

end HamlFormat
