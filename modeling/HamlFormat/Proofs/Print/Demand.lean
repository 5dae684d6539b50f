import HamlFormat.Proofs.Print.Format
import HamlFormat.Proofs.Tree.Normal

/-!
# HamlFormat.Proofs.Print.Demand

What the document of a tree asks of the page. A tree whose texts are texts has a
document, and the document holds no plain value. It needs a level of indentation
exactly where the tree has something to indent (`isFlush`), and columns to align
by exactly where an attribute hash stands behind the start of a tag's line
(`isAligned`); nothing else about it can fail to be laid out. `Ruby.demands_toDoc`
and `Markup.demands_toDoc` say so for every tree that is read.
-/

namespace HamlFormat

/-! ## Demands of documents -/

/-- Neither a plain value nor a choice but between two texts. -/
def Doc.isOrdinary (doc : Doc) : Bool :=
  doc.isProper && doc.isPlainChoice

/-- What a document asks of the page: no level of indentation if it is `flush`, and no
columns to align by that do not fit in memory if it is `aligned`. -/
structure Doc.Demands (doc : Doc) (flush aligned : Bool) : Prop where
  ordinary : doc.all isOrdinary = true
  feasible : ∀ levels, doc.all (isFeasible levels) = ((levels || flush) && aligned)

/-- What several documents ask of the page together. -/
structure Doc.ListDemands (docs : List Doc) (flush aligned : Bool) : Prop where
  ordinary : listAll isOrdinary docs = true
  feasible : ∀ levels, listAll (isFeasible levels) docs = ((levels || flush) && aligned)

namespace Doc

variable {doc separator : Doc} {parts others : List Doc} {flush aligned flush' aligned' : Bool}

/-- Demands are met together where each is met. -/
theorem demand_and (levels flush aligned flush' aligned' : Bool) :
    (((levels || flush) && aligned) && ((levels || flush') && aligned')) =
      ((levels || (flush && flush')) && (aligned && aligned')) := by
  cases levels <;> cases flush <;> cases aligned <;> cases flush' <;> rfl

namespace Demands

theorem text (s : Text) : (Doc.text s).Demands true true where
  ordinary := rfl
  feasible levels := by simp [Doc.all, isFeasible]

theorem line (hard soft : Bool) : (Doc.line hard soft).Demands true true where
  ordinary := rfl
  feasible levels := by simp [Doc.all, isFeasible]

theorem blankBreak : Doc.blankBreak.Demands true true := line _ _

theorem softBreak : Doc.softBreak.Demands true true := line _ _

theorem hardBreak : Doc.hardBreak.Demands true true := line _ _

theorem ifBreak_text (whenBroken whenFlat : Text) :
    (Doc.ifBreak (.text whenBroken) (.text whenFlat)).Demands true true where
  ordinary := rfl
  feasible levels := by simp [Doc.all, isFeasible]

theorem group (h : doc.Demands flush aligned) (shouldBreak : Bool) :
    (Doc.group doc shouldBreak).Demands flush aligned where
  ordinary := h.ordinary
  feasible := h.feasible

theorem root (h : doc.Demands flush aligned) : (Doc.root doc).Demands flush aligned where
  ordinary := h.ordinary
  feasible := h.feasible

theorem indent (h : doc.Demands flush aligned) : (Doc.indent doc).Demands false aligned where
  ordinary := h.ordinary
  feasible levels := by
    rw [Doc.all, h.feasible]
    cases levels <;> rfl

theorem align (h : doc.Demands flush aligned) (columns : Int) :
    (Doc.align columns doc).Demands flush (decide (columns < memoryLimit) && aligned) where
  ordinary := h.ordinary
  feasible levels := by
    rw [Doc.all, h.feasible, isFeasible, Bool.and_left_comm]

theorem concat (h : ListDemands parts flush aligned) :
    (Doc.concat parts).Demands flush aligned where
  ordinary := h.ordinary
  feasible := h.feasible

theorem fill (h : ListDemands parts flush aligned) : (Doc.fill parts).Demands flush aligned where
  ordinary := h.ordinary
  feasible := h.feasible

end Demands

namespace ListDemands

theorem nil : ListDemands [] true true where
  ordinary := rfl
  feasible levels := by simp [listAll]

theorem cons (h : doc.Demands flush aligned) (hrest : ListDemands parts flush' aligned') :
    ListDemands (doc :: parts) (flush && flush') (aligned && aligned') where
  ordinary := by rw [listAll, h.ordinary, hrest.ordinary]; rfl
  feasible levels := by rw [listAll, h.feasible, hrest.feasible, demand_and]

theorem singleton (h : doc.Demands flush aligned) : ListDemands [doc] flush aligned := by
  simpa using cons h nil

theorem append (h : ListDemands parts flush aligned) (hrest : ListDemands others flush' aligned') :
    ListDemands (parts ++ others) (flush && flush') (aligned && aligned') where
  ordinary := by
    have hparts := h.ordinary
    have hothers := hrest.ordinary
    rw [listAll_eq_true] at hparts hothers ⊢
    exact List.forall_mem_append.mpr ⟨hparts, hothers⟩
  feasible levels := by
    have happend : listAll (isFeasible levels) (parts ++ others) =
        (listAll (isFeasible levels) parts && listAll (isFeasible levels) others) := by
      rw [Bool.eq_iff_iff]
      simp only [Bool.and_eq_true, listAll_eq_true, List.forall_mem_append]
    rw [happend, h.feasible, hrest.feasible, demand_and]

/-- The parts of a concatenation ask for what it asks for. -/
theorem of_concat (h : (Doc.concat parts).Demands flush aligned) :
    ListDemands parts flush aligned where
  ordinary := h.ordinary
  feasible := h.feasible

/-- No documents ask for nothing. -/
theorem of_nil (h : ListDemands [] flush aligned) : flush = true ∧ aligned = true := by
  have hdemand := h.feasible false
  simpa [listAll] using hdemand.symm

/-- A part that asks for nothing may be left out. -/
theorem optional (h : doc.Demands true true) (shown : Bool) :
    ListDemands (if shown then [doc] else []) true true := by
  split
  · exact singleton h
  · exact nil

/-- Texts ask for nothing. -/
theorem texts (texts : List Text) : ListDemands (texts.map .text) true true := by
  induction texts with
  | nil => exact nil
  | cons s texts ih => exact cons (.text s) ih

/-- A separator that asks for nothing adds nothing. -/
theorem separate (hseparator : separator.Demands true true)
    (h : ListDemands parts flush aligned) :
    ListDemands (Doc.separate separator parts) flush aligned where
  ordinary := by
    have hparts := h.ordinary
    rw [listAll_eq_true] at hparts ⊢
    exact (forall_mem_separate hseparator.ordinary parts).mpr hparts
  feasible levels := by
    have hfeasible : separator.all (isFeasible levels) = true := by
      rw [hseparator.feasible]
      simp
    rw [← h.feasible, Bool.eq_iff_iff, listAll_eq_true, listAll_eq_true]
    exact forall_mem_separate hfeasible parts

end ListDemands

theorem Demands.join (hseparator : separator.Demands true true)
    (h : ListDemands parts flush aligned) : (Doc.join separator parts).Demands flush aligned :=
  .concat (.separate hseparator h)

/-- A document without a choice of layout needs a level where one of its lines is deeper. -/
theorem Renders.demands {level : Nat} {lines : List (Nat × Text)} (h : doc.Renders level lines) :
    doc.Demands (lines.all fun line => line.1 == level) true where
  ordinary := by
    refine Doc.all_mono (fun d hd => ?_) h.fixed
    cases d with
    | alien _ | ifBreak _ _ => cases hd
    | _ => rfl
  feasible levels := by
    have hflush := h.flush
    rw [Bool.eq_iff_iff, Bool.and_true, Bool.or_eq_true, List.all_eq_true]
    simp only [beq_iff_eq, ← hflush]
    refine ⟨fun hfeasible => ?_, Settings.isFeasible_of_isFixed h.fixed⟩
    cases levels with
    | true => exact .inl rfl
    | false =>
        refine .inr (Doc.all_mono (fun d hd => ?_) hfeasible)
        cases d with
        | indent _ => cases hd
        | _ => rfl

end Doc

/-! ## Ruby -/

/-- Whether a value is a text. -/
def Json.isString : Json → Bool
  | .str _ => true
  | _ => false

/-- A value that is a text or absent, and counts as present, is written as it is. -/
theorem Json.demands_ofJson {value : Json} (h : value.isOptionalText = true)
    (htruthy : value.truthy = true) : (Doc.ofJson value).Demands true true := by
  rw [Doc.ofJson_of_isOptionalText h htruthy]
  exact .text value.text

namespace Ruby

/-- Whether the kinds of an expression's own tokens, its label and its quote are texts;
there may be no quote. -/
def isWellTyped : Ruby → Bool
  | .token t | .varRef t _ | .symbol t _ => t.kind.isString
  | .label text _ => text.isString
  | .quotedSymbol _ quote _ | .string _ quote _ => quote.isOptionalText
  | _ => true

mutual

/-- Whether an expression has nothing to indent: no elements, no operands, and no value
that may go to a line of its own. -/
def isFlush : Ruby → Bool
  | .token _ | .varRef _ _ | .label _ _ | .symbol _ _ | .array none _ | .hash none _ => true
  | .quotedSymbol segments _ _ | .string segments _ _ => listIsFlush segments
  | .interpolation expression _ => isFlush expression
  | .array (some elements) _ => elements.isEmpty
  | .binary _ _ _ _ => false
  | .pair p => pairIsFlush p
  | .pairs ps => pairsIsFlush ps
  | .bareHash ps _ => pairListIsFlush ps
  | .hash (some ps) _ => ps.isEmpty

/-- Whether no expression in a list has anything to indent. -/
def listIsFlush : List Ruby → Bool
  | [] => true
  | r :: rs => isFlush r && listIsFlush rs

/-- Whether a pair has nothing to indent. -/
def pairIsFlush : Pair → Bool
  | .mk key value _ => value.isCompact && (isFlush key && isFlush value)

/-- Whether the pairs of a hash have nothing to indent. -/
def pairsIsFlush : Pairs → Bool
  | .mk ps _ => pairListIsFlush ps

/-- Whether no pair in a list has anything to indent. -/
def pairListIsFlush : List Pair → Bool
  | [] => true
  | p :: ps => pairIsFlush p && pairListIsFlush ps

end

theorem demands_comma : comma.Demands true true :=
  .concat (.cons (.text _) (.singleton .blankBreak))

theorem demands_lastComma (style : Style) : Doc.ListDemands (lastComma style) true true := by
  unfold lastComma
  split
  · exact .singleton (.ifBreak_text _ _)
  · exact .nil

theorem exists_labelName {text : Json} (h : text.isString = true) :
    ∃ name, labelName text = .ok name := by
  cases text with
  | str s =>
      rw [labelName]
      split
      · exact ⟨_, rfl⟩
      · exact ⟨_, rfl⟩
  | _ => cases h

theorem exists_isLabelName {name : Token} (h : name.kind.isString = true) :
    ∃ answer, isLabelName name = .ok answer := by
  cases hkind : name.kind with
  | str s =>
      rw [isLabelName, hkind, Json.key?, Fault.ok_bind]
      split
      · exact ⟨_, rfl⟩
      · exact ⟨_, rfl⟩
  | _ =>
      rw [hkind] at h
      cases h

/-- A key with its separator asks for what the key does. -/
theorem demands_separated (style : Style) {key : Ruby} {keyDoc : Doc}
    (htyped : key.all isWellTyped = true) (hnormal : key.isNormal = true)
    (hkey : keyDoc.Demands key.isFlush true) :
    ∃ doc, separated style key keyDoc = .ok doc ∧ doc.Demands key.isFlush true := by
  have harrow : (Doc.concat [keyDoc, .text " =>"]).Demands key.isFlush true := by
    simpa using Doc.Demands.concat (.cons hkey (.singleton (.text " =>")))
  unfold separated
  split
  · next text _ =>
      by_cases hlabels : style.labels = true
      · exact ⟨keyDoc, by rw [if_pos hlabels]; rfl, hkey⟩
      · obtain ⟨name, hname⟩ := exists_labelName htyped
        refine ⟨.text (":" ++ name ++ " =>"), ?_, .text _⟩
        rw [if_neg hlabels, hname]
        rfl
  · next name _ =>
      by_cases hlabels : style.labels = true
      · obtain ⟨answer, hanswer⟩ := exists_isLabelName htyped
        simp only [if_pos hlabels, hanswer, Fault.ok_bind]
        refine ⟨_, rfl, ?_⟩
        split
        · exact .concat (.cons (.text _) (.singleton (.text _)))
        · exact harrow
      · exact ⟨_, by rw [if_neg hlabels]; rfl, harrow⟩
  · next t quote _ =>
      simp only [all, isWellTyped, isNormal, Bool.and_eq_true] at htyped hnormal
      have hquote := Json.demands_ofJson htyped.1 hnormal.2
      refine ⟨_, rfl, ?_⟩
      split
      · exact .concat (.cons hquote (.cons (.text _) (.cons hquote (.singleton (.text _)))))
      · exact harrow
  · exact ⟨_, rfl, harrow⟩

mutual

/-- **A well-typed expression has a document**, which asks for a level exactly where the
expression has something to indent. -/
theorem demands_toDoc (style : Style) : ∀ r : Ruby, r.all isWellTyped = true →
    r.isNormal = true → ∃ doc, r.toDoc style = .ok doc ∧ doc.Demands r.isFlush true
  | .token t, _, _ | .varRef t _, _, _ => ⟨.text t.text, rfl, .text _⟩
  | .label text _, htyped, _ => by
      cases text with
      | str s => exact ⟨.text s, rfl, .text s⟩
      | _ => cases htyped
  | .symbol name _, _, _ => ⟨_, rfl, .concat (.cons (.text _) (.singleton (.text _)))⟩
  | .quotedSymbol segments quote _, htyped, hnormal => by
      simp only [all, isWellTyped, isNormal, Bool.and_eq_true] at htyped hnormal
      obtain ⟨docs, hdocs, -, hdemands⟩ :=
        demands_listToDocs style segments htyped.2 hnormal.1
      have hquote := Json.demands_ofJson htyped.1 hnormal.2
      refine ⟨_, by rw [toDoc, hdocs]; rfl, ?_⟩
      have hopening : Doc.ListDemands [.text ":", .ofJson quote] true true :=
        .cons (.text _) (.singleton hquote)
      simpa [isFlush] using
        Doc.Demands.concat ((hopening.append hdemands).append (.singleton hquote))
  | .string segments quote _, htyped, hnormal => by
      simp only [all, isWellTyped, isNormal, Bool.and_eq_true] at htyped hnormal
      obtain ⟨docs, hdocs, -, hdemands⟩ :=
        demands_listToDocs style segments htyped.2 hnormal.1
      have hquote := Json.demands_ofJson htyped.1 hnormal.2
      refine ⟨_, by rw [toDoc, hdocs]; rfl, ?_⟩
      simpa [isFlush] using
        Doc.Demands.concat (((Doc.ListDemands.singleton hquote).append hdemands).append
          (.singleton hquote))
  | .interpolation expression _, htyped, hnormal => by
      rw [isNormal] at hnormal
      obtain ⟨doc, hdoc, hdemands⟩ := demands_toDoc style expression htyped hnormal
      refine ⟨_, by rw [toDoc, hdoc]; rfl, ?_⟩
      simpa [isFlush] using
        Doc.Demands.concat (.cons (.text _) (.cons hdemands (.singleton (.text _))))
  | .array none _, _, _ | .hash none _, _, _ => ⟨_, rfl, .text _⟩
  | .array (some elements) _, htyped, hnormal => by
      rw [isNormal] at hnormal
      obtain ⟨docs, hdocs, hlength, hdemands⟩ :=
        demands_listToDocs style elements htyped hnormal
      have hempty : docs.isEmpty = elements.isEmpty := by
        rw [Bool.eq_iff_iff, List.isEmpty_iff_length_eq_zero, List.isEmpty_iff_length_eq_zero,
          hlength]
      rw [toDoc, hdocs, Fault.ok_bind, isFlush, ← hempty]
      by_cases hnone : docs.isEmpty = true
      · rw [if_pos hnone, hnone]
        exact ⟨_, rfl, .text _⟩
      · rw [if_neg hnone, eq_false_of_ne_true hnone]
        refine ⟨_, rfl, ?_⟩
        have htrailing : (if style.trailingCommas then Doc.ifBreak (.text ",") (.text "")
            else .text "").Demands true true := by
          split
          · exact .ifBreak_text _ _
          · exact .text _
        have hinner := Doc.Demands.concat (.cons .softBreak
          (.cons (.join demands_comma hdemands) (.singleton htrailing)))
        simpa using (Doc.Demands.concat (.cons (.text _) (.cons hinner.indent
          (.cons .softBreak (.singleton (.text _)))))).group false
  | .binary left operator right _, htyped, hnormal => by
      simp only [all, isWellTyped, isNormal, Bool.and_eq_true] at htyped hnormal
      obtain ⟨leftDoc, hleft, hleftDemands⟩ := demands_toDoc style left htyped.2.1 hnormal.1
      obtain ⟨rightDoc, hright, hrightDemands⟩ := demands_toDoc style right htyped.2.2 hnormal.2
      refine ⟨_, by rw [toDoc, hleft, Fault.ok_bind, hright]; rfl, ?_⟩
      have hinner := Doc.Demands.concat (.cons .blankBreak (.singleton hrightDemands))
      simpa [isFlush] using (Doc.Demands.concat (.cons hleftDemands (.cons (.text _)
        (.cons (.text _) (.singleton hinner.indent))))).group false
  | .pair p, htyped, hnormal => demands_pairToDoc style p htyped hnormal
  | .pairs ps, htyped, hnormal => demands_pairsToDoc style ps htyped hnormal
  | .bareHash ps _, htyped, hnormal => by
      obtain ⟨docs, hdocs, hdemands⟩ := demands_pairListToDocs style ps htyped hnormal
      refine ⟨_, by rw [toDoc, hdocs]; rfl, ?_⟩
      exact (Doc.Demands.join demands_comma hdemands).group false
  | .hash (some ps) _, htyped, hnormal => by
      rw [toDoc, isFlush]
      by_cases hempty : ps.isEmpty = true
      · rw [if_pos hempty, hempty]
        exact ⟨_, rfl, .text _⟩
      · rw [if_neg hempty, eq_false_of_ne_true hempty]
        obtain ⟨body, hbody, hdemands⟩ := demands_pairsToDoc style ps htyped hnormal
        refine ⟨_, by rw [hbody]; rfl, ?_⟩
        have hinner := Doc.Demands.concat (.cons .blankBreak (.singleton hdemands))
        have hclosing := Doc.Demands.concat (.cons .blankBreak
          (.singleton (.text "\x7d")))
        simpa using (Doc.Demands.concat (.cons (.text _) (.cons hinner.indent
          (.singleton hclosing)))).group false

theorem demands_listToDocs (style : Style) : ∀ rs : List Ruby, listAll isWellTyped rs = true →
    listIsNormal rs = true → ∃ docs, listToDocs style rs = .ok docs ∧
      docs.length = rs.length ∧ Doc.ListDemands docs (listIsFlush rs) true
  | [], _, _ => ⟨[], rfl, rfl, .nil⟩
  | r :: rs, htyped, hnormal => by
      simp only [listAll, listIsNormal, Bool.and_eq_true] at htyped hnormal
      obtain ⟨doc, hdoc, hdemands⟩ := demands_toDoc style r htyped.1 hnormal.1
      obtain ⟨docs, hdocs, hlength, hrest⟩ := demands_listToDocs style rs htyped.2 hnormal.2
      refine ⟨doc :: docs, ?_, by simp [hlength], .cons hdemands hrest⟩
      rw [listToDocs, hdoc, hdocs]
      rfl

theorem demands_pairToDoc (style : Style) : ∀ p : Pair, pairAll isWellTyped p = true →
    pairIsNormal p = true → ∃ doc, pairToDoc style p = .ok doc ∧ doc.Demands (pairIsFlush p) true
  | .mk key value _, htyped, hnormal => by
      simp only [pairAll, pairIsNormal, Bool.and_eq_true] at htyped hnormal
      obtain ⟨own, hown, hownDemands⟩ := demands_toDoc style key htyped.1 hnormal.1
      obtain ⟨keyDoc, hkey, hkeyDemands⟩ :=
        demands_separated style htyped.1 hnormal.1 hownDemands
      obtain ⟨valueDoc, hvalue, hvalueDemands⟩ := demands_toDoc style value htyped.2 hnormal.2
      rw [pairToDoc, hown, Fault.ok_bind, hkey, Fault.ok_bind, hvalue, Fault.ok_bind, pairIsFlush]
      by_cases hcompact : value.isCompact = true
      · rw [if_pos hcompact, hcompact]
        refine ⟨_, rfl, ?_⟩
        simpa using (Doc.Demands.concat (.cons hkeyDemands (.cons (.text _)
          (.singleton hvalueDemands)))).group false
      · rw [if_neg hcompact, eq_false_of_ne_true hcompact]
        refine ⟨_, rfl, ?_⟩
        have hinner := Doc.Demands.concat (.cons .blankBreak (.singleton hvalueDemands))
        simpa using (Doc.Demands.concat (.cons hkeyDemands (.singleton hinner.indent))).group false

theorem demands_pairsToDoc (style : Style) : ∀ ps : Pairs, pairsAll isWellTyped ps = true →
    pairsIsNormal ps = true →
      ∃ doc, pairsToDoc style ps = .ok doc ∧ doc.Demands (pairsIsFlush ps) true
  | .mk ps _, htyped, hnormal => by
      obtain ⟨docs, hdocs, hdemands⟩ := demands_pairListToDocs style ps htyped hnormal
      refine ⟨_, by rw [pairsToDoc, hdocs]; rfl, ?_⟩
      have htrailing :
          Doc.ListDemands (if docs.isEmpty then [] else lastComma style) true true := by
        split
        · exact .nil
        · exact demands_lastComma style
      simpa [pairsIsFlush] using (Doc.Demands.concat
        ((Doc.ListDemands.separate demands_comma hdemands).append htrailing)).group false

theorem demands_pairListToDocs (style : Style) : ∀ ps : List Pair,
    pairListAll isWellTyped ps = true → pairListIsNormal ps = true →
      ∃ docs, pairListToDocs style ps = .ok docs ∧ Doc.ListDemands docs (pairListIsFlush ps) true
  | [], _, _ => ⟨[], rfl, .nil⟩
  | p :: ps, htyped, hnormal => by
      simp only [pairListAll, pairListIsNormal, Bool.and_eq_true] at htyped hnormal
      obtain ⟨doc, hdoc, hdemands⟩ := demands_pairToDoc style p htyped.1 hnormal.1
      obtain ⟨docs, hdocs, hrest⟩ := demands_pairListToDocs style ps htyped.2 hnormal.2
      refine ⟨doc :: docs, ?_, .cons hdemands hrest⟩
      rw [pairListToDocs, hdoc, hdocs]
      rfl

end

end Ruby

/-! ## Tags -/

namespace Tag

variable {tag : Tag}

/-- Whether the attributes of a tag can be aligned: none is written in a hash, or the
columns before the first one fit in memory. -/
def isAligned (tag : Tag) : Bool :=
  tag.hashAttributes.isEmpty || decide ((widthOf tag.heads : Int) + 1 < memoryLimit)

theorem demands_hashDoc (headerWidth : Nat) (attributes : List (Text × Text)) :
    (hashDoc headerWidth attributes).Demands true
      (decide ((headerWidth : Int) + 1 < memoryLimit)) := by
  have hpairs : Doc.ListDemands (attributes.map fun a => .text (attributePair a)) true true := by
    have htexts := Doc.ListDemands.texts (attributes.map attributePair)
    rwa [List.map_map] at htexts
  have hseparated := Doc.ListDemands.separate Ruby.demands_comma hpairs
  have haligned := (Doc.Demands.fill hseparated).align ((headerWidth : Int) + 1)
  simpa [hashDoc, Ruby.comma] using (Doc.Demands.concat
    (.cons (.text "\x7b") (.cons haligned (.singleton (.text "\x7d"))))).group false

theorem demands_leading (tag : Tag) : Doc.ListDemands tag.leading true tag.isAligned := by
  have hhash : Doc.ListDemands (if tag.hashAttributes.isEmpty then []
      else [hashDoc (widthOf tag.heads) tag.hashAttributes]) true tag.isAligned := by
    by_cases hempty : tag.hashAttributes.isEmpty = true
    · rw [if_pos hempty, isAligned, hempty]
      exact .nil
    · rw [if_neg hempty, isAligned, eq_false_of_ne_true hempty, Bool.false_or]
      exact .singleton (demands_hashDoc _ _)
  have hmarked := (((Doc.ListDemands.texts tag.heads).append hhash).append
    (.optional (.text ">") tag.trimOutside)).append (.optional (.text "<") tag.trimInside)
  simpa [leading] using hmarked.append (.optional (.text "/") tag.selfClosing)

theorem demands_trailing (hold : tag.dynamic.old.isOptionalText = true)
    (hreference : tag.objectRef.isOptionalText = true) :
    Doc.ListDemands tag.trailing true true := by
  unfold trailing
  split
  · exact .singleton (.text _)
  · split
    · next htruthy => exact .singleton (Json.demands_ofJson hold htruthy)
    · split
      · next htruthy =>
          exact (Doc.ListDemands.optional (.text _) _).append
            (.singleton (Json.demands_ofJson hreference htruthy))
      · exact .nil

/-- **The line of a tag** asks for the columns that its attributes are aligned by. -/
theorem demands_header (hold : tag.dynamic.old.isOptionalText = true)
    (hreference : tag.objectRef.isOptionalText = true) :
    tag.header.Demands true tag.isAligned := by
  have hparts : Doc.ListDemands (tag.leading ++ tag.trailing) true tag.isAligned := by
    simpa using tag.demands_leading.append (demands_trailing hold hreference)
  refine Doc.Demands.group (.concat ?_) false
  split
  · next hbare =>
      rw [Bool.and_eq_true, List.isEmpty_iff] at hbare
      rw [hbare.1] at hparts
      rw [hparts.of_nil.2]
      exact .singleton (.text _)
  · exact hparts

end Tag

/-! ## Markup -/

/-- Lines nested under a line need a level. -/
theorem Doc.Demands.nested {parts children : List Doc} {flush aligned flush' aligned' : Bool}
    (hparts : ListDemands parts flush aligned) (hchildren : ListDemands children flush' aligned') :
    (Doc.nested parts children).Demands (flush && children.isEmpty) (aligned && aligned') := by
  refine Doc.Demands.group (.concat (.append hparts ?_)) false
  cases children with
  | nil =>
      rw [hchildren.of_nil.2]
      exact .nil
  | cons child children =>
      have hlines := Doc.Demands.concat
        (.cons .hardBreak (.singleton (Doc.Demands.join .hardBreak hchildren)))
      simpa [Doc.indented] using ListDemands.singleton hlines.indent

namespace Markup

/-- Whether the texts that a line is printed from are texts or absent. The line number of a
comment that is not rendered is an integer or absent. -/
def isWellTyped : Markup → Bool
  | .root _ _ => true
  | .tag t _ _ => t.name.isOptionalText && t.value.isOptionalText &&
    t.dynamic.old.isOptionalText && t.objectRef.isOptionalText
  | .comment c _ _ => c.conditional.isOptionalText && c.text.isOptionalText
  | .doctype d _ =>
    d.kind.isOptionalText && d.version.isOptionalText && d.encoding.isOptionalText
  | .hamlComment text _ line => text.isOptionalText && (line.isNull || line.int?.isSome)
  | .plain text _ | .script text _ _ => text.isOptionalText
  | .silentScript s _ _ => s.text.isOptionalText

/-- Whether a line of text has one. -/
def hasText : Markup → Bool
  | .plain text _ => !text.isNull
  | _ => true

theorem hasText_of_isNormal {m : Markup} (h : m.isNormal = true) : m.hasText = true := by
  cases m with
  | plain text line =>
      cases text with
      | null => cases h
      | _ => rfl
  | _ => rfl

mutual

/-- Whether markup has no line that is nested under another one. The source tells which
comments are written as a block. -/
def isFlush (source : Text) : Markup → Bool
  | .root children _ => listIsFlush source children
  | .tag _ children _ | .comment _ children _ | .script _ children _ => children.isEmpty
  | .doctype _ _ | .plain _ _ => true
  | .hamlComment text _ line =>
    (commentLines source 0 (text.orElse (.str "")).text line).all fun l => l.1 == 0
  | .silentScript s children _ =>
    if s.keyword.isText "case" then clausesAreFlush source false children else children.isEmpty

/-- Whether no line in a list has one nested under it. -/
def listIsFlush (source : Text) : List Markup → Bool
  | [] => true
  | m :: ms => isFlush source m && listIsFlush source ms

/-- Whether the children of a `case` are all clauses, `deeper` if the first is none, and
have nothing nested under them. -/
def clausesAreFlush (source : Text) (deeper : Bool) : List Markup → Bool
  | [] => true
  | m :: ms => (!deeper && isFlush source m) && clausesAreFlush source (!deeper) ms

end

mutual

/-- Whether the attributes of every tag that is printed can be aligned. What is nested under
a comment that is not rendered is not printed. -/
def isAligned : Markup → Bool
  | .root children _ | .comment _ children _ | .script _ children _ | .silentScript _ children _ =>
    listIsAligned children
  | .tag t children _ => t.isAligned && listIsAligned children
  | .doctype _ _ | .plain _ _ | .hamlComment _ _ _ => true

/-- Whether the attributes of every tag in and under a list of lines can be aligned. -/
def listIsAligned : List Markup → Bool
  | [] => true
  | m :: ms => isAligned m && listIsAligned ms

end

section

variable {source : Text} {docs : List Doc} {ms : List Markup}

theorem isEmpty_eq_of_forall₂ {R : Doc → Markup → Prop} (h : List.Forall₂ R docs ms) :
    docs.isEmpty = ms.isEmpty := by
  cases h <;> rfl

/-- Lines at one level ask for what each asks for. -/
theorem listDemands_of_forall₂ (h : List.Forall₂ (fun doc m => doc.Demands
    (isFlush source m) (isAligned m)) docs ms) :
    Doc.ListDemands docs (listIsFlush source ms) (listIsAligned ms) := by
  induction h with
  | nil => exact .nil
  | cons hdoc _ ih => exact .cons hdoc ih

/-- What comes between the clauses of a `case` needs a level. -/
theorem listDemands_caseLines (h : List.Forall₂ (fun doc m => doc.Demands
    (isFlush source m) (isAligned m)) docs ms) (deeper : Bool) :
    Doc.ListDemands (caseLines deeper docs) (clausesAreFlush source deeper ms)
      (listIsAligned ms) := by
  induction h generalizing deeper with
  | nil => exact .nil
  | cons hdoc _ ih =>
      have hline := Doc.Demands.concat (.cons .hardBreak (.singleton hdoc))
      refine .cons ?_ (ih (!deeper))
      cases deeper with
      | true => simpa using hline.indent
      | false => simpa using hline

end

mutual

/-- **Well-typed markup has a document** if no line of text lacks its text. The document asks
for a level exactly where a line is nested under another one, and for columns where attributes
are aligned. -/
theorem demands_toDoc (style : Style) : ∀ m : Markup, m.all isWellTyped = true →
    m.all hasText = true →
      ∃ doc, m.toDoc style = .ok doc ∧ doc.Demands (m.isFlush style.source) m.isAligned
  | .root children _, htyped, htext => by
      simp only [all, Bool.and_eq_true] at htyped htext
      obtain ⟨docs, hdocs, hdemands⟩ := demands_listToDocs style children htyped.2 htext.2
      refine ⟨_, by rw [toDoc, hdocs]; rfl, ?_⟩
      have hlines := Doc.Demands.join .hardBreak (listDemands_of_forall₂ hdemands)
      simpa [isFlush, isAligned] using
        (Doc.Demands.concat (.cons hlines (.singleton .hardBreak))).root
  | .tag t children _, htyped, htext => by
      simp only [all, isWellTyped, Bool.and_eq_true] at htyped htext
      obtain ⟨docs, hdocs, hdemands⟩ := demands_listToDocs style children htyped.2 htext.2
      have hheader := t.demands_header htyped.1.1.2 htyped.1.2
      refine ⟨_, by rw [toDoc, hdocs]; rfl, ?_⟩
      cases hdemands with
      | nil => simpa [isFlush, isAligned, listIsAligned] using hheader
      | cons hfirst hrest =>
          have hchildren := listDemands_of_forall₂ (.cons hfirst hrest)
          simpa [isFlush, isAligned] using Doc.Demands.nested (.singleton hheader) hchildren
  | .comment c children _, htyped, htext => by
      simp only [all, isWellTyped, Bool.and_eq_true] at htyped htext
      obtain ⟨docs, hdocs, hdemands⟩ := demands_listToDocs style children htyped.2 htext.2
      refine ⟨_, by rw [toDoc, hdocs]; rfl, ?_⟩
      have hparts := Doc.ListDemands.of_concat (c.renders_parts 0 htyped.1.1 htyped.1.2).demands
      have hempty : docs.isEmpty = children.isEmpty := isEmpty_eq_of_forall₂ hdemands
      simpa [isFlush, isAligned, hempty] using
        Doc.Demands.nested hparts (listDemands_of_forall₂ hdemands)
  | .doctype d _, htyped, _ => by
      simp only [all, isWellTyped, Bool.and_eq_true] at htyped
      obtain ⟨doc, hdoc, hrenders⟩ :=
        Doctype.renders_toDoc htyped.1.1 htyped.1.2 htyped.2
      exact ⟨doc, hdoc, by simpa [isFlush, isAligned] using (hrenders 0).demands⟩
  | .hamlComment text _ line, htyped, _ => by
      simp only [all, isWellTyped, Bool.and_eq_true] at htyped
      obtain ⟨doc, hdoc, hrenders⟩ := renders_hamlCommentDoc style htyped.1.1 htyped.1.2
      exact ⟨doc, hdoc, (hrenders 0).demands⟩
  | .plain text _, htyped, htext => by
      cases text with
      | str s => exact ⟨.text s, rfl, .text s⟩
      | null => cases htext
      | _ => cases htyped
  | .script text children _, htyped, htext => by
      simp only [all, Bool.and_eq_true] at htyped htext
      obtain ⟨docs, hdocs, hdemands⟩ := demands_listToDocs style children htyped.2 htext.2
      refine ⟨_, by rw [toDoc, hdocs]; rfl, ?_⟩
      have hempty : docs.isEmpty = children.isEmpty := isEmpty_eq_of_forall₂ hdemands
      simpa [isFlush, isAligned, hempty] using
        Doc.Demands.nested (.singleton (.text _)) (listDemands_of_forall₂ hdemands)
  | .silentScript s children _, htyped, htext => by
      simp only [all, Bool.and_eq_true] at htyped htext
      obtain ⟨docs, hdocs, hdemands⟩ := demands_listToDocs style children htyped.2 htext.2
      have hempty : docs.isEmpty = children.isEmpty := isEmpty_eq_of_forall₂ hdemands
      rw [toDoc, hdocs, Fault.ok_bind, isFlush, isAligned]
      by_cases hcase : s.keyword.isText "case" = true
      · rw [if_pos hcase, if_pos hcase]
        refine ⟨_, rfl, ?_⟩
        simpa using (Doc.Demands.concat
          (.cons (.text _) (listDemands_caseLines hdemands false))).group false
      · rw [if_neg hcase, if_neg hcase]
        refine ⟨_, rfl, ?_⟩
        simpa [hempty] using
          Doc.Demands.nested (.singleton (.text _)) (listDemands_of_forall₂ hdemands)

theorem demands_listToDocs (style : Style) : ∀ ms : List Markup,
    listAll isWellTyped ms = true → listAll hasText ms = true →
      ∃ docs, listToDocs style ms = .ok docs ∧ List.Forall₂ (fun doc m => doc.Demands
        (isFlush style.source m) (isAligned m)) docs ms
  | [], _, _ => ⟨[], rfl, .nil⟩
  | m :: ms, htyped, htext => by
      simp only [listAll, Bool.and_eq_true] at htyped htext
      obtain ⟨doc, hdoc, hdemands⟩ := demands_toDoc style m htyped.1 htext.1
      obtain ⟨docs, hdocs, hrest⟩ := demands_listToDocs style ms htyped.2 htext.2
      refine ⟨doc :: docs, ?_, .cons hdemands hrest⟩
      rw [listToDocs, hdoc, hdocs]
      rfl

end

end Markup

end HamlFormat
