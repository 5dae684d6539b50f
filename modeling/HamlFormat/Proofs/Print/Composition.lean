import HamlFormat.Proofs.Print.Ruby

/-!
# HamlFormat.Proofs.Print.Composition

What the document of an expression is made of: texts, line breaks and the documents of the
expressions that are written right inside it (`Ruby.made_toDoc`). A fact about all documents of
expressions then needs a case for each way to make one, and none for each kind of expression;
that they force nothing is the first (`Ruby.forces_toDoc`). The documents of arrays and hashes
with elements are given names.
-/

namespace HamlFormat.Ruby

/-! ## Expressions inside expressions -/

/-- Whether a key is a name: what is written for it holds no other expression. -/
def isName : Ruby → Bool
  | .label _ _ | .symbol _ _ | .quotedSymbol [.token _] _ _ => true
  | _ => false

/-- The expressions that are written right inside an expression. -/
def children : Ruby → List Ruby
  | .token _ | .varRef _ _ | .label _ _ | .symbol _ _ | .array none _ | .hash none _ => []
  | .quotedSymbol segments _ _ | .string segments _ _ => segments
  | .interpolation expression _ => [expression]
  | .array (some es) _ => es
  | .binary left _ right _ => [left, right]
  | .pair (.mk key value _) => if key.isName then [value] else [key, value]
  | .pairs (.mk ps _) | .bareHash ps _ => ps.map .pair
  | .hash (some ps) _ => if ps.isEmpty then [] else [.pairs ps]

/-- An expression inside another one is smaller. -/
theorem sizeOf_lt_of_mem_children {r child : Ruby} (h : child ∈ r.children) :
    sizeOf child < sizeOf r := by
  have hpair : ∀ {ps : List Pair}, child ∈ ps.map Ruby.pair → sizeOf child < 1 + sizeOf ps := by
    intro ps hps
    obtain ⟨p, hp, rfl⟩ := List.mem_map.mp hps
    have hlt := List.sizeOf_lt_of_mem hp
    rw [Ruby.pair.sizeOf_spec]
    omega
  cases r with
  | token _ | varRef _ _ | label _ _ | symbol _ _ => cases h
  | quotedSymbol segments _ _ =>
      rw [children] at h
      have hlt := List.sizeOf_lt_of_mem h
      rw [Ruby.quotedSymbol.sizeOf_spec]
      omega
  | string segments _ _ =>
      rw [children] at h
      have hlt := List.sizeOf_lt_of_mem h
      rw [Ruby.string.sizeOf_spec]
      omega
  | interpolation expression _ =>
      cases List.mem_singleton.mp h
      rw [Ruby.interpolation.sizeOf_spec]
      omega
  | array elements _ =>
      cases elements with
      | none => cases h
      | some es =>
          rw [children] at h
          have hlt := List.sizeOf_lt_of_mem h
          rw [Ruby.array.sizeOf_spec, Option.some.sizeOf_spec]
          omega
  | binary left _ right _ =>
      rw [Ruby.binary.sizeOf_spec]
      rw [children, List.mem_cons, List.mem_singleton] at h
      obtain rfl | rfl := h <;> omega
  | pair p =>
      obtain ⟨key, value, line⟩ := p
      rw [Ruby.pair.sizeOf_spec, Pair.mk.sizeOf_spec]
      have hmem : child = key ∨ child = value := by
        rw [children] at h
        split at h
        · exact .inr (List.mem_singleton.mp h)
        · simpa using h
      obtain rfl | rfl := hmem <;> omega
  | pairs ps =>
      obtain ⟨ps, line⟩ := ps
      have hlt := hpair h
      rw [Ruby.pairs.sizeOf_spec, Pairs.mk.sizeOf_spec]
      omega
  | bareHash ps _ =>
      have hlt := hpair h
      rw [Ruby.bareHash.sizeOf_spec]
      omega
  | hash body _ =>
      cases body with
      | none => cases h
      | some ps =>
          rw [children] at h
          split at h
          · cases h
          · cases List.mem_singleton.mp h
            rw [Ruby.pairs.sizeOf_spec, Ruby.hash.sizeOf_spec, Option.some.sizeOf_spec]
            omega

/-! ## How documents are made -/

/-- How a document is made of texts and line breaks and of the documents of expressions, which
are listed in order. -/
inductive Made (style : Style) : Doc → List Ruby → Prop where
  | value (value : Json) : Made style (.ofJson value) []
  | line (soft : Bool) : Made style (.line false soft) []
  | choice (s t : Text) : Made style (.ifBreak (.text s) (.text t)) []
  | child {r : Ruby} {doc : Doc} (h : r.toDoc style = .ok doc) : Made style doc [r]
  | nil : Made style (.concat []) []
  | cons {doc : Doc} {docs : List Doc} {rs ss : List Ruby} (h : Made style doc rs)
      (hrest : Made style (.concat docs) ss) : Made style (.concat (doc :: docs)) (rs ++ ss)
  | group {contents : Doc} {rs : List Ruby} (h : Made style contents rs) :
      Made style (.group contents false) rs
  | indent {contents : Doc} {rs : List Ruby} (h : Made style contents rs) :
      Made style (.indent contents) rs

namespace Made

variable {style : Style} {rs ss : List Ruby} {docs back : List Doc}

theorem text (s : Text) : Made style (.text s) [] :=
  .value (.str s)

/-- What is no expression in front of other documents. -/
theorem plain {doc : Doc} (h : Made style doc []) (hrest : Made style (.concat back) ss) :
    Made style (.concat (doc :: back)) ss :=
  .cons h hrest

/-- An expression in front of other documents. -/
theorem expression {r : Ruby} {doc : Doc} (h : r.toDoc style = .ok doc)
    (hrest : Made style (.concat back) ss) : Made style (.concat (doc :: back)) (r :: ss) :=
  .cons (.child h) hrest

theorem comma : Made style Ruby.comma [] :=
  .plain (text ",") (.plain (.line false) .nil)

/-- The documents of expressions one after another. -/
theorem children (hdocs : listToDocs style rs = .ok docs) (hback : Made style (.concat back) ss) :
    Made style (.concat (docs ++ back)) (rs ++ ss) := by
  induction rs generalizing docs with
  | nil =>
      cases hdocs
      exact hback
  | cons r rs ih =>
      obtain ⟨first, hfirst, hrest⟩ := Fault.bind_eq_ok.mp hdocs
      obtain ⟨others, hothers, hdocs⟩ := Fault.bind_eq_ok.mp hrest
      cases hdocs
      exact .expression hfirst (ih hothers)

/-- The documents of expressions with commas between them. -/
theorem separate (hdocs : listToDocs style rs = .ok docs) (hback : Made style (.concat back) ss) :
    Made style (.concat (Doc.separate Ruby.comma docs ++ back)) (rs ++ ss) := by
  induction rs generalizing docs with
  | nil =>
      cases hdocs
      exact hback
  | cons r rs ih =>
      obtain ⟨first, hfirst, hrest⟩ := Fault.bind_eq_ok.mp hdocs
      obtain ⟨others, hothers, hdocs⟩ := Fault.bind_eq_ok.mp hrest
      cases hdocs
      cases others with
      | nil => exact .expression hfirst (ih hothers)
      | cons second others => exact .expression hfirst (.plain comma (ih hothers))

end Made

variable {style : Style}

/-- The documents of pairs are those of the expressions that the pairs are. -/
theorem listToDocs_map_pair (ps : List Pair) :
    listToDocs style (ps.map .pair) = pairListToDocs style ps := by
  induction ps with
  | nil => rfl
  | cons p ps ih => rw [List.map_cons, listToDocs, pairListToDocs, ih, toDoc]

theorem isEmpty_of_listToDocs {rs : List Ruby} {docs : List Doc}
    (h : listToDocs style rs = .ok docs) : docs.isEmpty = rs.isEmpty := by
  cases rs with
  | nil =>
      cases h
      rfl
  | cons r rs =>
      obtain ⟨first, -, hrest⟩ := Fault.bind_eq_ok.mp h
      obtain ⟨others, -, hdocs⟩ := Fault.bind_eq_ok.mp hrest
      cases hdocs
      rfl

/-- The document of an array with elements. -/
def bracketsDoc (style : Style) (elements : List Doc) : Doc :=
  .group (.concat [.text "[",
    .indent (.concat [.softBreak, Doc.join comma elements,
      if style.trailingCommas then .ifBreak (.text ",") (.text "") else .text ""]),
    .softBreak, .text "]"]) false

/-- The document of a hash with pairs. -/
def bracesDoc (body : Doc) : Doc :=
  .group (.concat [.text "\x7b", .indent (.concat [.blankBreak, body]),
    .concat [.blankBreak, .text "\x7d"]]) false

/-- The document of the pairs of a hash. -/
def bodyDoc (style : Style) (pairs : List Doc) : Doc :=
  .group (.concat (Doc.separate comma pairs ++ lastComma style)) false

theorem exists_of_toDoc_array {es : List Ruby} {line : Json} {doc : Doc} (hes : es ≠ [])
    (h : toDoc style (.array (some es) line) = .ok doc) :
    ∃ docs, listToDocs style es = .ok docs ∧ doc = bracketsDoc style docs := by
  obtain ⟨docs, hdocs, hdoc⟩ := Fault.bind_eq_ok.mp h
  have hempty : docs.isEmpty = false := by
    rw [isEmpty_of_listToDocs hdocs]
    simpa using hes
  rw [hempty] at hdoc
  cases hdoc
  exact ⟨docs, hdocs, rfl⟩

theorem exists_of_toDoc_hash {ps : Pairs} {line : Json} {doc : Doc} (hps : ps.isEmpty = false)
    (h : toDoc style (.hash (some ps) line) = .ok doc) :
    ∃ body, pairsToDoc style ps = .ok body ∧ doc = bracesDoc body := by
  rw [toDoc, hps] at h
  obtain ⟨body, hbody, hdoc⟩ := Fault.bind_eq_ok.mp h
  cases hdoc
  exact ⟨body, hbody, rfl⟩

theorem exists_of_pairsToDoc {ps : List Pair} {line : Json} {doc : Doc} (hps : ps ≠ [])
    (h : pairsToDoc style (.mk ps line) = .ok doc) :
    ∃ docs, listToDocs style (ps.map .pair) = .ok docs ∧ doc = bodyDoc style docs := by
  obtain ⟨docs, hdocs, hdoc⟩ := Fault.bind_eq_ok.mp h
  rw [← listToDocs_map_pair] at hdocs
  have hempty : docs.isEmpty = false := by
    rw [isEmpty_of_listToDocs hdocs]
    simpa using hps
  rw [hempty] at hdoc
  cases hdoc
  exact ⟨docs, hdocs, rfl⟩

/-- A key with its separator is made of the key, or holds no expression if the key is a name. -/
theorem made_separated {key : Ruby} {keyDoc doc : Doc} (hkey : key.toDoc style = .ok keyDoc)
    (h : separated style key keyDoc = .ok doc) :
    Made style doc (if key.isName then [] else [key]) := by
  have harrow : ∀ {rs : List Ruby}, Made style keyDoc rs →
      Made style (.concat [keyDoc, .text " =>"]) rs := by
    intro rs hmade
    have hcons := Made.cons hmade (.plain (.text " =>") .nil)
    rwa [List.append_nil] at hcons
  unfold separated at h
  split at h
  · next text line =>
      cases hkey
      split at h
      · cases h
        exact .value _
      · obtain ⟨name, -, hdoc⟩ := Fault.bind_eq_ok.mp h
        cases hdoc
        exact .text _
  · next name line =>
      have hsymbol : Made style keyDoc [] := by
        cases hkey
        exact .plain (.text _) (.plain (.text _) .nil)
      split at h
      · obtain ⟨asLabel, -, hdoc⟩ := Fault.bind_eq_ok.mp h
        cases asLabel with
        | true =>
            cases hdoc
            exact .plain (.text _) (.plain (.text _) .nil)
        | false =>
            cases hdoc
            exact harrow hsymbol
      · cases h
        exact harrow hsymbol
  · next t quote line =>
      have hquoted : Made style keyDoc [] := by
        cases hkey
        exact .plain (.text _) (.plain (.value _) (.plain (.text _) (.plain (.value _) .nil)))
      cases h
      split
      · exact .plain (.value _) (.plain (.text _) (.plain (.value _) (.plain (.text _) .nil)))
      · exact harrow hquoted
  · next hlabel hsymbol hquoted =>
      cases h
      have hname : key.isName = false := by
        unfold isName
        split
        · exact absurd rfl (hlabel _ _)
        · exact absurd rfl (hsymbol _ _)
        · exact absurd rfl (hquoted _ _ _)
        · rfl
      rw [hname]
      exact harrow (.child hkey)

theorem made_bracketsDoc {es : List Ruby} {docs : List Doc}
    (hdocs : listToDocs style es = .ok docs) : Made style (bracketsDoc style docs) es := by
  have hcomma : Made style
      (if style.trailingCommas then .ifBreak (.text ",") (.text "") else .text "") [] := by
    split
    · exact .choice _ _
    · exact .text _
  have helements : Made style (Doc.join comma docs) es := by
    have hseparate := Made.separate hdocs .nil
    rwa [List.append_nil, List.append_nil] at hseparate
  have hinner := Made.cons helements (.plain hcomma .nil)
  have hindent := Made.cons (.indent (.plain (.line true) hinner))
    (.plain (.line true) (.plain (.text "]") .nil))
  rw [List.append_nil, List.append_nil] at hindent
  exact .group (.plain (.text _) hindent)

theorem made_bodyDoc {rs : List Ruby} {docs : List Doc} (hdocs : listToDocs style rs = .ok docs) :
    Made style (bodyDoc style docs) rs := by
  have hlast : Made style (.concat (lastComma style)) [] := by
    rw [lastComma]
    split
    · exact .plain (.choice _ _) .nil
    · exact .nil
  have hpairs := Made.separate hdocs hlast
  rw [List.append_nil] at hpairs
  exact .group hpairs

theorem made_bracesDoc {r : Ruby} {body : Doc} (hbody : r.toDoc style = .ok body) :
    Made style (bracesDoc body) [r] := by
  have hclose : Made style (.concat [.blankBreak, .text "\x7d"]) [] :=
    .plain (.line false) (.plain (.text _) .nil)
  exact .group (.plain (.text _) (.cons (.indent (.plain (.line false) (.expression hbody .nil)))
    (.plain hclose .nil)))

/-- **The document of an expression is made of the expressions inside it.** -/
theorem made_toDoc {r : Ruby} {doc : Doc} (h : r.toDoc style = .ok doc) :
    Made style doc r.children := by
  cases r with
  | token t | varRef t _ =>
      cases h
      exact .text _
  | label text _ =>
      cases h
      exact .value _
  | symbol name _ =>
      cases h
      exact .plain (.text _) (.plain (.text _) .nil)
  | quotedSymbol segments quote _ =>
      obtain ⟨docs, hdocs, hdoc⟩ := Fault.bind_eq_ok.mp h
      cases hdoc
      have hsegments := Made.children hdocs (.plain (.value quote) .nil)
      rw [List.append_nil] at hsegments
      exact .plain (.text _) (.plain (.value _) hsegments)
  | string segments quote _ =>
      obtain ⟨docs, hdocs, hdoc⟩ := Fault.bind_eq_ok.mp h
      cases hdoc
      have hsegments := Made.children hdocs (.plain (.value quote) .nil)
      rw [List.append_nil] at hsegments
      exact .plain (.value _) hsegments
  | interpolation expression _ =>
      obtain ⟨inner, hinner, hdoc⟩ := Fault.bind_eq_ok.mp h
      cases hdoc
      exact .plain (.text _) (.expression hinner (.plain (.text _) .nil))
  | array elements _ =>
      cases elements with
      | none =>
          cases h
          exact .text _
      | some es =>
          by_cases hes : es = []
          · subst hes
            cases h
            exact .text _
          · obtain ⟨docs, hdocs, rfl⟩ := exists_of_toDoc_array hes h
            exact made_bracketsDoc hdocs
  | binary left operator right _ =>
      obtain ⟨leftDoc, hleft, hrest⟩ := Fault.bind_eq_ok.mp h
      obtain ⟨rightDoc, hright, hdoc⟩ := Fault.bind_eq_ok.mp hrest
      cases hdoc
      exact .group (.expression hleft (.plain (.text _) (.plain (.text _)
        (.cons (.indent (.plain (.line false) (.expression hright .nil))) .nil))))
  | pair p =>
      obtain ⟨key, value, line⟩ := p
      obtain ⟨own, hown, hrest⟩ := Fault.bind_eq_ok.mp h
      obtain ⟨keyDoc, hkey, hrest⟩ := Fault.bind_eq_ok.mp hrest
      obtain ⟨valueDoc, hvalue, hdoc⟩ := Fault.bind_eq_ok.mp hrest
      have hkeyDoc := made_separated hown hkey
      have hchildren : (Ruby.pair (.mk key value line)).children =
          (if key.isName then [] else [key]) ++ [value] := by
        rw [children]
        split <;> rfl
      rw [hchildren]
      split at hdoc
      · cases hdoc
        exact .group (.cons hkeyDoc (.plain (.text _) (.expression hvalue .nil)))
      · cases hdoc
        exact .group (.cons hkeyDoc
          (.cons (.indent (.plain (.line false) (.expression hvalue .nil))) .nil))
  | pairs ps =>
      obtain ⟨ps, line⟩ := ps
      by_cases hps : ps = []
      · subst hps
        cases h
        exact .group .nil
      · obtain ⟨docs, hdocs, rfl⟩ := exists_of_pairsToDoc hps h
        exact made_bodyDoc hdocs
  | bareHash ps _ =>
      obtain ⟨docs, hdocs, hdoc⟩ := Fault.bind_eq_ok.mp h
      cases hdoc
      rw [← listToDocs_map_pair] at hdocs
      have hpairs := Made.separate hdocs .nil
      rw [List.append_nil, List.append_nil] at hpairs
      exact .group hpairs
  | hash body _ =>
      cases body with
      | none =>
          cases h
          exact .text _
      | some ps =>
          cases hps : ps.isEmpty with
          | true =>
              rw [toDoc, hps] at h
              cases h
              rw [children, hps]
              exact .text _
          | false =>
              obtain ⟨body, hbody, rfl⟩ := exists_of_toDoc_hash hps h
              rw [children, hps]
              have hpairs : (Ruby.pairs ps).toDoc style = .ok body := by rwa [toDoc]
              exact made_bracesDoc hpairs

/-- The document of an expression forces nothing. -/
theorem forces_toDoc {r : Ruby} {doc : Doc} (h : r.toDoc style = .ok doc) :
    doc.forces = false := by
  induction hsize : sizeOf r using Nat.strong_induction_on generalizing r doc with
  | _ size ih =>
      -- The hypothesis covers the children; how the document is made of them does the rest.
      have hmade : ∀ {doc : Doc} {rs : List Ruby}, Made style doc rs →
          (∀ child ∈ rs, sizeOf child < size) → doc.forces = false := by
        intro doc rs hmade
        induction hmade with
        | value value => intro _; cases value <;> rfl
        | line _ | choice _ _ | nil => intro _; rfl
        | @child r doc hr =>
            intro hlt
            exact ih _ (hlt r List.mem_cons_self) hr rfl
        | cons _ _ ihFirst ihRest =>
            intro hlt
            rw [List.forall_mem_append] at hlt
            have hrest := ihRest hlt.2
            rw [Doc.forces] at hrest
            rw [Doc.forces, Doc.listForces, ihFirst hlt.1, hrest]
            rfl
        | group _ ihContents =>
            intro hlt
            rw [Doc.forces, ihContents hlt]
            rfl
        | indent _ ihContents => exact ihContents
      refine hmade (made_toDoc h) fun child hchild => ?_
      rw [← hsize]
      exact sizeOf_lt_of_mem_children hchild

end HamlFormat.Ruby
