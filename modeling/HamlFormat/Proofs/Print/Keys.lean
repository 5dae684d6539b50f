import HamlFormat.Proofs.Layout.Normalize

/-!
# HamlFormat.Proofs.Print.Keys

The two ways to write a key that is a plain name: as a label, `name:`, and as a
symbol, `:name`. A style writes all keys one way where it can, so expressions that
differ in how such keys are written (`Ruby.Respells`) come out the same. The two
keys do not have the same document, one text against several, but the documents are
interchangeable, and so are those of the expressions around them
(`related_toDoc`).
-/

namespace HamlFormat

/-! ## Respelled keys -/

/-- Whether a symbol's name can be a label: a word that ends in no mark. -/
def Token.IsWord (name : Token) : Prop :=
  (name.kind = .str "@ident" ∨ name.kind = .str "@const" ∨ name.kind = .str "@kw") ∧
    name.text.endsIn '?' = false ∧ name.text.endsIn '!' = false ∧ name.text.endsIn '=' = false

instance (name : Token) : Decidable name.IsWord :=
  inferInstanceAs (Decidable ((_ ∨ _ ∨ _) ∧ _ ∧ _ ∧ _))

namespace Ruby

mutual

/-- Two expressions that differ at most in keys that are a label in one and a symbol
in the other. If labels are preferred the symbol has to be a word. -/
inductive Respells (labels : Bool) : Ruby → Ruby → Prop where
  | token (t : Token) : Respells labels (.token t) (.token t)
  | varRef (t : Token) (line : Json) : Respells labels (.varRef t line) (.varRef t line)
  | label (text line : Json) : Respells labels (.label text line) (.label text line)
  | symbol (name : Token) (line : Json) : Respells labels (.symbol name line) (.symbol name line)
  | quotedSymbol {segments segments' : List Ruby} (quote line : Json)
      (h : ListRespells labels segments segments') :
      Respells labels (.quotedSymbol segments quote line) (.quotedSymbol segments' quote line)
  | string {segments segments' : List Ruby} (quote line : Json)
      (h : ListRespells labels segments segments') :
      Respells labels (.string segments quote line) (.string segments' quote line)
  | interpolation {expression expression' : Ruby} (line : Json)
      (h : Respells labels expression expression') :
      Respells labels (.interpolation expression line) (.interpolation expression' line)
  | emptyArray (line : Json) : Respells labels (.array none line) (.array none line)
  | array {elements elements' : List Ruby} (line : Json)
      (h : ListRespells labels elements elements') :
      Respells labels (.array (some elements) line) (.array (some elements') line)
  | binary {left left' right right' : Ruby} (operator : Text) (line : Json)
      (hleft : Respells labels left left') (hright : Respells labels right right') :
      Respells labels (.binary left operator right line) (.binary left' operator right' line)
  | pair {p p' : Pair} (h : PairRespells labels p p') : Respells labels (.pair p) (.pair p')
  | pairs {ps ps' : Pairs} (h : PairsRespells labels ps ps') :
      Respells labels (.pairs ps) (.pairs ps')
  | bareHash {ps ps' : List Pair} (line : Json) (h : PairListRespells labels ps ps') :
      Respells labels (.bareHash ps line) (.bareHash ps' line)
  | emptyHash (line : Json) : Respells labels (.hash none line) (.hash none line)
  | hash {ps ps' : Pairs} (line : Json) (h : PairsRespells labels ps ps') :
      Respells labels (.hash (some ps) line) (.hash (some ps') line)

/-- Two lists of expressions that differ in the same way. -/
inductive ListRespells (labels : Bool) : List Ruby → List Ruby → Prop where
  | nil : ListRespells labels [] []
  | cons {r r' : Ruby} {rs rs' : List Ruby} (h : Respells labels r r')
      (hrest : ListRespells labels rs rs') : ListRespells labels (r :: rs) (r' :: rs')

/-- Two pairs that differ in the same way, or one with a label and one with a symbol
for its key. -/
inductive PairRespells (labels : Bool) : Pair → Pair → Prop where
  | mk {key key' value value' : Ruby} (line : Json) (hkey : Respells labels key key')
      (hvalue : Respells labels value value') :
      PairRespells labels (.mk key value line) (.mk key' value' line)
  | toSymbol {value value' : Ruby} (name : Token) (labelLine symbolLine line : Json)
      (hname : labels = true → name.IsWord) (hvalue : Respells labels value value') :
      PairRespells labels (.mk (.label (.str (name.text ++ ":")) labelLine) value line)
        (.mk (.symbol name symbolLine) value' line)
  | toLabel {value value' : Ruby} (name : Token) (labelLine symbolLine line : Json)
      (hname : labels = true → name.IsWord) (hvalue : Respells labels value value') :
      PairRespells labels (.mk (.symbol name symbolLine) value line)
        (.mk (.label (.str (name.text ++ ":")) labelLine) value' line)

/-- The pairs of two hashes that differ in the same way. -/
inductive PairsRespells (labels : Bool) : Pairs → Pairs → Prop where
  | mk {ps ps' : List Pair} (line : Json) (h : PairListRespells labels ps ps') :
      PairsRespells labels (.mk ps line) (.mk ps' line)

/-- Two lists of pairs that differ in the same way. -/
inductive PairListRespells (labels : Bool) : List Pair → List Pair → Prop where
  | nil : PairListRespells labels [] []
  | cons {p p' : Pair} {ps ps' : List Pair} (h : PairRespells labels p p')
      (hrest : PairListRespells labels ps ps') : PairListRespells labels (p :: ps) (p' :: ps')

end

/-- Values that differ in their keys alone start on their key's line alike. -/
theorem Respells.isCompact_eq {labels : Bool} {r r' : Ruby} (h : Respells labels r r') :
    r.isCompact = r'.isCompact := by
  cases h <;> rfl

/-- Hash bodies that differ in their keys alone are empty alike. -/
theorem PairsRespells.isEmpty_eq {labels : Bool} {ps ps' : Pairs}
    (h : PairsRespells labels ps ps') : ps.isEmpty = ps'.isEmpty := by
  cases h with
  | mk line h => cases h <;> rfl

/-! ## Keys -/

/-- A word can be written as a label. -/
theorem isLabelName_of_isWord {name : Token} (h : name.IsWord) : isLabelName name = .ok true := by
  obtain ⟨hkind, hquestion, hbang, hequals⟩ := h
  rcases hkind with hkind | hkind | hkind
  all_goals
    rw [isLabelName, hkind, hquestion, hbang, hequals]
    decide +kernel

/-- The name in a label made of a name is that name. -/
theorem labelName_colon (name : Text) : labelName (.str (name ++ ":")) = .ok name := by
  have hcolon : Text.endsIn ':' (name ++ ":") = true := by
    rw [Text.endsIn]
    exact beq_iff_eq.mpr List.getLast?_concat
  rw [labelName, if_pos hcolon]
  exact congrArg Except.ok List.dropLast_concat

open Layout Fault

variable {page : Page Int} {style : Style}

/-- A label and its name with a colon after it settle alike. -/
theorem settlesAlike_label (name : Text) :
    SettlesAlike page (.text (name ++ ":")) (.concat [.text name, .text ":"]) :=
  .ok ⟨rfl, .symm fun i mode _ _ hrest => (hrest.merge_left i mode name ":").concat_left⟩

/-- A symbol with an arrow as one text, and as a key with an arrow after it, settle
alike. -/
theorem settlesAlike_arrow (name : Text) :
    SettlesAlike page (.text (":" ++ name ++ " =>"))
      (.concat [.concat [.text ":", .text name], .text " =>"]) := by
  refine .ok ⟨rfl, .symm fun i mode xs ys hrest => Alike.concat_left (Alike.concat_left ?_)⟩
  have hrefl : Alike page (⟨i, mode, .text " =>"⟩ :: xs) (⟨i, mode, .text " =>"⟩ :: xs) :=
    Alike.refl _
  exact (hrefl.merge_left i mode ":" name).trans (hrest.merge_left i mode (":" ++ name) " =>")

/-- A label and a symbol with the same name have documents that settle alike, with
what separates them from their values. -/
theorem related_separated_label {name : Token} (hname : style.labels = true → name.IsWord)
    (labelLine symbolLine : Json) :
    Related (SettlesAlike page)
      (separated style (.label (.str (name.text ++ ":")) labelLine) (.text (name.text ++ ":")))
      (separated style (.symbol name symbolLine) (.concat [.text ":", .text name.text])) := by
  rw [separated, separated]
  cases hlabels : style.labels with
  | true =>
      rw [if_pos rfl, if_pos rfl, isLabelName_of_isWord (hname hlabels)]
      exact .ok (settlesAlike_label name.text)
  | false =>
      rw [labelName_colon]
      exact .ok (settlesAlike_arrow name.text)

/-- Keys that settle alike do so with what separates them from their values. -/
theorem related_separated {key key' : Ruby} {doc doc' : Doc}
    (h : Respells style.labels key key') (hdoc : SettlesAlike page doc doc') :
    Related (SettlesAlike page) (separated style key doc) (separated style key' doc') := by
  have harrow : SettlesAlike page (.concat [doc, .text " =>"]) (.concat [doc', .text " =>"]) :=
    .concat (.of_forall₂ (.cons hdoc (.cons (.refl _) .nil)))
  cases h with
  | label text line =>
      rw [separated, separated]
      split
      · exact .ok hdoc
      · exact Related.refl .refl _
  | symbol name line =>
      rw [separated, separated]
      split
      · refine .bind_same _ fun asLabel => ?_
        cases asLabel with
        | true => exact .ok (.refl _)
        | false => exact .ok harrow
      · exact .ok harrow
  | quotedSymbol quote line h =>
      cases h with
      | nil => exact .ok harrow
      | cons h hrest =>
          cases h with
          | token t =>
              cases hrest with
              | nil =>
                  rw [separated, separated]
                  split
                  · exact .ok (.refl _)
                  · exact .ok harrow
              | cons => exact .ok harrow
          | _ => exact .ok harrow
  | _ => exact .ok harrow

/-! ## Expressions -/

/-- Documents that settle alike one by one still do with a separator between each
two. -/
theorem forall₂_separate {ds es : List Doc} (h : List.Forall₂ (SettlesAlike page) ds es)
    (separator : Doc) :
    List.Forall₂ (SettlesAlike page) (Doc.separate separator ds) (Doc.separate separator es) := by
  induction h with
  | nil => exact .nil
  | cons hhead htail ih =>
      cases htail with
      | nil => exact .cons hhead .nil
      | cons => exact .cons hhead (.cons (.refl _) ih)

theorem settlesAlike_join {ds es : List Doc} (h : List.Forall₂ (SettlesAlike page) ds es)
    (separator : Doc) : SettlesAlike page (.join separator ds) (.join separator es) :=
  .concat (.of_forall₂ (forall₂_separate h separator))

/-- Pairs whose keys and values settle alike do so. -/
theorem settlesAlike_pair {key key' value value' : Doc} (hkey : SettlesAlike page key key')
    (hvalue : SettlesAlike page value value') :
    SettlesAlike page (.group (.concat [key, .text " ", value]) false)
        (.group (.concat [key', .text " ", value']) false) ∧
      SettlesAlike page (.group (.concat [key, .indent (.concat [.blankBreak, value])]) false)
        (.group (.concat [key', .indent (.concat [.blankBreak, value'])]) false) := by
  have hbroken := hvalue.plug (.indent (.concat [.blankBreak] .hole []))
  constructor
  · exact .group false (.concat (.of_forall₂ (.cons hkey (.cons (.refl _) (.cons hvalue .nil)))))
  · exact .group false (.concat (.of_forall₂ (.cons hkey (.cons hbroken .nil))))

mutual

/-- **Expressions that differ in how keys are written have documents that settle
alike.** -/
theorem related_toDoc {r r' : Ruby} (h : Respells style.labels r r') :
    Related (SettlesAlike page) (r.toDoc style) (r'.toDoc style) := by
  cases h with
  | token | varRef | label | symbol | emptyArray | emptyHash => exact .ok (.refl _)
  | quotedSymbol quote line h | string quote line h =>
      exact (related_listToDocs h).bind fun _ _ hsegments => .ok (.concat (.of_forall₂
        (List.rel_append (List.rel_append (SettlesAlike.forall₂_refl _) hsegments)
          (SettlesAlike.forall₂_refl _))))
  | interpolation line h =>
      exact (related_toDoc h).bind fun _ _ hexpression =>
        .ok (hexpression.plug (.concat [.text "#\x7b"] .hole [.text "\x7d"]))
  | array line h =>
      refine (related_listToDocs h).bind fun _ _ helements => ?_
      cases helements with
      | nil => exact .ok (.refl _)
      | cons hfirst hothers =>
          exact .ok ((settlesAlike_join (.cons hfirst hothers) comma).plug
            (.group (.concat [.text "["] (.indent (.concat [.softBreak] .hole [_]))
              [.softBreak, .text "]"]) false))
  | binary operator line hleft hright =>
      refine (related_toDoc hleft).bind fun _ _ hleft =>
        (related_toDoc hright).bind fun _ _ hright => .ok ?_
      have hindented := hright.plug (.indent (.concat [.blankBreak] .hole []))
      exact .group false (.concat (.of_forall₂
        (.cons hleft (.cons (.refl _) (.cons (.refl _) (.cons hindented .nil))))))
  | pair h => exact related_pairToDoc h
  | pairs h => exact related_pairsToDoc h
  | bareHash line h =>
      exact (related_pairListToDocs h).bind fun _ _ hpairs =>
        .ok ((settlesAlike_join hpairs comma).group false)
  | hash line h =>
      rw [toDoc, toDoc, h.isEmpty_eq]
      split
      · exact .ok (.refl _)
      · exact (related_pairsToDoc h).bind fun _ _ hbody =>
          .ok (hbody.plug (.group (.concat [.text "\x7b"] (.indent (.concat [.blankBreak] .hole []))
            [.concat [.blankBreak, .text "\x7d"]]) false))

theorem related_listToDocs {rs rs' : List Ruby} (h : ListRespells style.labels rs rs') :
    Related (List.Forall₂ (SettlesAlike page)) (listToDocs style rs) (listToDocs style rs') := by
  cases h with
  | nil => exact .ok .nil
  | cons h hrest =>
      exact (related_toDoc h).bind fun _ _ hfirst =>
        (related_listToDocs hrest).bind fun _ _ hothers => .ok (.cons hfirst hothers)

theorem related_pairToDoc {p p' : Pair} (h : PairRespells style.labels p p') :
    Related (SettlesAlike page) (pairToDoc style p) (pairToDoc style p') := by
  -- what a key comes to is all that the rest of its pair needs
  have hrest : ∀ {x y : Except Fault Doc} {value value' : Ruby},
      Related (SettlesAlike page) x y → Respells style.labels value value' →
      Related (SettlesAlike page) (value.toDoc style) (value'.toDoc style) →
      Related (SettlesAlike page)
        (x >>= fun key => value.toDoc style >>= fun doc =>
          if value.isCompact then return .group (.concat [key, .text " ", doc]) false
          else return .group (.concat [key, .indent (.concat [.blankBreak, doc])]) false)
        (y >>= fun key => value'.toDoc style >>= fun doc =>
          if value'.isCompact then return .group (.concat [key, .text " ", doc]) false
          else return .group (.concat [key, .indent (.concat [.blankBreak, doc])]) false) := by
    intro x y value value' hkey hvalue hdoc
    refine hkey.bind fun _ _ hkey => hdoc.bind fun _ _ hdoc => ?_
    rw [hvalue.isCompact_eq]
    split
    · exact .ok (settlesAlike_pair hkey hdoc).1
    · exact .ok (settlesAlike_pair hkey hdoc).2
  cases h with
  | mk line hkey hvalue =>
      exact (related_toDoc hkey).bind fun _ _ hown =>
        hrest (related_separated hkey hown) hvalue (related_toDoc hvalue)
  | toSymbol name labelLine symbolLine line hname hvalue =>
      exact hrest (related_separated_label hname labelLine symbolLine) hvalue (related_toDoc hvalue)
  | toLabel name labelLine symbolLine line hname hvalue =>
      exact hrest ((related_separated_label hname labelLine symbolLine).flip fun _ _ h => h.symm)
        hvalue (related_toDoc hvalue)

theorem related_pairsToDoc {ps ps' : Pairs} (h : PairsRespells style.labels ps ps') :
    Related (SettlesAlike page) (pairsToDoc style ps) (pairsToDoc style ps') := by
  cases h with
  | mk line h =>
      refine (related_pairListToDocs h).bind fun _ _ hpairs => ?_
      cases hpairs with
      | nil => exact .ok (.refl _)
      | cons hfirst hothers =>
          have hpairs := forall₂_separate (.cons hfirst hothers) comma
          exact .ok (.group false (.concat (.of_forall₂
            (List.rel_append hpairs (SettlesAlike.forall₂_refl _)))))

theorem related_pairListToDocs {ps ps' : List Pair} (h : PairListRespells style.labels ps ps') :
    Related (List.Forall₂ (SettlesAlike page)) (pairListToDocs style ps)
      (pairListToDocs style ps') := by
  cases h with
  | nil => exact .ok .nil
  | cons h hrest =>
      exact (related_pairToDoc h).bind fun _ _ hfirst =>
        (related_pairListToDocs hrest).bind fun _ _ hothers => .ok (.cons hfirst hothers)

end

end Ruby

namespace Settings

open Layout

/-- **How keys are written in a tree makes no difference**: with widths in whole
columns, expressions that differ in it are formatted to the same text, or fail
alike. -/
theorem format_eq_of_respells {settings : Settings} (hwhole : settings.isFractional = false)
    (source : Text) {r r' : Ruby} (h : r.Respells settings.preferHashLabels.truthy r') :
    settings.format source (.ruby r) = settings.format source (.ruby r') := by
  have hdocs : Fault.Related (SettlesAlike (settings.page Json.int?))
      (r.toDoc (settings.style source)) (r'.toDoc (settings.style source)) := Ruby.related_toDoc h
  refine hdocs.bind_eq fun doc doc' halike => ?_
  rw [layout, layout, hwhole]
  exact halike.render_eq

theorem format_eq_of_respells_nested :
    let settings : Settings := { printWidth := .int 14 }
    let word (kind name : Text) : Token := ⟨.str kind, name, .null⟩
    let label (text : Text) : Ruby := .label (.str text) .null
    let symbol (name : Token) : Ruby := .symbol name (.int 3)
    let hash (key value : Ruby) : Ruby := .hash (some (.mk [.mk key value .null] .null)) .null
    let value : Ruby := .varRef (word "@ident" "c") .null
    let string : Ruby := .string [.interpolation value .null] (.str "'") .null
    let tree (outer inner : Ruby) : Ruby :=
      hash outer (.array (some [hash inner value, string]) .null)
    let mixed := tree (label "a:") (symbol (word "@kw" "if"))
    let swapped := tree (symbol (word "@const" "a")) (label "if:")
    settings.format "" (.ruby mixed) =
        .ok "\x7b\n  a: [\n    \x7b if: c \x7d,\n    '#\x7bc\x7d'\n  ]\n\x7d" ∧
      settings.format "" (.ruby mixed) = settings.format "" (.ruby swapped) := by
  intro settings word label symbol hash value string tree mixed swapped
  have hinner : Ruby.Respells true (hash (symbol (word "@kw" "if")) value)
      (hash (label "if:") value) :=
    .hash .null (.mk .null (.cons (.toLabel (word "@kw" "if") .null (.int 3) .null
      (fun _ => by decide) (.varRef _ _)) .nil))
  have hstring : Ruby.Respells true string string :=
    .string _ _ (.cons (.interpolation _ (.varRef _ _)) .nil)
  have houter : mixed.Respells true swapped :=
    .hash .null (.mk .null (.cons (.toSymbol (word "@const" "a") .null (.int 3) .null
      (fun _ => by decide) (.array .null (.cons hinner (.cons hstring .nil)))) .nil))
  exact ⟨by decide +kernel, format_eq_of_respells rfl "" houter⟩

/-- In double precision the name and the colon of a symbol do not end at the column
at which the label ends: here a level has 0.03 of them, and the array after the key
is found to fit after the one and not after the other. -/
theorem format_ne_of_fractional_level :
    let fraction (digits : Nat) : Json := .float (.ofDecimal false digits (-2))
    let settings : Settings :=
      { printWidth := fraction 803, tabWidth := fraction 3, useTabs := .bool true }
    let word (name : Text) : Token := ⟨.str "@ident", name, .null⟩
    let array : Ruby := .array (some [.varRef (word "bcd") .null]) .null
    let tree (key : Ruby) : Ruby := .hash (some (.mk [.mk key array .null] .null)) .null
    settings.format "" (.ruby (tree (.label (.str "a:") .null))) =
        .ok "\x7b\n\ta: [bcd]\n\x7d" ∧
      settings.format "" (.ruby (tree (.symbol (word "a") .null))) =
        .ok "\x7b\n\ta: [\n\t\tbcd\n\t]\n\x7d" := by
  decide +kernel

end Settings
end HamlFormat
