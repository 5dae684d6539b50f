import HamlFormat.Proofs.Layout.Greedy
import HamlFormat.Proofs.Layout.Preservation
import HamlFormat.Proofs.Print.Page

/-!
# HamlFormat.Proofs.Print.Hash

The attribute hash can be read back. `readHash` reads a hash of pairs of quoted strings: in
a string a backslash makes the next character literal, and the first quote without a
backslash ends it; between two pairs stand a comma and blanks. What is escaped is read back
as it was (`readQuoted_rubyEscaped`), with every `#` before a brace behind a backslash.

A layout puts a space or a line end and a margin after each comma (`exists_spaced_of_layout`).
The comma is also what keeps the layout from trimming a string that ends in blanks. So all
that a layout makes of the hash of a tag reads back as the attributes of the tag
(`Tag.layout_hash_reads_back`).
-/

namespace HamlFormat

open Layout

/-! ## Reading a hash -/

/-- A character in a quoted string, and whether it stands behind a backslash. -/
structure QuotedChar where
  escaped : Bool
  char : CodePoint
  deriving DecidableEq

/-- Read a string up to the first quote without a backslash: its characters, and what comes
after the quote. With `escaped` the text starts behind a backslash. -/
def readQuoted (escaped : Bool) : Text → Option (List QuotedChar × Text)
  | [] => none
  | c :: rest =>
    if escaped then (readQuoted false rest).map fun r => (⟨true, c⟩ :: r.1, r.2)
    else if c = '"' then some ([], rest)
    else if c = '\\' then readQuoted true rest
    else (readQuoted false rest).map fun r => (⟨false, c⟩ :: r.1, r.2)

/-- Read a quoted string. -/
def readString (t : Text) : Option (List QuotedChar × Text) := do
  readQuoted false (← t.dropPrefix? "\"")

/-- Read a pair of strings. -/
def readPair (t : Text) : Option ((List QuotedChar × List QuotedChar) × Text) := do
  let (key, t) ← readString t
  let (value, t) ← readString (← t.dropPrefix? " => ")
  return ((key, value), t)

/-- Read one blank or more. -/
def readBlanks (t : Text) : Option Text :=
  if t.head?.any (!Text.isInk ·) then some (t.dropWhile (!Text.isInk ·)) else none

/-- Read pairs, at most so many, up to the brace that ends the text. -/
def readPairs : Nat → Text → Option (List (List QuotedChar × List QuotedChar))
  | 0, _ => none
  | limit + 1, t => do
    let (pair, t) ← readPair t
    if t = "\x7d" then return [pair]
    let t ← readBlanks (← t.dropPrefix? ",")
    return pair :: (← readPairs limit t)

/-- Read a hash. -/
def readHash (t : Text) : Option (List (List QuotedChar × List QuotedChar)) := do
  readPairs t.length (← t.dropPrefix? "\x7b")

/-- Whether no interpolation starts in a string: no `#` without a backslash stands before a
brace without one. -/
def IsUninterpolated (chars : List QuotedChar) : Prop :=
  chars.IsChain fun c d => ¬(c = ⟨false, '#'⟩ ∧ d = ⟨false, '\x7b'⟩)

/-! ## Reading what is written -/

theorem dropPrefix?_append (s t : Text) : (s ++ t).dropPrefix? s = some t :=
  List.dropPrefix?_eq_some_iff.mpr ⟨s, rfl, beq_self_eq_true s⟩

/-- The characters of a text, as they are escaped. -/
def quotedChars : Text → List QuotedChar
  | [] => []
  | c :: cs =>
    ⟨c == '\\' || c == '"' || (c == '#' && cs.head? == some (.ofChar '\x7b')), c⟩ ::
      quotedChars cs

theorem map_char_quotedChars (s : Text) : (quotedChars s).map QuotedChar.char = s := by
  induction s with
  | nil => rfl
  | cons c cs ih => rw [quotedChars, List.map_cons, ih]

theorem isUninterpolated_quotedChars (s : Text) : IsUninterpolated (quotedChars s) := by
  induction s with
  | nil => exact .nil
  | cons c cs ih =>
      cases cs with
      | nil => exact .singleton _
      | cons d ds =>
          refine .cons_cons ?_ ih
          -- a `#` before a brace is escaped
          rintro ⟨hc, hd⟩
          injection hc with hescaped hc
          injection hd with _ hd
          subst hc hd
          simp at hescaped

/-- **A string is read back as it was written.** -/
theorem readQuoted_rubyEscaped (s rest : Text) :
    readQuoted false (rubyEscaped s ++ ("\"" ++ rest)) = some (quotedChars s, rest) := by
  induction s with
  | nil => rfl
  | cons c cs ih =>
      rw [rubyEscaped, quotedChars]
      split
      · next hescape =>
          have hbackslash : (CodePoint.ofChar '\\') ≠ '"' := by decide
          simp only [List.cons_append, readQuoted, Bool.false_eq_true, if_false, if_neg hbackslash,
            if_true, ih, Option.map_some, hescape]
      · next hplain =>
          obtain ⟨hbackslash, hquote⟩ : c ≠ '\\' ∧ c ≠ '"' := by
            simp only [Bool.or_eq_true, beq_iff_eq, not_or] at hplain
            exact hplain.1
          rw [Bool.not_eq_true] at hplain
          simp only [List.cons_append, readQuoted, Bool.false_eq_true, if_false, if_neg hquote,
            if_neg hbackslash, ih, Option.map_some, hplain]

theorem readString_rubyQuoted (s rest : Text) :
    readString (rubyQuoted s ++ rest) = some (quotedChars s, rest) := by
  have htext : rubyQuoted s ++ rest = "\"" ++ (rubyEscaped s ++ ("\"" ++ rest)) := by
    simp only [rubyQuoted, List.append_assoc]
  rw [readString, htext, dropPrefix?_append]
  exact readQuoted_rubyEscaped s rest

/-- The strings of an attribute, as they are read. -/
def quotedPair (a : Text × Text) : List QuotedChar × List QuotedChar :=
  (quotedChars a.1, quotedChars a.2)

theorem readPair_attributePair (a : Text × Text) (rest : Text) :
    readPair (Tag.attributePair a ++ rest) = some (quotedPair a, rest) := by
  have htext : Tag.attributePair a ++ rest =
      rubyQuoted a.1 ++ (" => " ++ (rubyQuoted a.2 ++ rest)) := by
    simp only [Tag.attributePair, List.append_assoc]
  simp only [readPair, htext, readString_rubyQuoted, Option.bind_eq_bind, Option.bind_some,
    dropPrefix?_append]
  rfl

/-- Blanks, one at least. -/
def IsGap (t : Text) : Prop :=
  t ≠ [] ∧ ∀ c ∈ t, Text.isInk c = false

theorem readBlanks_gap {gap : Text} (hgap : IsGap gap) {rest later : Text} {c : CodePoint}
    (hrest : rest = c :: later) (hc : Text.isInk c = true) :
    readBlanks (gap ++ rest) = some rest := by
  obtain ⟨hne, hblank⟩ := hgap
  obtain ⟨b, blanks, rfl⟩ := List.exists_cons_of_ne_nil hne
  have hdrop : ((b :: blanks) ++ rest).dropWhile (!Text.isInk ·) = rest := by
    rw [List.dropWhile_append_of_pos fun d hd => by rw [hblank d hd]; rfl, hrest,
      List.dropWhile_cons_of_neg (by simp [hc])]
  rw [readBlanks, hdrop, if_pos]
  simp [hblank b List.mem_cons_self]

/-- Texts, each behind a comma and blanks. -/
inductive Spaced : List Text → Text → Prop where
  | nil : Spaced [] []
  | cons {gap word words t} : IsGap gap → Spaced words t →
    Spaced (word :: words) ("," ++ (gap ++ (word ++ t)))

theorem Spaced.length_le {words : List Text} {t : Text} (h : Spaced words t) :
    words.length ≤ t.length := by
  induction h with
  | nil => exact Nat.le_refl 0
  | cons _ _ ih =>
      have hcomma : (Text.ofString ",").length = 1 := rfl
      simp only [List.length_cons, List.length_append, hcomma]
      omega

/-- Pairs are read back, whatever blanks stand between them. -/
theorem readPairs_spaced {others : List (Text × Text)} {t : Text}
    (h : Spaced (others.map Tag.attributePair) t) (first : Text × Text) {limit : Nat}
    (hlimit : others.length < limit) :
    readPairs limit (Tag.attributePair first ++ (t ++ "\x7d")) =
      some (quotedPair first :: others.map quotedPair) := by
  induction others generalizing t first limit with
  | nil =>
      cases h
      obtain ⟨limit, rfl⟩ := Nat.exists_eq_succ_of_ne_zero (Nat.ne_of_gt hlimit)
      rw [readPairs, readPair_attributePair]
      rfl
  | cons second others ih =>
      obtain ⟨limit, rfl⟩ := Nat.exists_eq_succ_of_ne_zero (Nat.ne_zero_of_lt hlimit)
      rw [List.map_cons] at h
      cases h with
      | @cons gap _ _ t hgap ht =>
          have hnext := ih ht second (Nat.lt_of_succ_lt_succ hlimit)
          have htext : "," ++ (gap ++ (Tag.attributePair second ++ t)) ++ "\x7d" =
              "," ++ (gap ++ (Tag.attributePair second ++ (t ++ "\x7d"))) := by
            simp only [List.append_assoc]
          have hblanks : readBlanks (gap ++ (Tag.attributePair second ++ (t ++ "\x7d"))) =
              some (Tag.attributePair second ++ (t ++ "\x7d")) :=
            readBlanks_gap hgap rfl (by decide)
          rw [readPairs, readPair_attributePair, htext]
          simp only [Option.bind_eq_bind, Option.bind_some, dropPrefix?_append, hblanks, hnext]
          rfl

/-- **A hash is read back**, whatever blanks stand between its pairs. -/
theorem readHash_spaced {others : List (Text × Text)} {t : Text}
    (h : Spaced (others.map Tag.attributePair) t) (first : Text × Text) :
    readHash ("\x7b" ++ (Tag.attributePair first ++ (t ++ "\x7d"))) =
      some ((first :: others).map quotedPair) := by
  rw [readHash, dropPrefix?_append]
  refine readPairs_spaced h first ?_
  have hlength := h.length_le
  have hbrace : (Text.ofString "\x7b").length = 1 := rfl
  simp only [List.length_map, List.length_append, hbrace] at hlength ⊢
  omega

/-! ## What a layout makes of a hash -/

/-- The leaves of words behind separators. -/
def spacedLeaves (j : Indentation) (words : List Text) : List Leaf :=
  words.flatMap fun word => [.text ",", .line false false j, .text word]

theorem flatMap_leaves_wordDocs (j : Indentation) (first : Text) (words : List Text) :
    (wordDocs "," (first :: words)).flatMap (leaves j) = .text first :: spacedLeaves j words := by
  induction words generalizing first with
  | nil => rfl
  | cons second words ih =>
      obtain ⟨others, hothers, hdocs⟩ := wordDocs_cons_cons "," first second words
      rw [hdocs, List.flatMap_cons, List.flatMap_cons, ← hothers, ih]
      rfl

/-- A comma, and the space or the line end after it. Nothing before it is trimmed. -/
theorem exists_gap_of_prints {margin : Indentation → Text}
    (hmargin : ∀ i, ∀ c ∈ margin i, Text.isIndent c = true) (front : List Piece) {j : Indentation}
    {piece : Piece} (h : Leaf.Prints (.line false false j) piece) :
    ∃ gap, IsGap gap ∧ (rowsOf margin (front ++ [.text ","] ++ [piece])).text =
      (rowsOf margin front).text ++ ("," ++ gap) := by
  have hcomma : (rowsOf margin (front ++ [.text ","])).text =
      (rowsOf margin front).text ++ "," := by
    rw [rowsOf_concat, Rows.text_write_inline _ (by simp)]
    rfl
  cases h with
  | space =>
      refine ⟨" ", ⟨List.cons_ne_nil _ _, List.forall_mem_singleton.mpr rfl⟩, ?_⟩
      rw [rowsOf_concat, Rows.text_write_inline _ (by simp), hcomma, List.append_assoc]
      rfl
  | newline =>
      refine ⟨Text.newline :: margin j, ⟨by simp, ?_⟩, ?_⟩
      · refine List.forall_mem_cons.mpr ⟨by decide, fun c hc => ?_⟩
        simp [Text.isInk, hmargin j c hc]
      · have hword : Text.IsWord "," := by decide
        rw [rowsOf_concat, Rows.text_write_newline, hcomma,
          (hword.endsInInk.append_left _).stripRight_eq, List.append_assoc]

/-- Words behind separators are printed behind commas and blanks, and a text after them. -/
theorem exists_spaced_of_prints {margin : Indentation → Text}
    (hmargin : ∀ i, ∀ c ∈ margin i, Text.isIndent c = true) {j : Indentation} {words : List Text}
    {tail : Text} (front : List Piece) {ps : List Piece}
    (h : List.Forall₂ Leaf.Prints (spacedLeaves j words ++ [.text tail]) ps) :
    ∃ t, Spaced words t ∧
      (rowsOf margin (front ++ ps)).text = (rowsOf margin front).text ++ (t ++ tail) := by
  induction words generalizing front ps with
  | nil =>
      simp only [spacedLeaves, List.flatMap_nil, List.nil_append, List.forall₂_cons_left_iff,
        List.forall₂_nil_left_iff] at h
      obtain ⟨_, _, htail, rfl, rfl⟩ := h
      cases htail
      refine ⟨[], .nil, ?_⟩
      rw [rowsOf_concat, Rows.text_write_inline _ (by simp)]
      rfl
  | cons word words ih =>
      simp only [spacedLeaves, List.flatMap_cons, List.cons_append, List.nil_append,
        List.forall₂_cons_left_iff] at h
      obtain ⟨_, _, hcomma, ⟨piece, _, hline, ⟨_, ps, hword, hrest, rfl⟩, rfl⟩, rfl⟩ := h
      cases hcomma
      cases hword
      obtain ⟨gap, hgap, hfront⟩ := exists_gap_of_prints hmargin front hline
      obtain ⟨t, ht, htext⟩ := ih (front ++ [.text ","] ++ [piece] ++ [.text word]) hrest
      have hpieces : front ++ .text "," :: piece :: .text word :: ps =
          front ++ [.text ","] ++ [piece] ++ [.text word] ++ ps := by simp
      refine ⟨_, .cons hgap ht, ?_⟩
      rw [hpieces, htext, rowsOf_concat, Rows.text_write_inline _ (by simp), hfront]
      simp [Piece.inline]

/-- **A layout prints a hash with its pairs in order**, a comma and blanks between them. -/
theorem exists_spaced_of_layout {settings : Settings} {columns : Int} {first : Text}
    {others : List Text} {out : Text}
    (h : settings.layout (.group (hashContents columns (first :: others)) false) = .ok out) :
    ∃ t, Spaced others t ∧ out = "\x7b" ++ (first ++ (t ++ "\x7d")) := by
  have hchoice : (Doc.group (hashContents columns (first :: others)) false).all Doc.isNoChoice =
      true := by
    simpa [hashContents, Doc.all, Doc.isNoChoice] using
      forall_mem_wordDocs (P := fun d => d.all Doc.isNoChoice = true) rfl (fun _ => rfl) _
  obtain ⟨chosen, ps, hchosen, hprints, rfl⟩ := Settings.exists_leaves_of_layout h
  rw [← eq_of_resolves hchosen hchoice] at hprints
  simp only [leaves, hashContents, listLeaves_eq_flatMap, List.flatMap_cons, List.flatMap_nil,
    flatMap_leaves_wordDocs, List.append_nil, List.cons_append, List.nil_append,
    List.forall₂_cons_left_iff] at hprints
  obtain ⟨_, _, hopen, ⟨_, ps, hfirst, hrest, rfl⟩, rfl⟩ := hprints
  cases hopen
  cases hfirst
  obtain ⟨t, ht, htext⟩ := exists_spaced_of_prints (fun _ _ => Settings.isIndent_of_mem_margin)
    [.text "\x7b", .text first] hrest
  refine ⟨t, ht, htext.trans ?_⟩
  simp [rowsOf, Rows.write, Rows.text, Row.text, Row.body, Piece.inline]

/-! ## Whether a hash is laid out -/

section

variable (columns : Int) (pairs : List Text)

theorem proper_hashGroup :
    (Doc.group (hashContents columns pairs) false).all Doc.isProper = true := by
  rw [Doc.all, proper_hashContents]
  rfl

theorem levelFree_hashGroup :
    (Doc.group (hashContents columns pairs) false).all Doc.isLevelFree = true := by
  simpa [hashContents, Doc.all, Doc.isLevelFree] using
    forall_mem_wordDocs (P := fun d => d.all Doc.isLevelFree = true) rfl (fun _ => rfl) pairs

theorem plainChoice_hashGroup :
    (Doc.group (hashContents columns pairs) false).all Doc.isPlainChoice = true := by
  simpa [hashContents, Doc.all, Doc.isPlainChoice] using
    forall_mem_wordDocs (P := fun d => d.all Doc.isPlainChoice = true) rfl (fun _ => rfl) pairs

theorem feasible_hashGroup_iff :
    (Doc.group (hashContents columns pairs) false).all (Doc.isFeasible true) = true ↔
      columns < memoryLimit := by
  have hpairs : ∀ doc ∈ wordDocs "," pairs, doc.all (Doc.isFeasible true) = true :=
    forall_mem_wordDocs (P := fun d => d.all (Doc.isFeasible true) = true) rfl (fun _ => rfl) pairs
  simpa [hashContents, Doc.all, Doc.isFeasible] using fun _ => hpairs

end

namespace Tag

/-- **The attribute hash is lossless.** Under all settings and behind a header of any width,
what the hash of a tag is laid out as reads back as the attributes of the tag without a
shorthand, in their order, and no interpolation starts in its strings. On a page of integer
width it is laid out if the columns before its first pair fit in memory, and not
otherwise. -/
theorem layout_hash_reads_back {tag : Tag} (htag : ∃ a ∈ tag.attributes, isShorthand a.1 = false)
    (headerWidth : Nat) (settings : Settings) :
    let doc := hashDoc headerWidth tag.hashAttributes
    (∀ out, settings.layout doc = .ok out →
      ∃ pairs, readHash out = some pairs ∧
        pairs.map (fun p => (p.1.map QuotedChar.char, p.2.map QuotedChar.char)) =
          (tag.attributes.filter fun a => !isShorthand a.1) ∧
        ∀ p ∈ pairs, IsUninterpolated p.1 ∧ IsUninterpolated p.2) ∧
    ∀ w, settings.printWidth.int? = some w →
      ((headerWidth : Int) + 1 < memoryLimit → ∃ out, settings.layout doc = .ok out) ∧
      (memoryLimit ≤ (headerWidth : Int) + 1 →
        ∃ fault, settings.layout doc = .error fault ∧ fault.isExcess = true) := by
  intro doc
  have hne : tag.hashAttributes ≠ [] := by
    obtain ⟨a, ha, hshown⟩ := htag
    exact List.ne_nil_of_mem (List.mem_filter.mpr ⟨ha, by rw [hshown]; rfl⟩)
  obtain ⟨first, others, hcons⟩ := List.exists_cons_of_ne_nil hne
  have hdoc : doc = .group (hashContents (headerWidth + 1)
      (attributePair first :: others.map attributePair)) false := by
    rw [show doc = _ from hashDoc_eq headerWidth tag.hashAttributes, hcons]
    rfl
  refine ⟨fun out hout => ?_, fun w hw => ?_⟩
  · rw [hdoc] at hout
    obtain ⟨t, ht, rfl⟩ := exists_spaced_of_layout hout
    refine ⟨_, readHash_spaced ht first, ?_, ?_⟩
    · rw [← hashAttributes, hcons, List.map_map]
      refine (List.map_congr_left fun a _ => ?_).trans (List.map_id _)
      simp [quotedPair, map_char_quotedChars]
    · rw [List.forall_mem_map]
      exact fun a _ => ⟨isUninterpolated_quotedChars a.1, isUninterpolated_quotedChars a.2⟩
  · rw [hdoc]
    obtain ⟨hiff, hexcess⟩ := Settings.layout_ok_iff_of_isLevelFree hw (proper_hashGroup _ _)
      (levelFree_hashGroup _ _) (plainChoice_hashGroup (headerWidth + 1)
        (attributePair first :: others.map attributePair))
    rw [feasible_hashGroup_iff] at hiff
    refine ⟨hiff.mpr, fun hwide => ?_⟩
    cases hresult : settings.layout (.group (hashContents (headerWidth + 1)
        (attributePair first :: others.map attributePair)) false) with
    | ok out => exact absurd (hiff.mp ⟨out, hresult⟩) (not_lt.mpr hwide)
    | error fault => exact ⟨fault, rfl, hexcess fault hresult⟩

/-- Strings with quotes, backslashes, an interpolation, blanks at a line end and what separates
pairs, on a page where every pair has a line of its own. -/
theorem layout_hash_reads_back_of_borders :
    let shown : List (Text × Text) :=
      [("a\"#\x7bb\x7d", "\\#\x7b"), ("c \n", "\", \" => \"\x7d ")]
    let tag : Tag := ⟨.str "p", ("id", "i") :: shown, false, false, false, .null, false,
      ⟨.null, .null⟩, .null⟩
    let settings : Settings :=
      { printWidth := .int 1, tabWidth := .float (.ofInt 3), useTabs := .bool true }
    let out : Text := "\x7b\"a\\\"\\#\x7bb\x7d\" => \"\\\\\\#\x7b\",\n" ++
      "   \"c \n\" => \"\\\", \\\" => \\\"\x7d \"\x7d"
    (∃ a ∈ tag.attributes, isShorthand a.1 = false) ∧
      settings.layout (hashDoc 2 tag.hashAttributes) = .ok out ∧
      ∃ pairs, readHash out = some pairs ∧
        pairs.map (fun p => (p.1.map QuotedChar.char, p.2.map QuotedChar.char)) = shown ∧
        ∀ p ∈ pairs, IsUninterpolated p.1 ∧ IsUninterpolated p.2 := by
  intro shown tag settings out
  have htag : ∃ a ∈ tag.attributes, isShorthand a.1 = false := by decide +kernel
  have hshown : (tag.attributes.filter fun a => !isShorthand a.1) = shown := by decide +kernel
  have hout : settings.layout (hashDoc 2 tag.hashAttributes) = .ok out := by decide +kernel
  have hread := (layout_hash_reads_back htag 2 settings).1 out hout
  rw [hshown] at hread
  exact ⟨htag, hout, hread⟩

/-- A header so wide that the alignment behind it cannot be made keeps the hash from being
printed. -/
theorem layout_hash_eq_error_of_wide_header :
    let tag : Tag := ⟨.str "p", [("a", "b")], false, false, false, .null, false, ⟨.null, .null⟩,
      .null⟩
    tag.hashAttributes = tag.attributes ∧
      Settings.layout {} (hashDoc (countLimit.toNat - 1) tag.hashAttributes) =
        .error .overflow := by
  decide +kernel

end Tag

end HamlFormat
