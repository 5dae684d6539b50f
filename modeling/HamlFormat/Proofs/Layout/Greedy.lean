import HamlFormat.Proofs.Layout.Whole
import HamlFormat.Proofs.Layout.Wrap

/-!
# HamlFormat.Proofs.Layout.Greedy

Words wrapped greedily, as lines of words. `greedyLines` puts each word on the current line
if it ends within the page there, and on a new one behind the margin otherwise, so a line
with several words is never too wide (`width_le_of_mem_greedyLines`) and the word that
starts a line would not have fitted on the line before it (`isChain_greedyLines`).

A fill of words is laid out as these lines, joined by the separator and a line end
(`Settings.layout_fill_words`). Trimming leaves them as they are, as every line ends in
something that shows.
-/

namespace HamlFormat

namespace Text

/-- A text that can be a word: it is not empty, and all of it shows. -/
def IsWord (t : Text) : Prop :=
  t ≠ [] ∧ t.all isInk = true

instance (t : Text) : Decidable t.IsWord :=
  inferInstanceAs (Decidable (_ ∧ _))

/-- A text that ends in something that shows. -/
def EndsInInk (t : Text) : Prop :=
  ∃ front c, t = front ++ [c] ∧ isInk c = true

theorem IsWord.endsInInk {t : Text} (h : t.IsWord) : t.EndsInInk := by
  obtain ⟨hne, hink⟩ := h
  refine ⟨t.dropLast, t.getLast hne, (List.dropLast_append_getLast hne).symm, ?_⟩
  exact List.all_eq_true.mp hink _ (List.getLast_mem hne)

theorem EndsInInk.append_left {t : Text} (h : t.EndsInInk) (s : Text) : (s ++ t).EndsInInk := by
  obtain ⟨front, c, rfl, hc⟩ := h
  exact ⟨s ++ front, c, (List.append_assoc _ _ _).symm, hc⟩

theorem EndsInInk.append {t s : Text} (h : t.EndsInInk) (hs : s.all isInk = true) :
    (t ++ s).EndsInInk := by
  by_cases hne : s = []
  · rwa [hne, List.append_nil]
  · exact (IsWord.endsInInk ⟨hne, hs⟩).append_left t

/-- There is nothing to trim behind something that shows. -/
theorem EndsInInk.stripRight_eq {t : Text} (h : t.EndsInInk) : stripRight isIndent t = t := by
  obtain ⟨front, c, rfl, hc⟩ := h
  refine stripRight_eq_self fun d hd => ?_
  rw [List.getLast?_concat, Option.mem_some_iff] at hd
  simp only [isInk, Bool.and_eq_true, Bool.not_eq_true'] at hc
  exact hd ▸ hc.1

theorem isOneLine_of_all_isInk {t : Text} (h : t.all isInk = true) : t.isOneLine = true := by
  rw [isOneLine, List.all_eq_true] at *
  intro c hc
  have hink := h c hc
  simp only [isInk, Bool.and_eq_true] at hink
  exact hink.2

/-- So many spaces are as wide. -/
theorem width_spaces (n : Nat) : width (.repeated n ' ') = n := by
  induction n with
  | zero => rfl
  | succ n ih =>
      rw [repeated, List.replicate_succ', width_append, ← repeated, ih]
      rfl

end Text

namespace Layout

/-! ## Lines of words -/

/-- A line of words behind a margin of spaces. -/
structure WordLine where
  margin : Nat
  first : Text
  others : List Text
  deriving DecidableEq

namespace WordLine

/-- The words of a line, one at least. -/
def words (line : WordLine) : List Text :=
  line.first :: line.others

/-- A word after another one. -/
def following (separator word : Text) : Text :=
  separator ++ " " ++ word

/-- The words of a line with the separator and a space between them. -/
def body (separator : Text) (line : WordLine) : Text :=
  line.first ++ line.others.flatMap (following separator)

/-- A line behind its margin. -/
def text (separator : Text) (line : WordLine) : Text :=
  .repeated line.margin ' ' ++ line.body separator

/-- The line with one more word. -/
def add (line : WordLine) (word : Text) : WordLine :=
  { line with others := line.others ++ [word] }

variable {separator : Text} {line : WordLine}

theorem body_single (margin : Nat) (word : Text) : body separator ⟨margin, word, []⟩ = word :=
  List.append_nil word

theorem body_add (word : Text) :
    (line.add word).body separator = line.body separator ++ separator ++ " " ++ word := by
  simp [body, add, following]

theorem width_text :
    Text.width (line.text separator) = line.margin + Text.width (line.body separator) := by
  rw [text, Text.width_append, Text.width_spaces]

theorem width_add (word : Text) :
    Text.width ((line.add word).text separator) =
      Text.width (line.text separator) + Text.width separator + 1 + Text.width word := by
  have hspace : Text.width " " = 1 := rfl
  rw [width_text, width_text, body_add]
  simp only [Text.width_append, hspace, add]
  omega

theorem forall_mem_words_add {P : Text → Prop} {word : Text}
    (h : ∀ s ∈ line.words, P s) (hword : P word) : ∀ s ∈ (line.add word).words, P s := by
  simp only [words, add, List.forall_mem_cons, List.forall_mem_append] at h ⊢
  exact ⟨h.1, h.2, hword, by simp⟩

theorem endsInInk_body (hline : ∀ word ∈ line.words, word.IsWord) :
    (line.body separator).EndsInInk := by
  obtain ⟨margin, first, others⟩ := line
  obtain ⟨hfirst, hothers⟩ := List.forall_mem_cons.mp hline
  rcases List.eq_nil_or_concat' others with rfl | ⟨front, last, rfl⟩
  · simpa [body] using hfirst.endsInInk
  · show ((add ⟨margin, first, front⟩ last).body separator).EndsInInk
    rw [body_add]
    exact (hothers last (by simp)).endsInInk.append_left _

theorem isOneLine_text (hseparator : separator.isOneLine = true)
    (hline : ∀ word ∈ line.words, word.isOneLine = true) :
    (line.text separator).isOneLine = true := by
  obtain ⟨margin, first, others⟩ := line
  obtain ⟨hfirst, hothers⟩ := List.forall_mem_cons.mp hline
  have hmargin : (Text.repeated margin ' ').isOneLine = true := by
    rw [Text.isOneLine, List.all_eq_true]
    intro c hc
    rw [List.eq_of_mem_replicate hc]
    rfl
  rw [text, body, Text.isOneLine_append, Text.isOneLine_append, hmargin, hfirst, Text.isOneLine,
    List.all_flatMap, List.all_eq_true.mpr]
  · rfl
  · intro word hword
    show Text.isOneLine _ = true
    rw [following, Text.isOneLine_append, Text.isOneLine_append, hseparator, hothers word hword]
    rfl

end WordLine

/-- The lines of words, after the words of a line. A word goes on the line, after the
separator and a space, if it ends within the edge of the page; else it starts a new line
behind the margin. -/
def greedyLines (edge : Int) (margin : Nat) (separator : Text) (line : WordLine) :
    List Text → List WordLine
  | [] => [line]
  | word :: words =>
    if (Text.width (line.text separator) : Int) + Text.width separator + 1 + Text.width word ≤
        edge then
      greedyLines edge margin separator (line.add word) words
    else line :: greedyLines edge margin separator ⟨margin, word, []⟩ words

variable {edge : Int} {margin : Nat} {separator : Text}

/-- No word is lost, and none is moved. -/
theorem flatMap_words_greedyLines (line : WordLine) (words : List Text) :
    (greedyLines edge margin separator line words).flatMap WordLine.words =
      line.words ++ words := by
  induction words generalizing line with
  | nil => simp [greedyLines]
  | cons word words ih =>
      rw [greedyLines]
      split
      · rw [ih]
        simp [WordLine.words, WordLine.add]
      · rw [List.flatMap_cons, ih]
        rfl

/-- The first line goes on as the one before the words, and the others have the margin. -/
theorem exists_greedyLines_eq_cons (edge : Int) (margin : Nat) (separator : Text)
    (line : WordLine) (words : List Text) :
    ∃ others rest, greedyLines edge margin separator line words =
        ⟨line.margin, line.first, others⟩ :: rest ∧ ∀ next ∈ rest, next.margin = margin := by
  induction words generalizing line with
  | nil => exact ⟨line.others, [], rfl, by simp⟩
  | cons word words ih =>
      rw [greedyLines]
      split
      · exact ih (line.add word)
      · obtain ⟨others, rest, heq, hrest⟩ := ih ⟨margin, word, []⟩
        refine ⟨line.others, _, rfl, ?_⟩
        rw [heq]
        exact List.forall_mem_cons.mpr ⟨rfl, hrest⟩

/-- A line with several words ends within the page. -/
theorem width_le_of_mem_greedyLines {line : WordLine} {words : List Text}
    (hline : line.others ≠ [] → (Text.width (line.text separator) : Int) ≤ edge) :
    ∀ next ∈ greedyLines edge margin separator line words,
      next.others ≠ [] → (Text.width (next.text separator) : Int) ≤ edge := by
  induction words generalizing line with
  | nil => simpa [greedyLines] using hline
  | cons word words ih =>
      rw [greedyLines]
      split
      · next hfits =>
          refine ih fun _ => ?_
          rw [WordLine.width_add]
          push_cast
          exact hfits
      · exact List.forall_mem_cons.mpr ⟨hline, ih fun hne => absurd rfl hne⟩

/-- The word that starts a line would not have ended within the page on the line before. -/
theorem isChain_greedyLines (line : WordLine) (words : List Text) :
    (greedyLines edge margin separator line words).IsChain fun line next =>
      edge < Text.width (line.text separator) + Text.width separator + 1 +
        Text.width next.first := by
  induction words generalizing line with
  | nil => exact .singleton _
  | cons word words ih =>
      rw [greedyLines]
      split
      · exact ih _
      · next hwide =>
          obtain ⟨others, rest, heq, -⟩ :=
            exists_greedyLines_eq_cons edge margin separator ⟨margin, word, []⟩ words
          have hrest := ih ⟨margin, word, []⟩
          rw [heq] at hrest ⊢
          exact .cons_cons (not_le.mp hwide) hrest

/-! ## The lines of a fill -/

theorem wrap_ne_nil (edge start : Int) (separator tail : Text) (column : Int) (line : Text)
    (words : List Text) : wrap edge start separator tail column line words ≠ [] := by
  induction words generalizing column line with
  | nil => exact List.cons_ne_nil _ _
  | cons word words ih =>
      rw [wrap]
      split
      · exact ih _ _
      · exact List.cons_ne_nil _ _

/-- The text of a line that is not the last: it is trimmed, and a line end follows. -/
theorem intercalate_trimmedLines_cons (margin : Indentation → Text) (line : Indentation × Text)
    {rest : List (Indentation × Text)} (h : rest ≠ []) :
    List.intercalate "\n" (trimmedLines margin (line :: rest)) =
      Text.stripRight Text.isIndent (margin line.1 ++ line.2) ++ "\n" ++
        List.intercalate "\n" (trimmedLines margin rest) := by
  obtain ⟨next, more, rfl⟩ := List.exists_cons_of_ne_nil h
  obtain ⟨first, others, hfirst⟩ := exists_trimmedLines_eq_cons margin next more
  rw [trimmedLines, hfirst, List.intercalate_cons_cons, ← hfirst]

/-- **The lines of `wrap` are greedy lines of words.** Each ends in something that shows, so
nothing of it is trimmed. -/
theorem intercalate_hang_wrap (edge : Int) {place : Indentation → Text} {j : Indentation}
    (hj : place j = .repeated margin ' ') (hseparator : separator.all Text.isInk = true)
    {i : Indentation} (line : WordLine) (hi : place i = .repeated line.margin ' ')
    (hline : ∀ word ∈ line.words, word.IsWord) {words : List Text}
    (hwords : ∀ word ∈ words, word.IsWord) :
    List.intercalate "\n" (trimmedLines place (hang i j
        (wrap edge margin separator [] (Text.width (line.text separator)) (line.body separator)
          words))) =
      List.intercalate (separator ++ ("\n" : Text))
        ((greedyLines edge margin separator line words).map (·.text separator)) := by
  induction words generalizing i line with
  | nil => simp [wrap, hang, trimmedLines, greedyLines, WordLine.text, hi]
  | cons word words ih =>
      obtain ⟨hword, hothers⟩ := List.forall_mem_cons.mp hwords
      rw [wrap, greedyLines]
      split
      · rw [← ih (line.add word) hi (WordLine.forall_mem_words_add hline hword) hothers,
          WordLine.width_add, WordLine.body_add]
        push_cast
        rfl
      · have hnext : Text.width (WordLine.text separator ⟨margin, word, []⟩) =
            margin + Text.width word := by
          rw [WordLine.width_text, WordLine.body_single]
        have hrest := ih ⟨margin, word, []⟩ hj (List.forall_mem_singleton.mpr hword)
          hothers
        obtain ⟨others, rest, hcons, -⟩ :=
          exists_greedyLines_eq_cons edge margin separator ⟨margin, word, []⟩ words
        rw [hnext, WordLine.body_single, hang_self, Int.natCast_add] at hrest
        rw [hang, intercalate_trimmedLines_cons _ _ (by simpa using wrap_ne_nil _ _ _ _ _ _ _),
          hrest, hi, ← List.append_assoc,
          ((WordLine.endsInInk_body hline).append_left _ |>.append hseparator).stripRight_eq,
          hcons, List.map_cons, List.map_cons, List.map_cons, List.intercalate_cons_cons]
        simp [WordLine.text]

variable {page : Page Int} {w : Int}

/-- Words that are filled behind an alignment. -/
def wordsDoc (columns : Int) (separator : Text) (words : List Text) : Doc :=
  .align columns (.fill (wordDocs separator words))

theorem proper_wordsDoc (columns : Int) (separator : Text) (words : List Text) :
    (wordsDoc columns separator words).all Doc.isProper = true := by
  simp only [wordsDoc, Doc.all, Doc.isProper, Bool.true_and, Doc.listAll_eq_true]
  exact forall_mem_wordDocs (P := fun doc => doc.all Doc.isProper = true) rfl (fun _ => rfl) words

theorem levelFree_wordsDoc (columns : Int) (separator : Text) (words : List Text) :
    (wordsDoc columns separator words).all Doc.isLevelFree = true := by
  simp only [wordsDoc, Doc.all, Doc.isLevelFree, Bool.true_and, Doc.listAll_eq_true]
  exact forall_mem_wordDocs (P := fun doc => doc.all Doc.isLevelFree = true) rfl (fun _ => rfl)
    words

theorem render_wordsDoc (columns : Int) (words : List Text) :
    render page (wordsDoc columns separator words) =
      Indentation.align [] columns >>= fun j =>
        Machine.output page ⟨0, [], [⟨j, .broken, .fill (wordDocs separator words)⟩]⟩ := by
  have hforces : (wordsDoc columns separator words).forces = false :=
    Doc.listForces_eq_false.mpr
      (forall_mem_wordDocs (P := fun doc => doc.forces = false) rfl (fun _ => rfl) words)
  rw [render_eq, Doc.settle_eq (proper_wordsDoc columns separator words), Fault.ok_bind,
    Doc.raise_eq_self hforces, Machine.start, wordsDoc, Machine.output_cons, perform]
  cases Indentation.align [] columns <;> rfl

/-- A fill of words behind an alignment is laid out as greedy lines. -/
theorem render_wordsDoc_eq_ok (hwidth : page.width = .ok w) (hmargin : (margin : Int) < memoryLimit)
    (hseparator : separator.all Text.isInk = true) {first : Text} {others : List Text}
    (hwords : ∀ word ∈ first :: others, word.IsWord) :
    render page (wordsDoc margin separator (first :: others)) =
      .ok (List.intercalate (separator ++ ("\n" : Text))
        ((greedyLines w margin separator ⟨0, first, []⟩ others).map (·.text separator))) := by
  obtain ⟨hfirst, hothers⟩ := List.forall_mem_cons.mp hwords
  obtain ⟨j, hj⟩ := Indentation.align_ok [] hmargin
  have hplace : j.text page = .repeated margin ' ' ∧ j.columns page = margin := by
    rw [Indentation.align_eq hj, Indentation.aligned]
    split
    · next hzero =>
        obtain rfl : margin = 0 := by omega
        exact ⟨rfl, rfl⟩
    · exact ⟨rfl, Int.zero_add _⟩
  obtain ⟨ps, hps, hrun⟩ := exists_writes_fill hwidth .broken [] j separator [] 0 [] first others
  have hafter : ∀ (column : Int) (written : List Piece), Machine.output page ⟨column, written, []⟩ =
      Machine.output page ⟨0, (([] : List Text).map .text).reverse ++ written, []⟩ :=
    fun _ _ => by rw [Machine.output_nil, Machine.output_nil]; rfl
  have hlines := intercalate_hang_wrap w hplace.1 hseparator (i := []) ⟨0, first, []⟩ rfl
    (List.forall_mem_singleton.mpr hfirst) hothers
  rw [WordLine.width_text, WordLine.body_single, Nat.zero_add] at hlines
  rw [render_wordsDoc, hj, Fault.ok_bind, hrun hafter, Machine.output_nil, List.append_nil,
    List.reverse_reverse, assemble_eq, Rows.text_eq_intercalate, lines_rowsOf rfl, hps, hplace.2,
    Int.zero_add, List.nil_append]
  exact congrArg Except.ok hlines

/-- A fill of words behind an alignment that cannot be made is not laid out. -/
theorem render_wordsDoc_eq_error {columns : Int} (h : memoryLimit ≤ columns) (words : List Text) :
    ∃ fault, render page (wordsDoc columns separator words) = .error fault ∧
      fault.isExcess = true := by
  rw [render_wordsDoc]
  cases halign : Indentation.align [] columns with
  | ok j => exact absurd (Indentation.lt_memoryLimit_of_align halign) (not_lt.mpr h)
  | error fault => exact ⟨fault, rfl, Indentation.failsWithin_align [] columns _ halign⟩

end Layout

namespace Settings

open Layout

/-- **A fill is greedy word wrap.** Words with a separator between them, filled behind an
alignment on a page of integer width, are laid out as greedy lines with the separator before
each line end, unless the alignment does not fit in memory. These are the lines of the text,
and their words are the words in order; a line with several words is no wider than the page,
apart from the separator at its end, and the word that starts a line would not have fitted on
the line before it. -/
theorem layout_fill_words {settings : Settings} {w : Int} (hw : settings.printWidth.int? = some w)
    (margin : Nat) {separator first : Text} {others : List Text}
    (hseparator : separator.all Text.isInk = true)
    (hwords : ∀ word ∈ first :: others, word.IsWord) :
    let doc := wordsDoc margin separator (first :: others)
    let lines := greedyLines w margin separator ⟨0, first, []⟩ others
    let out := List.intercalate (separator ++ ("\n" : Text)) (lines.map (·.text separator))
    ((margin : Int) < memoryLimit → settings.layout doc = .ok out) ∧
    (memoryLimit ≤ (margin : Int) →
      ∃ fault, settings.layout doc = .error fault ∧ fault.isExcess = true) ∧
    Text.lines (out ++ separator) = lines.map (fun line => line.text separator ++ separator) ∧
    lines.flatMap WordLine.words = first :: others ∧
    (∀ line ∈ lines.tail, line.margin = margin) ∧
    (∀ line ∈ lines, line.others ≠ [] → (Text.width (line.text separator) : Int) ≤ w) ∧
    lines.IsChain fun line next =>
      w < Text.width (line.text separator) + Text.width separator + 1 + Text.width next.first := by
  intro doc lines out
  let page : Page Int := ⟨.ok w, .error .overflow⟩
  have hlayout : settings.layout doc = render page doc :=
    layout_eq_render hw (proper_wordsDoc _ _ _) (levelFree_wordsDoc _ _ _) rfl
  have hsplit : lines.flatMap WordLine.words = first :: others := flatMap_words_greedyLines _ _
  obtain ⟨firstOthers, rest, hcons, hrest⟩ :=
    exists_greedyLines_eq_cons w margin separator ⟨0, first, []⟩ others
  refine ⟨fun hmargin => ?_, fun hmargin => ?_, ?_, hsplit, ?_, ?_, isChain_greedyLines _ _⟩
  · rw [hlayout]
    exact render_wordsDoc_eq_ok rfl hmargin hseparator hwords
  · rw [hlayout]
    exact render_wordsDoc_eq_error hmargin _
  · have hink := Text.isOneLine_of_all_isInk hseparator
    rw [Text.lines_intercalate hink, List.map_map]
    · rfl
    · simp [lines, hcons]
    · rw [List.forall_mem_map]
      refine fun line hline => WordLine.isOneLine_text hink fun word hword => ?_
      have hmem : word ∈ first :: others := hsplit ▸ List.mem_flatMap.mpr ⟨line, hline, hword⟩
      exact Text.isOneLine_of_all_isInk (hwords word hmem).2
  · rw [show lines = _ from hcons]
    exact hrest
  · exact width_le_of_mem_greedyLines fun hne => absurd rfl hne

/-- Three lines, one with a word that is too wide for the page; tabs count for nothing. -/
theorem layout_fill_words_of_wide_word :
    let settings : Settings := { printWidth := .int 9, useTabs := .bool true, tabWidth := .null }
    let words : List Text := ["日本", "ab", "a_very_wide_word", "c"]
    (∀ word ∈ words, word.IsWord) ∧
      greedyLines 9 2 "," ⟨0, "日本", []⟩ ["ab", "a_very_wide_word", "c"] =
        [⟨0, "日本", ["ab"]⟩, ⟨2, "a_very_wide_word", []⟩, ⟨2, "c", []⟩] ∧
      settings.layout (wordsDoc 2 "," words) = .ok "日本, ab,\n  a_very_wide_word,\n  c" := by
  intro settings words
  have hw : settings.printWidth.int? = some 9 := rfl
  have hseparator : (Text.ofString ",").all Text.isInk = true := by decide
  have hwords : ∀ word ∈ words, word.IsWord := by decide +kernel
  refine ⟨hwords, by decide +kernel, ?_⟩
  exact ((layout_fill_words hw 2 hseparator hwords).1 (by decide)).trans (by decide +kernel)

/-- An alignment that cannot be made keeps a single word from being printed. -/
theorem layout_fill_words_eq_error_of_wide_align :
    Text.IsWord "a" ∧ greedyLines 80 countLimit.toNat [] ⟨0, "a", []⟩ [] = [⟨0, "a", []⟩] ∧
      Settings.layout {} (wordsDoc countLimit [] ["a"]) = .error .overflow := by
  decide +kernel

end Settings

end HamlFormat
