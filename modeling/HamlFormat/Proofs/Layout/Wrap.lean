import HamlFormat.Proofs.Layout.Placement

/-!
# HamlFormat.Proofs.Layout.Wrap

Words that are filled into lines. `wrap` puts each word on the current line if it ends
within the page there, after a separator and a space, and starts a new line with it
otherwise. A fill of words with such separators between them does exactly that
(`exists_writes_fill`): where a word starts, the fill measures it with the separator and
the next word, so it knows the column that the next word would end at.
-/

namespace HamlFormat.Layout

open Machine

/-- The lines of words, after one that ends at a column of the line that it is on. A word
goes on that line, after the separator and a space, if it ends within the edge of the
page; else the line ends with the separator, and the word starts the next one. The tail
follows the last word. -/
def wrap (edge start : Int) (separator tail : Text) (column : Int) (line : Text) :
    List Text → List Text
  | [] => [line ++ tail]
  | word :: words =>
    if column + Text.width separator + 1 + Text.width word ≤ edge then
      wrap edge start separator tail (column + Text.width separator + 1 + Text.width word)
        (line ++ separator ++ " " ++ word) words
    else
      (line ++ separator) ::
        wrap edge start separator tail (start + Text.width word) word words

/-- Lines of which all but the first start at a place of their own. -/
def hang {ι : Type} (i j : ι) : List Text → List (ι × Text)
  | [] => []
  | first :: others => (i, first) :: others.map fun line => (j, line)

theorem hang_self {ι : Type} (i : ι) (lines : List Text) :
    hang i i lines = lines.map fun line => (i, line) := by
  cases lines <;> rfl

/-- The separator of words in a fill. -/
def wordBreak (separator : Text) : Doc :=
  .concat [.text separator, .blankBreak]

/-- The documents of words in a fill. -/
def wordDocs (separator : Text) (words : List Text) : List Doc :=
  Doc.separate (wordBreak separator) (words.map .text)

theorem wordDocs_cons_cons (separator first second : Text) (words : List Text) :
    ∃ others, wordDocs separator (second :: words) = .text second :: others ∧
      wordDocs separator (first :: second :: words) =
        .text first :: wordBreak separator :: .text second :: others := by
  cases words with
  | nil => exact ⟨[], rfl, rfl⟩
  | cons third words => exact ⟨_, rfl, rfl⟩

theorem forall_mem_wordDocs {P : Doc → Prop} {separator : Text} (hbreak : P (wordBreak separator))
    (htext : ∀ s, P (.text s)) (words : List Text) :
    ∀ doc ∈ wordDocs separator words, P doc := by
  refine (Doc.forall_mem_separate hbreak _).mpr ?_
  rw [List.forall_mem_map]
  exact fun s _ => htext s

variable {page : Page Int} {w : Int} {i j : Indentation} {mode : Mode} {after : List Command}

theorem output_word (column : Int) (written : List Piece) (s : Text) :
    output page ⟨column, written, ⟨j, mode, .text s⟩ :: after⟩ =
      output page ⟨column + Text.width s, .text s :: written, after⟩ := by
  rw [output_cons]
  rfl

theorem output_wordBreak_flat (column : Int) (written : List Piece) (separator : Text) :
    output page ⟨column, written, ⟨j, .flat, wordBreak separator⟩ :: after⟩ =
      output page ⟨column + Text.width separator + 1,
        .unbroken false :: .text separator :: written, after⟩ := by
  rw [output_cons]
  show output page ⟨column, written, ⟨j, .flat, .text separator⟩ :: ⟨j, .flat, .blankBreak⟩ ::
    after⟩ = _
  rw [output_word, output_cons]
  rfl

theorem output_wordBreak_broken (column : Int) (written : List Piece) (separator : Text) :
    output page ⟨column, written, ⟨j, .broken, wordBreak separator⟩ :: after⟩ =
      output page ⟨j.columns page, .newline j :: .text separator :: written, after⟩ := by
  rw [output_cons]
  show output page ⟨column, written, ⟨j, .broken, .text separator⟩ :: ⟨j, .broken, .blankBreak⟩ ::
    after⟩ = _
  rw [output_word, output_cons]
  rfl

/-- The separator after a word is a space on its line if the word, the separator and the
next word fit there together, and ends the line otherwise. -/
theorem output_fill_words (hwidth : page.width = .ok w) (column : Int) (written : List Piece)
    (separator first second : Text) (others : List Doc) :
    output page ⟨column, written, ⟨j, mode,
        .fill (.text first :: wordBreak separator :: .text second :: others)⟩ :: after⟩ =
      if column + Text.width first + Text.width separator + 1 + Text.width second ≤ w then
        output page ⟨column + Text.width first + Text.width separator + 1,
          .unbroken false :: .text separator :: .text first :: written,
          ⟨j, mode, .fill (.text second :: others)⟩ :: after⟩
      else
        output page ⟨j.columns page, .newline j :: .text separator :: .text first :: written,
          ⟨j, mode, .fill (.text second :: others)⟩ :: after⟩ := by
  have hmeasure : ∀ (doc : Doc) (room : Int), doc.all Doc.isProper = true → doc.forces = false →
      fits true [⟨j, .flat, doc⟩] room = .ok (decide ((doc.flatWidth : Int) ≤ room)) :=
    fun _ _ hproper hforces => fits_flat_alone hproper hforces
  have hpair : decide (((Doc.concat [.text first, wordBreak separator, .text second]).flatWidth :
      Int) ≤ w - column) = decide (column + Text.width first + Text.width separator + 1 +
        Text.width second ≤ w) := by
    simp only [Doc.flatWidth, Doc.listFlatWidth, wordBreak, Doc.blankBreak, Bool.false_eq_true,
      if_false, decide_eq_decide]
    omega
  rw [output_cons, perform, room_eq hwidth, Fault.ok_bind, fillCommands, hmeasure _ _ rfl rfl,
    Fault.ok_bind, hmeasure _ _ rfl rfl, hpair]
  by_cases hfits : column + Text.width first + Text.width separator + 1 + Text.width second ≤ w
  · rw [if_pos hfits, decide_eq_true hfits]
    show output page ⟨column, written, ⟨j, .flat, .text first⟩ ::
      ⟨j, .flat, wordBreak separator⟩ :: ⟨j, mode, .fill (.text second :: others)⟩ :: after⟩ = _
    rw [output_word, output_wordBreak_flat]
  · rw [if_neg hfits, decide_eq_false hfits]
    show output page ⟨column, written, ⟨j, _, .text first⟩ ::
      ⟨j, .broken, wordBreak separator⟩ :: ⟨j, mode, .fill (.text second :: others)⟩ :: after⟩ = _
    rw [output_word, output_wordBreak_broken]

/-- **A fill of words wraps them greedily.** From a column on a line that something stands
on already, it writes the lines of `wrap`, where what comes after it writes the texts of
the tail and looks at no column; all lines but the first have the indentation of the
fill. -/
theorem exists_writes_fill (hwidth : page.width = .ok w) (mode : Mode) (i j : Indentation)
    (separator : Text) (tails : List Text) (column : Int) (line first : Text)
    (words : List Text) :
    ∃ ps, writtenLines (i, line) ps = hang i j (wrap w (j.columns page) separator tails.flatten
        (column + Text.width first) (line ++ first) words) ∧
      ∀ {after rest : List Command},
        (∀ (column : Int) (written : List Piece), output page ⟨column, written, after⟩ =
          output page ⟨0, (tails.map .text).reverse ++ written, rest⟩) →
        ∀ written : List Piece, output page ⟨column, written,
            ⟨j, mode, .fill (wordDocs separator (first :: words))⟩ :: after⟩ =
          output page ⟨0, ps.reverse ++ written, rest⟩ := by
  induction words generalizing i column line first with
  | nil =>
      refine ⟨.text first :: tails.map .text, writtenLines_texts _ _,
        fun {after rest} hafter written => ?_⟩
      obtain ⟨answer, hanswer⟩ := fits_ok true [⟨j, .flat, .text first⟩] (w - column)
        (allDocs_cons.mpr ⟨rfl, allDocs_nil⟩)
      rw [output_cons, perform, room_eq hwidth, Fault.ok_bind]
      show (fillCommands j mode [.text first] (w - column) >>= fun commands => _) >>=
        output page = _
      rw [fillCommands, hanswer]
      show output page ⟨column, written, ⟨j, _, .text first⟩ :: after⟩ = _
      rw [output_word, hafter, List.reverse_cons, List.append_assoc]
      rfl
  | cons second words ih =>
      obtain ⟨others, hothers, hdocs⟩ := wordDocs_cons_cons separator first second words
      by_cases hfits : column + Text.width first + Text.width separator + 1 +
          Text.width second ≤ w
      · obtain ⟨ps, hps, hrun⟩ := ih i (column + Text.width first + Text.width separator + 1)
          (line ++ first ++ separator ++ " ") second
        refine ⟨.text first :: .text separator :: .unbroken false :: ps, ?_,
          fun hafter written => ?_⟩
        · rw [wrap, if_pos hfits]
          exact hps
        · rw [hdocs, output_fill_words hwidth, if_pos hfits, ← hothers, hrun hafter]
          simp
      · obtain ⟨ps, hps, hrun⟩ := ih j (j.columns page) [] second
        refine ⟨.text first :: .text separator :: .newline j :: ps, ?_, fun hafter written => ?_⟩
        · rw [wrap, if_neg hfits, hang, ← hang_self]
          exact congrArg ((i, line ++ first ++ separator) :: ·) hps
        · rw [hdocs, output_fill_words hwidth, if_neg hfits, ← hothers, hrun hafter]
          simp

end HamlFormat.Layout
