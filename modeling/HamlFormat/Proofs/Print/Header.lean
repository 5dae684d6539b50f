import HamlFormat.Proofs.Layout.Wrap
import HamlFormat.Proofs.Print.Demand

/-!
# HamlFormat.Proofs.Print.Header

The line of a tag with an attribute hash. Three decisions are made about it: whether the
whole line fits, whether the hash fits with what follows it, and for each pair whether it
fits on the line of the pair before it. The first two ask the same question, since what
stands before the hash is on the line either way. So the line is written as one if it
fits, and otherwise its pairs are wrapped one by one, under the first of them
(`writes_hashLine`).
-/

namespace HamlFormat

open Layout Machine

namespace Layout

variable {page : Page Int} {w : Int} {i j : Indentation} {mode : Mode}

/-! ## Texts -/

/-- Commands for texts. -/
def textCommands (i : Indentation) (mode : Mode) (texts : List Text) : List Command :=
  (texts.map Doc.text).map (⟨i, mode, ·⟩)

theorem output_texts (column : Int) (written : List Piece) (texts : List Text)
    (rest : List Command) :
    output page ⟨column, written, textCommands i mode texts ++ rest⟩ =
      output page ⟨column + Text.width texts.flatten, (texts.map .text).reverse ++ written,
        rest⟩ := by
  induction texts generalizing column written with
  | nil => simp [textCommands]
  | cons s texts ih =>
      have hstep : output page ⟨column, written, textCommands i mode (s :: texts) ++ rest⟩ =
          output page ⟨column + Text.width s, .text s :: written,
            textCommands i mode texts ++ rest⟩ := output_word column written s
      rw [hstep, ih, List.flatten_cons, Text.width_append, Int.natCast_add, Int.add_assoc]
      simp

theorem fits_texts (strict : Bool) (texts : List Text) (rest : List Command) (room : Int) :
    fits strict (textCommands i mode texts ++ rest) room =
      fits strict rest (room - Text.width texts.flatten) := by
  induction texts generalizing room with
  | nil => simp [textCommands]
  | cons s texts ih =>
      have hstep : fits strict (textCommands i mode (s :: texts) ++ rest) room =
          fits strict (textCommands i mode texts ++ rest) (room - Text.width s) := fits_text s
      rw [hstep, ih, List.flatten_cons, Text.width_append, Int.natCast_add, Int.sub_sub]

/-- The words of a fill are flat with their separators and spaces between them. -/
theorem listFlatText_wordDocs (separator : Text) (words : List Text) :
    Doc.listFlatText (wordDocs separator words) =
      List.intercalate (separator ++ Text.ofString " ") words := by
  induction words with
  | nil => rfl
  | cons first words ih =>
      cases words with
      | nil => simp [wordDocs, Doc.separate, Doc.listFlatText, Doc.flatText]
      | cons second words =>
          obtain ⟨others, hothers, hdocs⟩ := wordDocs_cons_cons separator first second words
          rw [hdocs, Doc.listFlatText, Doc.listFlatText, ← hothers, ih, List.intercalate_cons_cons]
          simp [wordBreak, Doc.blankBreak, Doc.flatText, Doc.listFlatText]

theorem listFlatText_append (xs ys : List Doc) :
    Doc.listFlatText (xs ++ ys) = Doc.listFlatText xs ++ Doc.listFlatText ys := by
  induction xs with
  | nil => rfl
  | cons x xs ih =>
      rw [List.cons_append, Doc.listFlatText, Doc.listFlatText, ih, List.append_assoc]

theorem listFlatText_texts (texts : List Text) :
    Doc.listFlatText (texts.map .text) = texts.flatten := by
  induction texts with
  | nil => rfl
  | cons s texts ih => rw [List.map_cons, Doc.listFlatText, ih]; rfl

end Layout

/-! ## Lines with a hash -/

/-- The contents of a hash of pairs that are aligned by so many columns. -/
def hashContents (columns : Int) (pairs : List Text) : Doc :=
  .concat [.text "\x7b", .align columns (.fill (wordDocs "," pairs)), .text "\x7d"]

/-- A line with texts around a hash. -/
def hashLine (heads : List Text) (columns : Int) (pairs tails : List Text) : Doc :=
  .concat (heads.map .text ++ .group (hashContents columns pairs) false :: tails.map .text)

/-- The text of a line with a hash, on one line. -/
def hashLineText (start : Text) (pairs : List Text) (tail : Text) : Text :=
  start ++ "\x7b" ++ List.intercalate ", " pairs ++ "\x7d" ++ tail

section

variable (heads : List Text) (columns : Int) (pairs tails : List Text)

theorem flatText_hashContents :
    (hashContents columns pairs).flatText = hashLineText [] pairs [] := by
  simp [hashContents, hashLineText, Doc.flatText, Doc.listFlatText, listFlatText_wordDocs]
  rfl

theorem flatText_hashLine :
    (hashLine heads columns pairs tails).flatText =
      hashLineText heads.flatten pairs tails.flatten := by
  rw [hashLine, Doc.flatText, listFlatText_append, Doc.listFlatText, Doc.flatText,
    flatText_hashContents, listFlatText_texts, listFlatText_texts]
  simp [hashLineText]

theorem forces_hashContents : (hashContents columns pairs).forces = false := by
  simpa [hashContents, Doc.forces] using
    forall_mem_wordDocs (P := fun d => d.forces = false) rfl (fun _ => rfl) pairs

theorem proper_hashContents : (hashContents columns pairs).all Doc.isProper = true := by
  simpa [hashContents, Doc.all, Doc.isProper] using
    forall_mem_wordDocs (P := fun d => d.all Doc.isProper = true) rfl (fun _ => rfl) pairs

theorem forces_hashLine : (hashLine heads columns pairs tails).forces = false := by
  have hhash := forces_hashContents columns pairs
  simp [hashLine, Doc.forces, or_imp, forall_and, hhash]

theorem proper_hashLine : (hashLine heads columns pairs tails).all Doc.isProper = true := by
  have hhash := proper_hashContents columns pairs
  simp [hashLine, Doc.all, Doc.isProper, or_imp, forall_and, hhash]

theorem feasible_hashLine (levels : Bool) (h : columns < memoryLimit) :
    (hashLine heads columns pairs tails).all (Doc.isFeasible levels) = true := by
  have hwords : ∀ doc ∈ wordDocs "," pairs, doc.all (Doc.isFeasible levels) = true :=
    forall_mem_wordDocs (P := fun d => d.all (Doc.isFeasible levels) = true) rfl (fun _ => rfl)
      pairs
  have hhash : (hashContents columns pairs).all (Doc.isFeasible levels) = true := by
    simpa [hashContents, Doc.all, Doc.isFeasible, h] using hwords
  simp [hashLine, Doc.all, Doc.isFeasible, or_imp, forall_and, hhash]

theorem flatWidth_hashLine :
    (hashLine heads columns pairs tails).flatWidth =
      Text.width (hashLineText heads.flatten pairs tails.flatten) := by
  rw [← Doc.width_flatText, flatText_hashLine]

end

variable {page : Page Int} {w : Int} {i j : Indentation} {columns : Int}

/-- A line with a hash that fits is written as one. -/
theorem output_hashLine_flat (hwidth : page.width = .ok w) (hj : i.align columns = .ok j)
    (heads pairs tails : List Text)
    (hfits : i.columns page + Text.width (hashLineText heads.flatten pairs tails.flatten) ≤ w)
    (column : Int) (written : List Piece) {rest : List Command} (hrest : LineEnd page rest) :
    output page ⟨i.columns page, written, ⟨i, .flat, hashLine heads columns pairs tails⟩ :: rest⟩ =
      output page ⟨column, .text (hashLineText heads.flatten pairs tails.flatten) :: written,
        rest⟩ := by
  have hmade : (hashLine heads columns pairs tails).flatDemand page = .ok () := by
    have hok : ((hashLine heads columns pairs tails).flatDemand page).isOk = _ := isOk_flatDemand _
    rw [Doc.isFlatFeasible_of_all (feasible_hashLine heads columns pairs tails _
      (Indentation.lt_memoryLimit_of_align hj))] at hok
    cases hdemand : (hashLine heads columns pairs tails).flatDemand page with
    | ok _ => rfl
    | error fault => rw [hdemand] at hok; cases hok
  have hflat := runsFlat hwidth (proper_hashLine heads columns pairs tails)
    (forces_hashLine heads columns pairs tails) i (i.columns page) written rest
    (by rwa [flatWidth_hashLine])
  refine hflat.trans ?_
  rw [hmade, Fault.ok_bind, outputAfter, flatText_hashLine]
  exact hrest.output_eq _ column _

/-- A line is measured up to its end. -/
theorem fits_hashLine (heads pairs tails : List Text) {rest : List Command}
    (hrest : LineEnd page rest) (room : Int) :
    fits false (⟨i, .flat, hashLine heads columns pairs tails⟩ :: rest) room = .ok
      (decide ((Text.width (hashLineText heads.flatten pairs tails.flatten) : Int) ≤ room)) := by
  have hflat : fits false (⟨i, .flat, hashLine heads columns pairs tails⟩ :: rest) room =
      fits false rest (room - (hashLine heads columns pairs tails).flatWidth) :=
    fits_flat (proper_hashLine heads columns pairs tails)
      (forces_hashLine heads columns pairs tails)
  rw [hflat, hrest.fits_eq, flatWidth_hashLine]
  exact congrArg Except.ok (decide_eq_decide.mpr (by omega))

/-- A hash is measured together with what follows it on its line. -/
theorem fits_hashContents (pairs tails : List Text) {rest : List Command}
    (hrest : LineEnd page rest) (room : Int) :
    fits false (⟨i, .flat, hashContents columns pairs⟩ ::
        (textCommands i .broken tails ++ rest)) room = .ok
      (decide ((Text.width (hashLineText [] pairs tails.flatten) : Int) ≤ room)) := by
  have hflat : fits false (⟨i, .flat, hashContents columns pairs⟩ ::
        (textCommands i .broken tails ++ rest)) room =
      fits false (textCommands i .broken tails ++ rest)
        (room - (hashContents columns pairs).flatWidth) :=
    fits_flat (proper_hashContents columns pairs) (forces_hashContents columns pairs)
  rw [hflat, fits_texts, hrest.fits_eq, ← Doc.width_flatText, flatText_hashContents]
  refine congrArg Except.ok (decide_eq_decide.mpr ?_)
  simp only [hashLineText, Text.width_append, Text.width_nil]
  omega

/-- A hash that is laid out over lines fills them with its pairs. -/
theorem output_hashContents (hj : i.align columns = .ok j) (column : Int) (written : List Piece)
    (pairs tails : List Text) (rest : List Command) :
    output page ⟨column, written, ⟨i, .broken, hashContents columns pairs⟩ ::
        (textCommands i .broken tails ++ rest)⟩ =
      output page ⟨column + 1, .text "\x7b" :: written, ⟨j, .broken, .fill (wordDocs "," pairs)⟩ ::
        (textCommands i .broken (Text.ofString "\x7d" :: tails) ++ rest)⟩ := by
  rw [output_cons]
  show output page ⟨column, written, ⟨i, .broken, .text "\x7b"⟩ ::
    ⟨i, .broken, .align columns (.fill (wordDocs "," pairs))⟩ :: _⟩ = _
  rw [output_word, output_cons, perform, hj]
  rfl

/-- A line with a hash that does not fit wraps its pairs under the first of them. -/
theorem exists_output_hashLine_broken (hwidth : page.width = .ok w)
    (hj : i.align columns = .ok j) (heads : List Text) (first : Text) (others tails : List Text)
    (hwide : ¬i.columns page +
      Text.width (hashLineText heads.flatten (first :: others) tails.flatten) ≤ w) :
    ∃ ps, writtenLines (i, []) ps = hang i j (wrap w (j.columns page) ","
        (Text.ofString "\x7d" ++ tails.flatten)
        (i.columns page + Text.width heads.flatten + 1 + Text.width first)
        (heads.flatten ++ "\x7b" ++ first) others) ∧
      ∀ (column : Int) (written : List Piece) (rest : List Command), LineEnd page rest →
        output page ⟨i.columns page, written,
            ⟨i, .broken, hashLine heads columns (first :: others) tails⟩ :: rest⟩ =
          output page ⟨column, ps.reverse ++ written, rest⟩ := by
  obtain ⟨ps, hps, hrun⟩ := exists_writes_fill hwidth .broken i j ","
    (Text.ofString "\x7d" :: tails) (i.columns page + Text.width heads.flatten + 1)
    (heads.flatten ++ "\x7b") first others
  refine ⟨heads.map .text ++ .text "\x7b" :: ps, ?_, fun column written rest hrest => ?_⟩
  · have hheads : writtenLines (i, []) (heads.map .text) = [] ++ [(i, heads.flatten)] :=
      writtenLines_texts _ _
    rw [writtenLines_append hheads]
    exact hps
  · have hparts : output page ⟨i.columns page, written,
          ⟨i, .broken, hashLine heads columns (first :: others) tails⟩ :: rest⟩ =
        output page ⟨i.columns page, written, textCommands i .broken heads ++
          (⟨i, .broken, .group (hashContents columns (first :: others)) false⟩ ::
            (textCommands i .broken tails ++ rest))⟩ := by
      rw [output_cons, hashLine, perform, Fault.ok_bind]
      simp [textCommands]
    -- the hash does not fit with its tail, as the line does not fit with its heads
    have hhash : ¬(Text.width (hashLineText [] (first :: others) tails.flatten) : Int) ≤
        w - (i.columns page + Text.width heads.flatten) := by
      simp only [hashLineText, Text.width_append, Text.width_nil] at hwide ⊢
      omega
    rw [hparts, Layout.output_texts, output_decided, room_eq hwidth, Fault.ok_bind,
      fits_hashContents _ _ hrest, decide_eq_false hhash, Fault.ok_bind]
    show output page ⟨_, _, ⟨i, .broken, hashContents columns (first :: others)⟩ :: _⟩ = _
    rw [output_hashContents hj, hrun fun column written => ?_, hrest.output_eq _ column]
    · simp
    · rw [Layout.output_texts]
      exact hrest.output_eq _ 0 _

/-- **A line with a hash is one line if that fits**, and its pairs are wrapped under the
first of them otherwise. -/
theorem writes_hashLine (hwidth : page.width = .ok w) (hj : i.align columns = .ok j)
    (heads : List Text) (first : Text) (others tails : List Text) :
    Writes page i [⟨i, .broken, .group (hashLine heads columns (first :: others) tails) false⟩]
      (if i.columns page +
          Text.width (hashLineText heads.flatten (first :: others) tails.flatten) ≤ w then
        [(i, hashLineText heads.flatten (first :: others) tails.flatten)]
      else hang i j (wrap w (j.columns page) "," (Text.ofString "\x7d" ++ tails.flatten)
        (i.columns page + Text.width heads.flatten + 1 + Text.width first)
        (heads.flatten ++ "\x7b" ++ first) others)) where
  proper := by
    simpa [AllDocs, Doc.all, Doc.isProper] using
      proper_hashLine heads columns (first :: others) tails
  printed := by
    have hdecide : ∀ (written : List Piece) (rest : List Command), LineEnd page rest →
        output page ⟨i.columns page, written,
          [⟨i, .broken, .group (hashLine heads columns (first :: others) tails) false⟩] ++ rest⟩ =
        output page ⟨i.columns page, written, ⟨i, if i.columns page + Text.width
          (hashLineText heads.flatten (first :: others) tails.flatten) ≤ w then .flat else .broken,
            hashLine heads columns (first :: others) tails⟩ :: rest⟩ := by
      intro written rest hrest
      have hsame : ∀ width : Int, width ≤ w - i.columns page ↔ i.columns page + width ≤ w := by
        intro width
        omega
      rw [List.singleton_append, output_decided, room_eq hwidth, Fault.ok_bind,
        fits_hashLine _ _ _ hrest, Fault.ok_bind]
      simp only [decide_eq_true_eq, hsame]
    by_cases hfits : i.columns page +
        Text.width (hashLineText heads.flatten (first :: others) tails.flatten) ≤ w
    · rw [if_pos hfits]
      refine ⟨[.text (hashLineText heads.flatten (first :: others) tails.flatten)], rfl, ?_⟩
      intro column written rest hrest
      rw [hdecide written rest hrest, if_pos hfits]
      exact output_hashLine_flat hwidth hj heads _ tails hfits column written hrest
    · rw [if_neg hfits]
      obtain ⟨ps, hps, hrun⟩ :=
        exists_output_hashLine_broken hwidth hj heads first others tails hfits
      refine ⟨ps, hps, fun column written rest hrest => ?_⟩
      rw [hdecide written rest hrest, if_neg hfits]
      exact hrun column written rest hrest

end HamlFormat
