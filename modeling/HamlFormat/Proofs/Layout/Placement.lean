import HamlFormat.Proofs.Layout.Decision
import HamlFormat.Proofs.Layout.Fixed
import HamlFormat.Proofs.Layout.Lines

/-!
# HamlFormat.Proofs.Layout.Placement

Lines one after another. What comes after a line either is nothing or starts with a
hard line break, so that the line is measured up to its end and what follows does not
depend on the column that it ends at (`LineEnd`). Commands that start a line write lines
of their own (`Writes`), and commands that start with a hard line break add lines to
those before them (`Adds`); put one after another they write the lines of both
(`Writes.append`, `Adds.append`).

A document that leaves nothing open writes the lines of its leaves
(`writes_of_isFixed`), where the levels of indentation that it needs can be made.
-/

namespace HamlFormat.Layout

open Machine

/-! ## Lines of pieces -/

/-- More pieces go on where the last line ends. -/
theorem writtenLines_append {current last : Indentation × Text} {ps : List Piece}
    {front : List (Indentation × Text)} (h : writtenLines current ps = front ++ [last])
    (qs : List Piece) : writtenLines current (ps ++ qs) = front ++ writtenLines last qs := by
  induction ps generalizing current front with
  | nil =>
      have hsingle : [] ++ [current] = front ++ [last] := h
      obtain ⟨rfl, hlast⟩ := List.append_inj' hsingle rfl
      rw [List.nil_append, List.nil_append, List.singleton_inj.mp hlast]
  | cons piece ps ih =>
      cases piece with
      | text s => exact ih h
      | unbroken soft => exact ih h
      | newline i =>
          rw [writtenLines] at h
          rw [List.cons_append, writtenLines]
          cases front with
          | nil =>
              obtain ⟨line, rest, hline⟩ := exists_writtenLines_eq_cons (i, []) ps
              rw [hline] at h
              cases h
          | cons first front =>
              rw [List.cons_append, List.cons.injEq] at h
              rw [ih h.2, h.1, List.cons_append]

/-- Pieces that add lines after any line go on after the last of several. -/
theorem writtenLines_append_of_adds {current : Indentation × Text} {ps qs : List Piece}
    {lines more : List (Indentation × Text)} (h : writtenLines current ps = lines)
    (hqs : ∀ last, writtenLines last qs = last :: more) :
    writtenLines current (ps ++ qs) = lines ++ more := by
  obtain ⟨line, rest, hline⟩ := exists_writtenLines_eq_cons current ps
  have hne : lines ≠ [] := by
    rw [← h, hline]
    exact List.cons_ne_nil _ _
  have hlast := List.dropLast_append_getLast hne
  rw [writtenLines_append (h.trans hlast.symm), hqs, List.append_cons, hlast]

/-- Texts are written on the current line. -/
theorem writtenLines_texts (current : Indentation × Text) (texts : List Text) :
    writtenLines current (texts.map .text) = [(current.1, current.2 ++ texts.flatten)] := by
  induction texts generalizing current with
  | nil => simp [writtenLines]
  | cons s texts ih => rw [List.map_cons, writtenLines, ih]; simp

/-! ## The end of a line -/

/-- What may come after a line: nothing, or a line end. -/
structure LineEnd (page : Page Int) (rest : List Command) : Prop where
  proper : AllDocs Doc.isProper rest
  fits_eq (room : Int) : fits false rest room = .ok (decide (0 ≤ room))
  output_eq (column column' : Int) (written : List Piece) :
    output page ⟨column, written, rest⟩ = output page ⟨column', written, rest⟩

variable {page : Page Int} {i : Indentation} {mode : Mode} {rest xs ys : List Command}
  {lines more : List (Indentation × Text)}

/-- The room on a page with whole columns. -/
theorem room_eq {w : Int} (hwidth : page.width = .ok w) (column : Int) :
    page.room column = .ok (w - column) := by
  rw [Page.room, hwidth]
  rfl

namespace LineEnd

theorem nil : LineEnd page [] where
  proper := allDocs_nil
  fits_eq _ := fits_nil
  output_eq _ _ _ := by rw [output_nil, output_nil]

theorem output_hardBreak (column : Int) (written : List Piece) :
    output page ⟨column, written, ⟨i, mode, .hardBreak⟩ :: rest⟩ =
      output page ⟨i.columns page, .newline i :: written, rest⟩ := by
  rw [output_cons]
  cases mode <;> rfl

theorem hardBreak (h : AllDocs Doc.isProper rest) :
    LineEnd page (⟨i, mode, .hardBreak⟩ :: rest) where
  proper := allDocs_cons.mpr ⟨rfl, h⟩
  fits_eq _ := fits_newline (.inr rfl)
  output_eq _ _ _ := by rw [output_hardBreak, output_hardBreak]

theorem concat {parts : List Doc} (h : LineEnd page (parts.map (⟨i, mode, ·⟩) ++ rest)) :
    LineEnd page (⟨i, mode, .concat parts⟩ :: rest) where
  proper := by
    have hproper := allDocs_append.mp h.proper
    refine allDocs_cons.mpr ⟨?_, hproper.2⟩
    simpa [Doc.all, Doc.isProper, AllDocs] using hproper.1
  fits_eq _ := by rw [fits_concat, h.fits_eq]
  output_eq column column' written := by
    rw [output_cons, output_cons]
    exact h.output_eq column column' written

theorem indent {doc : Doc} (h : LineEnd page (⟨.level :: i, mode, doc⟩ :: rest)) :
    LineEnd page (⟨i, mode, .indent doc⟩ :: rest) where
  proper := by
    have hproper := allDocs_cons.mp h.proper
    refine allDocs_cons.mpr ⟨?_, hproper.2⟩
    simpa [Doc.all, Doc.isProper] using hproper.1
  fits_eq _ := by rw [fits_indent, h.fits_eq]
  output_eq column column' written := by
    rw [output_cons, output_cons]
    simp only [perform]
    cases page.level with
    | error fault => rfl
    | ok level => exact h.output_eq column column' written

end LineEnd

/-! ## Commands that write lines -/

/-- Commands that write given lines from the start of a line on. -/
structure Writes (page : Page Int) (i : Indentation) (commands : List Command)
    (lines : List (Indentation × Text)) : Prop where
  proper : AllDocs Doc.isProper commands
  printed : ∃ ps, writtenLines (i, []) ps = lines ∧
    ∀ (column : Int) (written : List Piece) (rest : List Command), LineEnd page rest →
      output page ⟨i.columns page, written, commands ++ rest⟩ =
        output page ⟨column, ps.reverse ++ written, rest⟩

/-- Commands that add given lines at the end of a line. -/
structure Adds (page : Page Int) (commands : List Command)
    (lines : List (Indentation × Text)) : Prop where
  ends (rest : List Command) : LineEnd page rest → LineEnd page (commands ++ rest)
  printed : ∃ ps, (∀ current, writtenLines current ps = current :: lines) ∧
    ∀ (column column' : Int) (written : List Piece) (rest : List Command), LineEnd page rest →
      output page ⟨column, written, commands ++ rest⟩ =
        output page ⟨column', ps.reverse ++ written, rest⟩

namespace Adds

theorem nil : Adds page [] [] where
  ends _ hrest := hrest
  printed := ⟨[], fun _ => rfl, fun column column' written _ hrest =>
    hrest.output_eq column column' written⟩

/-- Added one after another, lines come one after another. -/
theorem append (h : Adds page xs lines) (h' : Adds page ys more) :
    Adds page (xs ++ ys) (lines ++ more) where
  ends rest hrest := by
    rw [List.append_assoc]
    exact h.ends _ (h'.ends rest hrest)
  printed := by
    obtain ⟨ps, hps, hrun⟩ := h.printed
    obtain ⟨qs, hqs, hrun'⟩ := h'.printed
    refine ⟨ps ++ qs, fun current => writtenLines_append_of_adds (hps current) hqs, ?_⟩
    intro column column' written rest hrest
    rw [List.append_assoc, hrun column column' written _ (h'.ends rest hrest),
      hrun' column' column' _ rest hrest, List.reverse_append, List.append_assoc]

/-- What writes lines adds them after a hard line break. -/
theorem of_writes (h : Writes page i xs lines) : Adds page (⟨i, mode, .hardBreak⟩ :: xs) lines where
  ends rest hrest := .hardBreak (allDocs_append.mpr ⟨h.proper, hrest.proper⟩)
  printed := by
    obtain ⟨ps, hps, hrun⟩ := h.printed
    refine ⟨.newline i :: ps, fun current => by rw [writtenLines, hps], ?_⟩
    intro column column' written rest hrest
    rw [List.cons_append, LineEnd.output_hardBreak, hrun column' _ rest hrest, List.reverse_cons,
      List.append_assoc]
    rfl

theorem concat {parts : List Doc} (h : Adds page (parts.map (⟨i, mode, ·⟩)) lines) :
    Adds page [⟨i, mode, .concat parts⟩] lines where
  ends rest hrest := (h.ends rest hrest).concat
  printed := by
    obtain ⟨ps, hps, hrun⟩ := h.printed
    refine ⟨ps, hps, fun column column' written rest hrest => ?_⟩
    rw [List.singleton_append, output_cons]
    exact hrun column column' written rest hrest

theorem indent {doc : Doc} {level : Level Int} (hlevel : page.level = .ok level)
    (h : Adds page [⟨.level :: i, mode, doc⟩] lines) :
    Adds page [⟨i, mode, .indent doc⟩] lines where
  ends rest hrest := (h.ends rest hrest).indent
  printed := by
    obtain ⟨ps, hps, hrun⟩ := h.printed
    refine ⟨ps, hps, fun column column' written rest hrest => ?_⟩
    rw [List.singleton_append, output_cons]
    simp only [perform, hlevel]
    exact hrun column column' written rest hrest

end Adds

namespace Writes

/-- There is always a line, if a blank one. -/
theorem ne_nil (h : Writes page i xs lines) : lines ≠ [] := by
  obtain ⟨ps, hps, -⟩ := h.printed
  obtain ⟨line, rest, hline⟩ := exists_writtenLines_eq_cons (i, []) ps
  rw [← hps, hline]
  exact List.cons_ne_nil _ _

/-- Nothing is written on a blank line. -/
theorem nil : Writes page i [] [(i, [])] where
  proper := allDocs_nil
  printed := ⟨[], rfl, fun column written _ hrest => hrest.output_eq _ column written⟩

/-- Lines that are added come after those that are written. -/
theorem append (h : Writes page i xs lines) (hadds : Adds page ys more) :
    Writes page i (xs ++ ys) (lines ++ more) where
  proper := allDocs_append.mpr
    ⟨h.proper, by simpa using (hadds.ends [] .nil).proper⟩
  printed := by
    obtain ⟨ps, hps, hrun⟩ := h.printed
    obtain ⟨qs, hqs, hrun'⟩ := hadds.printed
    refine ⟨ps ++ qs, writtenLines_append_of_adds hps hqs, ?_⟩
    intro column written rest hrest
    rw [List.append_assoc, hrun column written _ (hadds.ends rest hrest),
      hrun' column column _ rest hrest, List.reverse_append, List.append_assoc]

theorem concat {parts : List Doc} (h : Writes page i (parts.map (⟨i, mode, ·⟩)) lines) :
    Writes page i [⟨i, mode, .concat parts⟩] lines where
  proper := by simpa [AllDocs, Doc.all, Doc.isProper] using h.proper
  printed := by
    obtain ⟨ps, hps, hrun⟩ := h.printed
    refine ⟨ps, hps, fun column written rest hrest => ?_⟩
    rw [List.singleton_append, output_cons]
    exact hrun column written rest hrest

/-- The parts of a concatenation write its lines. -/
theorem of_concat {parts : List Doc} (h : Writes page i [⟨i, mode, .concat parts⟩] lines) :
    Writes page i (parts.map (⟨i, mode, ·⟩)) lines where
  proper := by simpa [AllDocs, Doc.all, Doc.isProper] using h.proper
  printed := by
    obtain ⟨ps, hps, hrun⟩ := h.printed
    refine ⟨ps, hps, fun column written rest hrest => ?_⟩
    rw [← hrun column written rest hrest, List.singleton_append, output_cons]
    rfl

/-- A group that is told to break writes the lines of its contents. -/
theorem forced {doc : Doc} (h : Writes page i [⟨i, .broken, doc⟩] lines) :
    Writes page i [⟨i, mode, .group doc true⟩] lines where
  proper := by simpa [AllDocs, Doc.all, Doc.isProper] using h.proper
  printed := by
    obtain ⟨ps, hps, hrun⟩ := h.printed
    refine ⟨ps, hps, fun column written rest hrest => ?_⟩
    rw [List.singleton_append, output_forced]
    exact hrun column written rest hrest

/-- The root writes the lines of its contents, without indentation. -/
theorem root {doc : Doc} (h : Writes page [] [⟨[], mode, doc⟩] lines) :
    Writes page [] [⟨i, mode, .root doc⟩] lines where
  proper := by simpa [AllDocs, Doc.all, Doc.isProper] using h.proper
  printed := by
    obtain ⟨ps, hps, hrun⟩ := h.printed
    refine ⟨ps, hps, fun column written rest hrest => ?_⟩
    rw [List.singleton_append, output_cons]
    exact hrun column written rest hrest

end Writes

/-! ## Documents that leave nothing open -/

/-- The piece that a leaf is printed as where its line break is hard. -/
def Leaf.piece : Leaf → Piece
  | .text s => .text s
  | .line _ _ i => .newline i

theorem writtenLines_map_piece (current : Indentation × Text) (all : List Leaf) :
    writtenLines current (all.map Leaf.piece) = linesFrom current all := by
  induction all generalizing current with
  | nil => rfl
  | cons leaf all ih =>
      cases leaf with
      | text s => exact ih _
      | line hard soft i => exact congrArg (current :: ·) (ih _)

/-- **A document that leaves nothing open writes its leaves**, whatever comes after it. -/
theorem output_of_isFixed {w : Int} (hwidth : page.width = .ok w) {levels : Bool}
    (hlevels : levels = true → ∃ level, page.level = .ok level) {doc : Doc}
    (hfixed : doc.all Doc.isFixed = true) (hfeasible : doc.all (Doc.isFeasible levels) = true)
    (i : Indentation) (mode : Mode) (column : Int) (written : List Piece) {rest : List Command}
    (hrest : AllDocs Doc.isProper rest) :
    ∃ column', output page ⟨column, written, ⟨i, mode, doc⟩ :: rest⟩ =
      output page ⟨column', ((leaves i doc).map Leaf.piece).reverse ++ written, rest⟩ := by
  induction doc generalizing i mode column written rest with
  | text s => exact ⟨_, by rw [output_cons]; rfl⟩
  | concat parts ih =>
      simp only [Doc.all, Bool.and_eq_true, Doc.listAll_eq_true] at hfixed hfeasible
      have hparts := hfixed.2
      have hall := hfeasible.2
      clear hfixed hfeasible
      rw [output_cons, leaves]
      show ∃ column', output page ⟨column, written, parts.map _ ++ rest⟩ = _
      induction parts generalizing column written with
      | nil => exact ⟨column, rfl⟩
      | cons part parts ihParts =>
          rw [List.forall_mem_cons] at hparts hall ih
          have hproper : AllDocs Doc.isProper (parts.map (⟨i, mode, ·⟩) ++ rest) := by
            refine allDocs_append.mpr ⟨?_, hrest⟩
            simp only [AllDocs, List.forall_mem_map]
            exact fun d hd => Doc.all_mono (fun _ => Doc.isProper_of_isFeasible) (hall.2 d hd)
          obtain ⟨column', hfirst⟩ := ih.1 hparts.1 hall.1 i mode column written hproper
          obtain ⟨column'', hothers⟩ := ihParts ih.2 column'
            (((leaves i part).map Leaf.piece).reverse ++ written) hparts.2 hall.2
          refine ⟨column'', hfirst.trans (hothers.trans ?_)⟩
          rw [listLeaves, List.map_append, List.reverse_append, List.append_assoc]
  | group contents shouldBreak ih =>
      simp only [Doc.all, Bool.and_eq_true] at hfixed hfeasible
      have hcontents := fun mode column => ih hfixed.2 hfeasible.2 i mode column written hrest
      cases shouldBreak with
      | true =>
          rw [output_forced]
          exact hcontents .broken column
      | false =>
          cases mode with
          | flat =>
              rw [output_inherited]
              exact hcontents .flat column
          | broken =>
              have hproper : AllDocs Doc.isProper (⟨i, .flat, contents⟩ :: rest) :=
                allDocs_cons.mpr
                  ⟨Doc.all_mono (fun _ => Doc.isProper_of_isFeasible) hfeasible.2, hrest⟩
              obtain ⟨answer, hanswer⟩ := fits_ok false _ (w - column) hproper
              rw [output_decided, room_eq hwidth, Fault.ok_bind, hanswer, Fault.ok_bind]
              exact hcontents _ column
  | indent contents ih =>
      simp only [Doc.all, Bool.and_eq_true] at hfixed hfeasible
      obtain ⟨level, hlevel⟩ := hlevels hfeasible.1
      rw [output_cons]
      simp only [perform, hlevel]
      exact ih hfixed.2 hfeasible.2 _ mode column written hrest
  | root contents ih =>
      simp only [Doc.all, Bool.and_eq_true] at hfixed hfeasible
      rw [output_cons]
      exact ih hfixed.2 hfeasible.2 [] mode column written hrest
  | line hard soft =>
      have hhard : hard = true := hfixed
      subst hhard
      refine ⟨i.columns page, ?_⟩
      rw [output_cons]
      cases mode <;> rfl
  | breakParent => exact ⟨column, by rw [output_cons]; rfl⟩
  | align _ _ _ | fill _ _ | ifBreak _ _ _ _ | alien _ => simp [Doc.all, Doc.isFixed] at hfixed

/-- Raising flags changes no leaf. -/
theorem leaves_raise (i : Indentation) (doc : Doc) : leaves i doc.raise = leaves i doc := by
  induction doc generalizing i with
  | concat parts ih | fill parts ih =>
      simp only [Doc.raise, leaves, Doc.listRaise_eq_map, listLeaves_eq_flatMap, List.flatMap_map]
      exact List.flatMap_congr fun d hd => ih d hd i
  | group _ _ ih | indent _ ih | align _ _ ih | root _ ih => exact ih _
  | ifBreak _ _ ihBroken ihFlat => simp only [Doc.raise, leaves, ihBroken, ihFlat]
  | text _ | line _ _ | breakParent | alien _ => rfl

/-- A document that leaves nothing open writes the lines of its leaves. -/
theorem writes_of_isFixed {w : Int} (hwidth : page.width = .ok w) {levels : Bool}
    (hlevels : levels = true → ∃ level, page.level = .ok level) {doc : Doc}
    (hfixed : doc.all Doc.isFixed = true) (hfeasible : doc.all (Doc.isFeasible levels) = true) :
    Writes page i [⟨i, .broken, doc.raise⟩] (linesFrom (i, []) (leaves i doc)) where
  proper := by
    have hproper := Doc.all_mono (fun _ => Doc.isProper_of_isFeasible) hfeasible
    refine allDocs_cons.mpr ⟨(Doc.all_raise (fun d => ?_) doc).mpr hproper, allDocs_nil⟩
    cases d <;> rfl
  printed := by
    refine ⟨(leaves i doc).map Leaf.piece, writtenLines_map_piece _ _, ?_⟩
    intro column written rest hrest
    have hraised : doc.raise.all Doc.isFixed = true := by
      refine (Doc.all_raise (fun d => ?_) doc).mpr hfixed
      cases d <;> rfl
    obtain ⟨column', hrun⟩ := output_of_isFixed hwidth hlevels hraised
      ((Doc.all_raise (Doc.isFeasible_raise levels) doc).mpr hfeasible) i .broken (i.columns page)
      written hrest.proper
    rw [leaves_raise] at hrun
    exact hrun.trans (hrest.output_eq _ _ _)

end HamlFormat.Layout
