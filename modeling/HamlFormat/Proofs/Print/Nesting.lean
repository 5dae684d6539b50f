import HamlFormat.Proofs.Layout.Fixed
import HamlFormat.Proofs.Print.Outline

/-!
# HamlFormat.Proofs.Print.Nesting

Documents whose lines are known with their levels (`Doc.Renders`). They leave the
layout nothing to decide, so that documents put together have their lines put
together: under a header a block is one level deeper (`Renders.block`), and the
clauses of a `case` alternate between its level and the next (`Renders.clauses`).
-/

namespace HamlFormat

open Layout

/-! ## Documents and their lines -/

/-- The indentation of so many levels. -/
def levels (level : Nat) : Indentation :=
  List.replicate level .level

/-- A line with its level as a line with its indentation. -/
def placed (line : Nat × Text) : Indentation × Text :=
  (levels line.1, line.2)

/-- A document that leaves nothing open and whose lines at a level are given ones. -/
structure Doc.Renders (doc : Doc) (level : Nat) (lines : List (Nat × Text)) : Prop where
  fixed : doc.all Doc.isFixed = true
  /-- It is indented only where one of its lines is deeper. -/
  flush : doc.all Doc.isFlush = true ↔ ∀ line ∈ lines, line.1 = level
  printed : linesFrom (levels level, []) (leaves (levels level) doc) = lines.map placed

/-- The first line of leaves has the indentation of the current line. -/
theorem exists_linesFrom_eq_cons (current : Indentation × Text) (all : List Leaf) :
    ∃ text rest, linesFrom current all = (current.1, text) :: rest := by
  induction all generalizing current with
  | nil => exact ⟨_, _, rfl⟩
  | cons leaf all ih =>
      cases leaf with
      | text s => exact ih _
      | line hard soft i => exact ⟨_, _, rfl⟩

namespace Doc.Renders

variable {doc : Doc} {level : Nat} {lines : List (Nat × Text)}

/-- The first line stands at the level of the document. -/
theorem exists_line (h : doc.Renders level lines) : ∃ line ∈ lines, line.1 = level := by
  obtain ⟨text, rest, hfirst⟩ :=
    exists_linesFrom_eq_cons (levels level, []) (leaves (levels level) doc)
  rw [h.printed, List.map_eq_cons_iff] at hfirst
  obtain ⟨line, others, rfl, hline, -⟩ := hfirst
  exact ⟨line, List.mem_cons_self, List.replicate_left_inj.mp (congrArg Prod.fst hline)⟩

/-- A group without a choice of layout is its contents. -/
theorem group (h : doc.Renders level lines) (shouldBreak : Bool) :
    (Doc.group doc shouldBreak).Renders level lines :=
  ⟨h.fixed, h.flush, h.printed⟩

/-- A text is one line. -/
theorem text (level : Nat) (text : Text) : (Doc.text text).Renders level [(level, text)] where
  fixed := rfl
  flush := by simp [Doc.all, Doc.isFlush]
  printed := rfl

/-- A document alone in a list is that document. -/
theorem singleton (h : doc.Renders level lines) : (Doc.concat [doc]).Renders level lines where
  fixed := by simpa [Doc.all, Doc.isFixed] using h.fixed
  flush := by simpa [Doc.all, Doc.isFlush] using h.flush
  printed := by simpa [leaves] using h.printed

/-- Texts make up one line. -/
theorem texts (level : Nat) (texts : List Text) :
    (Doc.concat (texts.map .text)).Renders level [(level, texts.flatten)] where
  fixed := by simp [Doc.all, Doc.isFixed]
  flush := by simp [Doc.all, Doc.isFlush]
  printed := by
    have hleaves : leaves (levels level) (.concat (texts.map .text)) = texts.map .text := by
      rw [leaves, listLeaves_eq_flatMap, List.flatMap_map, List.map_eq_flatMap]
      rfl
    rw [hleaves, linesFrom_texts]
    rfl

end Doc.Renders

/-! ## Blocks of lines -/

/-- Documents at levels of their own, and the lines that they have together. -/
inductive Attached : List (Nat × Doc) → List (Nat × Text) → Prop where
  | nil : Attached [] []
  | cons {level doc first items rest} : doc.Renders level first → Attached items rest →
    Attached ((level, doc) :: items) (first ++ rest)

/-- The leaves of documents that start on lines of their own. -/
def blockLeaves (items : List (Nat × Doc)) : List Leaf :=
  items.flatMap fun item => .line true false (levels item.1) :: leaves (levels item.1) item.2

namespace Attached

variable {items : List (Nat × Doc)} {lines : List (Nat × Text)} {level : Nat}

/-- A block of documents adds their lines to those before it. -/
theorem linesFrom_append (h : Attached items lines) (current : Indentation × Text)
    (all : List Leaf) :
    linesFrom current (all ++ blockLeaves items) = linesFrom current all ++ lines.map placed := by
  induction h generalizing current all with
  | nil => simp [blockLeaves]
  | cons hdoc _ ih =>
      rw [blockLeaves, List.flatMap_cons, List.cons_append, linesFrom_append_line, ← blockLeaves,
        ih, hdoc.printed, List.map_append]

theorem fixed (h : Attached items lines) : ∀ item ∈ items, item.2.all Doc.isFixed = true := by
  induction h with
  | nil => exact fun _ hitem => nomatch hitem
  | cons hdoc _ ih => exact List.forall_mem_cons.mpr ⟨hdoc.fixed, ih⟩

/-- At one level, documents are flush if all their lines are at it. -/
theorem flush (h : Attached items lines) (hlevel : ∀ item ∈ items, item.1 = level) :
    (∀ item ∈ items, item.2.all Doc.isFlush = true) ↔ ∀ line ∈ lines, line.1 = level := by
  induction h with
  | nil => simp
  | @cons own _ _ _ _ hdoc _ ih =>
      rw [List.forall_mem_cons] at hlevel ⊢
      have hown : own = level := hlevel.1
      rw [List.forall_mem_append, ih hlevel.2, hdoc.flush, hown]

end Attached

/-- The leaves of documents on lines of their own: the first where it is, the others
after line breaks. -/
theorem leaves_join (i : Indentation) (doc : Doc) (docs : List Doc) :
    leaves i (Doc.join .hardBreak (doc :: docs)) =
      leaves i doc ++ docs.flatMap fun d => .line true false i :: leaves i d := by
  rw [Doc.join, leaves, listLeaves_eq_flatMap]
  induction docs generalizing doc with
  | nil => simp [Doc.separate]
  | cons next docs ih =>
      rw [Doc.separate, List.flatMap_cons, List.flatMap_cons, ih]
      · rfl
      · simp

/-- Documents at one level. -/
def atLevel (level : Nat) (docs : List Doc) : List (Nat × Doc) :=
  docs.map fun doc => (level, doc)

/-- The documents of the children of a `case`, from the one with an index on: every
other one a level deeper. -/
def clauseItems (level index : Nat) : List Doc → List (Nat × Doc)
  | [] => []
  | doc :: docs => (level + index % 2, doc) :: clauseItems level (index + 1) docs

/-- Texts on lines of their own. -/
theorem Attached.texts (level : Nat) (texts : List Text) :
    Attached (atLevel level (texts.map .text)) (texts.map fun text => (level, text)) := by
  induction texts with
  | nil => exact .nil
  | cons text texts ih => exact .cons (.text level text) ih

/-- The leaves of lines one level deeper. -/
theorem leaves_indented (level : Nat) {docs : List Doc} (hdocs : docs ≠ []) :
    leaves (levels level) (Doc.indented docs) = blockLeaves (atLevel (level + 1) docs) := by
  cases docs with
  | nil => exact absurd rfl hdocs
  | cons doc docs =>
      have hjoin := leaves_join (levels (level + 1)) doc docs
      rw [blockLeaves, atLevel, List.flatMap_map, List.flatMap_cons, List.cons_append, ← hjoin]
      simp only [Doc.indented, leaves, listLeaves, List.append_nil]
      rfl

namespace Doc.Renders

/-- Documents on lines of their own have their lines together. -/
theorem join {docs : List Doc} {level : Nat} {lines : List (Nat × Text)}
    (h : Attached (atLevel level docs) lines) (hne : docs ≠ []) :
    (Doc.join .hardBreak docs).Renders level lines where
  fixed := by
    have hfixed : ∀ part ∈ Doc.separate .hardBreak docs, part.all Doc.isFixed = true :=
      (Doc.forall_mem_separate (P := fun d => d.all Doc.isFixed = true) rfl docs).mpr
        fun doc hdoc => h.fixed (level, doc) (List.mem_map.mpr ⟨doc, hdoc, rfl⟩)
    simpa [Doc.join, Doc.all, Doc.isFixed] using hfixed
  flush := by
    have hflush : (∀ part ∈ Doc.separate .hardBreak docs, part.all Doc.isFlush = true) ↔
        ∀ doc ∈ docs, doc.all Doc.isFlush = true :=
      Doc.forall_mem_separate (P := fun d => d.all Doc.isFlush = true) rfl docs
    rw [← h.flush fun item hitem => by
      obtain ⟨doc, -, rfl⟩ := List.mem_map.mp hitem
      rfl]
    simpa [Doc.join, Doc.all, Doc.isFlush, atLevel] using hflush
  printed := by
    cases docs with
    | nil => exact absurd rfl hne
    | cons doc docs =>
        cases h with
        | cons hdoc hrest =>
            have hblock : (docs.flatMap fun d => .line true false (levels level) ::
                leaves (levels level) d) = blockLeaves (atLevel level docs) := by
              rw [blockLeaves, atLevel, List.flatMap_map]
            rw [leaves_join, hblock, atLevel, hrest.linesFrom_append, hdoc.printed,
              List.map_append]

variable {parts children : List Doc} {level : Nat} {header : Text} {lines : List (Nat × Text)}

/-- **A block under a header is one level deeper.** -/
theorem block (hheader : (Doc.concat parts).Renders level [(level, header)])
    (hchildren : Attached (atLevel (level + 1) children) lines) (hne : children ≠ []) :
    (Doc.concat (parts ++ [.indented children])).Renders level ((level, header) :: lines) where
  fixed := by
    have hparts := hheader.fixed
    have hblock : (Doc.indented children).all Doc.isFixed = true := by
      simpa [Doc.indented, Doc.all, Doc.isFixed, Doc.hardBreak] using (join hchildren hne).fixed
    simp only [Doc.all, Bool.and_eq_true, Doc.listAll_eq_true] at hparts ⊢
    simpa [or_imp, forall_and, Doc.isFixed] using ⟨hparts.2, hblock⟩
  flush := by
    -- the block is indented, and its first line is deeper
    have hindented : (Doc.concat (parts ++ [.indented children])).all Doc.isFlush ≠ true := by
      simp [Doc.indented, Doc.all, Doc.isFlush]
    obtain ⟨line, hline, hdeeper⟩ : ∃ line ∈ lines, line.1 = level + 1 := by
      cases children with
      | nil => exact absurd rfl hne
      | cons child children =>
          cases hchildren with
          | cons hdoc _ =>
              obtain ⟨line, hline, hlevel⟩ := hdoc.exists_line
              exact ⟨line, List.mem_append_left _ hline, hlevel⟩
    refine iff_of_false hindented fun hall => ?_
    have hsame := hall line (List.mem_cons_of_mem _ hline)
    omega
  printed := by
    have hleaves : leaves (levels level) (.concat (parts ++ [.indented children])) =
        leaves (levels level) (.concat parts) ++ blockLeaves (atLevel (level + 1) children) := by
      rw [← leaves_indented level hne]
      simp [leaves]
    rw [hleaves, hchildren.linesFrom_append, hheader.printed]
    rfl

theorem nested (hheader : (Doc.concat parts).Renders level [(level, header)])
    (hchildren : Attached (atLevel (level + 1) children) lines) :
    (Doc.nested parts children).Renders level ((level, header) :: lines) := by
  cases children with
  | nil =>
      cases hchildren
      rw [Doc.nested]
      exact (List.append_nil parts ▸ hheader).group false
  | cons child children => exact (hheader.block hchildren (List.cons_ne_nil _ _)).group false

end Doc.Renders

/-! ## Clauses of a `case` -/

section

variable {level index : Nat} {docs : List Doc} {lines : List (Nat × Text)}

/-- Whether the child with an index goes one level deeper. -/
def isDeeper (index : Nat) : Bool :=
  index % 2 == 1

theorem isDeeper_succ (index : Nat) : isDeeper (index + 1) = !isDeeper index := by
  rw [isDeeper, isDeeper]
  obtain heven | hodd := Nat.mod_two_eq_zero_or_one index
  · rw [heven, Nat.add_mod, heven]; rfl
  · rw [hodd, Nat.add_mod, hodd]; rfl

theorem leaves_caseLines (level index : Nat) (docs : List Doc) :
    (caseLines (isDeeper index) docs).flatMap (leaves (levels level)) =
      blockLeaves (clauseItems level index docs) := by
  induction docs generalizing index with
  | nil => rfl
  | cons doc docs ih =>
      have hrest := ih (index + 1)
      rw [isDeeper_succ] at hrest
      rw [caseLines, List.flatMap_cons, hrest, clauseItems, blockLeaves, blockLeaves,
        List.flatMap_cons]
      congr 1
      obtain heven | hodd := Nat.mod_two_eq_zero_or_one index
      · simp [isDeeper, heven, leaves, listLeaves, Doc.hardBreak]
      · simp [isDeeper, hodd, leaves, listLeaves, Doc.hardBreak, levels, List.replicate_succ]

theorem all_isFixed_caseLines (h : Attached (clauseItems level index docs) lines) :
    ∀ part ∈ caseLines (isDeeper index) docs, part.all Doc.isFixed = true := by
  induction docs generalizing index lines with
  | nil => exact fun _ hpart => nomatch hpart
  | cons doc docs ih =>
      cases h with
      | cons hdoc hrest =>
          have hothers := ih hrest
          rw [isDeeper_succ] at hothers
          rw [caseLines, List.forall_mem_cons]
          refine ⟨?_, hothers⟩
          have hfixed := hdoc.fixed
          split <;> simp [Doc.all, Doc.isFixed, Doc.hardBreak, hfixed]

/-- The clauses are flush if all their lines are at the level of the `case`. -/
theorem flush_caseLines (h : Attached (clauseItems level index docs) lines) :
    (∀ part ∈ caseLines (isDeeper index) docs, part.all Doc.isFlush = true) ↔
      ∀ line ∈ lines, line.1 = level := by
  induction docs generalizing index lines with
  | nil =>
      cases h
      simp [caseLines]
  | cons doc docs ih =>
      cases h with
      | cons hdoc hrest =>
          have hothers := ih hrest
          rw [isDeeper_succ] at hothers
          rw [caseLines, List.forall_mem_cons, List.forall_mem_append, hothers]
          refine and_congr_left' ?_
          have hflush := hdoc.flush
          obtain ⟨line, hline, hlevel⟩ := hdoc.exists_line
          obtain heven | hodd := Nat.mod_two_eq_zero_or_one index
          · rw [heven, Nat.add_zero] at hflush
            rw [← hflush]
            simp [isDeeper, heven, Doc.all, Doc.isFlush, Doc.hardBreak]
          · refine iff_of_false (by simp [isDeeper, hodd, Doc.all, Doc.isFlush]) fun hall => ?_
            have hsame := hall line hline
            omega

/-- **The clauses of a `case` alternate between its level and the next.** -/
theorem Doc.Renders.clauses {header : Text}
    (h : Attached (clauseItems level 0 docs) lines) :
    (Doc.concat (.text header :: caseLines false docs)).Renders level
      ((level, header) :: lines) where
  fixed := by
    have hfixed : ∀ part ∈ caseLines false docs, part.all Doc.isFixed = true :=
      all_isFixed_caseLines h
    simpa [Doc.all, Doc.isFixed] using hfixed
  flush := by
    have hflush : (∀ part ∈ caseLines false docs, part.all Doc.isFlush = true) ↔
        ∀ line ∈ lines, line.1 = level := flush_caseLines h
    simpa [Doc.all, Doc.isFlush] using hflush
  printed := by
    have hleaves : (caseLines false docs).flatMap (leaves (levels level)) =
        blockLeaves (clauseItems level 0 docs) := leaves_caseLines level 0 docs
    rw [leaves, listLeaves_eq_flatMap, List.flatMap_cons, hleaves, h.linesFrom_append]
    rfl

end

end HamlFormat
