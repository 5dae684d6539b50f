import HamlFormat.Proofs.Layout.Alike
import HamlFormat.Proofs.Layout.Completion

/-!
# HamlFormat.Proofs.Layout.Normalize

The shape of a document that its layout does not depend on. A list of documents
inside another one can be spliced into it, a list of one document is that document,
an empty text in a list can be left out, two neighbouring texts of a list can be
written as one, a group around nothing but a group is not needed, and indentation
around a list can be put around each of its parts. Each of these changes can be
made anywhere inside a document (`Doc.Context`) and leaves the layout as it is,
failures included.

Two things are needed for that. An indentation that cannot be made fails even
around an empty list, where there is no part for it to be put around. And texts
are written as one at no cost only where columns add up: counted in double
precision, two texts may end at another column than the text of both.
-/

namespace HamlFormat

/-! ## Contexts -/

/-- A document with a hole in it. -/
inductive Doc.Context where
  | hole
  | concat (before : List Doc) (inside : Context) (after : List Doc)
  | group (inside : Context) (shouldBreak : Bool)
  | indent (inside : Context)
  | align (columns : Int) (inside : Context)
  | fill (before : List Doc) (inside : Context) (after : List Doc)
  | whenBroken (inside : Context) (other : Doc)
  | whenFlat (other : Doc) (inside : Context)
  | root (inside : Context)

/-- The document with its hole filled. -/
def Doc.Context.plug : Doc.Context → Doc → Doc
  | .hole, doc => doc
  | .concat before inside after, doc => .concat (before ++ inside.plug doc :: after)
  | .group inside shouldBreak, doc => .group (inside.plug doc) shouldBreak
  | .indent inside, doc => .indent (inside.plug doc)
  | .align columns inside, doc => .align columns (inside.plug doc)
  | .fill before inside after, doc => .fill (before ++ inside.plug doc :: after)
  | .whenBroken inside other, doc => .ifBreak (inside.plug doc) other
  | .whenFlat other inside, doc => .ifBreak other (inside.plug doc)
  | .root inside, doc => .root (inside.plug doc)

namespace Layout

variable {α : Type} [Columns α] [LawfulColumns α] {page : Page α}

/-- A document in a list can be replaced by one that settles alike. -/
theorem ListSettlesAlike.of_mem (before : List Doc) {d e : Doc} (h : SettlesAlike page d e)
    (after : List Doc) : ListSettlesAlike page (before ++ d :: after) (before ++ e :: after) :=
  .of_forall₂ (List.rel_append (SettlesAlike.forall₂_refl before)
    (.cons h (SettlesAlike.forall₂_refl after)))

/-- **Documents that settle alike do so in every context.** -/
theorem SettlesAlike.plug {d e : Doc} (h : SettlesAlike page d e) (context : Doc.Context) :
    SettlesAlike page (context.plug d) (context.plug e) := by
  induction context with
  | hole => exact h
  | concat before inside after ih => exact .concat (.of_mem before ih after)
  | group inside shouldBreak ih => exact ih.group shouldBreak
  | indent inside ih => exact ih.indent
  | align columns inside ih => exact ih.align columns
  | fill before inside after ih => exact .fill (.of_mem before ih after)
  | whenBroken inside other ih => exact ih.ifBreak (.refl other)
  | whenFlat other inside ih => exact (SettlesAlike.refl other).ifBreak ih
  | root inside ih => exact ih.root

/-! ## Settling lists -/

/-- Settling a list settles its two halves. -/
theorem settleList_append (ds es : List Doc) :
    Doc.settleList (ds ++ es) = do
      let (ds', forces) ← Doc.settleList ds
      let (es', alsoForce) ← Doc.settleList es
      return (ds' ++ es', forces || alsoForce) := by
  induction ds with
  | nil =>
      rw [List.nil_append, Doc.settleList]
      cases Doc.settleList es <;> simp [bind, Except.bind, pure, Except.pure]
  | cons d ds ih =>
      rw [List.cons_append, Doc.settleList, Doc.settleList, ih]
      cases d.settle with
      | error fault => rfl
      | ok first =>
          cases Doc.settleList ds with
          | error fault => rfl
          | ok rest =>
              cases Doc.settleList es with
              | error fault => rfl
              | ok others => simp [bind, Except.bind, pure, Except.pure, Bool.or_assoc]

/-- Settling a list in which every document has something around it that settling
passes through. -/
theorem settleList_map {f : Doc → Doc}
    (hf : ∀ d, (f d).settle = d.settle >>= fun settled => .ok (f settled.1, settled.2))
    (ds : List Doc) :
    Doc.settleList (ds.map f) =
      Doc.settleList ds >>= fun settled => .ok (settled.1.map f, settled.2) := by
  induction ds with
  | nil => rfl
  | cons d ds ih =>
      rw [List.map_cons, Doc.settleList, Doc.settleList, hf, ih]
      cases d.settle with
      | error fault => rfl
      | ok first => cases Doc.settleList ds <;> rfl

/-! ## Changes in lists -/

/-- Commands that are alike are so after the same commands. -/
theorem Alike.append_left {xs ys : List Command} (h : Alike page xs ys) (zs : List Command) :
    Alike page (zs ++ xs) (zs ++ ys) := by
  induction zs with
  | nil => exact h
  | cons command zs ih => exact Interchangeable.refl command.doc command.indentation command.mode ih

/-- Two lists of documents that settle to lists whose commands are alike in front of
everything, or that fail alike. The lists need not be of one length. -/
def SeriesAlike (page : Page α) (ds es : List Doc) : Prop :=
  Fault.Related (fun ds es => ds.2 = es.2 ∧ ∀ i mode {xs ys}, Alike page xs ys →
      Alike page (ds.1.map (⟨i, mode, ·⟩) ++ xs) (es.1.map (⟨i, mode, ·⟩) ++ ys))
    (Doc.settleList ds) (Doc.settleList es)

/-- A part of a list can be replaced by documents that make an alike series. -/
theorem SeriesAlike.concat_append {ds es : List Doc} (h : SeriesAlike page ds es)
    (before after : List Doc) :
    SettlesAlike page (.concat (before ++ ds ++ after)) (.concat (before ++ es ++ after)) := by
  rw [SettlesAlike, Doc.settle, Doc.settle]
  simp only [settleList_append, bind_assoc, pure_bind]
  refine .bind_same _ fun front => h.bind fun settled settled' hsettled =>
    .bind_same _ fun back => ?_
  obtain ⟨hforces, h⟩ := hsettled
  refine .ok ⟨by rw [hforces], fun i mode xs ys hrest => ?_⟩
  refine Alike.concat_left (Alike.symm (Alike.concat_left (Alike.symm ?_)))
  simp only [List.map_append, List.append_assoc]
  exact (h i mode (hrest.append_left _)).append_left _

/-- A list inside a list can be spliced into it. -/
theorem SettlesAlike.splice (before inner after : List Doc) :
    SettlesAlike page (.concat (before ++ [.concat inner] ++ after))
      (.concat (before ++ inner ++ after)) := by
  have hseries : SeriesAlike page [.concat inner] inner := by
    rw [SeriesAlike, Doc.settleList, Doc.settle, Doc.settleList]
    cases Doc.settleList inner with
    | error fault => exact .error fault
    | ok settled =>
        exact .ok ⟨Bool.or_false _, fun i mode _ _ hrest => (hrest.append_left _).concat_left⟩
  exact hseries.concat_append before after

/-- A list of one document is that document. -/
theorem SettlesAlike.single (doc : Doc) : SettlesAlike page (.concat [doc]) doc := by
  rw [SettlesAlike, Doc.settle, Doc.settleList, Doc.settleList]
  cases doc.settle with
  | error fault => exact .error fault
  | ok settled =>
      exact .ok ⟨Bool.or_false _, fun i mode _ _ hrest =>
        (Interchangeable.refl settled.1 i mode hrest).concat_left⟩

omit [LawfulColumns α] in
/-- An empty text changes nothing. -/
theorem Alike.empty_left {xs ys : List Command} (h : Alike page xs ys) (i : Indentation)
    (mode : Mode) : Alike page (⟨i, mode, .text []⟩ :: xs) ys where
  fits_eq strict room hroom := by
    have hnone : room - (((Text.width [] : Nat) : Int) : α) = room := hroom.2
    rw [fits_cons_spend rfl, hnone, ← h.fits_eq strict hroom]
    split
    · rfl
    · next hused => rw [fits, if_neg hused]
  output_eq {column written _} hcolumn htext := by
    have hnone : column + (((Text.width [] : Nat) : Int) : α) = column := hcolumn.1
    rw [Machine.output_cons, perform, Fault.ok_bind, hnone]
    refine h.output_eq hcolumn (Eq.trans ?_ htext)
    rw [List.reverse_cons, assemble_concat_inline _ (by simp)]
    exact List.append_nil _

/-- An empty text in a list can be left out. -/
theorem SettlesAlike.dropEmpty (before after : List Doc) :
    SettlesAlike page (.concat (before ++ [.text []] ++ after))
      (.concat (before ++ [] ++ after)) := by
  have hseries : SeriesAlike page [.text []] [] :=
    .ok ⟨rfl, fun i mode _ _ hrest => hrest.empty_left i mode⟩
  exact hseries.concat_append before after

/-- In whole columns two texts one after the other are as good as the text of
both. -/
theorem Alike.merge_left {page : Page Int} {xs ys : List Command} (h : Alike page xs ys)
    (i : Indentation) (mode : Mode) (s t : Text) :
    Alike page (⟨i, mode, .text s⟩ :: ⟨i, mode, .text t⟩ :: xs)
      (⟨i, mode, .text (s ++ t)⟩ :: ys) where
  fits_eq strict room hroom := by
    rw [fits_text, fits_text, fits_text, Text.width_append, Int.sub_sub, Int.natCast_add]
    exact h.fits_eq strict (isRegular_sub _ _)
  output_eq {column written written'} hcolumn htext := by
    have hcolumns : column + (Text.width s : Int) + (Text.width t : Int) =
        column + (Text.width (s ++ t) : Int) := by
      rw [Text.width_append, Int.natCast_add, Int.add_assoc]
    have hwritten : assemble page (.text t :: .text s :: written).reverse =
        assemble page (.text (s ++ t) :: written').reverse := by
      simp only [List.reverse_cons]
      rw [assemble_concat_inline _ (by simp), assemble_concat_inline _ (by simp),
        assemble_concat_inline _ (by simp), htext]
      exact List.append_assoc _ _ _
    simp only [Machine.output_cons, perform, Fault.ok_bind]
    exact (congrArg (fun c => Machine.output page ⟨c, _, xs⟩) hcolumns).trans
      (h.output_eq (isRegular_add column (Text.width (s ++ t) : Int)) hwritten)

/-- In whole columns two neighbouring texts of a list can be written as one. -/
theorem SettlesAlike.merge {page : Page Int} (before : List Doc) (s t : Text) (after : List Doc) :
    SettlesAlike page (.concat (before ++ [.text s, .text t] ++ after))
      (.concat (before ++ [.text (s ++ t)] ++ after)) := by
  have hseries : SeriesAlike page [.text s, .text t] [.text (s ++ t)] :=
    .ok ⟨rfl, fun i mode _ _ hrest => hrest.merge_left i mode s t⟩
  exact hseries.concat_append before after

/-! ## Groups -/

omit [LawfulColumns α] in
/-- A group around nothing but a group leads to the same output as that group: what
the outer one has found too wide the inner one finds too wide again. -/
theorem output_group_group (column : α) (written : List Piece) (i : Indentation) (mode : Mode)
    (contents : Doc) (shouldBreak : Bool) (rest : List Command) :
    Machine.output page
        ⟨column, written, ⟨i, mode, .group (.group contents shouldBreak) shouldBreak⟩ :: rest⟩ =
      Machine.output page ⟨column, written, ⟨i, mode, .group contents shouldBreak⟩ :: rest⟩ := by
  cases shouldBreak with
  | true => rw [Machine.output_forced, Machine.output_forced, Machine.output_forced]
  | false =>
      cases mode with
      | flat => rw [Machine.output_inherited]
      | broken =>
          rw [Machine.output_decided, Machine.output_decided]
          cases hroom : page.room column with
          | error fault => rfl
          | ok room =>
              have hfits : fits false (⟨i, .flat, .group contents false⟩ :: rest) room =
                  fits false (⟨i, .flat, contents⟩ :: rest) room := fits_group contents
              simp only [Fault.ok_bind, hfits]
              cases hanswer : fits false (⟨i, .flat, contents⟩ :: rest) room with
              | error fault => rfl
              | ok answer =>
                  cases answer with
                  | true => exact Machine.output_inherited column written i contents rest
                  | false =>
                      simp only [Fault.ok_bind, Bool.false_eq_true, if_false]
                      rw [Machine.output_decided, hroom, Fault.ok_bind, hanswer]
                      rfl

/-- A group around nothing but a group is not needed. -/
theorem Interchangeable.group_group (contents : Doc) (shouldBreak : Bool) :
    Interchangeable page (.group (.group contents shouldBreak) shouldBreak)
      (.group contents shouldBreak) := by
  intro i mode xs ys hrest
  have hgroup := Interchangeable.refl (.group contents shouldBreak) i mode hrest
  refine ⟨fun strict room hroom => ?_, fun hcolumn htext => ?_⟩
  · rw [← hgroup.fits_eq strict hroom]
    cases shouldBreak with
    | false => exact fits_group _
    | true =>
        cases strict with
        | true => rfl
        | false => rw [fits_forced (j := i), fits_forced (j := i), fits_forced (j := i)]
  · rw [output_group_group]
    exact hgroup.output_eq hcolumn htext

theorem SettlesAlike.group_group (doc : Doc) (shouldBreak : Bool) :
    SettlesAlike page (.group (.group doc shouldBreak) false) (.group doc shouldBreak) := by
  rw [SettlesAlike, Doc.settle, Doc.settle]
  cases doc.settle with
  | error fault => exact .error fault
  | ok settled =>
      simp only [Fault.ok_bind, pure_bind, Bool.or_false]
      exact .ok ⟨rfl, .group_group settled.1 _⟩

/-! ## Indentation -/

omit [LawfulColumns α] in
/-- What only changes the indentation is read as its contents are, also around every
part of a list. -/
theorem scanList_map {f : Doc → Doc}
    (hscan : ∀ strict mode d (room : α), scan strict mode (f d) room = scan strict mode d room)
    (strict : Bool) (mode : Mode) (parts : List Doc) (room : α) :
    scanList strict mode (parts.map f) room = scanList strict mode parts room := by
  induction parts generalizing room with
  | nil => rfl
  | cons part parts ih =>
      rw [List.map_cons, scanList, scanList, hscan]
      simp only [ih]

/-- What stands around a list and only changes the indentation can stand around each
part of the list, if the indentation can be made or there is a part for which it
fails too. -/
theorem Interchangeable.distribute {f : Doc → Doc} {parts : List Doc}
    (hscan : ∀ strict mode d (room : α), scan strict mode (f d) room = scan strict mode d room)
    (hperform : ∀ i, (∃ j, ∀ mode d column written rest,
        perform page column written ⟨i, mode, f d⟩ rest =
          .ok ⟨column, written, ⟨j, mode, d⟩ :: rest⟩) ∨
      (parts ≠ [] ∧ ∃ fault, ∀ mode d column written rest,
        perform page column written ⟨i, mode, f d⟩ rest = .error fault)) :
    Interchangeable page (f (.concat parts)) (.concat (parts.map f)) := by
  intro i mode xs ys hrest
  refine Alike.symm (Alike.concat_left (Alike.symm ?_))
  rcases hperform i with ⟨j, hj⟩ | ⟨hparts, fault, hfault⟩
  · have hstep : ∀ d {zs ws}, Alike page (⟨j, mode, d⟩ :: zs) ws →
        Alike page (⟨i, mode, f d⟩ :: zs) ws := fun d _ _ h =>
      h.of_perform [⟨j, mode, d⟩] (fun strict room => fits_cons_congr (hscan strict mode d room))
        (hj mode d · · _)
    refine hstep (.concat parts) (Alike.concat_left ?_)
    clear hperform
    induction parts with
    | nil => exact hrest
    | cons part parts ih => exact (hstep part (Interchangeable.refl part j mode ih).symm).symm
  · obtain ⟨part, others, rfl⟩ := List.exists_cons_of_ne_nil hparts
    refine .of_error fault (fun strict room hroom => ?_) (hfault mode _ · · xs)
      (hfault mode part · · _)
    have hread : scan strict mode (f (.concat (part :: others))) room =
        scan strict mode (.concat ((part :: others).map f)) room := by
      rw [hscan, scan, scan, scanList_map hscan]
    rw [fits_cons_congr (j := i) hread, fits_concat]
    exact (hrest.append_left _).fits_eq strict hroom

omit [LawfulColumns α] in
/-- What settling passes through settles alike around a list and around each of its
parts, if it can stand around each part of what the list settles to. -/
theorem SettlesAlike.distribute {f : Doc → Doc} {parts : List Doc}
    (hsettle : ∀ d, (f d).settle = d.settle >>= fun settled => .ok (f settled.1, settled.2))
    (h : ∀ parts' : List Doc, (parts ≠ [] → parts' ≠ []) →
      Interchangeable page (f (.concat parts')) (.concat (parts'.map f))) :
    SettlesAlike page (f (.concat parts)) (.concat (parts.map f)) := by
  rw [SettlesAlike, hsettle, Doc.settle, Doc.settle, settleList_map hsettle]
  cases hparts : Doc.settleList parts with
  | error fault => exact .error fault
  | ok settled =>
      refine .ok ⟨rfl, h settled.1 fun hnil hnil' => ?_⟩
      obtain ⟨part, others, rfl⟩ := List.exists_cons_of_ne_nil hnil
      rw [Doc.settleList] at hparts
      obtain ⟨first, -, hparts⟩ := Fault.bind_eq_ok.mp hparts
      obtain ⟨rest, -, hparts⟩ := Fault.bind_eq_ok.mp hparts
      cases hparts
      cases hnil'

/-- A level of indentation around a list can be put around each part. -/
theorem SettlesAlike.indent_concat {parts : List Doc}
    (h : parts ≠ [] ∨ page.level.isOk = true) :
    SettlesAlike page (.indent (.concat parts)) (.concat (parts.map .indent)) := by
  refine .distribute (fun _ => rfl) fun parts' hparts' =>
    .distribute (fun _ _ _ _ => rfl) fun i => ?_
  cases hlevel : page.level with
  | ok level => exact .inl ⟨.level :: i, fun _ _ _ _ _ => by simp only [perform, hlevel]⟩
  | error fault =>
      refine .inr ⟨hparts' (h.resolve_right ?_), fault, fun _ _ _ _ _ => ?_⟩
      · rw [hlevel]
        exact Bool.false_ne_true
      · simp only [perform, hlevel]

/-- Columns around a list can be put around each part. -/
theorem SettlesAlike.align_concat {columns : Int} {parts : List Doc}
    (h : parts ≠ [] ∨ columns < memoryLimit) :
    SettlesAlike page (.align columns (.concat parts)) (.concat (parts.map (.align columns))) := by
  refine .distribute (fun _ => rfl) fun parts' hparts' =>
    .distribute (fun _ _ _ _ => rfl) fun i => ?_
  cases hj : i.align columns with
  | ok j => exact .inl ⟨j, fun _ _ _ _ _ => by rw [perform, hj]; rfl⟩
  | error fault =>
      refine .inr ⟨hparts' (h.resolve_right fun hcolumns => ?_), fault, fun _ _ _ _ _ => ?_⟩
      · obtain ⟨j, hj'⟩ := i.align_ok hcolumns
        rw [hj] at hj'
        cases hj'
      · rw [perform, hj]
        rfl

/-- The start of the line around a list can be put around each part. -/
theorem SettlesAlike.root_concat (parts : List Doc) :
    SettlesAlike page (.root (.concat parts)) (.concat (parts.map .root)) :=
  .distribute (fun _ => rfl) fun _ _ =>
    .distribute (fun _ _ _ _ => rfl) fun _ => .inl ⟨[], fun _ _ _ _ _ => rfl⟩

end Layout

/-! ## Normalisation -/

/-- Whether settings can make a level of indentation. -/
def Settings.canIndent (settings : Settings) : Bool :=
  (settings.page Layout.Measure.ofJson?).level.isOk

theorem Settings.isOk_level_page {settings : Settings} (h : settings.isFractional = false) :
    (settings.page Json.int?).level.isOk = settings.canIndent := by
  have hmarks := marks_page_eq h
  rw [canIndent]
  cases hwhole : (settings.page Json.int?).level <;>
    cases hmeasure : (settings.page Layout.Measure.ofJson?).level <;>
    rw [hwhole, hmeasure] at hmarks <;> first | rfl | cases hmarks

/-- One change of the shape of a document that a layout under settings does not
depend on. Texts are written as one where columns are whole. Indentation is taken
off an empty list if it can be made. -/
inductive Doc.Normalizes (settings : Settings) : Doc → Doc → Prop where
  | splice (before inner after : List Doc) : Normalizes settings
      (.concat (before ++ [.concat inner] ++ after)) (.concat (before ++ inner ++ after))
  | single (doc : Doc) : Normalizes settings (.concat [doc]) doc
  | dropEmpty (before after : List Doc) : Normalizes settings
      (.concat (before ++ [.text []] ++ after)) (.concat (before ++ [] ++ after))
  | merge (before : List Doc) (s t : Text) (after : List Doc)
      (h : settings.isFractional = false) : Normalizes settings
      (.concat (before ++ [.text s, .text t] ++ after))
      (.concat (before ++ [.text (s ++ t)] ++ after))
  | group (doc : Doc) (shouldBreak : Bool) : Normalizes settings
      (.group (.group doc shouldBreak) false) (.group doc shouldBreak)
  | indent (parts : List Doc) (h : parts ≠ [] ∨ settings.canIndent = true) :
      Normalizes settings (.indent (.concat parts)) (.concat (parts.map .indent))
  | align (columns : Int) (parts : List Doc) (h : parts ≠ [] ∨ columns < memoryLimit) :
      Normalizes settings (.align columns (.concat parts)) (.concat (parts.map (.align columns)))
  | root (parts : List Doc) :
      Normalizes settings (.root (.concat parts)) (.concat (parts.map .root))

namespace Layout

/-- One change of the shape gives a document that settles alike, on every page on
which the texts and levels it counts on can be had. -/
theorem SettlesAlike.of_normalizes {α : Type} [Columns α] [LawfulColumns α] {page : Page α}
    {settings : Settings} (hlevel : page.level.isOk = settings.canIndent)
    (hmerge : settings.isFractional = false → ∀ before s t after,
      SettlesAlike page (.concat (before ++ [.text s, .text t] ++ after))
        (.concat (before ++ [.text (s ++ t)] ++ after)))
    {d e : Doc} (h : d.Normalizes settings e) : SettlesAlike page d e := by
  cases h with
  | splice before inner after => exact .splice before inner after
  | single => exact .single e
  | dropEmpty before after => exact .dropEmpty before after
  | merge before s t after hwhole => exact hmerge hwhole before s t after
  | group doc shouldBreak => exact .group_group doc shouldBreak
  | indent parts h => exact .indent_concat (hlevel ▸ h)
  | align columns parts h => exact .align_concat h
  | root parts => exact .root_concat parts

end Layout

namespace Settings

open Layout

/-- **The layout does not depend on how a document is put together**: changes of its
shape, made anywhere in it, leave the text or the failure as it is. -/
theorem layout_plug_eq_of_normalizes {settings : Settings} {d e : Doc}
    (h : d.Normalizes settings e) (context : Doc.Context) :
    settings.layout (context.plug d) = settings.layout (context.plug e) := by
  rw [layout, layout]
  cases hwhole : settings.isFractional with
  | true =>
      have halike : SettlesAlike (settings.page Measure.ofJson?) d e :=
        .of_normalizes rfl (fun hwhole' => by simp [hwhole] at hwhole') h
      exact (halike.plug context).render_eq
  | false =>
      have halike : SettlesAlike (settings.page Json.int?) d e :=
        .of_normalizes (isOk_level_page hwhole) (fun _ => .merge) h
      exact (halike.plug context).render_eq

theorem layout_plug_eq_in_fill :
    let settings : Settings := { printWidth := .int 5 }
    let context : Doc.Context := .group (.fill [.text "ab", .blankBreak]
      (.whenFlat (.text "x") (.indent .hole)) [.blankBreak, .text "ef"]) false
    let texts : Doc := .concat [.text "c", .text "d", .softBreak]
    let text : Doc := .concat [.text "cd", .softBreak]
    texts.Normalizes settings text ∧
      settings.layout (context.plug text) = .ok "ab cd\nef" ∧
      settings.layout (context.plug texts) = settings.layout (context.plug text) := by
  intro settings context texts text
  have hmerge : texts.Normalizes settings text := .merge [] "c" "d" [.softBreak] rfl
  exact ⟨hmerge, by decide +kernel, layout_plug_eq_of_normalizes hmerge context⟩

/-- Columns that cannot be counted fail around an empty list, where there is no part
to put them around. And in double precision two columns are not one and one: here a
level has 0.006 of them, and 0.006 + 1 + 1 is more than 2.006. -/
theorem layout_ne_of_wide_align :
    let settings : Settings := {}
    let fraction (digits : Nat) : Json := .float (.ofDecimal false digits (-3))
    let narrow : Settings :=
      { printWidth := fraction 2006, tabWidth := fraction 6, useTabs := .bool true }
    let context : Doc.Context := .indent (.concat [.hardBreak] .hole [.group .softBreak false])
    settings.layout (.align countLimit (.concat [])) = .error .overflow ∧
      settings.layout (.concat []) = .ok "" ∧
      narrow.layout (context.plug (.concat [.text "a", .text "b"])) = .ok "\n\tab\n\t" ∧
      narrow.layout (context.plug (.concat [.text "ab"])) = .ok "\n\tab" := by
  decide +kernel

end Settings
end HamlFormat
