import HamlFormat.Proofs.Fault
import HamlFormat.Proofs.Layout.Fits

/-!
# HamlFormat.Proofs.Layout.Loop

Reading ahead as a loop. The loop has a stack of its own, on which the parts of a document
take its place, and reads the commands of its caller from the top of theirs, without
removing them: an index says how many are left. It looks at the room before every turn and
ends when nothing is left, when the room is used up, or at a line break that would print.

One turn does not change whether what is left fits (`fits_read`), and it leaves less to
read, so the loop ends and answers as `fits` does (`readLoop_eq_fits`, `readLoop_start`).
-/

namespace HamlFormat.Layout

variable {α : Type} [Columns α]

/-- What one turn comes to. -/
inductive Turn (α : Type) where
  /-- The question is answered. -/
  | answer (fits : Bool)
  /-- There is this on the stack, and so much room. -/
  | next (commands : List Command) (room : α)

/-- Read a document that was on top of the stack, with commands under it. -/
def read (strict : Bool) (i : Indentation) (mode : Mode) (commands : List Command) (room : α) :
    Doc → Except Fault (Turn α)
  | .text s => .ok (.next commands (room - ((Text.width s : Int) : α)))
  | .concat parts | .fill parts => .ok (.next (parts.map (⟨i, mode, ·⟩) ++ commands) room)
  | .indent contents | .align _ contents | .root contents =>
    .ok (.next (⟨i, mode, contents⟩ :: commands) room)
  | .group contents shouldBreak =>
    if strict && shouldBreak then .ok (.answer false)
    else .ok (.next (⟨i, if shouldBreak then .broken else mode, contents⟩ :: commands) room)
  | .ifBreak whenBroken whenFlat =>
    .ok (.next (⟨i, mode, if mode = .broken then whenBroken else whenFlat⟩ :: commands) room)
  | .line hard soft =>
    if mode = .broken || hard then .ok (.answer true)
    else if soft then .ok (.next commands room)
    else .ok (.next commands (room - ((1 : Int) : α)))
  | .breakParent => .ok (.next commands room)
  | .alien value => .error (.unexpectedDoc value)

/-! ## The end of the loop -/

/-- How much there is to read. -/
noncomputable def weight : List Command → Nat
  | [] => 0
  | command :: commands => sizeOf command.doc + weight commands

theorem weight_append (front back : List Command) :
    weight (front ++ back) = weight front + weight back := by
  induction front with
  | nil => simp [weight]
  | cons command front ih => simp only [List.cons_append, weight, ih, Nat.add_assoc]

theorem weight_map (i : Indentation) (mode : Mode) (parts : List Doc) :
    weight (parts.map (⟨i, mode, ·⟩)) < sizeOf parts := by
  induction parts with
  | nil => simp [weight]
  | cons part parts ih =>
      simp only [List.map_cons, weight, List.cons.sizeOf_spec]
      omega

/-- A turn leaves less to read. -/
theorem weight_lt_of_read {strict : Bool} {i : Indentation} {mode : Mode} {doc : Doc}
    {commands left : List Command} {room more : α}
    (h : read strict i mode commands room doc = .ok (.next left more)) :
    weight left < sizeOf doc + weight commands := by
  cases doc with
  | concat parts | fill parts =>
      cases h
      have hparts := weight_map i mode parts
      simp only [weight_append, Doc.concat.sizeOf_spec, Doc.fill.sizeOf_spec]
      omega
  | indent contents | align columns contents | root contents =>
      cases h
      simp only [weight, Doc.indent.sizeOf_spec, Doc.align.sizeOf_spec, Doc.root.sizeOf_spec]
      omega
  | group contents shouldBreak =>
      simp only [read] at h
      split at h <;> cases h
      simp only [weight, Doc.group.sizeOf_spec]
      omega
  | ifBreak whenBroken whenFlat =>
      cases h
      simp only [weight, Doc.ifBreak.sizeOf_spec]
      split <;> omega
  | line hard soft =>
      simp only [read] at h
      simp only [Doc.line.sizeOf_spec]
      split at h
      · cases h
      · split at h <;> cases h <;> omega
  | text s =>
      cases h
      simp only [Doc.text.sizeOf_spec]
      omega
  | breakParent =>
      cases h
      simp only [Doc.breakParent.sizeOf_spec]
      omega
  | alien value => cases h

theorem weight_take_succ {rest : List Command} {index : Nat} {command : Command}
    (h : rest[index]? = some command) :
    weight (rest.take (index + 1)) = weight (rest.take index) + sizeOf command.doc := by
  rw [List.take_add_one, h, weight_append]
  simp [weight]

/-! ## The loop -/

/-- Read ahead: first what is on the stack, then the first `index` commands of `rest` from the
last one on. -/
def readLoop (strict : Bool) (rest commands : List Command) (index : Nat) (room : α) :
    Except Fault Bool :=
  if ((0 : Int) : α) ≤ room then
    match commands, index with
    | [], 0 => .ok true
    | [], index + 1 =>
      match _hcommand : rest[index]? with
      | some command => readLoop strict rest [command] index room
      | none => .error .outOfRange
    | ⟨i, mode, doc⟩ :: commands, index =>
      match _hturn : read strict i mode commands room doc with
      | .error fault => .error fault
      | .ok (.answer fits) => .ok fits
      | .ok (.next commands room) => readLoop strict rest commands index room
  else .ok false
termination_by weight commands + weight (rest.take index) + index
decreasing_by
  · rw [weight_take_succ _hcommand]
    simp only [weight]
    omega
  · have hless := weight_lt_of_read _hturn
    simp only [weight]
    omega

/-! ## What the loop answers -/

/-- Whether what a turn leaves fits, with more commands after it. -/
def Turn.fits (strict : Bool) (rest : List Command) : Turn α → Except Fault Bool
  | .answer fits => .ok fits
  | .next commands room => Layout.fits strict (commands ++ rest) room

/-- **A turn does not change whether what is left fits.** -/
theorem fits_read (strict : Bool) (i : Indentation) (mode : Mode) (doc : Doc)
    (commands rest : List Command) {room : α} (hroom : ((0 : Int) : α) ≤ room) :
    fits strict (⟨i, mode, doc⟩ :: commands ++ rest) room =
      read strict i mode commands room doc >>= Turn.fits strict rest := by
  rw [List.cons_append]
  cases doc with
  | text s =>
      rw [fits_cons_spend rfl, if_pos hroom]
      rfl
  | concat parts | fill parts =>
      rw [read, Fault.ok_bind, Turn.fits, List.append_assoc]
      exact fits_concat parts
  | indent contents => exact fits_indent contents
  | align columns contents => exact fits_align columns contents
  | root contents => exact fits_root contents
  | group contents shouldBreak =>
      rw [read]
      by_cases hflat : (strict && shouldBreak) = true
      · rw [if_pos hflat]
        simp only [fits, if_pos hroom, scanCommands, scan, hflat, if_true]
        rfl
      · rw [if_neg hflat]
        exact fits_cons_congr (by rw [scan, if_neg hflat])
  | ifBreak whenBroken whenFlat =>
      cases mode with
      | broken => exact fits_whenBroken whenBroken whenFlat
      | flat => exact fits_whenFlat whenBroken whenFlat
  | line hard soft =>
      rw [read]
      by_cases hprints : (decide (mode = .broken) || hard) = true
      · rw [if_pos hprints]
        simp only [fits, if_pos hroom, scanCommands, scan, hprints, if_true]
        rfl
      · rw [if_neg hprints]
        cases soft with
        | true =>
            have hscan : scan strict mode (.line hard true) room = .ok (.more room) := by
              rw [scan, if_neg hprints, if_pos rfl]
            simp only [fits, if_pos hroom, scanCommands, hscan, if_true, Fault.ok_bind, Turn.fits]
        | false =>
            rw [fits_cons_spend (by rw [scan, if_neg hprints]; rfl), if_pos hroom]
            rfl
  | breakParent => rfl
  | alien value =>
      rw [fits, if_pos hroom]
      rfl

/-- **The loop answers as reading ahead does.** It reads what is on its stack and then the
commands left to its caller, the top of the stack first. -/
theorem readLoop_eq_fits (strict : Bool) (rest commands : List Command) (index : Nat) (room : α)
    (hindex : index ≤ rest.length) :
    readLoop strict rest commands index room =
      fits strict (commands ++ (rest.take index).reverse) room := by
  fun_induction readLoop strict rest commands index room with
  | case1 room hroom => simp [fits, hroom, scanCommands]
  | case2 room hroom index command hcommand ih =>
      rw [ih (by omega), List.take_add_one, hcommand]
      simp
  | case3 room hroom index hnone =>
      rw [List.getElem?_eq_none_iff] at hnone
      omega
  | case4 room hroom i mode doc commands index fault hturn =>
      rw [fits_read strict i mode doc commands _ hroom, hturn]
      rfl
  | case5 room hroom i mode doc commands index answer hturn =>
      rw [fits_read strict i mode doc commands _ hroom, hturn]
      rfl
  | case6 room hroom i mode doc commands index left more hturn ih =>
      rw [ih hindex, fits_read strict i mode doc commands _ hroom, hturn]
      rfl
  | case7 commands index room hroom => rw [fits, if_neg hroom]

/-- Whether a command fits before those of a caller, whose next one stands last. -/
theorem readLoop_start (strict : Bool) (top : Command) (rest : List Command) (room : α) :
    readLoop strict rest [top] rest.length room = fits strict (top :: rest.reverse) room := by
  rw [readLoop_eq_fits strict rest [top] rest.length room le_rfl, List.take_length]
  rfl

end HamlFormat.Layout
