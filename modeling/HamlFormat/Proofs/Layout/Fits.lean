import HamlFormat.Layout.Fits
import Mathlib.Algebra.Order.Group.Unbundled.Int

/-!
# HamlFormat.Proofs.Layout.Fits

Reading ahead, one command at a time. Whether commands fit is the same question
after the first of them is replaced by the commands that it stands for, and after
a text has been read and its columns taken off the room. The answer is known at
the first line break that would print: what comes before it fits if the room is
not used up.
-/

namespace HamlFormat.Layout

section

variable {α : Type} [Columns α] {strict : Bool} {i j : Indentation} {mode : Mode}
  {rest : List Command} {room : α}

/-- Reading parts one after another is reading a command for each. -/
theorem scanCommands_map_append (parts : List Doc) (room : α) :
    scanCommands strict (parts.map (⟨i, mode, ·⟩) ++ rest) room =
      (do match ← scanList strict mode parts room with
          | .stop answer => return answer
          | .more room => scanCommands strict rest room) := by
  induction parts generalizing room with
  | nil => rfl
  | cons part parts ih =>
      rw [List.map_cons, List.cons_append, scanCommands, scanList]
      cases scan strict mode part room with
      | error fault => rfl
      | ok result =>
          cases result with
          | stop answer => rfl
          | more left => exact ih left

/-- Two first commands that are read alike fit alike. -/
theorem fits_cons_congr {i j : Indentation} {m n : Mode} {doc contents : Doc}
    (h : scan strict m doc room = scan strict n contents room) :
    fits strict (⟨i, m, doc⟩ :: rest) room = fits strict (⟨j, n, contents⟩ :: rest) room := by
  simp only [fits, scanCommands, h]

theorem fits_concat (parts : List Doc) :
    fits strict (⟨i, mode, .concat parts⟩ :: rest) room =
      fits strict (parts.map (⟨i, mode, ·⟩) ++ rest) room := by
  simp only [fits, scanCommands_map_append]
  rfl

/-- A fill is read as its parts one after another. -/
theorem fits_fill (parts : List Doc) :
    fits strict (⟨i, mode, .fill parts⟩ :: rest) room =
      fits strict (parts.map (⟨i, mode, ·⟩) ++ rest) room :=
  fits_concat parts

theorem fits_indent (contents : Doc) :
    fits strict (⟨i, mode, .indent contents⟩ :: rest) room =
      fits strict (⟨j, mode, contents⟩ :: rest) room :=
  fits_cons_congr rfl

theorem fits_align (columns : Int) (contents : Doc) :
    fits strict (⟨i, mode, .align columns contents⟩ :: rest) room =
      fits strict (⟨j, mode, contents⟩ :: rest) room :=
  fits_cons_congr rfl

theorem fits_root (contents : Doc) :
    fits strict (⟨i, mode, .root contents⟩ :: rest) room =
      fits strict (⟨j, mode, contents⟩ :: rest) room :=
  fits_cons_congr rfl

theorem fits_forced (contents : Doc) :
    fits false (⟨i, mode, .group contents true⟩ :: rest) room =
      fits false (⟨j, .broken, contents⟩ :: rest) room :=
  fits_cons_congr rfl

theorem fits_group (contents : Doc) :
    fits strict (⟨i, mode, .group contents false⟩ :: rest) room =
      fits strict (⟨j, mode, contents⟩ :: rest) room :=
  fits_cons_congr (by rw [scan, Bool.and_false]; rfl)

theorem fits_whenBroken (whenBroken whenFlat : Doc) :
    fits strict (⟨i, .broken, .ifBreak whenBroken whenFlat⟩ :: rest) room =
      fits strict (⟨j, .broken, whenBroken⟩ :: rest) room :=
  fits_cons_congr rfl

theorem fits_whenFlat (whenBroken whenFlat : Doc) :
    fits strict (⟨i, .flat, .ifBreak whenBroken whenFlat⟩ :: rest) room =
      fits strict (⟨j, .flat, whenFlat⟩ :: rest) room :=
  fits_cons_congr rfl

theorem fits_breakParent :
    fits strict (⟨i, mode, .breakParent⟩ :: rest) room = fits strict rest room := rfl

theorem fits_joined :
    fits strict (⟨i, .flat, .line false true⟩ :: rest) room = fits strict rest room := rfl

/-- What takes columns off the room fits if there is room and the rest fits in what
is left. -/
theorem fits_cons_spend {doc : Doc} {columns : Nat}
    (h : scan strict mode doc room = .ok (.spend room columns)) :
    fits strict (⟨i, mode, doc⟩ :: rest) room =
      if ((0 : Int) : α) ≤ room then fits strict rest (room - (((columns : Nat) : Int) : α))
      else .ok false := by
  simp only [fits, scanCommands, h, Scan.spend, bind, Except.bind]
  by_cases hleft : ((0 : Int) : α) ≤ room - (((columns : Nat) : Int) : α)
  · simp only [if_pos hleft]
  · simp only [if_neg hleft, pure, Except.pure]

end

variable {strict : Bool} {i : Indentation} {mode : Mode} {rest : List Command} {room : Int}

/-- What takes columns off the room fits if the rest fits in what is left. -/
theorem fits_spend {doc : Doc} {columns : Nat}
    (h : scan strict mode doc room = .ok (.spend room columns)) :
    fits strict (⟨i, mode, doc⟩ :: rest) room = fits strict rest (room - columns) := by
  simp only [fits, scanCommands, h, Scan.spend, bind, Except.bind]
  by_cases hleft : (columns : Int) ≤ room
  · have hroom : 0 ≤ room := by omega
    simp [hroom, hleft]
  · by_cases hroom : 0 ≤ room
    · simp [hroom, hleft]
      rfl
    · simp [hroom, hleft]

theorem fits_text (s : Text) :
    fits strict (⟨i, mode, .text s⟩ :: rest) room = fits strict rest (room - Text.width s) :=
  fits_spend rfl

theorem fits_spaced :
    fits strict (⟨i, .flat, .line false false⟩ :: rest) room = fits strict rest (room - 1) :=
  fits_spend rfl

/-- At a line break that prints, what was read fits if the room is not used up. -/
theorem fits_newline {hard soft : Bool} (h : mode = .broken ∨ hard = true) :
    fits strict (⟨i, mode, .line hard soft⟩ :: rest) room = .ok (decide (0 ≤ room)) := by
  have hscan : scan strict mode (.line hard soft) room = .ok (.stop true) := by
    rw [scan, if_pos (by simpa using h)]
  simp only [fits, scanCommands, hscan]
  by_cases hroom : 0 ≤ room
  · simp [hroom]
    rfl
  · simp [hroom]

/-- At the end of everything, what was read fits if the room is not used up. -/
theorem fits_nil : fits strict [] room = .ok (decide (0 ≤ room)) := by
  rw [fits]
  by_cases hroom : 0 ≤ room
  · simp [hroom]
    rfl
  · simp [hroom]

end HamlFormat.Layout
