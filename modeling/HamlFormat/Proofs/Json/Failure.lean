import HamlFormat.Json.Read
import HamlFormat.Proofs.Fault

/-!
# HamlFormat.Proofs.Json.Failure

How reading a text as JSON can fail: the text is not JSON, or it holds an integer
of more digits than are read (`failsWithin_read`). The first fault met counts, so
a text may have either fault and be reported with the other.
-/

namespace HamlFormat.Json

open Fault (FailsWithin)

/-- The faults of reading a text. -/
def IsReadFault (fault : Fault) : Prop :=
  fault = .invalidJson ∨ ∃ digits, maxDigits < digits ∧ fault = .tooManyDigits maxDigits digits

theorem failsWithin_invalidJson {α : Type} :
    FailsWithin IsReadFault (.error .invalidJson : Except Fault α) :=
  .error (.inl rfl)

/-! ## Strings and numbers -/

theorem failsWithin_readString (t : Text) : FailsWithin IsReadFault (readString t) := by
  have hparts : FailsWithin IsReadFault (stringParts t) := by
    fun_induction stringParts t
    case case2 => exact .ok _
    case case5 ih | case8 ih | case10 ih => exact .bind ih fun _ _ => .ok _
    all_goals exact failsWithin_invalidJson
  exact .bind hparts fun _ _ => .ok _

/-- An integer of too many digits is refused with their number. -/
theorem failsWithin_readInteger (negative : Bool) (digits : Text) :
    FailsWithin IsReadFault (readInteger negative digits) := by
  unfold readInteger
  split
  · next htoo => exact .error (.inr ⟨digits.length, htoo, rfl⟩)
  · exact .ok _

theorem failsWithin_readUnsigned (negative : Bool) (t : Text) :
    FailsWithin IsReadFault (readUnsigned negative t) := by
  have hwhole : FailsWithin IsReadFault (readWhole t) := by
    unfold readWhole
    split
    · exact failsWithin_invalidJson
    · split
      · exact .ok _
      · split
        · exact .ok _
        · exact failsWithin_invalidJson
  refine .bind hwhole fun found _ => ?_
  dsimp only
  split
  · exact .bind (failsWithin_readInteger negative found.1) fun _ _ => .ok _
  · exact .ok _

theorem failsWithin_readNumber (t : Text) : FailsWithin IsReadFault (readNumber t) := by
  unfold readNumber
  split
  · exact failsWithin_invalidJson
  · split <;> exact failsWithin_readUnsigned _ _

/-! ## Values -/

theorem failsWithin_readName (t : Text) : FailsWithin IsReadFault (readName t) := by
  unfold readName
  split
  · exact failsWithin_invalidJson
  · split
    · refine .bind (failsWithin_readString _) fun found _ => ?_
      dsimp only
      split
      · exact failsWithin_invalidJson
      · split
        · exact .ok _
        · exact failsWithin_invalidJson
    · exact failsWithin_invalidJson

mutual

theorem failsWithin_readValue : ∀ (fuel : Nat) (t : Text),
    FailsWithin IsReadFault (readValue fuel t)
  | 0, _ => by unfold readValue; exact failsWithin_invalidJson
  | _ + 1, [] => by unfold readValue; exact failsWithin_invalidJson
  | fuel + 1, c :: rest => by
      rw [readValue]
      split
      · exact .bind (failsWithin_readString rest) fun _ _ => .ok _
      · split
        · exact .bind (failsWithin_readItems fuel _) fun _ _ => .ok _
        · split
          · exact .bind (failsWithin_readFields fuel _) fun _ _ => .ok _
          · split
            · exact .ok _
            · exact failsWithin_readNumber _

theorem failsWithin_readItems : ∀ (fuel : Nat) (t : Text),
    FailsWithin IsReadFault (readItems fuel t)
  | 0, _ => by unfold readItems; exact failsWithin_invalidJson
  | _ + 1, [] => by unfold readItems; exact failsWithin_invalidJson
  | fuel + 1, c :: rest => by
      rw [readItems]
      split
      · exact .ok _
      · exact failsWithin_readMoreItems fuel _

theorem failsWithin_readMoreItems : ∀ (fuel : Nat) (t : Text),
    FailsWithin IsReadFault (readMoreItems fuel t)
  | 0, _ => by unfold readMoreItems; exact failsWithin_invalidJson
  | fuel + 1, t => by
      rw [readMoreItems]
      refine .bind (failsWithin_readValue fuel t) fun found _ => ?_
      dsimp only
      split
      · exact failsWithin_invalidJson
      · split
        · exact .ok _
        · split
          · exact .bind (failsWithin_readMoreItems fuel _) fun _ _ => .ok _
          · exact failsWithin_invalidJson

theorem failsWithin_readFields : ∀ (fuel : Nat) (t : Text),
    FailsWithin IsReadFault (readFields fuel t)
  | 0, _ => by unfold readFields; exact failsWithin_invalidJson
  | _ + 1, [] => by unfold readFields; exact failsWithin_invalidJson
  | fuel + 1, c :: rest => by
      rw [readFields]
      split
      · exact .ok _
      · exact failsWithin_readMoreFields fuel _

theorem failsWithin_readMoreFields : ∀ (fuel : Nat) (t : Text),
    FailsWithin IsReadFault (readMoreFields fuel t)
  | 0, _ => by unfold readMoreFields; exact failsWithin_invalidJson
  | fuel + 1, t => by
      rw [readMoreFields]
      refine .bind (failsWithin_readName t) fun name _ => ?_
      refine .bind (failsWithin_readValue fuel _) fun found _ => ?_
      dsimp only
      split
      · exact failsWithin_invalidJson
      · split
        · exact .ok _
        · split
          · exact .bind (failsWithin_readMoreFields fuel _) fun _ _ => .ok _
          · exact failsWithin_invalidJson

end

/-- **Reading a text fails only because it is not JSON or has too many digits.** -/
theorem failsWithin_read (t : Text) : FailsWithin IsReadFault (read t) := by
  refine .bind (failsWithin_readValue _ _) fun found _ => ?_
  dsimp only
  split
  · exact .ok _
  · exact failsWithin_invalidJson

end HamlFormat.Json
