/-!
# HamlFormat.Text.Basic

Texts as sequences of code points. JSON names characters above `0xffff` by two
surrogates and may name one of them alone, so a text is not limited to
characters: a lone surrogate stays in it as it is.

Main statements: a character read back from its code point is the same
character, and a string read back from its text the same string. Literals of the
language can therefore stand where a text is expected.
-/

namespace HamlFormat

/-- A Unicode code point: a character or a surrogate. -/
abbrev CodePoint := Fin 0x110000

/-- A text: code points in order. -/
abbrev Text := List CodePoint

/-! ## Code points -/

namespace CodePoint

/-- Every character lies in the range of code points. -/
theorem toNat_lt (c : Char) : c.toNat < 0x110000 := by
  rcases c.valid with h | ⟨_, h⟩
  · exact Nat.lt_trans h (by decide)
  · exact h

/-- The code point of a character. -/
def ofChar (c : Char) : CodePoint :=
  ⟨c.toNat, toNat_lt c⟩

/-- The replacement character. -/
def replacement : CodePoint :=
  ofChar '\ufffd'

/-- The code point with a number; there is none past the last one, and the
replacement character stands for it. -/
def ofNat (n : Nat) : CodePoint :=
  if h : n < 0x110000 then ⟨n, h⟩ else replacement

/-- The character at a code point; a surrogate is none. -/
def toChar? (p : CodePoint) : Option Char :=
  if h : p.val.isValidChar then some (Char.ofNatAux p.val h) else none

@[simp] theorem toChar?_ofChar (c : Char) : (ofChar c).toChar? = some c := by
  have h : (ofChar c).val.isValidChar := c.valid
  rw [toChar?, dif_pos h]
  rfl

/-- Different characters have different code points. -/
theorem ofChar_inj {c d : Char} : ofChar c = ofChar d ↔ c = d := by
  constructor
  · intro h
    have := congrArg toChar? h
    simpa using this
  · rintro rfl
    rfl

instance : Coe Char CodePoint := ⟨ofChar⟩

end CodePoint

/-! ## Texts -/

namespace Text

/-- The text of a string. -/
def ofString (s : String) : Text :=
  s.toList.map CodePoint.ofChar

/-- The string of a text; a text with a surrogate in it has none. -/
def toString? (t : Text) : Option String :=
  (t.mapM CodePoint.toChar?).map String.ofList

@[simp] theorem toString?_ofString (s : String) : (ofString s).toString? = some s := by
  have h : ∀ cs : List Char, (cs.map CodePoint.ofChar).mapM CodePoint.toChar? = some cs := by
    intro cs
    induction cs with
    | nil => rfl
    | cons c cs ih => simp [ih]
  simp [toString?, ofString, h]

/-- Different strings have different texts. -/
@[simp] theorem ofString_inj {s t : String} : ofString s = ofString t ↔ s = t := by
  constructor
  · intro h
    have := congrArg toString? h
    simpa using this
  · rintro rfl
    rfl

instance : Coe String Text := ⟨ofString⟩

/-- Whether the last character of a text is a certain one. -/
def endsIn (c : Char) (t : Text) : Bool :=
  t.getLast? == some (.ofChar c)

/-- A text of one code point over and over. -/
def repeated (count : Nat) (c : CodePoint) : Text :=
  List.replicate count c

end Text

end HamlFormat
