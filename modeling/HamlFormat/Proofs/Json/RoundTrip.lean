import HamlFormat.Proofs.Json.Names
import HamlFormat.Proofs.Json.Number
import HamlFormat.Proofs.Json.Strings

/-!
# HamlFormat.Proofs.Json.RoundTrip

Values written as JSON text and read back. What is written on one line or
indented by blanks is read as the value that it was written from
(`read_write`), if the text can hold it: an integer must not have too many digits,
and no text a surrogate pair that reading would join (`isReadable`). An object
must not name a field twice, as only one of the two values would be kept.
-/

namespace HamlFormat.Json

mutual

/-- Whether what is written of a value can be read back: no integer has too many
digits, and no text or name holds a surrogate pair. -/
def isReadable : Json → Bool
  | .int n => (Decimal.digitsOf n.natAbs).length ≤ maxDigits
  | .str s => !hasSurrogatePair s
  | .arr items => itemsAreReadable items
  | .obj fields => fieldsAreReadable fields
  | _ => true

/-- `isReadable` for the items of an array. -/
def itemsAreReadable : List Json → Bool
  | [] => true
  | item :: items => item.isReadable && itemsAreReadable items

/-- `isReadable` for the names and values of an object's fields. -/
def fieldsAreReadable : List (Text × Json) → Bool
  | [] => true
  | (name, value) :: fields =>
    !hasSurrogatePair name && value.isReadable && fieldsAreReadable fields

end

/-! ## Blanks -/

/-- Whether a character is skipped between two parts of a JSON text. -/
def isBlank (c : CodePoint) : Bool :=
  c == ' ' || c == '\t' || c == '\n' || c == '\r'

/-- Whether a layout indents by blanks, or not at all. -/
def Indent.isBlank : Indent → Bool
  | none => true
  | some s => s.all Json.isBlank

theorem skipBlank_append {blank : Text} (h : ∀ c ∈ blank, isBlank c = true) (t : Text) :
    skipBlank (blank ++ t) = skipBlank t :=
  List.dropWhile_append_of_pos h

theorem skipBlank_cons {c : CodePoint} (h : isBlank c = false) (t : Text) :
    skipBlank (c :: t) = c :: t := by
  have hskip : skipBlank (c :: t) = (c :: t).dropWhile isBlank := rfl
  rw [hskip, List.dropWhile_cons_of_neg (by simp [h])]

/-- A line break is blank. -/
theorem isBlank_of_mem_lineBreak {indent : Indent} (h : indent.isBlank = true) (level : Nat) :
    ∀ c ∈ lineBreak indent level, isBlank c = true := by
  cases indent with
  | none => simp [lineBreak]
  | some s =>
      intro c hc
      obtain hc | hc := List.mem_append.mp hc
      · rw [List.mem_singleton.mp hc]
        rfl
      · obtain ⟨line, hline, hc⟩ := List.mem_flatten.mp hc
        rw [List.eq_of_mem_replicate hline] at hc
        exact List.all_eq_true.mp h c hc

/-- Two items are separated by a comma and blanks. -/
theorem exists_itemBreak_eq {indent : Indent} (h : indent.isBlank = true) (level : Nat) :
    ∃ blank, itemBreak indent level = CodePoint.ofChar ',' :: blank ∧
      ∀ c ∈ blank, isBlank c = true := by
  cases indent with
  | none => exact ⟨[CodePoint.ofChar ' '], rfl, List.forall_mem_singleton.mpr rfl⟩
  | some s => exact ⟨lineBreak (some s) level, rfl, isBlank_of_mem_lineBreak h level⟩

/-! ## What starts a value -/

/-- A value starts with neither a blank nor a closing bracket. -/
theorem exists_cons_of_readValue {fuel : Nat} {t : Text} {found : Found Json}
    (h : readValue fuel t = .ok found) :
    ∃ c rest, t = c :: rest ∧ isBlank c = false ∧ c ≠ CodePoint.ofChar ']' := by
  cases fuel with
  | zero => cases h
  | succ fuel =>
      cases t with
      | nil => cases h
      | cons c rest =>
          refine ⟨c, rest, rfl, ?_, ?_⟩
          · by_contra hblank
            simp only [isBlank, Bool.not_eq_false, Bool.or_eq_true, beq_iff_eq] at hblank
            obtain ((rfl | rfl) | rfl) | rfl := hblank <;> cases h
          · rintro rfl
            cases h

theorem skipBlank_of_readValue {fuel : Nat} {t : Text} {found : Found Json}
    (h : readValue fuel t = .ok found) : skipBlank t = t := by
  obtain ⟨c, rest, rfl, hc, -⟩ := exists_cons_of_readValue h
  exact skipBlank_cons hc rest

/-- A field name starts with a quote. -/
theorem exists_cons_of_readName {t : Text} {found : Found Text} (h : readName t = .ok found) :
    ∃ rest, t = CodePoint.ofChar '"' :: rest := by
  cases t with
  | nil => cases h
  | cons c rest =>
      rw [readName] at h
      split at h
      · next hquote => exact ⟨rest, by rw [beq_iff_eq.mp hquote]⟩
      · cases h

/-- The name of a field is read back with the colon after it. -/
theorem readName_stringText {name : Text} (hname : hasSurrogatePair name = false) {t : Text}
    (ht : skipBlank t = t) :
    readName (stringText isAsciiText name ++ (Text.ofString ": " ++ t)) = .ok (name, t) := by
  obtain ⟨rest, htext, hread⟩ := readString_stringText hname (Text.ofString ": " ++ t)
  rw [htext, readName]
  simp only [hread, Fault.ok_bind]
  show Except.ok (name, skipBlank t) = _
  rw [ht]

/-! ## Fields -/

theorem putField_of_notMem {name : Text} (value : Json) {fields : List (Text × Json)}
    (h : name ∉ fields.map Prod.fst) : putField name value fields = fields ++ [(name, value)] := by
  induction fields with
  | nil => rfl
  | cons field fields ih =>
      obtain ⟨key, old⟩ := field
      rw [List.map_cons, List.mem_cons, not_or] at h
      rw [putField, if_neg (by simpa using Ne.symm h.1), ih h.2, List.cons_append]

/-- Fields of different names are kept as they are. -/
theorem mergeFields_of_nodup {fields : List (Text × Json)} (h : (fields.map Prod.fst).Nodup) :
    mergeFields fields = fields := by
  have hfrom : ∀ merged fields : List (Text × Json), ((merged ++ fields).map Prod.fst).Nodup →
      fields.foldl (fun merged f => putField f.1 f.2 merged) merged = merged ++ fields := by
    intro merged fields
    induction fields generalizing merged with
    | nil => simp
    | cons field fields ih =>
        intro hnodup
        have hnew : field.1 ∉ merged.map Prod.fst := by
          rw [List.map_append, List.nodup_append] at hnodup
          exact fun hmem => hnodup.2.2 _ hmem _ (by simp) rfl
        rw [List.foldl_cons, putField_of_notMem _ hnew, ih _ (by simpa using hnodup)]
        simp
  exact hfrom [] fields h

/-! ## What follows a value -/

mutual

/-- What follows a value is no longer than the text with the value. -/
theorem length_le_textAt (indent : Indent) : ∀ (value : Json) (level : Nat) (rest : Text),
    rest.length ≤ (value.textAt indent level rest).length
  | .null, _, _ | .bool _, _, _ | .int _, _, _ | .float _, _, _ | .str _, _, _ | .arr [], _, _
  | .obj [], _, _ => by
      rw [textAt, List.length_append]
      omega
  | .arr (item :: items), level, rest => by
      have hitems := length_le_itemsAt indent items (level + 1)
        (lineBreak indent level ++ (Text.ofString "]" ++ rest))
      have hitem := length_le_textAt indent item (level + 1) (itemsAt indent (level + 1) items
        (lineBreak indent level ++ (Text.ofString "]" ++ rest)))
      simp only [textAt, List.length_append] at hitems hitem ⊢
      omega
  | .obj ((name, value) :: fields), level, rest => by
      have hfields := length_le_fieldsAt indent fields (level + 1)
        (lineBreak indent level ++ (Text.ofString "\x7d" ++ rest))
      have hvalue := length_le_textAt indent value (level + 1) (fieldsAt indent (level + 1) fields
        (lineBreak indent level ++ (Text.ofString "\x7d" ++ rest)))
      simp only [textAt, List.length_append] at hfields hvalue ⊢
      omega

theorem length_le_itemsAt (indent : Indent) : ∀ (items : List Json) (level : Nat) (rest : Text),
    rest.length ≤ (itemsAt indent level items rest).length
  | [], _, _ => Nat.le_refl _
  | item :: items, level, rest => by
      have hitems := length_le_itemsAt indent items level rest
      have hitem := length_le_textAt indent item level (itemsAt indent level items rest)
      rw [itemsAt, List.length_append]
      omega

theorem length_le_fieldsAt (indent : Indent) : ∀ (fields : List (Text × Json)) (level : Nat)
    (rest : Text), rest.length ≤ (fieldsAt indent level fields rest).length
  | [], _, _ => Nat.le_refl _
  | (name, value) :: fields, level, rest => by
      have hfields := length_le_fieldsAt indent fields level rest
      have hvalue := length_le_textAt indent value level (fieldsAt indent level fields rest)
      simp only [fieldsAt, List.length_append]
      omega

end

/-- No item of an array is followed by what could go on with it. -/
theorem endsNumber_itemsAt (indent : Indent) (items : List Json) (level outer : Nat) (rest : Text) :
    endsNumber (itemsAt indent level items (lineBreak indent outer ++
      (Text.ofString "]" ++ rest))) = true := by
  cases items <;> cases indent <;> rfl

/-- No value of a field is followed by what could go on with it. -/
theorem endsNumber_fieldsAt (indent : Indent) (fields : List (Text × Json)) (level outer : Nat)
    (rest : Text) :
    endsNumber (fieldsAt indent level fields (lineBreak indent outer ++
      (Text.ofString "\x7d" ++ rest))) = true := by
  cases fields with
  | nil => cases indent <;> rfl
  | cons field fields => cases indent <;> rfl

/-! ## Values -/

theorem readValue_jsonText (fuel : Nat) (x : Binary64) {rest : Text}
    (hrest : endsNumber rest = true) :
    readValue (fuel + 1) (x.jsonText ++ rest) = .ok (.float x, rest) := by
  cases x with
  | finite negative index => exact readValue_finiteText fuel negative index hrest
  | infinite negative => cases negative <;> rfl
  | nan => rfl

theorem readValue_stringText (fuel : Nat) {s : Text} (h : hasSurrogatePair s = false)
    (rest : Text) :
    readValue (fuel + 1) (stringText isAsciiText s ++ rest) = .ok (.str s, rest) := by
  obtain ⟨t, htext, hread⟩ := readString_stringText h rest
  rw [htext, readValue]
  simp only [hread, Fault.ok_bind]
  rfl

/-! ## Arrays and objects -/

section

variable {fuel : Nat} {t u blank rest : Text} {item value : Json} {items : List Json} {name : Text}
  {fields : List (Text × Json)}

theorem readMoreItems_last (hblank : ∀ c ∈ blank, isBlank c = true)
    (h : readValue fuel t = .ok (item, blank ++ (Text.ofString "]" ++ rest))) :
    readMoreItems (fuel + 1) t = .ok ([item], rest) := by
  rw [readMoreItems, h]
  simp only [Fault.ok_bind, skipBlank_append hblank]
  rfl

theorem readMoreItems_cons (hblank : ∀ c ∈ blank, isBlank c = true)
    (h : readValue fuel t = .ok (item, CodePoint.ofChar ',' :: (blank ++ u)))
    (hmore : readMoreItems fuel u = .ok (items, rest)) :
    readMoreItems (fuel + 1) t = .ok (item :: items, rest) := by
  obtain ⟨first, hfirst⟩ : ∃ first, readValue (fuel - 1) u = .ok first := by
    cases fuel with
    | zero => cases h
    | succ fuel =>
        rw [readMoreItems] at hmore
        obtain ⟨first, hfirst, -⟩ := Fault.bind_eq_ok.mp hmore
        exact ⟨first, hfirst⟩
  have hcomma : skipBlank (CodePoint.ofChar ',' :: (blank ++ u)) =
      CodePoint.ofChar ',' :: (blank ++ u) := rfl
  rw [readMoreItems, h]
  simp only [Fault.ok_bind, hcomma, skipBlank_append hblank, skipBlank_of_readValue hfirst, hmore]
  rfl

/-- Items in brackets are an array. -/
theorem readValue_arr (hblank : ∀ c ∈ blank, isBlank c = true)
    (h : readMoreItems (fuel + 1) t = .ok (items, rest)) :
    readValue (fuel + 3) (Text.ofString "[" ++ (blank ++ t)) = .ok (.arr items, rest) := by
  have hmore := h
  rw [readMoreItems] at hmore
  obtain ⟨first, hfirst, -⟩ := Fault.bind_eq_ok.mp hmore
  obtain ⟨c, after, rfl, hc, hclose⟩ := exists_cons_of_readValue hfirst
  have hitems : readItems (fuel + 2) (c :: after) = .ok (items, rest) := by
    rw [readItems, if_neg (by simpa using hclose), h]
  show readValue (fuel + 3) (CodePoint.ofChar '[' :: (blank ++ (c :: after))) = _
  rw [readValue]
  simp only [skipBlank_append hblank, skipBlank_cons hc, hitems, Fault.ok_bind]
  rfl

theorem readMoreFields_last (hblank : ∀ c ∈ blank, isBlank c = true)
    (hname : readName t = .ok (name, u))
    (h : readValue fuel u = .ok (value, blank ++ (Text.ofString "\x7d" ++ rest))) :
    readMoreFields (fuel + 1) t = .ok ([(name, value)], rest) := by
  rw [readMoreFields, hname]
  simp only [Fault.ok_bind, h, skipBlank_append hblank]
  rfl

theorem readMoreFields_cons {v : Text} (hblank : ∀ c ∈ blank, isBlank c = true)
    (hname : readName t = .ok (name, u))
    (h : readValue fuel u = .ok (value, CodePoint.ofChar ',' :: (blank ++ v)))
    (hmore : readMoreFields fuel v = .ok (fields, rest)) :
    readMoreFields (fuel + 1) t = .ok ((name, value) :: fields, rest) := by
  obtain ⟨after, rfl⟩ : ∃ after, v = CodePoint.ofChar '"' :: after := by
    cases fuel with
    | zero => cases h
    | succ fuel =>
        rw [readMoreFields] at hmore
        obtain ⟨next, hnext, -⟩ := Fault.bind_eq_ok.mp hmore
        exact exists_cons_of_readName hnext
  have hcomma : skipBlank (CodePoint.ofChar ',' :: (blank ++ (CodePoint.ofChar '"' :: after))) =
      CodePoint.ofChar ',' :: (blank ++ (CodePoint.ofChar '"' :: after)) := rfl
  have hquote : skipBlank (CodePoint.ofChar '"' :: after) = CodePoint.ofChar '"' :: after := rfl
  rw [readMoreFields, hname]
  simp only [Fault.ok_bind, h, hcomma, skipBlank_append hblank, hquote, hmore]
  rfl

/-- Fields in braces are an object, if no name stands twice. -/
theorem readValue_obj (hblank : ∀ c ∈ blank, isBlank c = true)
    (hnames : (fields.map Prod.fst).Nodup)
    (h : readMoreFields (fuel + 1) t = .ok (fields, rest)) :
    readValue (fuel + 3) (Text.ofString "\x7b" ++ (blank ++ t)) = .ok (.obj fields, rest) := by
  have hmore := h
  rw [readMoreFields] at hmore
  obtain ⟨next, hnext, -⟩ := Fault.bind_eq_ok.mp hmore
  obtain ⟨after, rfl⟩ := exists_cons_of_readName hnext
  have hquote : skipBlank (CodePoint.ofChar '"' :: after) = CodePoint.ofChar '"' :: after := rfl
  have hfields : readFields (fuel + 2) (CodePoint.ofChar '"' :: after) = .ok (fields, rest) := h
  show readValue (fuel + 3)
    (CodePoint.ofChar '\x7b' :: (blank ++ (CodePoint.ofChar '"' :: after))) = _
  rw [readValue]
  simp only [skipBlank_append hblank, hquote, hfields, Fault.ok_bind, mergeFields_of_nodup hnames]
  rfl

end

-- The text of what follows is part of the induction: the items of an array are
-- read in front of their closing bracket. Three calls are nested for each
-- character at most, so three times the length is enough.
mutual

/-- A value is read in front of what follows it. -/
theorem readValue_textAt {indent : Indent} (hindent : indent.isBlank = true) :
    ∀ {value : Json}, value.isReadable = true → value.hasDistinctNames = true →
    ∀ (fuel level : Nat) {rest : Text}, endsNumber rest = true →
      3 * (value.textAt indent level rest).length < fuel →
      readValue fuel (value.textAt indent level rest) = .ok (value, rest)
  | _, _, _, 0, _, _, _, hfuel => by cases hfuel
  | .null, _, _, _ + 1, _, _, _, _ => by
      rw [textAt]
      rfl
  | .bool b, _, _, _ + 1, _, _, _, _ => by
      rw [textAt]
      cases b <;> rfl
  | .int n, h, _, fuel + 1, _, _, hrest, _ => by
      rw [isReadable, decide_eq_true_eq] at h
      rw [textAt]
      exact readValue_intText fuel h hrest
  | .float x, _, _, fuel + 1, _, _, hrest, _ => by
      rw [textAt]
      exact readValue_jsonText fuel x hrest
  | .str s, h, _, fuel + 1, _, rest, _, _ => by
      rw [isReadable, Bool.not_eq_true'] at h
      rw [textAt]
      exact readValue_stringText fuel h rest
  | .arr [], _, _, fuel + 1, _, rest, _, hfuel => by
      obtain ⟨fuel, rfl⟩ : ∃ f, fuel = f + 1 := ⟨fuel - 1, by
        rw [textAt, List.length_append] at hfuel
        have : (Text.ofString "[]").length = 2 := rfl
        omega⟩
      rw [textAt]
      rfl
  | .arr (item :: items), h, hnames, fuel + 1, level, rest, _, hfuel => by
      rw [isReadable, itemsAreReadable, Bool.and_eq_true] at h
      rw [hasDistinctNames, itemsHaveDistinctNames, Bool.and_eq_true] at hnames
      have hends := endsNumber_itemsAt indent items (level + 1) level rest
      have hlength := length_le_textAt indent item (level + 1) (itemsAt indent (level + 1) items
        (lineBreak indent level ++ (Text.ofString "]" ++ rest)))
      have hbracket : (Text.ofString "[").length = 1 := rfl
      rw [textAt] at hfuel ⊢
      simp only [List.length_append] at hfuel
      obtain ⟨fuel, rfl⟩ : ∃ f, fuel = f + 2 := ⟨fuel - 2, by omega⟩
      have hitem := readValue_textAt hindent h.1 hnames.1 fuel (level + 1) hends (by omega)
      exact readValue_arr (isBlank_of_mem_lineBreak hindent _)
        (readMoreItems_itemsAt hindent h.2 hnames.2 (level + 1) level hitem (by omega))
  | .obj [], _, _, fuel + 1, _, rest, _, hfuel => by
      obtain ⟨fuel, rfl⟩ : ∃ f, fuel = f + 1 := ⟨fuel - 1, by
        rw [textAt, List.length_append] at hfuel
        have : (Text.ofString "\x7b\x7d").length = 2 := rfl
        omega⟩
      rw [textAt]
      rfl
  | .obj ((name, value) :: fields), h, hnames, fuel + 1, level, rest, _, hfuel => by
      rw [isReadable, fieldsAreReadable, Bool.and_eq_true, Bool.and_eq_true, Bool.not_eq_true'] at h
      rw [hasDistinctNames, Bool.and_eq_true, decide_eq_true_eq, fieldsHaveDistinctNames,
        Bool.and_eq_true] at hnames
      have hends := endsNumber_fieldsAt indent fields (level + 1) level rest
      have hlength := length_le_textAt indent value (level + 1) (fieldsAt indent (level + 1) fields
        (lineBreak indent level ++ (Text.ofString "\x7d" ++ rest)))
      have hbrace : (Text.ofString "\x7b").length = 1 := rfl
      rw [textAt] at hfuel ⊢
      simp only [List.length_append] at hfuel
      obtain ⟨fuel, rfl⟩ : ∃ f, fuel = f + 2 := ⟨fuel - 2, by omega⟩
      have hvalue := readValue_textAt hindent h.1.2 hnames.2.1 fuel (level + 1) hends (by omega)
      have hname := readName_stringText h.1.1 (skipBlank_of_readValue hvalue)
      exact readValue_obj (isBlank_of_mem_lineBreak hindent _) hnames.1
        (readMoreFields_fieldsAt hindent h.2 hnames.2.2 (level + 1) level hname hvalue (by omega))

/-- The items of an array are read after the first one. -/
theorem readMoreItems_itemsAt {indent : Indent} (hindent : indent.isBlank = true) :
    ∀ {items : List Json}, itemsAreReadable items = true → itemsHaveDistinctNames items = true →
    ∀ (level outer : Nat) {item : Json} {fuel : Nat} {t rest : Text},
      readValue fuel t = .ok (item, itemsAt indent level items (lineBreak indent outer ++
        (Text.ofString "]" ++ rest))) →
      3 * (itemsAt indent level items (lineBreak indent outer ++
        (Text.ofString "]" ++ rest))).length < fuel →
      readMoreItems (fuel + 1) t = .ok (item :: items, rest)
  | [], _, _, _, outer, _, _, _, _, hread, _ =>
      readMoreItems_last (isBlank_of_mem_lineBreak hindent outer) hread
  | next :: items, h, hnames, level, outer, item, fuel + 1, t, rest, hread, hfuel => by
      obtain ⟨blank, hbreak, hblank⟩ := exists_itemBreak_eq hindent level
      have hends := endsNumber_itemsAt indent items level outer rest
      have hlength := length_le_textAt indent next level (itemsAt indent level items
        (lineBreak indent outer ++ (Text.ofString "]" ++ rest)))
      rw [itemsAreReadable, Bool.and_eq_true] at h
      rw [itemsHaveDistinctNames, Bool.and_eq_true] at hnames
      rw [itemsAt, hbreak, List.cons_append] at hread hfuel
      rw [List.length_cons, List.length_append] at hfuel
      have hnext := readValue_textAt hindent h.1 hnames.1 fuel level hends (by omega)
      exact readMoreItems_cons hblank hread
        (readMoreItems_itemsAt hindent h.2 hnames.2 level outer hnext (by omega))

/-- The fields of an object are read after the first one. -/
theorem readMoreFields_fieldsAt {indent : Indent} (hindent : indent.isBlank = true) :
    ∀ {fields : List (Text × Json)}, fieldsAreReadable fields = true →
      fieldsHaveDistinctNames fields = true →
    ∀ (level outer : Nat) {name : Text} {value : Json} {fuel : Nat} {t u rest : Text},
      readName t = .ok (name, u) →
      readValue fuel u = .ok (value, fieldsAt indent level fields (lineBreak indent outer ++
        (Text.ofString "\x7d" ++ rest))) →
      3 * (fieldsAt indent level fields (lineBreak indent outer ++
        (Text.ofString "\x7d" ++ rest))).length < fuel →
      readMoreFields (fuel + 1) t = .ok ((name, value) :: fields, rest)
  | [], _, _, _, outer, _, _, _, _, _, _, hname, hread, _ =>
      readMoreFields_last (isBlank_of_mem_lineBreak hindent outer) hname hread
  | (next, nextValue) :: fields, h, hnames, level, outer, name, value, fuel + 1, t, u, rest, hname,
      hread, hfuel => by
      obtain ⟨blank, hbreak, hblank⟩ := exists_itemBreak_eq hindent level
      have hends := endsNumber_fieldsAt indent fields level outer rest
      have hlength := length_le_textAt indent nextValue level (fieldsAt indent level fields
        (lineBreak indent outer ++ (Text.ofString "\x7d" ++ rest)))
      rw [fieldsAreReadable, Bool.and_eq_true, Bool.and_eq_true, Bool.not_eq_true'] at h
      rw [fieldsHaveDistinctNames, Bool.and_eq_true] at hnames
      rw [fieldsAt, hbreak, List.cons_append] at hread hfuel
      simp only [List.length_cons, List.length_append] at hfuel
      have hvalue := readValue_textAt hindent h.1.2 hnames.1 fuel level hends (by omega)
      have hnext := readName_stringText h.1.1 (skipBlank_of_readValue hvalue)
      exact readMoreFields_cons hblank hname hread
        (readMoreFields_fieldsAt hindent h.2 hnames.2 level outer hnext hvalue (by omega))

end

/-- **What is written of a value is read as that value.** -/
theorem read_write {indent : Indent} {value : Json} (hindent : indent.isBlank = true)
    (h : value.isReadable = true) (hnames : value.hasDistinctNames = true) :
    read (value.write indent) = .ok value := by
  have hends : endsNumber [] = true := rfl
  have hvalue : readValue (3 * (value.write indent).length + 3) (value.write indent) =
      .ok (value, []) := readValue_textAt hindent h hnames _ 0 hends (by rw [write]; omega)
  rw [read, skipBlank_of_readValue hvalue, hvalue]
  rfl

end HamlFormat.Json
