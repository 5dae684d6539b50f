import HamlFormat.Proofs.Json.Access

/-!
# HamlFormat.Proofs.Json.Names

Data in which no object has two fields of one name. Reading a text yields such
data only (`hasDistinctNames_of_read`), as an object keeps the last of several
values for a name; the parts that accessors yield are again such data.
-/

namespace HamlFormat.Json

mutual

/-- Whether no object in a value has two fields of one name. -/
def hasDistinctNames : Json → Bool
  | .arr items => itemsHaveDistinctNames items
  | .obj fields => decide (fields.map Prod.fst).Nodup && fieldsHaveDistinctNames fields
  | _ => true

/-- Whether no object in a list of values has two fields of one name. -/
def itemsHaveDistinctNames : List Json → Bool
  | [] => true
  | item :: items => item.hasDistinctNames && itemsHaveDistinctNames items

/-- Whether no object in the values of fields has two fields of one name. -/
def fieldsHaveDistinctNames : List (Text × Json) → Bool
  | [] => true
  | (_, value) :: fields => value.hasDistinctNames && fieldsHaveDistinctNames fields

end

theorem itemsHaveDistinctNames_iff {items : List Json} :
    itemsHaveDistinctNames items = true ↔ ∀ item ∈ items, item.hasDistinctNames = true := by
  induction items with
  | nil => simp [itemsHaveDistinctNames]
  | cons item items ih => simp [itemsHaveDistinctNames, ih]

theorem fieldsHaveDistinctNames_iff {fields : List (Text × Json)} :
    fieldsHaveDistinctNames fields = true ↔ ∀ f ∈ fields, f.2.hasDistinctNames = true := by
  induction fields with
  | nil => simp [fieldsHaveDistinctNames]
  | cons f fields ih => simp [fieldsHaveDistinctNames, ih]

theorem hasDistinctNames_arr {items : List Json} :
    (Json.arr items).hasDistinctNames = true ↔ ∀ item ∈ items, item.hasDistinctNames = true := by
  rw [hasDistinctNames, itemsHaveDistinctNames_iff]

theorem hasDistinctNames_singleton {item : Json} :
    (Json.arr [item]).hasDistinctNames = true ↔ item.hasDistinctNames = true := by
  rw [hasDistinctNames_arr, List.forall_mem_singleton]

theorem hasDistinctNames_obj {fields : List (Text × Json)} :
    (Json.obj fields).hasDistinctNames = true ↔
      (fields.map Prod.fst).Nodup ∧ ∀ f ∈ fields, f.2.hasDistinctNames = true := by
  rw [hasDistinctNames, Bool.and_eq_true, decide_eq_true_eq, fieldsHaveDistinctNames_iff]

theorem hasDistinctNames_of_lookup {fields : List (Text × Json)} {name : Text} {value : Json}
    (h : fieldsHaveDistinctNames fields = true) (hvalue : fields.lookup name = some value) :
    value.hasDistinctNames = true := by
  induction fields with
  | nil => cases hvalue
  | cons field fields ih =>
      obtain ⟨key, first⟩ := field
      rw [fieldsHaveDistinctNames, Bool.and_eq_true] at h
      rw [List.lookup_cons] at hvalue
      split at hvalue
      · cases hvalue
        exact h.1
      · exact ih h.2 hvalue

@[simp] theorem hasDistinctNames_null : Json.null.hasDistinctNames = true := rfl

@[simp] theorem hasDistinctNames_str (s : Text) : (Json.str s).hasDistinctNames = true := rfl

@[simp] theorem hasDistinctNames_bool (b : Bool) : (Json.bool b).hasDistinctNames = true := rfl

/-- A field of data without double names has none either. -/
theorem hasDistinctNames_of_get {data value : Json} {name : Text}
    (h : data.hasDistinctNames = true) (hvalue : data.get name = .ok value) :
    value.hasDistinctNames = true := by
  obtain ⟨fields, rfl, rfl⟩ := eq_obj_of_get hvalue
  rw [hasDistinctNames, Bool.and_eq_true] at h
  cases hlookup : fields.lookup name with
  | none => rfl
  | some found => exact hasDistinctNames_of_lookup h.2 hlookup

/-- A default without double names adds none. -/
theorem hasDistinctNames_orElse {value default : Json} (h : value.hasDistinctNames = true)
    (hdefault : default.hasDistinctNames = true) :
    (value.orElse default).hasDistinctNames = true := by
  rw [orElse]
  split
  · exact h
  · exact hdefault

/-- The elements of data without double names have none either. -/
theorem hasDistinctNames_of_elements {whole : Json} {part : Part whole} {parts : List (Part whole)}
    (h : part.1.hasDistinctNames = true) (hparts : part.elements = .ok parts) :
    ∀ element ∈ parts, element.1.hasDistinctNames = true := by
  obtain ⟨elements, helements, hmap⟩ := Fault.bind_eq_ok.mp hparts
  rw [Fault.pure_eq_ok] at hmap
  subst hmap
  obtain ⟨value, hlt⟩ := part
  rw [List.forall_mem_map]
  cases value with
  | arr items =>
      cases helements
      intro element helement
      have hmem : element.1 ∈ items := (List.mem_attachWith _ element).mp helement
      exact hasDistinctNames_arr.mp h _ hmem
  | str s =>
      cases helements
      rw [List.forall_mem_map]
      exact fun _ _ => rfl
  | obj fields =>
      cases helements
      rw [List.forall_mem_map]
      exact fun _ _ => rfl
  | _ => cases helements

/-- The nested nodes of data without double names have none either. -/
theorem hasDistinctNames_of_childNodes {data : Json} {parts : List (Part data)}
    (h : data.hasDistinctNames = true) (hparts : data.childNodes = .ok parts) :
    ∀ part ∈ parts, part.1.hasDistinctNames = true := by
  obtain ⟨found, hfound, hparts⟩ := Fault.bind_eq_ok.mp hparts
  cases found with
  | none =>
      cases hparts
      exact fun _ hpart => nomatch hpart
  | some children =>
      have hget : data.get "children" = .ok children.1 := by
        rw [get, hfound]
        rfl
      dsimp only at hparts
      split at hparts
      · exact hasDistinctNames_of_elements (hasDistinctNames_of_get h hget) hparts
      · cases hparts
        exact fun _ hpart => nomatch hpart

/-- A field that must be there is no exception. -/
theorem hasDistinctNames_of_field {data : Json} {name : Text} {part : Part data}
    (h : data.hasDistinctNames = true) (hpart : data.field name = .ok part) :
    part.1.hasDistinctNames = true := by
  cases data with
  | obj fields =>
      rw [hasDistinctNames, Bool.and_eq_true] at h
      exact hasDistinctNames_of_lookup h.2 (lookup_of_field hpart)
  | _ => cases hpart

theorem hasDistinctNames_of_item {whole : Json} {part item : Part whole} {index : Nat}
    (h : part.1.hasDistinctNames = true) (hitem : part.item index = .ok item) :
    item.1.hasDistinctNames = true := by
  obtain ⟨found, hfound, hmap⟩ := Fault.bind_eq_ok.mp hitem
  cases hmap
  obtain ⟨value, hlt⟩ := part
  cases value with
  | arr items =>
      rw [Json.item] at hfound
      split at hfound
      · cases hfound
        exact hasDistinctNames_arr.mp h _ (List.getElem_mem _)
      · cases hfound
  | str s =>
      rw [Json.item] at hfound
      split at hfound
      · cases hfound
      · cases hfound
        rfl
  | _ => cases hfound

/-! ## Nodes -/

section

variable {data : Json} (h : data.hasDistinctNames = true)

include h

/-- The parts of the body of data without double names have none either. -/
theorem hasDistinctNames_of_bodyItem {index : Nat} {item : Part data}
    (hitem : data.bodyItem index = .ok item) : item.1.hasDistinctNames = true := by
  obtain ⟨body, hbody, hitem⟩ := Fault.bind_eq_ok.mp hitem
  exact hasDistinctNames_of_item (hasDistinctNames_of_field h hbody) hitem

theorem hasDistinctNames_of_bodyFirst? {first : Part data}
    (hfirst : data.bodyFirst? = .ok (some first)) : first.1.hasDistinctNames = true := by
  obtain ⟨body, hbody, hfirst⟩ := Fault.bind_eq_ok.mp hfirst
  split at hfirst
  · obtain ⟨item, hitem, hfirst⟩ := Fault.bind_eq_ok.mp hfirst
    split at hfirst
    · cases hfirst
    · cases hfirst
      exact hasDistinctNames_of_item (hasDistinctNames_of_field h hbody) hitem
  · cases hfirst

theorem hasDistinctNames_of_unwrappedBody {wrapper : Text} {part : Part data}
    (hpart : data.unwrappedBody wrapper = .ok part) : part.1.hasDistinctNames = true := by
  obtain ⟨body, hbody, hpart⟩ := Fault.bind_eq_ok.mp hpart
  have hdistinct := hasDistinctNames_of_field h hbody
  split at hpart
  · obtain ⟨first, hfirst, hpart⟩ := Fault.bind_eq_ok.mp hpart
    have hinner := hasDistinctNames_of_item hdistinct hfirst
    split at hpart
    · obtain ⟨kind, -, hpart⟩ := Fault.bind_eq_ok.mp hpart
      split at hpart
      · obtain ⟨innerBody, hinnerBody, hpart⟩ := Fault.bind_eq_ok.mp hpart
        cases hpart
        have hdeep := hasDistinctNames_of_field hinner hinnerBody
        exact hdeep
      · cases hpart
        exact hdistinct
    · cases hpart
      exact hdistinct
  · cases hpart
    exact hdistinct

theorem hasDistinctNames_of_pairNodes {parts : List (Part data)}
    (hparts : data.pairNodes = .ok parts) : ∀ part ∈ parts, part.1.hasDistinctNames = true := by
  obtain ⟨body, hbody, hparts⟩ := Fault.bind_eq_ok.mp hparts
  have hdistinct := hasDistinctNames_of_field h hbody
  split at hparts
  · obtain ⟨first, hfirst, hparts⟩ := Fault.bind_eq_ok.mp hparts
    split at hparts
    · exact hasDistinctNames_of_elements (hasDistinctNames_of_item hdistinct hfirst) hparts
    · exact hasDistinctNames_of_elements hdistinct hparts
  · exact hasDistinctNames_of_elements hdistinct hparts

end

/-- A node has no double names if its values have none, for a line number stands
under a name of its own. -/
theorem hasDistinctNames_node (fields : List (Text × Json)) (line : Json)
    (hnames : (fields.map Prod.fst ++ [Text.ofString "line"]).Nodup) :
    (Json.node fields line).hasDistinctNames = true ↔
      (∀ f ∈ fields, f.2.hasDistinctNames = true) ∧ line.hasDistinctNames = true := by
  rw [node, hasDistinctNames_obj]
  cases hnull : line.isNull with
  | true =>
      have hline : line.hasDistinctNames = true := by
        cases line with
        | null => rfl
        | _ => cases hnull
      simp [(List.nodup_append.mp hnames).1, hline]
  | false => simp [hnames, or_imp, forall_and]

/-! ## Reading a text -/

/-- Setting a field adds its name at the end, if it is new. -/
theorem names_putField (name : Text) (value : Json) (fields : List (Text × Json)) :
    (putField name value fields).map Prod.fst = fields.map Prod.fst ∨
      (name ∉ fields.map Prod.fst ∧
        (putField name value fields).map Prod.fst = fields.map Prod.fst ++ [name]) := by
  induction fields with
  | nil => exact .inr ⟨List.not_mem_nil, rfl⟩
  | cons field fields ih =>
      obtain ⟨key, old⟩ := field
      rw [putField]
      split
      · next hkey =>
          rw [beq_iff_eq] at hkey
          exact .inl (by rw [List.map_cons, List.map_cons, hkey])
      · next hkey =>
          rw [beq_iff_eq] at hkey
          obtain hkept | ⟨hnew, hadded⟩ := ih
          · exact .inl (by rw [List.map_cons, List.map_cons, hkept])
          · refine .inr ⟨?_, by rw [List.map_cons, List.map_cons, hadded, List.cons_append]⟩
            rw [List.map_cons, List.mem_cons, not_or]
            exact ⟨Ne.symm hkey, hnew⟩

theorem nodup_putField (name : Text) (value : Json) {fields : List (Text × Json)}
    (h : (fields.map Prod.fst).Nodup) : ((putField name value fields).map Prod.fst).Nodup := by
  obtain hkept | ⟨hnew, hadded⟩ := names_putField name value fields
  · rwa [hkept]
  · rw [hadded, List.nodup_append]
    refine ⟨h, by simp, ?_⟩
    rintro other hother _ hname rfl
    rw [List.mem_singleton] at hname
    exact hnew (hname ▸ hother)

theorem fieldsHaveDistinctNames_putField (name : Text) {value : Json}
    {fields : List (Text × Json)} (hvalue : value.hasDistinctNames = true)
    (h : fieldsHaveDistinctNames fields = true) :
    fieldsHaveDistinctNames (putField name value fields) = true := by
  induction fields with
  | nil => simpa [putField, fieldsHaveDistinctNames] using hvalue
  | cons field fields ih =>
      obtain ⟨key, old⟩ := field
      rw [fieldsHaveDistinctNames, Bool.and_eq_true] at h
      rw [putField]
      split
      · rw [fieldsHaveDistinctNames, hvalue, h.2]
        rfl
      · rw [fieldsHaveDistinctNames, h.1, ih h.2]
        rfl

/-- An object made of fields as they were read has each name once. -/
theorem hasDistinctNames_mergeFields {fields : List (Text × Json)}
    (h : fieldsHaveDistinctNames fields = true) :
    (Json.obj (mergeFields fields)).hasDistinctNames = true := by
  have hmerged : ∀ (fields merged : List (Text × Json)), fieldsHaveDistinctNames fields = true →
      (Json.obj merged).hasDistinctNames = true →
      (Json.obj (fields.foldl (fun merged f => putField f.1 f.2 merged) merged)).hasDistinctNames =
        true := by
    intro fields
    induction fields with
    | nil => exact fun merged _ hmerged => hmerged
    | cons field fields ih =>
        intro merged hfields hmerged
        rw [fieldsHaveDistinctNames, Bool.and_eq_true] at hfields
        rw [hasDistinctNames, Bool.and_eq_true, decide_eq_true_eq] at hmerged
        refine ih _ hfields.2 ?_
        rw [hasDistinctNames, Bool.and_eq_true, decide_eq_true_eq]
        exact ⟨nodup_putField _ _ hmerged.1, fieldsHaveDistinctNames_putField _ hfields.1 hmerged.2⟩
  exact hmerged fields [] h rfl

/-- A word is no object. -/
theorem hasDistinctNames_of_readWord? {t rest : Text} {value : Json}
    (h : readWord? t = some (value, rest)) : value.hasDistinctNames = true := by
  obtain ⟨word, hword, hfound⟩ := List.exists_of_findSome?_eq_some h
  have hwords : ∀ word ∈ words, word.2.hasDistinctNames = true := by decide
  split at hfound
  · cases hfound
    exact hwords word hword
  · cases hfound

/-- A number is no object. -/
theorem hasDistinctNames_of_readNumber {t rest : Text} {value : Json}
    (h : readNumber t = .ok (value, rest)) : value.hasDistinctNames = true := by
  have hunsigned : ∀ negative t, readUnsigned negative t = .ok (value, rest) →
      value.hasDistinctNames = true := by
    intro negative t h
    obtain ⟨⟨whole, afterWhole⟩, -, h⟩ := Fault.bind_eq_ok.mp h
    dsimp only at h
    split at h
    · obtain ⟨integer, hinteger, h⟩ := Fault.bind_eq_ok.mp h
      cases h
      rw [readInteger] at hinteger
      split at hinteger
      · cases hinteger
      · cases hinteger
        rfl
    · cases h
      rfl
  cases t with
  | nil => cases h
  | cons sign rest =>
      rw [readNumber] at h
      split at h
      · exact hunsigned _ _ h
      · exact hunsigned _ _ h

mutual

theorem hasDistinctNames_of_readValue : ∀ {fuel : Nat} {t rest : Text} {value : Json},
    readValue fuel t = .ok (value, rest) → value.hasDistinctNames = true
  | 0, _, _, _, h => by cases h
  | _ + 1, [], _, _, h => by cases h
  | fuel + 1, c :: t, _, _, h => by
      rw [readValue] at h
      split at h
      · obtain ⟨⟨s, after⟩, -, h⟩ := Fault.bind_eq_ok.mp h
        cases h
        rfl
      · split at h
        · obtain ⟨⟨items, after⟩, hitems, h⟩ := Fault.bind_eq_ok.mp h
          cases h
          exact itemsHaveDistinctNames_of_readItems hitems
        · split at h
          · obtain ⟨⟨fields, after⟩, hfields, h⟩ := Fault.bind_eq_ok.mp h
            cases h
            exact hasDistinctNames_mergeFields (fieldsHaveDistinctNames_of_readFields hfields)
          · split at h
            · next hword =>
                cases h
                exact hasDistinctNames_of_readWord? hword
            · exact hasDistinctNames_of_readNumber h

theorem itemsHaveDistinctNames_of_readItems : ∀ {fuel : Nat} {t rest : Text} {items : List Json},
    readItems fuel t = .ok (items, rest) → itemsHaveDistinctNames items = true
  | 0, _, _, _, h => by cases h
  | _ + 1, [], _, _, h => by cases h
  | fuel + 1, c :: t, _, _, h => by
      rw [readItems] at h
      split at h
      · cases h
        rfl
      · exact itemsHaveDistinctNames_of_readMoreItems h

theorem itemsHaveDistinctNames_of_readMoreItems :
    ∀ {fuel : Nat} {t rest : Text} {items : List Json},
    readMoreItems fuel t = .ok (items, rest) → itemsHaveDistinctNames items = true
  | 0, _, _, _, h => by cases h
  | fuel + 1, t, _, _, h => by
      rw [readMoreItems] at h
      obtain ⟨⟨item, after⟩, hitem, h⟩ := Fault.bind_eq_ok.mp h
      have hfirst := hasDistinctNames_of_readValue hitem
      dsimp only at h
      split at h
      · cases h
      · split at h
        · cases h
          rw [itemsHaveDistinctNames, hfirst]
          rfl
        · split at h
          · obtain ⟨⟨items, _⟩, hitems, h⟩ := Fault.bind_eq_ok.mp h
            cases h
            rw [itemsHaveDistinctNames, hfirst, itemsHaveDistinctNames_of_readMoreItems hitems]
            rfl
          · cases h

theorem fieldsHaveDistinctNames_of_readFields :
    ∀ {fuel : Nat} {t rest : Text} {fields : List (Text × Json)},
    readFields fuel t = .ok (fields, rest) → fieldsHaveDistinctNames fields = true
  | 0, _, _, _, h => by cases h
  | _ + 1, [], _, _, h => by cases h
  | fuel + 1, c :: t, _, _, h => by
      rw [readFields] at h
      split at h
      · cases h
        rfl
      · exact fieldsHaveDistinctNames_of_readMoreFields h

theorem fieldsHaveDistinctNames_of_readMoreFields :
    ∀ {fuel : Nat} {t rest : Text} {fields : List (Text × Json)},
    readMoreFields fuel t = .ok (fields, rest) → fieldsHaveDistinctNames fields = true
  | 0, _, _, _, h => by cases h
  | fuel + 1, t, _, _, h => by
      rw [readMoreFields] at h
      obtain ⟨⟨name, afterName⟩, -, h⟩ := Fault.bind_eq_ok.mp h
      obtain ⟨⟨value, afterValue⟩, hvalue, h⟩ := Fault.bind_eq_ok.mp h
      have hfirst := hasDistinctNames_of_readValue hvalue
      dsimp only at h
      split at h
      · cases h
      · split at h
        · cases h
          rw [fieldsHaveDistinctNames, hfirst]
          rfl
        · split at h
          · obtain ⟨⟨fields, _⟩, hfields, h⟩ := Fault.bind_eq_ok.mp h
            cases h
            rw [fieldsHaveDistinctNames, hfirst, fieldsHaveDistinctNames_of_readMoreFields hfields]
            rfl
          · cases h

end

/-- **What is read from a text has no double names.** -/
theorem hasDistinctNames_of_read {t : Text} {value : Json} (h : Json.read t = .ok value) :
    value.hasDistinctNames = true := by
  obtain ⟨⟨found, rest⟩, hfound, h⟩ := Fault.bind_eq_ok.mp h
  dsimp only at h
  split at h
  · cases h
    exact hasDistinctNames_of_readValue hfound
  · cases h

end HamlFormat.Json
