import HamlFormat.Proofs.Json.RoundTrip
import Mathlib.Data.List.Lex
import Mathlib.Data.List.Sort

/-!
# HamlFormat.Proofs.Json.Sort

Fields in the order of their names. Sorting is an insertion sort by name
(`sortFieldList_eq`), so it loses no field and finds every field under its name
(`get_sortFields`); it changes nothing exactly where the fields stand in order
already (`sortFields_eq_self_iff`). All this takes names that differ within an object.
-/

namespace HamlFormat

theorem map_eq_self_iff {α : Type} {f : α → α} {l : List α} :
    l.map f = l ↔ ∀ x ∈ l, f x = x := by
  conv_lhs => rhs; rw [← List.map_id l]
  exact List.map_inj_left

/-! ## Named values -/

section Named

variable {V W : Type} {l l' : List (Text × V)}

/-- Named values in the order of their names. -/
def NameLT (f g : Text × V) : Prop :=
  f.1 < g.1

instance : DecidableRel (NameLT (V := V)) :=
  fun f g => inferInstanceAs (Decidable (f.1 < g.1))

/-- Whether names ascend. -/
def ascend : List Text → Bool
  | first :: second :: names => first < second && ascend (second :: names)
  | _ => true

theorem ascend_iff {names : List Text} : ascend names = true ↔ names.Pairwise (· < ·) := by
  induction names with
  | nil => simp [ascend]
  | cons first names ih =>
      cases names with
      | nil => simp [ascend]
      | cons second names =>
          rw [ascend, Bool.and_eq_true, decide_eq_true_eq, ih, List.pairwise_cons (a := first)]
          constructor
          · rintro ⟨hfirst, hrest⟩
            refine ⟨fun name hname => ?_, hrest⟩
            obtain rfl | hname := List.mem_cons.mp hname
            · exact hfirst
            · exact lt_trans hfirst ((List.pairwise_cons.mp hrest).1 name hname)
          · rintro ⟨hfirst, hrest⟩
            exact ⟨hfirst second List.mem_cons_self, hrest⟩

/-- A value is found under its name wherever it stands, if no name stands twice. -/
theorem lookup_eq_of_perm (h : l.Perm l') (hnames : (l.map Prod.fst).Nodup) (name : Text) :
    l.lookup name = l'.lookup name := by
  induction h with
  | nil => rfl
  | cons f _ ih =>
      rw [List.map_cons, List.nodup_cons] at hnames
      rw [List.lookup_cons, List.lookup_cons, ih hnames.2]
  | swap f g l =>
      obtain ⟨key, value⟩ := f
      obtain ⟨key', value'⟩ := g
      have hdiffer : key' ≠ key := by
        simp only [List.map_cons, List.nodup_cons, List.mem_cons, not_or] at hnames
        exact hnames.1.1
      simp only [List.lookup_cons]
      cases hkey : name == key with
      | false => rfl
      | true =>
          have hkey' : (name == key') = false := by
            rw [beq_eq_false_iff_ne, beq_iff_eq.mp hkey]
            exact hdiffer.symm
          rw [hkey']
  | trans hperm _ ih ih' =>
      rw [ih hnames, ih' ((hperm.map Prod.fst).nodup_iff.mp hnames)]

theorem lookup_map (g : V → W) (l : List (Text × V)) (name : Text) :
    (l.map fun f => (f.1, g f.2)).lookup name = (l.lookup name).map g := by
  induction l with
  | nil => rfl
  | cons f l ih =>
      rw [List.map_cons, List.lookup_cons, List.lookup_cons, ih]
      split <;> rfl

/-- Sorting by name makes names ascend, if no name stands twice. -/
theorem pairwise_insertionSort_nameLT (hnames : (l.map Prod.fst).Nodup) :
    ((l.insertionSort NameLT).map Prod.fst).Pairwise (· < ·) := by
  rw [List.pairwise_map]
  induction l with
  | nil => exact .nil
  | cons f l ih =>
      rw [List.map_cons, List.nodup_cons] at hnames
      have hsorted := ih hnames.2
      have hnew : ∀ g ∈ l.insertionSort NameLT, f.1 ≠ g.1 := fun g hg heq =>
        hnames.1 (heq ▸ List.mem_map_of_mem ((List.mem_insertionSort NameLT).mp hg))
      rw [List.insertionSort_cons]
      -- the new name differs from all others, so it is below or above each
      generalize l.insertionSort NameLT = sorted at hsorted hnew ⊢
      clear ih hnames
      induction sorted with
      | nil => simp
      | cons g sorted ih =>
          rw [List.pairwise_cons] at hsorted
          by_cases hlt : NameLT f g
          · rw [List.orderedInsert_cons_of_le _ _ hlt]
            refine List.pairwise_cons.mpr ⟨fun k hk => ?_, List.pairwise_cons.mpr hsorted⟩
            obtain rfl | hk := List.mem_cons.mp hk
            · exact hlt
            · exact lt_trans hlt (hsorted.1 k hk)
          · rw [List.orderedInsert_of_not_le _ _ hlt]
            have hgt : g.1 < f.1 :=
              lt_of_le_of_ne (not_lt.mp hlt) (Ne.symm (hnew g List.mem_cons_self))
            refine List.pairwise_cons.mpr ⟨fun k hk => ?_, ih hsorted.2 fun k hk => ?_⟩
            · obtain rfl | hk := (List.mem_orderedInsert NameLT).mp hk
              · exact hgt
              · exact hsorted.1 k hk
            · exact hnew k (List.mem_cons_of_mem g hk)

/-- Sorting by name changes nothing exactly where the names ascend. -/
theorem insertionSort_nameLT_eq_self_iff (hnames : (l.map Prod.fst).Nodup) :
    l.insertionSort NameLT = l ↔ (l.map Prod.fst).Pairwise (· < ·) := by
  constructor
  · intro h
    have := pairwise_insertionSort_nameLT hnames
    rwa [h] at this
  · intro h
    exact List.Pairwise.insertionSort_eq ((List.pairwise_map (f := Prod.fst)).mp h)

end Named

namespace Json

/-! ## Fields -/

theorem insertField_eq (f : Text × Json) (fields : List (Text × Json)) :
    insertField f fields = fields.orderedInsert NameLT f := by
  induction fields with
  | nil => rfl
  | cons g fields ih =>
      rw [insertField, List.orderedInsert_cons, ih]
      rfl

/-- Sorting the fields of an object is an insertion sort by name, of the fields with
the values in them sorted. -/
theorem sortFieldList_eq (fields : List (Text × Json)) :
    sortFieldList fields = (fields.map fun f => (f.1, f.2.sortFields)).insertionSort NameLT := by
  induction fields with
  | nil => rfl
  | cons f fields ih =>
      rw [sortFieldList, insertField_eq, ih, List.map_cons, List.insertionSort_cons]

theorem perm_sortFieldList (fields : List (Text × Json)) :
    (sortFieldList fields).Perm (fields.map fun f => (f.1, f.2.sortFields)) := by
  rw [sortFieldList_eq]
  exact List.perm_insertionSort NameLT _

theorem sortItems_eq (items : List Json) : sortItems items = items.map sortFields := by
  induction items with
  | nil => rfl
  | cons item items ih => rw [sortItems, ih, List.map_cons]

theorem nodup_names_sortFieldList {fields : List (Text × Json)}
    (h : (fields.map Prod.fst).Nodup) : ((sortFieldList fields).map Prod.fst).Nodup := by
  rw [((perm_sortFieldList fields).map Prod.fst).nodup_iff, List.map_map]
  exact h

theorem lookup_sortFieldList {fields : List (Text × Json)} (h : (fields.map Prod.fst).Nodup)
    (name : Text) : (sortFieldList fields).lookup name = (fields.lookup name).map sortFields := by
  rw [lookup_eq_of_perm (perm_sortFieldList fields) (nodup_names_sortFieldList h), lookup_map]

section Access

variable {data value : Json} {name : Text}

/-- A sorted field is found under its name. -/
theorem get_sortFields (hnames : data.hasDistinctNames = true) (h : data.get name = .ok value) :
    data.sortFields.get name = .ok value.sortFields := by
  obtain ⟨fields, rfl, rfl⟩ := eq_obj_of_get h
  rw [hasDistinctNames_obj] at hnames
  rw [sortFields, get_obj, lookup_sortFieldList hnames.1]
  cases fields.lookup name <;> rfl

theorem field_sortFields (hnames : data.hasDistinctNames = true)
    (h : ∃ hlt, data.field name = .ok ⟨value, hlt⟩) :
    ∃ hlt, data.sortFields.field name = .ok ⟨value.sortFields, hlt⟩ := by
  obtain ⟨hlt, h⟩ := h
  cases data with
  | obj fields =>
      rw [hasDistinctNames_obj] at hnames
      refine field_obj ?_
      rw [lookup_sortFieldList hnames.1, lookup_of_field h]
      rfl
  | _ => cases h

end Access

/-! ## What sorting keeps -/

/-- Induction over a value: an array after its items, an object after the values of
its fields. -/
theorem induct {motive : Json → Prop} (null : motive .null) (bool : ∀ b, motive (.bool b))
    (int : ∀ n, motive (.int n)) (float : ∀ x, motive (.float x)) (str : ∀ s, motive (.str s))
    (arr : ∀ items, (∀ item ∈ items, motive item) → motive (.arr items))
    (obj : ∀ fields, (∀ f ∈ fields, motive f.2) → motive (.obj fields)) (value : Json) :
    motive value :=
  @Json.rec motive (fun items => ∀ item ∈ items, motive item)
    (fun fields => ∀ f ∈ fields, motive f.2) (fun f => motive f.2) null bool int float str arr obj
    (fun _ h => absurd h List.not_mem_nil)
    (fun _ _ hitem hitems _ h => (List.mem_cons.mp h).elim (· ▸ hitem) (hitems _))
    (fun _ h => absurd h List.not_mem_nil)
    (fun _ _ hfield hfields _ h => (List.mem_cons.mp h).elim (· ▸ hfield) (hfields _))
    (fun _ _ hvalue => hvalue) value

theorem itemsAreReadable_iff {items : List Json} :
    itemsAreReadable items = true ↔ ∀ item ∈ items, item.isReadable = true := by
  induction items with
  | nil => simp [itemsAreReadable]
  | cons item items ih => simp [itemsAreReadable, ih]

theorem fieldsAreReadable_iff {fields : List (Text × Json)} :
    fieldsAreReadable fields = true ↔
      ∀ f ∈ fields, hasSurrogatePair f.1 = false ∧ f.2.isReadable = true := by
  induction fields with
  | nil => simp [fieldsAreReadable]
  | cons f fields ih => simp [fieldsAreReadable, ih]

/-- A field of a sorted object is a field of the object, with its value sorted. -/
theorem exists_of_mem_sortFieldList {fields : List (Text × Json)} {f : Text × Json}
    (h : f ∈ sortFieldList fields) : ∃ g ∈ fields, f = (g.1, g.2.sortFields) := by
  obtain ⟨g, hg, heq⟩ := List.mem_map.mp ((perm_sortFieldList fields).mem_iff.mp h)
  exact ⟨g, hg, heq.symm⟩

theorem hasDistinctNames_sortFields {value : Json} (h : value.hasDistinctNames = true) :
    value.sortFields.hasDistinctNames = true := by
  induction value using induct with
  | arr items ih =>
      rw [hasDistinctNames_arr] at h
      rw [sortFields, sortItems_eq, hasDistinctNames_arr, List.forall_mem_map]
      exact fun item hitem => ih item hitem (h item hitem)
  | obj fields ih =>
      rw [hasDistinctNames_obj] at h
      rw [sortFields, hasDistinctNames_obj]
      refine ⟨nodup_names_sortFieldList h.1, fun f hf => ?_⟩
      obtain ⟨g, hg, rfl⟩ := exists_of_mem_sortFieldList hf
      exact ih g hg (h.2 g hg)
  | _ => exact h

theorem isReadable_sortFields {value : Json} (h : value.isReadable = true) :
    value.sortFields.isReadable = true := by
  induction value using induct with
  | arr items ih =>
      rw [isReadable, itemsAreReadable_iff] at h
      rw [sortFields, isReadable, sortItems_eq, itemsAreReadable_iff, List.forall_mem_map]
      exact fun item hitem => ih item hitem (h item hitem)
  | obj fields ih =>
      rw [isReadable, fieldsAreReadable_iff] at h
      rw [sortFields, isReadable, fieldsAreReadable_iff]
      intro f hf
      obtain ⟨g, hg, rfl⟩ := exists_of_mem_sortFieldList hf
      exact ⟨(h g hg).1, ih g hg (h g hg).2⟩
  | _ => exact h

/-! ## Values in order -/

mutual

/-- Whether the fields of every object in a value stand in the order of their
names. -/
def isSorted : Json → Bool
  | .arr items => itemsAreSorted items
  | .obj fields => ascend (fields.map Prod.fst) && fieldsAreSorted fields
  | _ => true

/-- `isSorted` for the items of an array. -/
def itemsAreSorted : List Json → Bool
  | [] => true
  | item :: items => item.isSorted && itemsAreSorted items

/-- `isSorted` for the values of an object's fields. -/
def fieldsAreSorted : List (Text × Json) → Bool
  | [] => true
  | (_, value) :: fields => value.isSorted && fieldsAreSorted fields

end

theorem itemsAreSorted_iff {items : List Json} :
    itemsAreSorted items = true ↔ ∀ item ∈ items, item.isSorted = true := by
  induction items with
  | nil => simp [itemsAreSorted]
  | cons item items ih => simp [itemsAreSorted, ih]

theorem fieldsAreSorted_iff {fields : List (Text × Json)} :
    fieldsAreSorted fields = true ↔ ∀ f ∈ fields, f.2.isSorted = true := by
  induction fields with
  | nil => simp [fieldsAreSorted]
  | cons f fields ih => simp [fieldsAreSorted, ih]

/-- Sorting the fields of an object changes nothing exactly where it changes none of
the values and the names ascend. -/
theorem sortFieldList_eq_self_iff {fields : List (Text × Json)} (h : (fields.map Prod.fst).Nodup) :
    sortFieldList fields = fields ↔
      (fields.map Prod.fst).Pairwise (· < ·) ∧ ∀ f ∈ fields, f.2.sortFields = f.2 := by
  have hnames : ((fields.map fun f => (f.1, f.2.sortFields)).map Prod.fst).Nodup := by
    rw [List.map_map]
    exact h
  have hvalues : (fields.map fun f => (f.1, f.2.sortFields)) = fields ↔
      ∀ f ∈ fields, f.2.sortFields = f.2 := by
    rw [map_eq_self_iff]
    exact forall₂_congr fun f _ => by simp [Prod.ext_iff]
  rw [← hvalues, sortFieldList_eq]
  constructor
  · intro heq
    have hsorted : (fields.map Prod.fst).Pairwise (· < ·) := by
      have := pairwise_insertionSort_nameLT hnames
      rwa [heq] at this
    refine ⟨hsorted, ?_⟩
    rw [(insertionSort_nameLT_eq_self_iff hnames).mpr (by rwa [List.map_map])] at heq
    exact heq
  · rintro ⟨hsorted, heq⟩
    rw [heq, (insertionSort_nameLT_eq_self_iff h).mpr hsorted]

/-- **Sorting changes nothing exactly where all fields stand in order.** -/
theorem sortFields_eq_self_iff {value : Json} (h : value.hasDistinctNames = true) :
    value.sortFields = value ↔ value.isSorted = true := by
  induction value using induct with
  | arr items ih =>
      rw [hasDistinctNames_arr] at h
      rw [sortFields, isSorted, sortItems_eq, itemsAreSorted_iff, arr.injEq, map_eq_self_iff]
      exact forall₂_congr fun item hitem => ih item hitem (h item hitem)
  | obj fields ih =>
      rw [hasDistinctNames_obj] at h
      rw [sortFields, isSorted, obj.injEq, sortFieldList_eq_self_iff h.1, Bool.and_eq_true,
        ascend_iff, fieldsAreSorted_iff]
      exact and_congr_right fun _ => forall₂_congr fun f hf => ih f hf (h.2 f hf)
  | _ => simp [sortFields, isSorted]

end Json

end HamlFormat
