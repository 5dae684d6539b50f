import HamlFormat.Proofs.Json.Sort
import HamlFormat.Proofs.Tree.Names
import HamlFormat.Proofs.Tree.RoundTrip

/-!
# HamlFormat.Proofs.Tree.Sorted

Trees whose values have their fields in the order of their names. The fields of a
node are found in any order. But the attributes of a tag are fields of an object as
well, and so are those of a value that a parser reported as an object, and these are
read in the order in which they stand. Hence a tree that is written, sorted and read
comes back with these in the order of their names (`ofJson_sortFields`), and is the
same tree exactly where they had that order before (`sorted_eq_self_iff`).
-/

namespace HamlFormat

open Json

/-! ## Values -/

namespace Json

variable {data : Json}

theorem truthy_sortFields (value : Json) : value.sortFields.truthy = value.truthy := by
  cases value with
  | arr items => cases items <;> rfl
  | obj fields =>
      -- an object counts as present if it has a field, and sorting keeps their number
      have hperm := (perm_sortFieldList fields).length_eq
      rw [List.length_map] at hperm
      cases fields with
      | nil => rfl
      | cons f fields =>
          cases hsorted : sortFieldList (f :: fields) with
          | nil => rw [hsorted] at hperm; cases hperm
          | cons g sorted => rw [sortFields, hsorted]; rfl
  | _ => rfl

theorem isText_sortFields (value : Json) (s : Text) :
    value.sortFields.isText s = value.isText s := by
  cases value <;> rfl

theorem isNull_sortFields (value : Json) : value.sortFields.isNull = value.isNull := by
  cases value <;> rfl

theorem isTextual_sortFields {value : Json} (h : value.isTextual = true) :
    value.sortFields.isTextual = true := by
  rwa [isTextual, isText_sortFields, truthy_sortFields]

/-- The fields of a Ruby node are found in any order. -/
theorem IsNode.sortFields {kind : Text} {body line : Json} (h : data.IsNode kind body line)
    (hnames : data.hasDistinctNames = true) :
    data.sortFields.IsNode kind body.sortFields line.sortFields :=
  ⟨get_sortFields hnames h.kind_eq, field_sortFields hnames h.body_eq,
    get_sortFields hnames h.line_eq⟩

/-- The fields of a line of markup are found in any order. -/
theorem IsLine.sortFields {kind : Text} {value line : Json} {children : List Json}
    (h : data.IsLine kind value children line) (hnames : data.hasDistinctNames = true) :
    data.sortFields.IsLine kind value.sortFields (sortItems children) line.sortFields :=
  ⟨get_sortFields hnames h.kind_eq, get_sortFields hnames h.value_eq,
    get_sortFields hnames h.line_eq, get_sortFields hnames h.children_eq⟩

end Json

/-! ## Ruby -/

/-- A token with its values sorted. -/
def Token.sorted (token : Token) : Token :=
  ⟨token.kind.sortFields, token.text, token.line.sortFields⟩

/-- Whether the values of a token are sorted. -/
def Token.isSorted (token : Token) : Bool :=
  token.kind.isSorted && token.line.isSorted

namespace Token

variable {token : Token}

theorem sorted_eq_self_iff (h : token.toJson.hasDistinctNames = true) :
    token.sorted = token ↔ token.isSorted = true := by
  obtain ⟨hkind, -, hline⟩ := hasDistinctNames_body.mp h
  obtain ⟨kind, text, line⟩ := token
  simp [sorted, isSorted, sortFields_eq_self_iff hkind, sortFields_eq_self_iff hline]

theorem ofJson_sortFields (h : token.toJson.hasDistinctNames = true) :
    Token.ofJson token.toJson.sortFields = .ok token.sorted := by
  have hkind : ∃ hlt, token.toJson.field "type" = .ok ⟨token.kind, hlt⟩ := field_node rfl
  have hbody : ∃ hlt, token.toJson.field "body" = .ok ⟨.str token.text, hlt⟩ := field_node rfl
  exact ofJson_of_fields (field_sortFields h hkind) (field_sortFields h hbody)
    (get_sortFields h (get_node_line rfl))

end Token

namespace Ruby

mutual

/-- An expression with the values in it sorted. -/
def sorted : Ruby → Ruby
  | .token t => .token t.sorted
  | .varRef t line => .varRef t.sorted line.sortFields
  | .label text line => .label text.sortFields line.sortFields
  | .symbol name line => .symbol name.sorted line.sortFields
  | .quotedSymbol segments quote line =>
    .quotedSymbol (listSorted segments) quote.sortFields line.sortFields
  | .string segments quote line => .string (listSorted segments) quote.sortFields line.sortFields
  | .interpolation expression line => .interpolation (sorted expression) line.sortFields
  | .array none line => .array none line.sortFields
  | .array (some elements) line => .array (some (listSorted elements)) line.sortFields
  | .binary left operator right line =>
    .binary (sorted left) operator (sorted right) line.sortFields
  | .pair p => .pair (pairSorted p)
  | .pairs ps => .pairs (pairsSorted ps)
  | .bareHash ps line => .bareHash (pairListSorted ps) line.sortFields
  | .hash none line => .hash none line.sortFields
  | .hash (some ps) line => .hash (some (pairsSorted ps)) line.sortFields

/-- `sorted` for expressions in a list. -/
def listSorted : List Ruby → List Ruby
  | [] => []
  | r :: rs => sorted r :: listSorted rs

/-- `sorted` for the two sides of a pair. -/
def pairSorted : Pair → Pair
  | .mk key value line => .mk (sorted key) (sorted value) line.sortFields

/-- `sorted` for the pairs of a hash. -/
def pairsSorted : Pairs → Pairs
  | .mk ps line => .mk (pairListSorted ps) line.sortFields

/-- `sorted` for pairs in a list. -/
def pairListSorted : List Pair → List Pair
  | [] => []
  | p :: ps => pairSorted p :: pairListSorted ps

end

mutual

/-- Whether the values in an expression are sorted. -/
def isSorted : Ruby → Bool
  | .token t => t.isSorted
  | .varRef t line | .symbol t line => t.isSorted && line.isSorted
  | .label text line => text.isSorted && line.isSorted
  | .quotedSymbol segments quote line | .string segments quote line =>
    listIsSorted segments && quote.isSorted && line.isSorted
  | .interpolation expression line => isSorted expression && line.isSorted
  | .array none line | .hash none line => line.isSorted
  | .array (some elements) line => listIsSorted elements && line.isSorted
  | .binary left _ right line => isSorted left && isSorted right && line.isSorted
  | .pair p => pairIsSorted p
  | .pairs ps => pairsIsSorted ps
  | .bareHash ps line => pairListIsSorted ps && line.isSorted
  | .hash (some ps) line => pairsIsSorted ps && line.isSorted

/-- `isSorted` for expressions in a list. -/
def listIsSorted : List Ruby → Bool
  | [] => true
  | r :: rs => isSorted r && listIsSorted rs

/-- `isSorted` for the two sides of a pair. -/
def pairIsSorted : Pair → Bool
  | .mk key value line => isSorted key && isSorted value && line.isSorted

/-- `isSorted` for the pairs of a hash. -/
def pairsIsSorted : Pairs → Bool
  | .mk ps line => pairListIsSorted ps && line.isSorted

/-- `isSorted` for pairs in a list. -/
def pairListIsSorted : List Pair → Bool
  | [] => true
  | p :: ps => pairIsSorted p && pairListIsSorted ps

end

mutual

/-- An expression is left as it is exactly where its values are sorted. -/
theorem sorted_eq_self_iff : ∀ {r : Ruby}, r.toJson.hasDistinctNames = true →
    (r.sorted = r ↔ r.isSorted = true)
  | .token t, h => by
      rw [toJson] at h
      simp [sorted, isSorted, Token.sorted_eq_self_iff h]
  | .varRef t line, h => by
      rw [toJson, hasDistinctNames_body, hasDistinctNames_singleton] at h
      simp [sorted, isSorted, Token.sorted_eq_self_iff h.2.1, sortFields_eq_self_iff h.2.2]
  | .label text line, h => by
      rw [toJson, hasDistinctNames_body] at h
      simp [sorted, isSorted, sortFields_eq_self_iff h.2.1, sortFields_eq_self_iff h.2.2]
  | .symbol name line, h => by
      rw [toJson, hasDistinctNames_body, hasDistinctNames_singleton, hasDistinctNames_wrapper,
        hasDistinctNames_singleton] at h
      simp [sorted, isSorted, Token.sorted_eq_self_iff h.2.1.2, sortFields_eq_self_iff h.2.2]
  | .quotedSymbol segments quote line, h => by
      rw [toJson, hasDistinctNames_quoted, hasDistinctNames_arr] at h
      simp [sorted, isSorted, listSorted_eq_self_iff h.2.1, sortFields_eq_self_iff h.2.2.1,
        sortFields_eq_self_iff h.2.2.2, and_assoc]
  | .string segments quote line, h => by
      rw [toJson, hasDistinctNames_quoted, hasDistinctNames_singleton, hasDistinctNames_wrapper,
        hasDistinctNames_arr] at h
      simp [sorted, isSorted, listSorted_eq_self_iff h.2.1.2, sortFields_eq_self_iff h.2.2.1,
        sortFields_eq_self_iff h.2.2.2, and_assoc]
  | .interpolation expression line, h => by
      rw [toJson, hasDistinctNames_body, hasDistinctNames_singleton] at h
      simp [sorted, isSorted, sorted_eq_self_iff h.2.1, sortFields_eq_self_iff h.2.2]
  | .array none line, h | .hash none line, h => by
      rw [toJson, hasDistinctNames_body] at h
      simp [sorted, isSorted, sortFields_eq_self_iff h.2.2]
  | .array (some elements) line, h => by
      rw [toJson, hasDistinctNames_body, hasDistinctNames_singleton, hasDistinctNames_arr] at h
      simp [sorted, isSorted, listSorted_eq_self_iff h.2.1, sortFields_eq_self_iff h.2.2]
  | .binary left operator right line, h => by
      rw [toJson, hasDistinctNames_body, hasDistinctNames_arr] at h
      simp only [List.forall_mem_cons] at h
      simp [sorted, isSorted, sorted_eq_self_iff h.2.1.1, sorted_eq_self_iff h.2.1.2.2.1,
        sortFields_eq_self_iff h.2.2, and_assoc]
  | .pair p, h => by
      rw [toJson] at h
      simp [sorted, isSorted, pairSorted_eq_self_iff h]
  | .pairs ps, h => by
      rw [toJson] at h
      simp [sorted, isSorted, pairsSorted_eq_self_iff h]
  | .bareHash ps line, h => by
      rw [toJson, hasDistinctNames_body, hasDistinctNames_singleton, hasDistinctNames_arr] at h
      simp [sorted, isSorted, pairListSorted_eq_self_iff h.2.1, sortFields_eq_self_iff h.2.2]
  | .hash (some ps) line, h => by
      rw [toJson, hasDistinctNames_body, hasDistinctNames_singleton] at h
      simp [sorted, isSorted, pairsSorted_eq_self_iff h.2.1, sortFields_eq_self_iff h.2.2]

theorem listSorted_eq_self_iff : ∀ {rs : List Ruby},
    (∀ data ∈ listToJson rs, data.hasDistinctNames = true) →
    (listSorted rs = rs ↔ listIsSorted rs = true)
  | [], _ => by simp [listSorted, listIsSorted]
  | r :: rs, h => by
      rw [listToJson, List.forall_mem_cons] at h
      simp [listSorted, listIsSorted, sorted_eq_self_iff h.1, listSorted_eq_self_iff h.2]

theorem pairSorted_eq_self_iff : ∀ {p : Pair}, (pairToJson p).hasDistinctNames = true →
    (pairSorted p = p ↔ pairIsSorted p = true)
  | .mk key value line, h => by
      rw [pairToJson, hasDistinctNames_body, hasDistinctNames_arr] at h
      simp only [List.forall_mem_cons] at h
      simp [pairSorted, pairIsSorted, sorted_eq_self_iff h.2.1.1, sorted_eq_self_iff h.2.1.2.1,
        sortFields_eq_self_iff h.2.2, and_assoc]

theorem pairsSorted_eq_self_iff : ∀ {ps : Pairs}, (pairsToJson ps).hasDistinctNames = true →
    (pairsSorted ps = ps ↔ pairsIsSorted ps = true)
  | .mk ps line, h => by
      rw [pairsToJson, hasDistinctNames_body, hasDistinctNames_singleton, hasDistinctNames_arr] at h
      simp [pairsSorted, pairsIsSorted, pairListSorted_eq_self_iff h.2.1,
        sortFields_eq_self_iff h.2.2]

theorem pairListSorted_eq_self_iff : ∀ {ps : List Pair},
    (∀ data ∈ pairListToJson ps, data.hasDistinctNames = true) →
    (pairListSorted ps = ps ↔ pairListIsSorted ps = true)
  | [], _ => by simp [pairListSorted, pairListIsSorted]
  | p :: ps, h => by
      rw [pairListToJson, List.forall_mem_cons] at h
      simp [pairListSorted, pairListIsSorted, pairSorted_eq_self_iff h.1,
        pairListSorted_eq_self_iff h.2]

end

/-- No sorted segment is written like the wrapper of a quoted symbol. -/
theorem get_type_of_mem_sortItems {rs : List Ruby} (h : listIsNormal rs = true)
    (hnames : ∀ data ∈ listToJson rs, data.hasDistinctNames = true) :
    ∀ data ∈ sortItems (listToJson rs), ∃ kind, data.get "type" = .ok kind ∧
      kind.isText "xstring" = false := by
  rw [sortItems_eq, List.forall_mem_map]
  intro data hdata
  obtain ⟨kind, hkind, htext⟩ := get_type_of_mem_listToJson h data hdata
  exact ⟨_, get_sortFields (hnames data hdata) hkind, by rw [isText_sortFields, htext]⟩

mutual

/-- **What is written of a normal expression is read with its values sorted**, after
its fields have been sorted. -/
theorem ofJson_sortFields : ∀ {r : Ruby}, r.isNormal = true → r.toJson.hasDistinctNames = true →
    Ruby.ofJson r.toJson.sortFields = .ok r.sorted
  | .token t, h, hnames => by
      obtain ⟨s, name, hkind, hs, hname⟩ := Token.exists_name_of_isExpression h
      have htype : t.toJson.get "type" = .ok (.str s) := hkind ▸ get_type_toJson (.token t)
      rw [toJson] at hnames ⊢
      exact ofJson_token (get_sortFields hnames htype) hs hname (Token.ofJson_sortFields hnames)
  | .varRef t line, _, hnames => by
      rw [toJson] at hnames ⊢
      obtain ⟨-, ht, -⟩ := hasDistinctNames_body.mp hnames
      rw [hasDistinctNames_singleton] at ht
      exact ofJson_varRef ((isNode_node rfl).sortFields hnames) (Token.ofJson_sortFields ht)
  | .label text line, _, hnames => by
      rw [toJson] at hnames ⊢
      exact ofJson_label ((isNode_node rfl).sortFields hnames)
  | .symbol name line, _, hnames => by
      rw [toJson] at hnames ⊢
      obtain ⟨-, hinner, -⟩ := hasDistinctNames_body.mp hnames
      rw [hasDistinctNames_singleton] at hinner
      obtain ⟨-, hname⟩ := hasDistinctNames_wrapper.mp hinner
      rw [hasDistinctNames_singleton] at hname
      exact ofJson_symbol ((isNode_node rfl).sortFields hnames)
        ((isNode_obj _ _).sortFields hinner) (Token.ofJson_sortFields hname)
  | .quotedSymbol segments quote line, h, hnames => by
      rw [isNormal, Bool.and_eq_true] at h
      rw [toJson] at hnames ⊢
      obtain ⟨-, hsegments, -⟩ := hasDistinctNames_quoted.mp hnames
      rw [hasDistinctNames_arr] at hsegments
      -- the segments stand in the body itself, which a wrapper at its start would hide
      exact ofJson_quotedSymbol ((isNode_node rfl).sortFields hnames)
        (get_type_of_mem_sortItems h.1 hsegments) (mapM_sortItems h.1 hsegments)
        (get_sortFields hnames (get_node (by decide))) ((truthy_sortFields quote).trans h.2)
  | .string segments quote line, h, hnames => by
      rw [isNormal, Bool.and_eq_true] at h
      rw [toJson] at hnames ⊢
      obtain ⟨-, hinner, -⟩ := hasDistinctNames_quoted.mp hnames
      rw [hasDistinctNames_singleton] at hinner
      obtain ⟨-, hsegments⟩ := hasDistinctNames_wrapper.mp hinner
      rw [hasDistinctNames_arr] at hsegments
      exact ofJson_string ((isNode_node rfl).sortFields hnames)
        ((isNode_obj _ _).sortFields hinner) (mapM_sortItems h.1 hsegments)
        (get_sortFields hnames (get_node (by decide))) ((truthy_sortFields quote).trans h.2)
  | .interpolation expression line, h, hnames => by
      rw [isNormal] at h
      rw [toJson] at hnames ⊢
      obtain ⟨-, hexpression, -⟩ := hasDistinctNames_body.mp hnames
      rw [hasDistinctNames_singleton] at hexpression
      exact ofJson_interpolation ((isNode_node rfl).sortFields hnames)
        (ofJson_sortFields h hexpression)
  | .array none line, _, hnames => by
      rw [toJson] at hnames ⊢
      exact ofJson_array_none ((isNode_node rfl).sortFields hnames)
  | .array (some elements) line, h, hnames => by
      rw [isNormal] at h
      rw [toJson] at hnames ⊢
      obtain ⟨-, helements, -⟩ := hasDistinctNames_body.mp hnames
      rw [hasDistinctNames_singleton, hasDistinctNames_arr] at helements
      exact ofJson_array_some ((isNode_node rfl).sortFields hnames) (mapM_sortItems h helements)
  | .binary left operator right line, h, hnames => by
      rw [isNormal, Bool.and_eq_true] at h
      rw [toJson] at hnames ⊢
      obtain ⟨-, hsides, -⟩ := hasDistinctNames_body.mp hnames
      simp only [hasDistinctNames_arr, List.forall_mem_cons] at hsides
      exact ofJson_binary ((isNode_node rfl).sortFields hnames) (ofJson_sortFields h.1 hsides.1)
        (ofJson_sortFields h.2 hsides.2.2.1)
  | .pair p, h, hnames => ofJson_pair_sortFields h hnames
  | .pairs ps, h, hnames => ofJson_pairs_sortFields h hnames
  | .bareHash ps line, h, hnames => by
      rw [isNormal] at h
      rw [toJson] at hnames ⊢
      obtain ⟨-, hps, -⟩ := hasDistinctNames_body.mp hnames
      rw [hasDistinctNames_singleton, hasDistinctNames_arr] at hps
      exact ofJson_bareHash ((isNode_node rfl).sortFields hnames) (mapM_pair_sortItems h hps)
  | .hash none line, _, hnames => by
      rw [toJson] at hnames ⊢
      exact ofJson_hash_none ((isNode_node rfl).sortFields hnames)
  | .hash (some ps) line, h, hnames => by
      rw [isNormal] at h
      rw [toJson] at hnames ⊢
      obtain ⟨-, hps, -⟩ := hasDistinctNames_body.mp hnames
      rw [hasDistinctNames_singleton] at hps
      exact ofJson_hash_some ((isNode_node rfl).sortFields hnames) (ofJson_pairs_sortFields h hps)

theorem mapM_sortItems : ∀ {rs : List Ruby}, listIsNormal rs = true →
    (∀ data ∈ listToJson rs, data.hasDistinctNames = true) →
    (sortItems (listToJson rs)).mapM Ruby.ofJson = .ok (listSorted rs)
  | [], _, _ => rfl
  | r :: rs, h, hnames => by
      rw [listIsNormal, Bool.and_eq_true] at h
      rw [listToJson, List.forall_mem_cons] at hnames
      rw [listToJson, sortItems, List.mapM_cons, ofJson_sortFields h.1 hnames.1,
        mapM_sortItems h.2 hnames.2]
      rfl

theorem ofJson_pair_sortFields : ∀ {p : Pair}, pairIsNormal p = true →
    (pairToJson p).hasDistinctNames = true →
    Ruby.ofJson (pairToJson p).sortFields = .ok (.pair (pairSorted p))
  | .mk key value line, h, hnames => by
      rw [pairIsNormal, Bool.and_eq_true] at h
      rw [pairToJson] at hnames ⊢
      obtain ⟨-, hsides, -⟩ := hasDistinctNames_body.mp hnames
      simp only [hasDistinctNames_arr, List.forall_mem_cons] at hsides
      exact ofJson_pair ((isNode_node rfl).sortFields hnames) (ofJson_sortFields h.1 hsides.1)
        (ofJson_sortFields h.2 hsides.2.1)

theorem ofJson_pairs_sortFields : ∀ {ps : Pairs}, pairsIsNormal ps = true →
    (pairsToJson ps).hasDistinctNames = true →
    Ruby.ofJson (pairsToJson ps).sortFields = .ok (.pairs (pairsSorted ps))
  | .mk ps line, h, hnames => by
      rw [pairsIsNormal] at h
      rw [pairsToJson] at hnames ⊢
      obtain ⟨-, hps, -⟩ := hasDistinctNames_body.mp hnames
      rw [hasDistinctNames_singleton, hasDistinctNames_arr] at hps
      exact ofJson_pairs ((isNode_node rfl).sortFields hnames) (mapM_pair_sortItems h hps)

theorem mapM_pair_sortItems : ∀ {ps : List Pair}, pairListIsNormal ps = true →
    (∀ data ∈ pairListToJson ps, data.hasDistinctNames = true) →
    (sortItems (pairListToJson ps)).mapM (fun node => do (← Ruby.ofJson node).asPair) =
      .ok (pairListSorted ps)
  | [], _, _ => rfl
  | p :: ps, h, hnames => by
      rw [pairListIsNormal, Bool.and_eq_true] at h
      rw [pairListToJson, List.forall_mem_cons] at hnames
      rw [pairListToJson, sortItems, List.mapM_cons, ofJson_pair_sortFields h.1 hnames.1,
        mapM_pair_sortItems h.2 hnames.2]
      rfl

end

end Ruby

/-! ## Markup -/

/-- A tag with its attributes in the order of their names and its values sorted. -/
def Tag.sorted (tag : Tag) : Tag :=
  { tag with
    name := tag.name.sortFields
    attributes := tag.attributes.insertionSort NameLT
    value := tag.value.sortFields
    dynamic := ⟨tag.dynamic.old.sortFields, tag.dynamic.new.sortFields⟩
    objectRef := tag.objectRef.sortFields }

/-- Whether the attributes of a tag stand in the order of their names and its values
are sorted. -/
def Tag.isSorted (tag : Tag) : Bool :=
  ascend (tag.attributes.map Prod.fst) && tag.name.isSorted && tag.value.isSorted &&
    tag.dynamic.old.isSorted && tag.dynamic.new.isSorted && tag.objectRef.isSorted

namespace Tag

variable {tag : Tag}

theorem sorted_eq_self_iff (h : tag.toJson.hasDistinctNames = true) :
    tag.sorted = tag ↔ tag.isSorted = true := by
  obtain ⟨hattributes, hname, hvalue, hold, hnew, hreference⟩ := hasDistinctNames_toJson_iff.mp h
  obtain ⟨name, attributes, selfClosing, trimOutside, trimInside, value, parse, ⟨old, new⟩,
    objectRef⟩ := tag
  simp only [sorted, isSorted, Tag.mk.injEq, DynamicAttributes.mk.injEq, Bool.and_eq_true,
    insertionSort_nameLT_eq_self_iff hattributes, ascend_iff, sortFields_eq_self_iff hname,
    sortFields_eq_self_iff hvalue, sortFields_eq_self_iff hold, sortFields_eq_self_iff hnew,
    sortFields_eq_self_iff hreference]
  tauto

theorem isNormal_sorted (h : tag.isNormal = true) : tag.sorted.isNormal = true := by
  simpa only [isNormal, sorted, isOptional, truthy_sortFields, isNull_sortFields,
    isText_sortFields] using h

/-- Sorted fields of attributes are the fields of sorted attributes. -/
theorem sortFieldList_attributes (attributes : List (Text × Text)) :
    sortFieldList (attributes.map fun a => (a.1, .str a.2)) =
      (attributes.insertionSort NameLT).map fun a => (a.1, .str a.2) := by
  rw [sortFieldList_eq, List.map_map]
  exact (List.map_insertionSort NameLT NameLT (fun a => (a.1, Json.str a.2)) attributes
    fun _ _ _ _ => Iff.rfl).symm

end Tag

/-- The values of a tag are found in any order, its attributes in the order of their
names. -/
theorem Json.IsTag.sortFields {data : Json} {tag : Tag} (h : data.IsTag tag)
    (hnames : data.hasDistinctNames = true) : data.sortFields.IsTag tag.sorted where
  name_eq := get_sortFields hnames h.name_eq
  attributes_eq := by
    rw [get_sortFields hnames h.attributes_eq, Json.sortFields, Tag.sortFieldList_attributes]
    rfl
  selfClosing_eq := get_sortFields hnames h.selfClosing_eq
  trimOutside_eq := get_sortFields hnames h.trimOutside_eq
  trimInside_eq := get_sortFields hnames h.trimInside_eq
  value_eq := get_sortFields hnames h.value_eq
  parse_eq := get_sortFields hnames h.parse_eq
  dynamic_eq := by
    obtain ⟨dynamic, hdynamic, hold, hnew⟩ := h.dynamic_eq
    have hdistinct := hasDistinctNames_of_get hnames hdynamic
    exact ⟨_, get_sortFields hnames hdynamic, get_sortFields hdistinct hold,
      get_sortFields hdistinct hnew⟩
  objectRef_eq := get_sortFields hnames h.objectRef_eq

namespace Markup

mutual

/-- Markup with the values in it sorted. -/
def sorted : Markup → Markup
  | .root children line => .root (listSorted children) line.sortFields
  | .tag t children line => .tag t.sorted (listSorted children) line.sortFields
  | .comment c children line =>
    .comment ⟨c.revealed, c.conditional.sortFields, c.text.sortFields⟩ (listSorted children)
      line.sortFields
  | .doctype d line =>
    .doctype ⟨d.kind.sortFields, d.version.sortFields, d.encoding.sortFields⟩ line.sortFields
  | .hamlComment text children line =>
    .hamlComment text.sortFields (listSorted children) line.sortFields
  | .plain text line => .plain text.sortFields line.sortFields
  | .script text children line => .script text.sortFields (listSorted children) line.sortFields
  | .silentScript s children line =>
    .silentScript ⟨s.text.sortFields, s.keyword.sortFields⟩ (listSorted children) line.sortFields

/-- `sorted` for lines in a list. -/
def listSorted : List Markup → List Markup
  | [] => []
  | m :: ms => sorted m :: listSorted ms

end

/-- Whether the values of a line itself are sorted. -/
def isSorted : Markup → Bool
  | .root _ line => line.isSorted
  | .tag t _ line => t.isSorted && line.isSorted
  | .comment c _ line => c.conditional.isSorted && c.text.isSorted && line.isSorted
  | .doctype d line =>
    d.kind.isSorted && d.version.isSorted && d.encoding.isSorted && line.isSorted
  | .hamlComment text _ line | .plain text line | .script text _ line =>
    text.isSorted && line.isSorted
  | .silentScript s _ line => s.text.isSorted && s.keyword.isSorted && line.isSorted

mutual

/-- Markup is left as it is exactly where the values of all lines are sorted. -/
theorem sorted_eq_self_iff : ∀ {m : Markup}, m.toJson.hasDistinctNames = true →
    (m.sorted = m ↔ m.all isSorted = true)
  | .root children line, h => by
      rw [toJson, hasDistinctNames_nodeJson] at h
      simp [sorted, all, isSorted, listSorted_eq_self_iff h.2.1, sortFields_eq_self_iff h.2.2,
        and_comm]
  | .tag t children line, h => by
      rw [toJson, hasDistinctNames_nodeJson] at h
      simp only [sorted, all, isSorted, tag.injEq, Bool.and_eq_true, Tag.sorted_eq_self_iff h.1,
        listSorted_eq_self_iff h.2.1, sortFields_eq_self_iff h.2.2]
      tauto
  | .comment ⟨revealed, conditional, text⟩ children line, h => by
      rw [toJson, hasDistinctNames_nodeJson, Comment.hasDistinctNames_toJson_iff] at h
      simp only [sorted, all, isSorted, comment.injEq, Comment.mk.injEq, Bool.and_eq_true,
        sortFields_eq_self_iff h.1.1, sortFields_eq_self_iff h.1.2, listSorted_eq_self_iff h.2.1,
        sortFields_eq_self_iff h.2.2]
      tauto
  | .doctype ⟨kind, version, encoding⟩ line, h => by
      rw [toJson, hasDistinctNames_nodeJson, Doctype.hasDistinctNames_toJson_iff] at h
      simp only [sorted, all, isSorted, doctype.injEq, Doctype.mk.injEq, Bool.and_eq_true,
        sortFields_eq_self_iff h.1.1, sortFields_eq_self_iff h.1.2.1,
        sortFields_eq_self_iff h.1.2.2, sortFields_eq_self_iff h.2.2]
      tauto
  | .hamlComment text children line, h | .script text children line, h => by
      rw [toJson, hasDistinctNames_nodeJson, hasDistinctNames_text] at h
      simp only [sorted, all, isSorted, hamlComment.injEq, script.injEq, Bool.and_eq_true,
        sortFields_eq_self_iff h.1, listSorted_eq_self_iff h.2.1, sortFields_eq_self_iff h.2.2]
      tauto
  | .plain text line, h => by
      rw [toJson, hasDistinctNames_nodeJson, hasDistinctNames_text] at h
      simp [sorted, all, isSorted, sortFields_eq_self_iff h.1, sortFields_eq_self_iff h.2.2]
  | .silentScript ⟨text, keyword⟩ children line, h => by
      rw [toJson, hasDistinctNames_nodeJson, Statement.hasDistinctNames_toJson_iff] at h
      simp only [sorted, all, isSorted, silentScript.injEq, Statement.mk.injEq, Bool.and_eq_true,
        sortFields_eq_self_iff h.1.1, sortFields_eq_self_iff h.1.2, listSorted_eq_self_iff h.2.1,
        sortFields_eq_self_iff h.2.2]
      tauto

theorem listSorted_eq_self_iff : ∀ {ms : List Markup},
    (∀ data ∈ listToJson ms, data.hasDistinctNames = true) →
    (listSorted ms = ms ↔ listAll isSorted ms = true)
  | [], _ => by simp [listSorted, listAll]
  | m :: ms, h => by
      rw [listToJson, List.forall_mem_cons] at h
      simp [listSorted, listAll, sorted_eq_self_iff h.1, listSorted_eq_self_iff h.2]

end

mutual

/-- **What is written of normal markup is read with its values sorted**, after its
fields have been sorted. -/
theorem ofJson_sortFields : ∀ {m : Markup}, m.all isNormal = true →
    m.toJson.hasDistinctNames = true → Markup.ofJson m.toJson.sortFields = .ok m.sorted
  | .root children line, h, hnames => by
      rw [all, Bool.and_eq_true] at h
      rw [toJson] at hnames ⊢
      obtain ⟨-, hchildren, -⟩ := hasDistinctNames_nodeJson.mp hnames
      exact ofJson_root ((isLine_nodeJson _ _ _ _).sortFields hnames)
        (mapM_sortItems h.2 hchildren)
  | .tag t children line, h, hnames => by
      rw [all, Bool.and_eq_true] at h
      rw [toJson] at hnames ⊢
      obtain ⟨ht, hchildren, -⟩ := hasDistinctNames_nodeJson.mp hnames
      exact ofJson_tag ((isLine_nodeJson _ _ _ _).sortFields hnames)
        (Tag.ofJson_of_isNormal ((isTag_toJson t).sortFields ht) (Tag.isNormal_sorted h.1))
        (mapM_sortItems h.2 hchildren)
  | .comment c children line, h, hnames => by
      rw [all, Bool.and_eq_true] at h
      rw [toJson] at hnames ⊢
      obtain ⟨hc, hchildren, -⟩ := hasDistinctNames_nodeJson.mp hnames
      exact ofJson_comment ((isLine_nodeJson _ _ _ _).sortFields hnames)
        (get_sortFields hc (get_obj _ _)) (get_sortFields hc (get_obj _ _))
        (get_sortFields hc (get_obj _ _)) (mapM_sortItems h.2 hchildren)
  | .doctype d line, _, hnames => by
      rw [toJson] at hnames ⊢
      obtain ⟨hd, -⟩ := hasDistinctNames_nodeJson.mp hnames
      exact ofJson_doctype ((isLine_nodeJson _ _ _ _).sortFields hnames)
        (get_sortFields hd (get_obj _ _)) (get_sortFields hd (get_obj _ _))
        (get_sortFields hd (get_obj _ _))
  | .hamlComment text children line, h, hnames => by
      rw [all, Bool.and_eq_true] at h
      rw [toJson] at hnames ⊢
      obtain ⟨htext, hchildren, -⟩ := hasDistinctNames_nodeJson.mp hnames
      exact ofJson_hamlComment ((isLine_nodeJson _ _ _ _).sortFields hnames)
        (get_sortFields htext (get_text text [])) (mapM_sortItems h.2 hchildren)
  | .plain text line, h, hnames => by
      rw [toJson] at hnames ⊢
      obtain ⟨htext, -⟩ := hasDistinctNames_nodeJson.mp hnames
      rw [ofJson_plain ((isLine_nodeJson _ _ _ _).sortFields hnames)
        (get_sortFields htext (get_text text [])),
        orElse_empty_of_isTextual (isTextual_sortFields h)]
      rfl
  | .script text children line, h, hnames => by
      rw [all, Bool.and_eq_true] at h
      rw [toJson] at hnames ⊢
      obtain ⟨htext, hchildren, -⟩ := hasDistinctNames_nodeJson.mp hnames
      rw [ofJson_script ((isLine_nodeJson _ _ _ _).sortFields hnames)
        (get_sortFields htext (get_text text [])) (mapM_sortItems h.2 hchildren),
        orElse_empty_of_isTextual (isTextual_sortFields h.1)]
      rfl
  | .silentScript s children line, h, hnames => by
      rw [all, Bool.and_eq_true] at h
      rw [toJson] at hnames ⊢
      obtain ⟨hs, hchildren, -⟩ := hasDistinctNames_nodeJson.mp hnames
      rw [ofJson_silentScript ((isLine_nodeJson _ _ _ _).sortFields hnames)
        (get_sortFields hs (get_text _ _)) (get_sortFields hs (get_obj _ _))
        (mapM_sortItems h.2 hchildren), orElse_empty_of_isTextual (isTextual_sortFields h.1)]
      rfl

theorem mapM_sortItems : ∀ {ms : List Markup}, listAll isNormal ms = true →
    (∀ data ∈ listToJson ms, data.hasDistinctNames = true) →
    (sortItems (listToJson ms)).mapM Markup.ofJson = .ok (listSorted ms)
  | [], _, _ => rfl
  | m :: ms, h, hnames => by
      rw [listAll, Bool.and_eq_true] at h
      rw [listToJson, List.forall_mem_cons] at hnames
      rw [listToJson, sortItems, List.mapM_cons, ofJson_sortFields h.1 hnames.1,
        mapM_sortItems h.2 hnames.2]
      rfl

end

end Markup

end HamlFormat
