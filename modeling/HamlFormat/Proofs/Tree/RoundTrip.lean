import HamlFormat.Proofs.Tree.Kinds
import HamlFormat.Proofs.Tree.Normal
import Mathlib.Data.List.Basic

/-!
# HamlFormat.Proofs.Tree.RoundTrip

Trees written as data and read back. What is written of a normal tree is read as
that tree, line numbers included. As every tree that is read is normal, a tree
that was read once is kept by writing and reading from then on
(`ofJson_toJson_of_ofJson`).
-/

namespace HamlFormat

/-! ## Ruby -/

/-- A token is read back, whatever its kind. -/
theorem Token.ofJson_toJson (token : Token) : Token.ofJson token.toJson = .ok token :=
  Token.ofJson_of_fields (Json.field_node rfl) (Json.field_node rfl) (Json.get_node_line rfl)

theorem Token.exists_name_of_isExpression {token : Token} (h : token.isExpression = true) :
    ∃ s name, token.kind = .str s ∧ s.toString? = some name ∧ name ∈ Token.kinds := by
  obtain ⟨kind, text, line⟩ := token
  cases kind with
  | str s =>
      cases hs : s.toString? with
      | none => simp [isExpression, hs] at h
      | some name => exact ⟨s, name, rfl, hs, by simpa [isExpression, hs] using h⟩
  | _ => cases h

namespace Ruby

/-- The kind that an expression is written with. -/
def kind : Ruby → Json
  | .token t => t.kind
  | .varRef _ _ => .str "var_ref"
  | .label _ _ => .str "@label"
  | .symbol _ _ => .str "symbol_literal"
  | .quotedSymbol _ _ _ => .str "dyna_symbol"
  | .string _ _ _ => .str "string_literal"
  | .interpolation _ _ => .str "string_embexpr"
  | .array _ _ => .str "array"
  | .binary _ _ _ _ => .str "binary"
  | .pair _ => .str "assoc_new"
  | .pairs _ => .str "assoclist_from_args"
  | .bareHash _ _ => .str "bare_assoc_hash"
  | .hash _ _ => .str "hash"

theorem get_type_toJson (r : Ruby) : r.toJson.get "type" = .ok r.kind := by
  cases r with
  | array elements _ => cases elements <;> exact Json.get_node (by decide)
  | hash body _ => cases body <;> exact Json.get_node (by decide)
  | pair p => cases p; exact Json.get_node (by decide)
  | pairs ps => cases ps; exact Json.get_node (by decide)
  | _ => exact Json.get_node (by decide)

/-- A normal expression is written with the name of a kind, which is neither that
of a markup node nor that of a wrapper. -/
theorem exists_name_of_isNormal {r : Ruby} (h : r.isNormal = true) :
    ∃ s name, r.kind = .str s ∧ s.toString? = some name ∧ name ∉ "xstring" :: Markup.kinds := by
  have hwritten : ∀ name : String, name ∉ "xstring" :: Markup.kinds →
      ∃ s n, Json.str (.ofString name) = .str s ∧ s.toString? = some n ∧
        n ∉ "xstring" :: Markup.kinds :=
    fun name hname => ⟨_, name, rfl, Text.toString?_ofString name, hname⟩
  cases r with
  | token t =>
      obtain ⟨s, name, hkind, hs, hname⟩ := Token.exists_name_of_isExpression h
      have hdisjoint : ∀ name ∈ Token.kinds, name ∉ "xstring" :: Markup.kinds := by decide
      exact ⟨s, name, hkind, hs, hdisjoint name hname⟩
  | _ => exact hwritten _ (by decide)

/-- No normal expression is written like the wrapper of a quoted symbol. -/
theorem isText_xstring_of_isNormal {r : Ruby} (h : r.isNormal = true) :
    r.kind.isText "xstring" = false := by
  obtain ⟨s, name, hkind, hs, hname⟩ := exists_name_of_isNormal h
  rw [hkind, Json.isText, beq_eq_false_iff_ne]
  rintro rfl
  rw [Text.toString?_ofString] at hs
  cases hs
  exact hname List.mem_cons_self

theorem get_type_of_mem_listToJson {rs : List Ruby} (h : listIsNormal rs = true) :
    ∀ data ∈ listToJson rs, ∃ kind, data.get "type" = .ok kind ∧
      kind.isText "xstring" = false := by
  induction rs with
  | nil => exact fun _ hdata => nomatch hdata
  | cons r rs ih =>
      rw [listIsNormal, Bool.and_eq_true] at h
      rw [listToJson, List.forall_mem_cons]
      exact ⟨⟨r.kind, get_type_toJson r, isText_xstring_of_isNormal h.1⟩, ih h.2⟩

mutual

/-- **What is written of a normal expression is read as that expression.** -/
theorem ofJson_toJson : ∀ {r : Ruby}, r.isNormal = true → Ruby.ofJson r.toJson = .ok r
  | .token t, h => by
      obtain ⟨s, name, hkind, hs, hname⟩ := Token.exists_name_of_isExpression h
      have htype : t.toJson.get "type" = .ok (.str s) := hkind ▸ get_type_toJson (.token t)
      rw [toJson]
      exact ofJson_token htype hs hname t.ofJson_toJson
  | .varRef t line, _ => by
      rw [toJson]
      exact ofJson_varRef (Json.isNode_node rfl) t.ofJson_toJson
  | .label text line, _ => by
      rw [toJson]
      exact ofJson_label (Json.isNode_node rfl)
  | .symbol name line, _ => by
      rw [toJson]
      exact ofJson_symbol (Json.isNode_node rfl) (Json.isNode_obj _ _) name.ofJson_toJson
  | .quotedSymbol segments quote line, h => by
      rw [isNormal, Bool.and_eq_true] at h
      rw [toJson]
      exact ofJson_quotedSymbol (Json.isNode_node rfl) (get_type_of_mem_listToJson h.1)
        (mapM_listToJson h.1) (Json.get_node (by decide)) h.2
  | .string segments quote line, h => by
      rw [isNormal, Bool.and_eq_true] at h
      rw [toJson]
      exact ofJson_string (Json.isNode_node rfl) (Json.isNode_obj _ _) (mapM_listToJson h.1)
        (Json.get_node (by decide)) h.2
  | .interpolation expression line, h => by
      rw [isNormal] at h
      rw [toJson]
      exact ofJson_interpolation (Json.isNode_node rfl) (ofJson_toJson h)
  | .array none line, _ => by
      rw [toJson]
      exact ofJson_array_none (Json.isNode_node rfl)
  | .array (some elements) line, h => by
      rw [isNormal] at h
      rw [toJson]
      exact ofJson_array_some (Json.isNode_node rfl) (mapM_listToJson h)
  | .binary left operator right line, h => by
      rw [isNormal, Bool.and_eq_true] at h
      rw [toJson]
      exact ofJson_binary (Json.isNode_node rfl) (ofJson_toJson h.1) (ofJson_toJson h.2)
  | .pair p, h => ofJson_pairToJson h
  | .pairs ps, h => ofJson_pairsToJson h
  | .bareHash ps line, h => by
      rw [isNormal] at h
      rw [toJson]
      exact ofJson_bareHash (Json.isNode_node rfl) (mapM_pairListToJson h)
  | .hash none line, _ => by
      rw [toJson]
      exact ofJson_hash_none (Json.isNode_node rfl)
  | .hash (some ps) line, h => by
      rw [isNormal] at h
      rw [toJson]
      exact ofJson_hash_some (Json.isNode_node rfl) (ofJson_pairsToJson h)

theorem mapM_listToJson : ∀ {rs : List Ruby}, listIsNormal rs = true →
    (listToJson rs).mapM Ruby.ofJson = .ok rs
  | [], _ => rfl
  | r :: rs, h => by
      rw [listIsNormal, Bool.and_eq_true] at h
      rw [listToJson, List.mapM_cons, ofJson_toJson h.1, mapM_listToJson h.2]
      rfl

theorem ofJson_pairToJson : ∀ {p : Pair}, pairIsNormal p = true →
    Ruby.ofJson (pairToJson p) = .ok (.pair p)
  | .mk key value line, h => by
      rw [pairIsNormal, Bool.and_eq_true] at h
      rw [pairToJson]
      exact ofJson_pair (Json.isNode_node rfl) (ofJson_toJson h.1) (ofJson_toJson h.2)

theorem ofJson_pairsToJson : ∀ {ps : Pairs}, pairsIsNormal ps = true →
    Ruby.ofJson (pairsToJson ps) = .ok (.pairs ps)
  | .mk ps line, h => by
      rw [pairsIsNormal] at h
      rw [pairsToJson]
      exact ofJson_pairs (Json.isNode_node rfl) (mapM_pairListToJson h)

theorem mapM_pairListToJson : ∀ {ps : List Pair}, pairListIsNormal ps = true →
    (pairListToJson ps).mapM (fun node => do (← Ruby.ofJson node).asPair) = .ok ps
  | [], _ => rfl
  | p :: ps, h => by
      rw [pairListIsNormal, Bool.and_eq_true] at h
      rw [pairListToJson, List.mapM_cons, ofJson_pairToJson h.1, mapM_pairListToJson h.2]
      rfl

end

end Ruby

/-! ## Markup -/

theorem Json.orElse_of_truthy {value default : Json} (h : value.truthy = true) :
    value.orElse default = value := by
  rw [orElse, if_pos h]

theorem Json.orElse_null_of_isOptional {value : Json} (h : value.isOptional = true) :
    value.orElse .null = value := by
  rw [isOptional, Bool.or_eq_true] at h
  rw [orElse]
  cases htruthy : value.truthy with
  | true => rfl
  | false =>
      rw [htruthy] at h
      cases value with
      | null => rfl
      | _ => simp [isNull] at h

theorem Json.orElse_empty_of_isTextual {value : Json} (h : value.isTextual = true) :
    value.orElse (.str "") = value := by
  rw [isTextual, Bool.or_eq_true] at h
  rw [orElse]
  cases htruthy : value.truthy with
  | true => rfl
  | false =>
      rw [htruthy] at h
      cases value with
      | str s =>
          have hs : s = .ofString "" := by simpa [isText] using h
          rw [hs]
          rfl
      | _ => simp [isText] at h

/-- A normal tag needs none of the defaults. -/
theorem Tag.ofJson_of_isNormal {data : Json} {tag : Tag} (hdata : data.IsTag tag)
    (h : tag.isNormal = true) : Tag.ofJson data = .ok tag := by
  simp only [isNormal, Bool.and_eq_true, Bool.not_eq_true'] at h
  obtain ⟨⟨⟨hname, hvalue⟩, hreference⟩, hnil⟩ := h
  exact Tag.ofJson_of_isTag hdata (Json.orElse_of_truthy hname)
    (Json.orElse_null_of_isOptional hvalue) (Json.orElse_null_of_isOptional hreference) hnil

namespace Markup

/-- The text of a line stands first in what is written of its values. -/
theorem get_text (text : Json) (fields : List (Text × Json)) :
    (Json.obj (("text", text) :: fields)).get "text" = .ok text :=
  Json.get_obj _ _

mutual

/-- **What is written of normal markup is read as that markup.** -/
theorem ofJson_toJson : ∀ {m : Markup}, m.all isNormal = true → Markup.ofJson m.toJson = .ok m
  | .root children line, h => by
      rw [all, Bool.and_eq_true] at h
      rw [toJson]
      exact ofJson_root (Json.isLine_nodeJson _ _ _ _) (mapM_listToJson h.2)
  | .tag t children line, h => by
      rw [all, Bool.and_eq_true] at h
      rw [toJson]
      exact ofJson_tag (Json.isLine_nodeJson _ _ _ _)
        (Tag.ofJson_of_isNormal (Json.isTag_toJson t) h.1) (mapM_listToJson h.2)
  | .comment c children line, h => by
      rw [all, Bool.and_eq_true] at h
      rw [toJson]
      exact ofJson_comment (Json.isLine_nodeJson _ _ _ _) (Json.get_obj _ _) (Json.get_obj _ _)
        (Json.get_obj _ _) (mapM_listToJson h.2)
  | .doctype d line, _ => by
      rw [toJson]
      exact ofJson_doctype (Json.isLine_nodeJson _ _ _ _) (Json.get_obj _ _) (Json.get_obj _ _)
        (Json.get_obj _ _)
  | .hamlComment text children line, h => by
      rw [all, Bool.and_eq_true] at h
      rw [toJson]
      exact ofJson_hamlComment (Json.isLine_nodeJson _ _ _ _) (Json.get_obj _ _)
        (mapM_listToJson h.2)
  | .plain text line, h => by
      rw [toJson, ofJson_plain (Json.isLine_nodeJson _ _ _ _) (get_text text []),
        Json.orElse_empty_of_isTextual h]
  | .script text children line, h => by
      rw [all, Bool.and_eq_true] at h
      rw [toJson, ofJson_script (Json.isLine_nodeJson _ _ _ _) (get_text text [])
        (mapM_listToJson h.2), Json.orElse_empty_of_isTextual h.1]
  | .silentScript statement children line, h => by
      rw [all, Bool.and_eq_true] at h
      rw [toJson, Statement.toJson, ofJson_silentScript (Json.isLine_nodeJson _ _ _ _)
        (get_text _ _) (Json.get_obj _ _) (mapM_listToJson h.2), Json.orElse_empty_of_isTextual h.1]
      rfl

theorem mapM_listToJson : ∀ {ms : List Markup}, listAll isNormal ms = true →
    (listToJson ms).mapM Markup.ofJson = .ok ms
  | [], _ => rfl
  | m :: ms, h => by
      rw [listAll, Bool.and_eq_true] at h
      rw [listToJson, List.mapM_cons, ofJson_toJson h.1, mapM_listToJson h.2]
      rfl

end

end Markup

/-! ## Trees -/

namespace Node

theorem exists_name_markup (m : Markup) : ∃ name : String,
    m.toJson.get "type" = .ok (.str (.ofString name)) ∧ Markup.kinds.contains name = true := by
  cases m <;> exact ⟨_, Json.get_node (by decide), by decide⟩

/-- What is written as a markup node is read as one. -/
theorem ofJson_markup {m : Markup} (h : m.all Markup.isNormal = true) :
    Node.ofJson m.toJson = .ok (.markup m) := by
  obtain ⟨name, htype, hname⟩ := exists_name_markup m
  exact ofJson_of_markup htype (Text.toString?_ofString name) hname (Markup.ofJson_toJson h)

/-- What is written as a Ruby node is read as one. -/
theorem ofJson_ruby {r : Ruby} (h : r.isNormal = true) :
    Node.ofJson r.toJson = .ok (.ruby r) := by
  obtain ⟨s, name, hkind, hs, hname⟩ := Ruby.exists_name_of_isNormal h
  rw [List.mem_cons, not_or] at hname
  exact ofJson_of_ruby (hkind ▸ Ruby.get_type_toJson r) hs hname.2 (Ruby.ofJson_toJson h)

/-- **Writing and reading keep every tree that was read.** A tree that was read from
any data is read again from what is written of it. So is every normal tree, and
the trees that are read from data without double names, such as a JSON text
holds, are normal. -/
theorem ofJson_toJson_of_ofJson :
    (∀ data node, Node.ofJson data = .ok node → Node.ofJson node.toJson = .ok node) ∧
    (∀ node : Node, node.isNormal = true → Node.ofJson node.toJson = .ok node) ∧
    (∀ data node, data.hasDistinctNames = true → Node.ofJson data = .ok node →
      node.isNormal = true) ∧
    (∀ text node, Node.read text = .ok node → node.isNormal = true) := by
  refine ⟨fun data node h => ?_, fun node h => ?_, fun _ _ => isNormal_of_ofJson,
    fun text node h => ?_⟩
  · obtain ⟨m, rfl, hm⟩ | ⟨r, rfl, hr⟩ := cases_of_ofJson h
    · exact ofJson_markup (Markup.all_of_ofJson hm).1
    · exact ofJson_ruby (Ruby.isNormal_of_ofJson hr)
  · cases node with
    | markup m =>
        rw [isNormal, Bool.and_eq_true] at h
        exact ofJson_markup h.1
    | ruby r => exact ofJson_ruby h
  · obtain ⟨data, hread, h⟩ := Fault.bind_eq_ok.mp h
    have hdata := Json.hasDistinctNames_of_read hread
    cases data with
    | obj fields => exact isNormal_of_ofJson hdata h
    | _ => cases h

set_option maxRecDepth 20000 in
/-- Data with defaults to fill in and values of other kinds, and a hash with a quoted
symbol for a key. -/
theorem ofJson_toJson_of_sparse_data :
    let page : Json := .obj [("type", .str "root"), ("children", .arr [
      .obj [("type", .str "tag"), ("line", .int 1), ("value", .obj [
        ("attributes", .obj [("class", .int 7)]), ("value", .arr []),
        ("object_ref", .str "nil")])],
      .obj [("type", .str "plain"), ("value", .obj [("text", .bool true)])]])]
    let tag : Tag := ⟨.str "div", [("class", "7")], false, false, false, .null, false,
      ⟨.null, .null⟩, .null⟩
    let root : Node := .markup (.root [.tag tag [] (.int 1), .plain (.bool true) .null] .null)
    let hash : Node := .ruby (.hash (some (.mk [.mk (.quotedSymbol [] (.str "\"") .null)
      (.token ⟨.str "@int", "42", .int 3⟩) .null] .null)) .null)
    Node.ofJson page = .ok root ∧ Node.ofJson root.toJson = .ok root ∧ root.isNormal = true ∧
      Node.ofJson hash.toJson = .ok hash := by
  intro page tag root hash
  obtain ⟨hread, hwritten, hnormal, -⟩ := ofJson_toJson_of_ofJson
  have hpage : Node.ofJson page = .ok root := by decide +kernel
  exact ⟨hpage, hread page root hpage, hnormal page root (by decide) hpage,
    hwritten hash (by decide)⟩

end Node

end HamlFormat
