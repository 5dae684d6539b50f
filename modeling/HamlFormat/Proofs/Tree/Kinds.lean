import HamlFormat.Proofs.Json.Access

/-!
# HamlFormat.Proofs.Tree.Kinds

What a node of each kind is read as. A Ruby node is known by its kind, its body and
its line number (`Json.IsNode`), a line of markup by its kind, its values, its nested
nodes and its line number (`Json.IsLine`), and the values of a tag by their names
(`Json.IsTag`). In which order these fields stand does not matter, and fields that
are not read may stand beside them.
-/

namespace HamlFormat

/-! ## Data of a node -/

namespace Json

/-- Data with the fields of a Ruby node. -/
structure IsNode (data : Json) (kind : Text) (body line : Json) : Prop where
  kind_eq : data.get "type" = .ok (.str kind)
  body_eq : ∃ hlt, data.field "body" = .ok ⟨body, hlt⟩
  line_eq : data.get "line" = .ok line

/-- Data with the fields of a line of markup. -/
structure IsLine (data : Json) (kind : Text) (value : Json) (children : List Json)
    (line : Json) : Prop where
  kind_eq : data.get "type" = .ok (.str kind)
  value_eq : data.get "value" = .ok value
  line_eq : data.get "line" = .ok line
  children_eq : data.get "children" = .ok (.arr children)

/-- Data with the values of a tag. -/
structure IsTag (data : Json) (tag : Tag) : Prop where
  name_eq : data.get "name" = .ok tag.name
  attributes_eq : data.get "attributes" = .ok (.obj (tag.attributes.map fun a => (a.1, .str a.2)))
  selfClosing_eq : data.get "self_closing" = .ok (.bool tag.selfClosing)
  trimOutside_eq : data.get "nuke_outer_whitespace" = .ok (.bool tag.trimOutside)
  trimInside_eq : data.get "nuke_inner_whitespace" = .ok (.bool tag.trimInside)
  value_eq : data.get "value" = .ok tag.value
  parse_eq : data.get "parse" = .ok (.bool tag.parse)
  dynamic_eq : ∃ dynamic, data.get "dynamic_attributes" = .ok dynamic ∧
    dynamic.get "old" = .ok tag.dynamic.old ∧ dynamic.get "new" = .ok tag.dynamic.new
  objectRef_eq : data.get "object_ref" = .ok tag.objectRef

theorem isNode_node {fields : List (Text × Json)} {kind : Text} {body line : Json}
    (h : fields.lookup (.ofString "line") = none) :
    (Json.node (("type", .str kind) :: ("body", body) :: fields) line).IsNode kind body line :=
  ⟨get_node (by decide), field_node rfl, get_node_line h⟩

/-- A wrapper is a node without a line number. -/
theorem isNode_obj (kind : Text) (body : Json) :
    (Json.obj [("type", .str kind), ("body", body)]).IsNode kind body .null :=
  have hnode : (Json.node [("type", .str kind), ("body", body)] .null).IsNode kind body .null :=
    isNode_node rfl
  hnode

theorem isLine_nodeJson (kind : Text) (value : Json) (children : List Json) (line : Json) :
    (Markup.nodeJson kind value children line).IsLine kind value children line :=
  ⟨get_node (by decide), get_node (by decide), get_node_line rfl, get_node (by decide)⟩

theorem isTag_toJson (tag : Tag) : tag.toJson.IsTag tag where
  name_eq := get_obj _ _
  attributes_eq := get_obj _ _
  selfClosing_eq := get_obj _ _
  trimOutside_eq := get_obj _ _
  trimInside_eq := get_obj _ _
  value_eq := get_obj _ _
  parse_eq := get_obj _ _
  dynamic_eq := ⟨_, get_obj _ _, get_obj _ _, get_obj _ _⟩
  objectRef_eq := get_obj _ _

end Json

/-! ## Ruby -/

theorem Token.ofJson_of_fields {data kind line : Json} {text : Text}
    (hkind : ∃ hlt, data.field "type" = .ok ⟨kind, hlt⟩)
    (hbody : ∃ hlt, data.field "body" = .ok ⟨.str text, hlt⟩) (hline : data.get "line" = .ok line) :
    Token.ofJson data = .ok ⟨kind, text, line⟩ := by
  obtain ⟨_, hkind⟩ := hkind
  obtain ⟨_, hbody⟩ := hbody
  rw [Token.ofJson, hkind, hbody, hline]
  rfl

namespace Ruby

variable {data line : Json}

theorem ofJson_token {token : Token} {s : Text} {name : String}
    (htype : data.get "type" = .ok (.str s)) (hs : s.toString? = some name)
    (hname : name ∈ Token.kinds) (h : Token.ofJson data = .ok token) :
    Ruby.ofJson data = .ok (.token token) := by
  rw [ofJson]
  simp only [htype, Fault.ok_bind, Json.key?, Option.bind_some, hs]
  rw [if_pos (by simpa using hname), h]
  rfl

theorem ofJson_varRef {item : Json} {token : Token}
    (h : data.IsNode "var_ref" (.arr [item]) line) (htoken : Token.ofJson item = .ok token) :
    Ruby.ofJson data = .ok (.varRef token line) := by
  obtain ⟨htype, ⟨hlt, hbody⟩, hline⟩ := h
  obtain ⟨_, hfirst⟩ := Json.bodyItem_arr hbody 0 item rfl
  rw [ofJson]
  simp only [htype, hline, Fault.ok_bind, Json.key?, Option.bind_some, Text.toString?_ofString]
  rw [if_neg (by decide)]
  simp only [hfirst, Fault.ok_bind, htoken]
  rfl

theorem ofJson_label {text : Json} (h : data.IsNode "@label" text line) :
    Ruby.ofJson data = .ok (.label text line) := by
  obtain ⟨htype, ⟨hlt, hbody⟩, hline⟩ := h
  rw [ofJson]
  simp only [htype, hline, Fault.ok_bind, Json.key?, Option.bind_some, Text.toString?_ofString]
  rw [if_neg (by decide)]
  simp only [hbody, Fault.ok_bind]
  rfl

theorem ofJson_symbol {inner item innerLine : Json} {token : Token}
    (h : data.IsNode "symbol_literal" (.arr [inner]) line)
    (hinner : inner.IsNode "symbol" (.arr [item]) innerLine)
    (htoken : Token.ofJson item = .ok token) : Ruby.ofJson data = .ok (.symbol token line) := by
  obtain ⟨htype, ⟨hlt, hbody⟩, hline⟩ := h
  obtain ⟨hpart, hunwrapped⟩ := Json.unwrappedBody_wrapped hbody hinner.kind_eq hinner.body_eq
  obtain ⟨_, hfirst⟩ : ∃ hitem, Json.Part.item ⟨.arr [item], hpart⟩ 0 = .ok ⟨item, hitem⟩ :=
    Json.Part.item_arr hpart rfl
  rw [ofJson]
  simp only [htype, hline, Fault.ok_bind, Json.key?, Option.bind_some, Text.toString?_ofString]
  rw [if_neg (by decide)]
  simp only [hunwrapped, hfirst, Fault.ok_bind, htoken]
  rfl

theorem ofJson_quotedSymbol {items : List Json} {quote : Json} {segments : List Ruby}
    (h : data.IsNode "dyna_symbol" (.arr items) line)
    (hbare : ∀ item ∈ items, ∃ kind, item.get "type" = .ok kind ∧ kind.isText "xstring" = false)
    (hsegments : items.mapM Ruby.ofJson = .ok segments)
    (hquote : data.get "quote" = .ok quote) (htruthy : quote.truthy = true) :
    Ruby.ofJson data = .ok (.quotedSymbol segments quote line) := by
  obtain ⟨htype, ⟨hlt, hbody⟩, hline⟩ := h
  have hunwrapped := Json.unwrappedBody_bare hbody hbare
  obtain ⟨parts, helements, hparts⟩ := Json.Part.elements_arr hlt
  rw [ofJson]
  simp only [htype, hline, Fault.ok_bind, Json.key?, Option.bind_some, Text.toString?_ofString]
  rw [if_neg (by decide)]
  simp only [hunwrapped, helements, Fault.mapM_val hparts, hsegments, readQuote, hquote,
    Fault.ok_bind, Json.orElse, htruthy]
  rfl

theorem ofJson_string {inner innerLine : Json} {items : List Json} {quote : Json}
    {segments : List Ruby} (h : data.IsNode "string_literal" (.arr [inner]) line)
    (hinner : inner.IsNode "string" (.arr items) innerLine)
    (hsegments : items.mapM Ruby.ofJson = .ok segments)
    (hquote : data.get "quote" = .ok quote) (htruthy : quote.truthy = true) :
    Ruby.ofJson data = .ok (.string segments quote line) := by
  obtain ⟨htype, ⟨hlt, hbody⟩, hline⟩ := h
  obtain ⟨hpart, hunwrapped⟩ := Json.unwrappedBody_wrapped hbody hinner.kind_eq hinner.body_eq
  obtain ⟨parts, helements, hparts⟩ := Json.Part.elements_arr hpart
  rw [ofJson]
  simp only [htype, hline, Fault.ok_bind, Json.key?, Option.bind_some, Text.toString?_ofString]
  rw [if_neg (by decide)]
  simp only [hunwrapped, helements, Fault.mapM_val hparts, hsegments, readQuote, hquote,
    Fault.ok_bind, Json.orElse, htruthy]
  rfl

theorem ofJson_interpolation {item : Json} {expression : Ruby}
    (h : data.IsNode "string_embexpr" (.arr [item]) line)
    (hexpression : Ruby.ofJson item = .ok expression) :
    Ruby.ofJson data = .ok (.interpolation expression line) := by
  obtain ⟨htype, ⟨hlt, hbody⟩, hline⟩ := h
  obtain ⟨_, hfirst⟩ := Json.bodyItem_arr hbody 0 item rfl
  rw [ofJson]
  simp only [htype, hline, Fault.ok_bind, Json.key?, Option.bind_some, Text.toString?_ofString]
  rw [if_neg (by decide)]
  simp only [hfirst, Fault.ok_bind, hexpression]
  rfl

theorem ofJson_array_none (h : data.IsNode "array" (.arr [.null]) line) :
    Ruby.ofJson data = .ok (.array none line) := by
  obtain ⟨htype, ⟨hlt, hbody⟩, hline⟩ := h
  rw [ofJson]
  simp only [htype, hline, Fault.ok_bind, Json.key?, Option.bind_some, Text.toString?_ofString]
  rw [if_neg (by decide)]
  simp only [Json.bodyFirst?_null hbody, Fault.ok_bind]
  rfl

theorem ofJson_array_some {items : List Json} {elements : List Ruby}
    (h : data.IsNode "array" (.arr [.arr items]) line)
    (helements : items.mapM Ruby.ofJson = .ok elements) :
    Ruby.ofJson data = .ok (.array (some elements) line) := by
  obtain ⟨htype, ⟨hlt, hbody⟩, hline⟩ := h
  obtain ⟨hinner, hfirst⟩ := Json.bodyFirst?_singleton hbody rfl
  obtain ⟨parts, hitems, hparts⟩ := Json.Part.elements_arr hinner
  rw [ofJson]
  simp only [htype, hline, Fault.ok_bind, Json.key?, Option.bind_some, Text.toString?_ofString]
  rw [if_neg (by decide)]
  simp only [hfirst, hitems, Fault.mapM_val hparts, helements, Fault.ok_bind]
  rfl

theorem ofJson_binary {leftItem rightItem : Json} {left right : Ruby} {operator : Text}
    (h : data.IsNode "binary" (.arr [leftItem, .str operator, rightItem]) line)
    (hleft : Ruby.ofJson leftItem = .ok left) (hright : Ruby.ofJson rightItem = .ok right) :
    Ruby.ofJson data = .ok (.binary left operator right line) := by
  obtain ⟨htype, ⟨hlt, hbody⟩, hline⟩ := h
  obtain ⟨_, hfirst⟩ := Json.bodyItem_arr hbody 0 leftItem rfl
  obtain ⟨_, hsecond⟩ := Json.bodyItem_arr hbody 1 (.str operator) rfl
  obtain ⟨_, hthird⟩ := Json.bodyItem_arr hbody 2 rightItem rfl
  rw [ofJson]
  simp only [htype, hline, Fault.ok_bind, Json.key?, Option.bind_some, Text.toString?_ofString]
  rw [if_neg (by decide)]
  simp only [hfirst, hsecond, hthird, Fault.ok_bind, hleft, hright]
  rfl

theorem ofJson_pair {keyItem valueItem : Json} {key value : Ruby}
    (h : data.IsNode "assoc_new" (.arr [keyItem, valueItem]) line)
    (hkey : Ruby.ofJson keyItem = .ok key) (hvalue : Ruby.ofJson valueItem = .ok value) :
    Ruby.ofJson data = .ok (.pair (.mk key value line)) := by
  obtain ⟨htype, ⟨hlt, hbody⟩, hline⟩ := h
  obtain ⟨_, hfirst⟩ := Json.bodyItem_arr hbody 0 keyItem rfl
  obtain ⟨_, hsecond⟩ := Json.bodyItem_arr hbody 1 valueItem rfl
  rw [ofJson]
  simp only [htype, hline, Fault.ok_bind, Json.key?, Option.bind_some, Text.toString?_ofString]
  rw [if_neg (by decide)]
  simp only [hfirst, hsecond, Fault.ok_bind, hkey, hvalue]
  rfl

theorem ofJson_pairs {items : List Json} {pairs : List Pair}
    (h : data.IsNode "assoclist_from_args" (.arr [.arr items]) line)
    (hpairs : items.mapM (fun node => do (← Ruby.ofJson node).asPair) = .ok pairs) :
    Ruby.ofJson data = .ok (.pairs (.mk pairs line)) := by
  obtain ⟨htype, ⟨hlt, hbody⟩, hline⟩ := h
  obtain ⟨parts, hnodes, hparts⟩ := Json.pairNodes_nested hbody
  rw [ofJson]
  simp only [htype, hline, Fault.ok_bind, Json.key?, Option.bind_some, Text.toString?_ofString]
  rw [if_neg (by decide)]
  simp only [hnodes, Fault.ok_bind,
    Fault.mapM_val hparts fun node => do (← Ruby.ofJson node).asPair, hpairs]
  rfl

theorem ofJson_bareHash {items : List Json} {pairs : List Pair}
    (h : data.IsNode "bare_assoc_hash" (.arr [.arr items]) line)
    (hpairs : items.mapM (fun node => do (← Ruby.ofJson node).asPair) = .ok pairs) :
    Ruby.ofJson data = .ok (.bareHash pairs line) := by
  obtain ⟨htype, ⟨hlt, hbody⟩, hline⟩ := h
  obtain ⟨parts, hnodes, hparts⟩ := Json.pairNodes_nested hbody
  rw [ofJson]
  simp only [htype, hline, Fault.ok_bind, Json.key?, Option.bind_some, Text.toString?_ofString]
  rw [if_neg (by decide)]
  simp only [hnodes, Fault.ok_bind,
    Fault.mapM_val hparts fun node => do (← Ruby.ofJson node).asPair, hpairs]
  rfl

theorem ofJson_hash_none (h : data.IsNode "hash" (.arr [.null]) line) :
    Ruby.ofJson data = .ok (.hash none line) := by
  obtain ⟨htype, ⟨hlt, hbody⟩, hline⟩ := h
  rw [ofJson]
  simp only [htype, hline, Fault.ok_bind, Json.key?, Option.bind_some, Text.toString?_ofString]
  rw [if_neg (by decide)]
  simp only [Json.bodyFirst?_null hbody, Fault.ok_bind]
  rfl

theorem ofJson_hash_some {item : Json} {pairs : Pairs} (h : data.IsNode "hash" (.arr [item]) line)
    (hpairs : Ruby.ofJson item = .ok (.pairs pairs)) :
    Ruby.ofJson data = .ok (.hash (some pairs) line) := by
  have hnull : item.isNull = false := by
    cases item with
    | null => rw [ofJson] at hpairs; cases hpairs
    | _ => rfl
  obtain ⟨htype, ⟨hlt, hbody⟩, hline⟩ := h
  obtain ⟨_, hfirst⟩ := Json.bodyFirst?_singleton hbody hnull
  rw [ofJson]
  simp only [htype, hline, Fault.ok_bind, Json.key?, Option.bind_some, Text.toString?_ofString]
  rw [if_neg (by decide)]
  simp only [hfirst, hpairs, Fault.ok_bind]
  rfl

end Ruby

/-! ## Markup -/

/-- An object needs no default. -/
theorem Json.orElse_of_get {value found : Json} {name : Text} (h : value.get name = .ok found) :
    value.orElse (.obj []) = value := by
  obtain ⟨fields, rfl, -⟩ := Json.eq_obj_of_get h
  cases fields <;> rfl

/-- The attributes of a tag are read in their order, if there are any. -/
theorem Tag.readAttributes_obj (attributes : List (Text × Text)) :
    Tag.readAttributes ((Json.obj (attributes.map fun a => (a.1, .str a.2))).orElse (.obj [])) =
      .ok attributes := by
  cases attributes with
  | nil => rfl
  | cons first rest =>
      rw [Json.orElse_of_get (Json.get_obj first.1 _), readAttributes, List.map_map]
      exact congrArg Except.ok (List.map_id _)

theorem DynamicAttributes.ofJson_of_get {data : Json} {attributes : DynamicAttributes}
    (hold : data.get "old" = .ok attributes.old) (hnew : data.get "new" = .ok attributes.new) :
    DynamicAttributes.ofJson data = .ok attributes := by
  rw [DynamicAttributes.ofJson, Json.orElse_of_get hold]
  obtain ⟨fields, rfl, -⟩ := Json.eq_obj_of_get hold
  simp only [hold, hnew, Fault.ok_bind]
  rfl

/-- A tag that the defaults for absent values leave as it is is read from its values. -/
theorem Tag.ofJson_of_isTag {data : Json} {tag : Tag} (h : data.IsTag tag)
    (hname : tag.name.orElse (.str "div") = tag.name) (hvalue : tag.value.orElse .null = tag.value)
    (hreference : tag.objectRef.orElse .null = tag.objectRef)
    (hnil : tag.objectRef.isText "nil" = false) : Tag.ofJson data = .ok tag := by
  obtain ⟨dynamic, hdynamic, hold, hnew⟩ := h.dynamic_eq
  rw [Tag.ofJson]
  simp only [h.name_eq, h.attributes_eq, h.selfClosing_eq, h.trimOutside_eq, h.trimInside_eq,
    h.value_eq, h.parse_eq, hdynamic, h.objectRef_eq, Fault.ok_bind,
    DynamicAttributes.ofJson_of_get hold hnew, readAttributes_obj, hname, hvalue, hreference, hnil]
  rfl

namespace Markup

variable {data value line : Json} {items : List Json} {children : List Markup}

theorem ofJson_root (h : data.IsLine "root" value items line)
    (hchildren : items.mapM Markup.ofJson = .ok children) :
    Markup.ofJson data = .ok (.root children line) := by
  obtain ⟨parts, hnodes, hparts⟩ := Json.childNodes_arr h.children_eq
  obtain ⟨htype, -, hline, -⟩ := h
  rw [ofJson]
  simp only [htype, hline, hnodes, Fault.ok_bind, Json.key?, Option.bind_some,
    Text.toString?_ofString, Fault.mapM_val hparts, hchildren]
  rfl

theorem ofJson_tag {t : Tag} (h : data.IsLine "tag" value items line)
    (ht : Tag.ofJson value = .ok t) (hchildren : items.mapM Markup.ofJson = .ok children) :
    Markup.ofJson data = .ok (.tag t children line) := by
  obtain ⟨parts, hnodes, hparts⟩ := Json.childNodes_arr h.children_eq
  obtain ⟨htype, hvalue, hline, -⟩ := h
  have hobject : value.orElse (.obj []) = value := by
    obtain ⟨_, hdynamic, -⟩ := Fault.bind_eq_ok.mp ht
    exact Json.orElse_of_get hdynamic
  rw [ofJson]
  simp only [htype, hvalue, hline, hnodes, Fault.ok_bind, Json.key?, Option.bind_some,
    Text.toString?_ofString, Fault.mapM_val hparts, hchildren]
  rw [pure_bind, hobject, ht]
  rfl

theorem ofJson_comment {revealed conditional text : Json}
    (h : data.IsLine "comment" value items line)
    (hrevealed : value.get "revealed" = .ok revealed)
    (hconditional : value.get "conditional" = .ok conditional) (htext : value.get "text" = .ok text)
    (hchildren : items.mapM Markup.ofJson = .ok children) :
    Markup.ofJson data = .ok (.comment ⟨revealed.truthy, conditional, text⟩ children line) := by
  obtain ⟨parts, hnodes, hparts⟩ := Json.childNodes_arr h.children_eq
  obtain ⟨htype, hvalue, hline, -⟩ := h
  rw [ofJson]
  simp only [htype, hvalue, hline, hnodes, Fault.ok_bind, Json.key?, Option.bind_some,
    Text.toString?_ofString, Fault.mapM_val hparts, hchildren]
  rw [pure_bind, Json.orElse_of_get hrevealed, hrevealed, hconditional, htext]
  rfl

theorem ofJson_doctype {kind version encoding : Json} (h : data.IsLine "doctype" value items line)
    (hkind : value.get "type" = .ok kind) (hversion : value.get "version" = .ok version)
    (hencoding : value.get "encoding" = .ok encoding) :
    Markup.ofJson data = .ok (.doctype ⟨kind, version, encoding⟩ line) := by
  obtain ⟨htype, hvalue, hline, -⟩ := h
  rw [ofJson]
  simp only [htype, hvalue, hline, Fault.ok_bind, Json.key?, Option.bind_some,
    Text.toString?_ofString]
  rw [pure_bind, Json.orElse_of_get hkind, hkind, hversion, hencoding]
  rfl

theorem ofJson_hamlComment {text : Json} (h : data.IsLine "haml_comment" value items line)
    (htext : value.get "text" = .ok text) (hchildren : items.mapM Markup.ofJson = .ok children) :
    Markup.ofJson data = .ok (.hamlComment text children line) := by
  obtain ⟨parts, hnodes, hparts⟩ := Json.childNodes_arr h.children_eq
  obtain ⟨htype, hvalue, hline, -⟩ := h
  rw [ofJson]
  simp only [htype, hvalue, hline, hnodes, Fault.ok_bind, Json.key?, Option.bind_some,
    Text.toString?_ofString, Fault.mapM_val hparts, hchildren]
  rw [pure_bind, Json.orElse_of_get htext, htext]
  rfl

theorem ofJson_plain {text : Json} (h : data.IsLine "plain" value items line)
    (htext : value.get "text" = .ok text) :
    Markup.ofJson data = .ok (.plain (text.orElse (.str "")) line) := by
  obtain ⟨htype, hvalue, hline, -⟩ := h
  rw [ofJson]
  simp only [htype, hvalue, hline, Fault.ok_bind, Json.key?, Option.bind_some,
    Text.toString?_ofString]
  rw [pure_bind, Json.orElse_of_get htext, htext]
  rfl

theorem ofJson_script {text : Json} (h : data.IsLine "script" value items line)
    (htext : value.get "text" = .ok text) (hchildren : items.mapM Markup.ofJson = .ok children) :
    Markup.ofJson data = .ok (.script (text.orElse (.str "")) children line) := by
  obtain ⟨parts, hnodes, hparts⟩ := Json.childNodes_arr h.children_eq
  obtain ⟨htype, hvalue, hline, -⟩ := h
  rw [ofJson]
  simp only [htype, hvalue, hline, hnodes, Fault.ok_bind, Json.key?, Option.bind_some,
    Text.toString?_ofString, Fault.mapM_val hparts, hchildren]
  rw [pure_bind, Json.orElse_of_get htext, htext]
  rfl

theorem ofJson_silentScript {text keyword : Json} (h : data.IsLine "silent_script" value items line)
    (htext : value.get "text" = .ok text) (hkeyword : value.get "keyword" = .ok keyword)
    (hchildren : items.mapM Markup.ofJson = .ok children) :
    Markup.ofJson data =
      .ok (.silentScript ⟨text.orElse (.str ""), keyword⟩ children line) := by
  obtain ⟨parts, hnodes, hparts⟩ := Json.childNodes_arr h.children_eq
  obtain ⟨htype, hvalue, hline, -⟩ := h
  rw [ofJson]
  simp only [htype, hvalue, hline, hnodes, Fault.ok_bind, Json.key?, Option.bind_some,
    Text.toString?_ofString, Fault.mapM_val hparts, hchildren]
  rw [pure_bind, Json.orElse_of_get htext, htext, hkeyword]
  rfl

end Markup

/-! ## Trees -/

namespace Node

variable {data : Json} {s : Text} {name : String}

theorem ofJson_of_markup {m : Markup} (htype : data.get "type" = .ok (.str s))
    (hs : s.toString? = some name) (hname : Markup.kinds.contains name = true)
    (h : Markup.ofJson data = .ok m) : Node.ofJson data = .ok (.markup m) := by
  rw [Node.ofJson, htype, Fault.ok_bind, if_neg (by simp [Json.isNull])]
  simp only [Json.key?, Fault.ok_bind, Option.bind_some, hs]
  rw [if_pos hname, h]
  rfl

theorem ofJson_of_ruby {r : Ruby} (htype : data.get "type" = .ok (.str s))
    (hs : s.toString? = some name) (hname : name ∉ Markup.kinds) (h : Ruby.ofJson data = .ok r) :
    Node.ofJson data = .ok (.ruby r) := by
  rw [Node.ofJson, htype, Fault.ok_bind, if_neg (by simp [Json.isNull])]
  simp only [Json.key?, Fault.ok_bind, Option.bind_some, hs]
  rw [if_neg (by simpa using hname), h]
  rfl

end Node

end HamlFormat
