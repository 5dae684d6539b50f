import HamlFormat.Proofs.Tree.Normal
import Mathlib.Data.List.Basic

/-!
# HamlFormat.Proofs.Tree.Names

What is written of a tree has no double names, if what the tree was read from has
none (`Node.hasDistinctNames_toJson`): the names of a node's own fields differ,
and all else in it comes from the data.
-/

namespace HamlFormat

open Json

/-! ## Nodes -/

/-- A Ruby node has no double names if its values have none. -/
theorem hasDistinctNames_body {kind body line : Json} :
    (Json.node [("type", kind), ("body", body)] line).hasDistinctNames = true ↔
      kind.hasDistinctNames = true ∧ body.hasDistinctNames = true ∧
        line.hasDistinctNames = true := by
  simp [hasDistinctNames_node, and_assoc]

/-- A wrapper is a node without a line number. -/
theorem hasDistinctNames_wrapper {kind body : Json} :
    (Json.obj [("type", kind), ("body", body)]).hasDistinctNames = true ↔
      kind.hasDistinctNames = true ∧ body.hasDistinctNames = true := by
  simp [hasDistinctNames_obj]

/-- The quote of a text is no exception. -/
theorem hasDistinctNames_quoted {kind body quote line : Json} :
    (Json.node [("type", kind), ("body", body), ("quote", quote)] line).hasDistinctNames = true ↔
      kind.hasDistinctNames = true ∧ body.hasDistinctNames = true ∧
        quote.hasDistinctNames = true ∧ line.hasDistinctNames = true := by
  simp [hasDistinctNames_node, and_assoc]

/-- A line of markup has no double names if its values and its nested nodes have none. -/
theorem hasDistinctNames_nodeJson {kind : Text} {value : Json} {children : List Json}
    {line : Json} :
    (Markup.nodeJson kind value children line).hasDistinctNames = true ↔
      value.hasDistinctNames = true ∧ (∀ child ∈ children, child.hasDistinctNames = true) ∧
        line.hasDistinctNames = true := by
  simp [Markup.nodeJson, hasDistinctNames_node, hasDistinctNames_arr, and_assoc]

/-! ## Ruby -/

theorem Token.hasDistinctNames_toJson {data : Json} {t : Token}
    (hdata : data.hasDistinctNames = true) (h : Token.ofJson data = .ok t) :
    t.toJson.hasDistinctNames = true := by
  simp only [Token.ofJson, Fault.bind_eq_ok, Fault.pure_eq_ok] at h
  obtain ⟨kind, hkind, body, -, line, hline, rfl⟩ := h
  exact hasDistinctNames_body.mpr ⟨hasDistinctNames_of_field hdata hkind, rfl,
    hasDistinctNames_of_get hdata hline⟩

namespace Ruby

theorem listToJson_eq (rs : List Ruby) : listToJson rs = rs.map toJson := by
  induction rs with
  | nil => rfl
  | cons r rs ih => rw [listToJson, ih, List.map_cons]

theorem pairListToJson_eq (ps : List Pair) : pairListToJson ps = ps.map pairToJson := by
  induction ps with
  | nil => rfl
  | cons p ps ih => rw [pairListToJson, ih, List.map_cons]

theorem hasDistinctNames_of_readQuote {data quote : Json} (hdata : data.hasDistinctNames = true)
    (h : readQuote data = .ok quote) : quote.hasDistinctNames = true := by
  obtain ⟨found, hfound, h⟩ := Fault.bind_eq_ok.mp h
  cases h
  exact hasDistinctNames_orElse (hasDistinctNames_of_get hdata hfound) rfl

/-- What is written of an expression that was read has no double names, if the data
it was read from has none. -/
theorem hasDistinctNames_toJson {data : Json} {r : Ruby} (hdata : data.hasDistinctNames = true)
    (h : Ruby.ofJson data = .ok r) : r.toJson.hasDistinctNames = true := by
  have hinner : ∀ (part : Part data) inner, part.1.hasDistinctNames = true →
      Ruby.ofJson part.1 = .ok inner → inner.toJson.hasDistinctNames = true :=
    fun part inner hpart hread => hasDistinctNames_toJson hpart hread
  have hlist : ∀ (parts : List (Part data)) rs, (∀ part ∈ parts, part.1.hasDistinctNames = true) →
      parts.mapM (fun part => Ruby.ofJson part.1) = .ok rs →
      (Json.arr (listToJson rs)).hasDistinctNames = true := by
    intro parts rs hparts hrs
    rw [hasDistinctNames_arr, listToJson_eq, List.forall_mem_map]
    intro r hr
    obtain ⟨part, hpart, hread⟩ := Fault.exists_mem_of_mapM hrs r hr
    exact hinner part r (hparts part hpart) hread
  have hpairs : ∀ (parts : List (Part data)) ps, data.pairNodes = .ok parts →
      parts.mapM (fun part => do (← Ruby.ofJson part.1).asPair) = .ok ps →
      (Json.arr [.arr (pairListToJson ps)]).hasDistinctNames = true := by
    intro parts ps hparts hps
    rw [hasDistinctNames_arr, List.forall_mem_singleton, hasDistinctNames_arr, pairListToJson_eq,
      List.forall_mem_map]
    intro p hp
    obtain ⟨part, hpart, hread⟩ := Fault.exists_mem_of_mapM hps p hp
    obtain ⟨r, hr, hpair⟩ := Fault.bind_eq_ok.mp hread
    cases eq_pair_of_asPair hpair
    exact hinner part _ (hasDistinctNames_of_pairNodes hdata hparts part hpart) hr
  have hsound : ∀ {line : Json}, data.get "line" = .ok line → line.hasDistinctNames = true :=
    fun hline => hasDistinctNames_of_get hdata hline
  cases readFrom_of_ofJson h with
  | token _ _ _ ht => exact Token.hasDistinctNames_toJson hdata ht
  | varRef hpart ht hline =>
      have ht := Token.hasDistinctNames_toJson (hasDistinctNames_of_bodyItem hdata hpart) ht
      simp [toJson, hasDistinctNames_body, hasDistinctNames_singleton, ht, hsound hline]
  | label hbody hline =>
      have hbody := hasDistinctNames_of_field hdata hbody
      simp [toJson, hasDistinctNames_body, hbody, hsound hline]
  | symbol hbody hpart ht hline =>
      have hbody := hasDistinctNames_of_unwrappedBody hdata hbody
      have ht := Token.hasDistinctNames_toJson (hasDistinctNames_of_item hbody hpart) ht
      simp [toJson, hasDistinctNames_body, hasDistinctNames_singleton,
        hasDistinctNames_wrapper, ht, hsound hline]
  | quotedSymbol hbody hparts hsegments hquote hline =>
      have hbody := hasDistinctNames_of_unwrappedBody hdata hbody
      have hsegments := hlist _ _ (hasDistinctNames_of_elements hbody hparts) hsegments
      have hquote := hasDistinctNames_of_readQuote hdata hquote
      simp [toJson, hasDistinctNames_quoted, hsegments, hquote, hsound hline]
  | string hbody hparts hsegments hquote hline =>
      have hbody := hasDistinctNames_of_unwrappedBody hdata hbody
      have hsegments := hlist _ _ (hasDistinctNames_of_elements hbody hparts) hsegments
      have hquote := hasDistinctNames_of_readQuote hdata hquote
      simp [toJson, hasDistinctNames_quoted, hasDistinctNames_singleton, hasDistinctNames_wrapper,
        hsegments, hquote, hsound hline]
  | interpolation hpart hread hline =>
      have hread := hinner _ _ (hasDistinctNames_of_bodyItem hdata hpart) hread
      simp [toJson, hasDistinctNames_body, hasDistinctNames_singleton, hread, hsound hline]
  | array_none hline | hash_none hline =>
      simp [toJson, hasDistinctNames_body, hasDistinctNames_singleton, hsound hline]
  | array_some hbody hparts helements hline =>
      have hbody := hasDistinctNames_of_bodyFirst? hdata hbody
      have helements := hlist _ _ (hasDistinctNames_of_elements hbody hparts) helements
      simp [toJson, hasDistinctNames_body, hasDistinctNames_singleton, helements, hsound hline]
  | binary hleftPart hleft _ hrightPart hright hline =>
      have hleft := hinner _ _ (hasDistinctNames_of_bodyItem hdata hleftPart) hleft
      have hright := hinner _ _ (hasDistinctNames_of_bodyItem hdata hrightPart) hright
      simp [toJson, hasDistinctNames_body, hasDistinctNames_arr, hleft, hright, hsound hline]
  | pair hkeyPart hkey hvaluePart hvalue hline =>
      have hkey := hinner _ _ (hasDistinctNames_of_bodyItem hdata hkeyPart) hkey
      have hvalue := hinner _ _ (hasDistinctNames_of_bodyItem hdata hvaluePart) hvalue
      simp [toJson, pairToJson, hasDistinctNames_body, hasDistinctNames_arr, hkey, hvalue,
        hsound hline]
  | pairs hparts hps hline =>
      have hps := hpairs _ _ hparts hps
      simp [toJson, pairsToJson, hasDistinctNames_body, hps, hsound hline]
  | bareHash hparts hps hline =>
      have hps := hpairs _ _ hparts hps
      simp [toJson, hasDistinctNames_body, hps, hsound hline]
  | hash_some hbody hps hline =>
      have hps := hinner _ _ (hasDistinctNames_of_bodyFirst? hdata hbody) hps
      rw [toJson] at hps
      simp [toJson, hasDistinctNames_body, hasDistinctNames_singleton, hps, hsound hline]
termination_by data.weight
decreasing_by all_goals exact part.2

end Ruby

/-! ## Markup -/

theorem DynamicAttributes.hasDistinctNames_of_ofJson {data : Json} {attributes : DynamicAttributes}
    (hdata : data.hasDistinctNames = true) (h : DynamicAttributes.ofJson data = .ok attributes) :
    attributes.old.hasDistinctNames = true ∧ attributes.new.hasDistinctNames = true := by
  have hdata : (data.orElse (.obj [])).hasDistinctNames = true := hasDistinctNames_orElse hdata rfl
  rw [DynamicAttributes.ofJson] at h
  split at h
  · simp only [Fault.bind_eq_ok, Fault.pure_eq_ok] at h
    obtain ⟨old, hold, new, hnew, rfl⟩ := h
    exact ⟨hasDistinctNames_of_get hdata hold, hasDistinctNames_of_get hdata hnew⟩
  · cases h

/-- The data of a tag has no double names if no attribute stands twice and its
values have none. -/
theorem Tag.hasDistinctNames_toJson_iff {tag : Tag} : tag.toJson.hasDistinctNames = true ↔
    (tag.attributes.map Prod.fst).Nodup ∧ tag.name.hasDistinctNames = true ∧
      tag.value.hasDistinctNames = true ∧ tag.dynamic.old.hasDistinctNames = true ∧
      tag.dynamic.new.hasDistinctNames = true ∧ tag.objectRef.hasDistinctNames = true := by
  have hattributes : (Json.obj (tag.attributes.map fun a => (a.1, .str a.2))).hasDistinctNames =
      true ↔ (tag.attributes.map Prod.fst).Nodup := by
    rw [hasDistinctNames_obj, List.map_map, List.forall_mem_map]
    exact and_iff_left fun _ _ => rfl
  have hdynamic : (Json.obj [("old", tag.dynamic.old), ("new", tag.dynamic.new)]).hasDistinctNames =
      true ↔ tag.dynamic.old.hasDistinctNames = true ∧ tag.dynamic.new.hasDistinctNames = true := by
    simp [hasDistinctNames_obj]
  have hnames : ([.ofString "name", .ofString "attributes", .ofString "self_closing",
      .ofString "nuke_outer_whitespace", .ofString "nuke_inner_whitespace", .ofString "value",
      .ofString "parse", .ofString "dynamic_attributes", .ofString "object_ref"] :
      List Text).Nodup := by simp
  rw [Tag.toJson, hasDistinctNames_obj]
  refine (and_iff_right hnames).trans ?_
  simp only [List.forall_mem_cons, hattributes, hdynamic, hasDistinctNames_bool, List.not_mem_nil]
  tauto

theorem Tag.hasDistinctNames_toJson {data : Json} {tag : Tag}
    (hdata : data.hasDistinctNames = true) (h : Tag.ofJson data = .ok tag) :
    tag.toJson.hasDistinctNames = true := by
  rw [hasDistinctNames_toJson_iff]
  refine ⟨Tag.nodup_of_ofJson hdata h, ?_⟩
  simp only [Tag.ofJson, Fault.bind_eq_ok, Fault.pure_eq_ok] at h
  obtain ⟨_, hfound, dynamic, hdynamic, objectRef, hobjectRef, name, hname, _, _, _, _, _, _, _, _,
    _, _, value, hvalue, _, _, rfl⟩ := h
  obtain ⟨hold, hnew⟩ := DynamicAttributes.hasDistinctNames_of_ofJson
    (hasDistinctNames_of_get hdata hfound) hdynamic
  refine ⟨hasDistinctNames_orElse (hasDistinctNames_of_get hdata hname) rfl,
    hasDistinctNames_orElse (hasDistinctNames_of_get hdata hvalue) rfl, hold, hnew, ?_⟩
  dsimp only
  split
  · rfl
  · exact hasDistinctNames_orElse (hasDistinctNames_of_get hdata hobjectRef) rfl

theorem hasDistinctNames_text {text : Json} :
    (Json.obj [("text", text)]).hasDistinctNames = true ↔ text.hasDistinctNames = true := by
  simp [hasDistinctNames_obj]

theorem Comment.hasDistinctNames_toJson_iff {comment : Comment} :
    comment.toJson.hasDistinctNames = true ↔
      comment.conditional.hasDistinctNames = true ∧ comment.text.hasDistinctNames = true := by
  simp [Comment.toJson, hasDistinctNames_obj]

theorem Doctype.hasDistinctNames_toJson_iff {doctype : Doctype} :
    doctype.toJson.hasDistinctNames = true ↔ doctype.kind.hasDistinctNames = true ∧
      doctype.version.hasDistinctNames = true ∧ doctype.encoding.hasDistinctNames = true := by
  simp [Doctype.toJson, hasDistinctNames_obj]

theorem Statement.hasDistinctNames_toJson_iff {statement : Statement} :
    statement.toJson.hasDistinctNames = true ↔
      statement.text.hasDistinctNames = true ∧ statement.keyword.hasDistinctNames = true := by
  simp [Statement.toJson, hasDistinctNames_obj]

namespace Markup

theorem listToJson_eq (ms : List Markup) : listToJson ms = ms.map toJson := by
  induction ms with
  | nil => rfl
  | cons m ms ih => rw [listToJson, ih, List.map_cons]

/-- What is written of markup that was read has no double names, if the data it was
read from has none. -/
theorem hasDistinctNames_toJson {data : Json} {m : Markup} (hdata : data.hasDistinctNames = true)
    (h : Markup.ofJson data = .ok m) : m.toJson.hasDistinctNames = true := by
  have hnested : ∀ (parts : List (Part data)) children, data.childNodes = .ok parts →
      parts.mapM (fun part => Markup.ofJson part.1) = .ok children →
      ∀ child ∈ listToJson children, child.hasDistinctNames = true := by
    intro parts children hparts hchildren
    rw [listToJson_eq, List.forall_mem_map]
    intro m hm
    obtain ⟨part, hmem, hread⟩ := Fault.exists_mem_of_mapM hchildren m hm
    exact hasDistinctNames_toJson (hasDistinctNames_of_childNodes hdata hparts part hmem) hread
  have hline : ∀ {line : Json}, data.get "line" = .ok line → line.hasDistinctNames = true :=
    fun hline => hasDistinctNames_of_get hdata hline
  have hvalues : ∀ {value : Json}, data.get "value" = .ok value →
      (value.orElse (.obj [])).hasDistinctNames = true :=
    fun hvalue => hasDistinctNames_orElse (hasDistinctNames_of_get hdata hvalue) rfl
  have hget : ∀ {value found : Json} {name : Text}, data.get "value" = .ok value →
      (value.orElse (.obj [])).get name = .ok found → found.hasDistinctNames = true :=
    fun hvalue hfound => hasDistinctNames_of_get (hvalues hvalue) hfound
  cases readFrom_of_ofJson h with
  | root hparts hchildren hread =>
      exact hasDistinctNames_nodeJson.mpr ⟨rfl, hnested _ _ hparts hchildren, hline hread⟩
  | tag hvalue ht hparts hchildren hread =>
      exact hasDistinctNames_nodeJson.mpr ⟨Tag.hasDistinctNames_toJson (hvalues hvalue) ht,
        hnested _ _ hparts hchildren, hline hread⟩
  | comment hvalue _ hconditional htext hparts hchildren hread =>
      exact hasDistinctNames_nodeJson.mpr ⟨Comment.hasDistinctNames_toJson_iff.mpr
        ⟨hget hvalue hconditional, hget hvalue htext⟩, hnested _ _ hparts hchildren, hline hread⟩
  | doctype hvalue hkind hversion hencoding hread =>
      exact hasDistinctNames_nodeJson.mpr ⟨Doctype.hasDistinctNames_toJson_iff.mpr
        ⟨hget hvalue hkind, hget hvalue hversion, hget hvalue hencoding⟩, by simp, hline hread⟩
  | hamlComment hvalue htext hparts hchildren hread =>
      exact hasDistinctNames_nodeJson.mpr ⟨hasDistinctNames_text.mpr (hget hvalue htext),
        hnested _ _ hparts hchildren, hline hread⟩
  | plain hvalue htext hread =>
      have htext := hasDistinctNames_orElse (hget hvalue htext) (hasDistinctNames_str "")
      exact hasDistinctNames_nodeJson.mpr ⟨hasDistinctNames_text.mpr htext, by simp, hline hread⟩
  | script hvalue htext hparts hchildren hread =>
      have htext := hasDistinctNames_orElse (hget hvalue htext) (hasDistinctNames_str "")
      exact hasDistinctNames_nodeJson.mpr ⟨hasDistinctNames_text.mpr htext,
        hnested _ _ hparts hchildren, hline hread⟩
  | silentScript hvalue htext hkeyword hparts hchildren hread =>
      have htext := hasDistinctNames_orElse (hget hvalue htext) (hasDistinctNames_str "")
      exact hasDistinctNames_nodeJson.mpr ⟨Statement.hasDistinctNames_toJson_iff.mpr
        ⟨htext, hget hvalue hkeyword⟩, hnested _ _ hparts hchildren, hline hread⟩
termination_by data.weight
decreasing_by exact part.2

end Markup

/-! ## Trees -/

/-- **What is written of a tree that was read has no double names**, if the data it
was read from has none. -/
theorem Node.hasDistinctNames_toJson {data : Json} {node : Node}
    (hdata : data.hasDistinctNames = true) (h : Node.ofJson data = .ok node) :
    node.toJson.hasDistinctNames = true := by
  obtain ⟨m, rfl, hm⟩ | ⟨r, rfl, hr⟩ := cases_of_ofJson h
  · exact Markup.hasDistinctNames_toJson hdata hm
  · exact Ruby.hasDistinctNames_toJson hdata hr

end HamlFormat
