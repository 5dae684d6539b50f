import HamlFormat.Proofs.Json.Access

/-!
# HamlFormat.Proofs.Tree.Failure

How reading data as a tree can fail. Three things are said of data that is no
tree: its kind is not known, it is malformed, or some part of it is missing or of
the wrong kind (`Node.failsWithin_ofJson`). Markup whose parts have the kinds that
they should have (`Markup.IsShaped`) is never said the last of.
-/

namespace HamlFormat

open Fault (FailsWithin)

/-- Whether a fault says that a part of data is missing or of the wrong kind. -/
def Fault.isMisshapen : Fault → Bool
  | .missingField _ | .missingItem _ | .mismatch | .noMember | .outOfRange => true
  | _ => false

/-- Whether a fault says that data is not a tree: nothing is known about the kind of a
node, or the data is malformed. -/
def Fault.isRefusal : Fault → Bool
  | .unsupportedNode _ | .malformedTree _ => true
  | _ => false

/-- The faults of reading a tree. -/
def Node.IsReadFault (fault : Fault) : Prop :=
  fault.isRefusal = true ∨ fault.isMisshapen = true

/-! ## Accessors -/

namespace Json

theorem failsWithin_misshapen {α : Type} {fault : Fault} (h : fault.isMisshapen = true) :
    FailsWithin Node.IsReadFault (.error fault : Except Fault α) :=
  .error (.inr h)

theorem failsWithin_get? (data : Json) (name : Text) :
    FailsWithin Node.IsReadFault (data.get? name) := by
  unfold get?
  split
  · split <;> exact .ok _
  · exact failsWithin_misshapen rfl

theorem failsWithin_get (data : Json) (name : Text) :
    FailsWithin Node.IsReadFault (data.get name) := by
  refine .bind (failsWithin_get? data name) fun found _ => ?_
  cases found <;> exact .ok _

theorem failsWithin_field (data : Json) (name : Text) :
    FailsWithin Node.IsReadFault (data.field name) := by
  unfold field
  split
  · split
    · exact failsWithin_misshapen rfl
    · exact .ok _
  · exact failsWithin_misshapen rfl

theorem failsWithin_key? (data : Json) : FailsWithin Node.IsReadFault data.key? := by
  unfold key?
  split
  · exact .ok _
  · exact failsWithin_misshapen rfl
  · exact failsWithin_misshapen rfl
  · exact .ok _

theorem failsWithin_item {whole : Json} (part : Part whole) (index : Nat) :
    FailsWithin Node.IsReadFault (part.item index) := by
  have hitem : ∀ data : Json, FailsWithin Node.IsReadFault (data.item index) := by
    intro data
    cases data with
    | arr items =>
        rw [item]
        split
        · exact .ok _
        · exact failsWithin_misshapen rfl
    | str s =>
        rw [item]
        split
        · exact failsWithin_misshapen rfl
        · exact .ok _
    | _ => exact failsWithin_misshapen rfl
  exact .bind (hitem part.1) fun _ _ => .ok _

theorem failsWithin_elements {whole : Json} (part : Part whole) :
    FailsWithin Node.IsReadFault part.elements := by
  have helements : ∀ data : Json, FailsWithin Node.IsReadFault data.elements := by
    intro data
    cases data with
    | arr _ | str _ | obj _ => exact .ok _
    | _ => exact failsWithin_misshapen rfl
  exact .bind (helements part.1) fun _ _ => .ok _

theorem failsWithin_childNodes (data : Json) :
    FailsWithin Node.IsReadFault data.childNodes := by
  refine .bind (failsWithin_get? data _) fun found _ => ?_
  cases found with
  | none => exact .ok _
  | some children =>
      dsimp only
      split
      · exact failsWithin_elements children
      · exact .ok _

theorem failsWithin_bodyItem (data : Json) (index : Nat) :
    FailsWithin Node.IsReadFault (data.bodyItem index) :=
  .bind (failsWithin_field data _) fun body _ => failsWithin_item body index

theorem failsWithin_bodyFirst? (data : Json) :
    FailsWithin Node.IsReadFault data.bodyFirst? := by
  refine .bind (failsWithin_field data _) fun body _ => ?_
  split
  · refine .bind (failsWithin_item body 0) fun first _ => ?_
    split <;> exact .ok _
  · exact .ok _

theorem failsWithin_unwrappedBody (data : Json) (wrapper : Text) :
    FailsWithin Node.IsReadFault (data.unwrappedBody wrapper) := by
  refine .bind (failsWithin_field data _) fun body _ => ?_
  split
  · refine .bind (failsWithin_item body 0) fun first _ => ?_
    split
    · refine .bind (failsWithin_get _ _) fun kind _ => ?_
      split
      · exact .bind (failsWithin_field _ _) fun _ _ => .ok _
      · exact .ok _
    · exact .ok _
  · exact .ok _

theorem failsWithin_pairNodes (data : Json) :
    FailsWithin Node.IsReadFault data.pairNodes := by
  refine .bind (failsWithin_field data _) fun body _ => ?_
  split
  · refine .bind (failsWithin_item body 0) fun first _ => ?_
    split
    · exact failsWithin_elements first
    · exact failsWithin_elements body
  · exact failsWithin_elements body

end Json

/-! ## Ruby -/

namespace Ruby

theorem failsWithin_token (data : Json) : FailsWithin Node.IsReadFault (Token.ofJson data) := by
  refine .bind (data.failsWithin_field _) fun kind _ => ?_
  refine .bind (data.failsWithin_field _) fun body _ => ?_
  exact .bind (data.failsWithin_get _) fun line _ => .ok _

theorem failsWithin_unsupported {α : Type} (kind : Json) :
    FailsWithin Node.IsReadFault (.error (.unsupportedNode kind) : Except Fault α) :=
  .error (.inl rfl)

theorem failsWithin_asPair (r : Ruby) : FailsWithin Node.IsReadFault r.asPair := by
  cases r with
  | pair p => exact .ok p
  | _ => exact failsWithin_unsupported _

/-- Reading an expression fails as reading a tree may. -/
theorem failsWithin_ofJson (data : Json) : FailsWithin Node.IsReadFault (Ruby.ofJson data) := by
  have hline : ∀ {α : Type} (f : Json → α),
      FailsWithin Node.IsReadFault (do return f (← data.get "line")) :=
    fun f => .bind (data.failsWithin_get _) fun _ _ => .ok _
  have hquote : FailsWithin Node.IsReadFault (readQuote data) :=
    .bind (data.failsWithin_get _) fun _ _ => .ok _
  have hread : ∀ part : Json.Part data, FailsWithin Node.IsReadFault (Ruby.ofJson part.1) :=
    fun part => failsWithin_ofJson part.1
  have hreads : ∀ parts : List (Json.Part data),
      FailsWithin Node.IsReadFault (parts.mapM fun part => Ruby.ofJson part.1) :=
    fun parts => .mapM fun part _ => hread part
  have hpairs : ∀ parts : List (Json.Part data),
      FailsWithin Node.IsReadFault (parts.mapM fun part => do (← Ruby.ofJson part.1).asPair) :=
    fun parts => .mapM fun part _ => .bind (hread part) fun r _ => failsWithin_asPair r
  rw [Ruby.ofJson]
  refine .bind (data.failsWithin_get _) fun kind _ => ?_
  refine .bind kind.failsWithin_key? fun key _ => ?_
  dsimp only
  split
  · exact failsWithin_unsupported _
  · split
    · exact .bind (failsWithin_token data) fun _ _ => .ok _
    · split
      · -- a hash
        refine .bind data.failsWithin_bodyFirst? fun first _ => ?_
        cases first with
        | none => exact hline _
        | some body =>
            refine .bind (hread body) fun inner _ => ?_
            cases inner with
            | pairs ps => exact hline _
            | _ => exact .bind (body.1.failsWithin_get _) fun _ _ => failsWithin_unsupported _
      · refine .bind data.failsWithin_pairNodes fun parts _ => ?_
        exact .bind (hpairs parts) fun _ _ => hline _
      · refine .bind data.failsWithin_pairNodes fun parts _ => ?_
        exact .bind (hpairs parts) fun _ _ => hline _
      · refine .bind (data.failsWithin_bodyItem 0) fun key _ => ?_
        refine .bind (hread key) fun _ _ => ?_
        refine .bind (data.failsWithin_bodyItem 1) fun value _ => ?_
        exact .bind (hread value) fun _ _ => hline _
      · exact .bind (data.failsWithin_field _) fun _ _ => hline _
      · refine .bind (data.failsWithin_unwrappedBody _) fun body _ => ?_
        refine .bind (Json.failsWithin_item body 0) fun name _ => ?_
        exact .bind (failsWithin_token name.1) fun _ _ => hline _
      · refine .bind (data.failsWithin_unwrappedBody _) fun body _ => ?_
        refine .bind (Json.failsWithin_elements body) fun parts _ => ?_
        exact .bind (hreads parts) fun _ _ => .bind hquote fun _ _ => hline _
      · refine .bind (data.failsWithin_unwrappedBody _) fun body _ => ?_
        refine .bind (Json.failsWithin_elements body) fun parts _ => ?_
        exact .bind (hreads parts) fun _ _ => .bind hquote fun _ _ => hline _
      · refine .bind (data.failsWithin_bodyItem 0) fun expression _ => ?_
        exact .bind (hread expression) fun _ _ => hline _
      · refine .bind (data.failsWithin_bodyItem 0) fun token _ => ?_
        exact .bind (failsWithin_token token.1) fun _ _ => hline _
      · -- an array
        refine .bind data.failsWithin_bodyFirst? fun first _ => ?_
        cases first with
        | none => exact hline _
        | some body =>
            refine .bind (Json.failsWithin_elements body) fun parts _ => ?_
            exact .bind (hreads parts) fun _ _ => hline _
      · refine .bind (data.failsWithin_bodyItem 0) fun left _ => ?_
        refine .bind (hread left) fun _ _ => ?_
        refine .bind (data.failsWithin_bodyItem 1) fun operator _ => ?_
        refine .bind (data.failsWithin_bodyItem 2) fun right _ => ?_
        exact .bind (hread right) fun _ _ => hline _
      · exact failsWithin_unsupported _
termination_by data.weight
decreasing_by exact part.weight_lt

end Ruby

/-! ## Markup -/

namespace Markup

/-- What reading a node looks at fails, if it does, with a fault of a certain kind. -/
structure LooksWithin (P : Fault → Prop) (data : Json) : Prop where
  refused {fault : Fault} (h : fault.isRefusal = true) : P fault
  get (name : Text) : FailsWithin P (data.get name)
  key {kind : Json} (h : data.get "type" = .ok kind) : FailsWithin P kind.key?
  value {value : Json} (h : data.get "value" = .ok value) (name : Text) :
    FailsWithin P ((value.orElse (.obj [])).get name)
  attributes {value attributes : Json} (h : data.get "value" = .ok value)
    (hattributes : (value.orElse (.obj [])).get "attributes" = .ok attributes) :
    FailsWithin P (Tag.readAttributes (attributes.orElse (.obj [])))
  children : FailsWithin P (do (← data.childNodes).mapM fun child => Markup.ofJson child.1)

variable {P : Fault → Prop} {data : Json}

/-- Objects have fields, if absent ones. -/
theorem failsWithin_get_obj (fields : List (Text × Json)) (name : Text) :
    FailsWithin P ((Json.obj fields).get name) := by
  rw [Json.get_obj]
  exact .ok _

theorem LooksWithin.dynamicAttributes (h : LooksWithin P data) (dynamic : Json) :
    FailsWithin P (DynamicAttributes.ofJson dynamic) := by
  unfold DynamicAttributes.ofJson
  dsimp only
  split
  · next fields hfields =>
    rw [hfields]
    refine .bind (failsWithin_get_obj fields _) fun _ _ => ?_
    exact .bind (failsWithin_get_obj fields _) fun _ _ => .ok _
  · exact .error (h.refused rfl)

theorem LooksWithin.tag (h : LooksWithin P data) {value : Json}
    (hvalue : data.get "value" = .ok value) :
    FailsWithin P (Tag.ofJson (value.orElse (.obj []))) := by
  have hget := h.value hvalue
  refine .bind (hget _) fun dynamic _ => ?_
  refine .bind (h.dynamicAttributes dynamic) fun _ _ => ?_
  refine .bind (hget _) fun _ _ => ?_
  refine .bind (hget _) fun _ _ => ?_
  refine .bind (hget _) fun attributes hattributes => ?_
  refine .bind (h.attributes hvalue hattributes) fun _ _ => ?_
  refine .bind (hget _) fun _ _ => ?_
  refine .bind (hget _) fun _ _ => ?_
  refine .bind (hget _) fun _ _ => ?_
  refine .bind (hget _) fun _ _ => ?_
  exact .bind (hget _) fun _ _ => .ok _

/-- Reading a node fails as looking at its parts does, or refuses it. -/
theorem LooksWithin.ofJson (h : LooksWithin P data) : FailsWithin P (Markup.ofJson data) := by
  have hline : ∀ {α : Type} (f : Json → α), FailsWithin P (do return f (← data.get "line")) :=
    fun f => .bind (h.get _) fun _ _ => .ok _
  have hnested : ∀ {α : Type} (f : List Markup → Json → α), FailsWithin P (do
      let children ← (do (← data.childNodes).mapM fun child => Markup.ofJson child.1)
      return f children (← data.get "line")) :=
    fun f => .bind h.children fun _ _ => hline _
  have hvalue : ∀ {α : Type} {f : Json → Except Fault α},
      (∀ value, data.get "value" = .ok value → FailsWithin P (f (value.orElse (.obj [])))) →
      FailsWithin P ((do return (← data.get "value").orElse (.obj [])) >>= f) := by
    intro α f hf
    refine .bind (.bind (h.get _) fun _ _ => .ok _) fun found hfound => ?_
    obtain ⟨value, hvalue, hfound⟩ := Fault.bind_eq_ok.mp hfound
    cases hfound
    exact hf value hvalue
  rw [Markup.ofJson]
  refine .bind (h.get _) fun kind hkind => ?_
  refine .bind (h.key hkind) fun name _ => ?_
  dsimp only
  split
  · exact .error (h.refused rfl)
  · exact hnested _
  · refine hvalue fun value hvalue => ?_
    exact .bind (h.tag hvalue) fun _ _ => hnested _
  · refine hvalue fun value hvalue => ?_
    have hget := h.value hvalue
    refine .bind (hget _) fun _ _ => .bind (hget _) fun _ _ => .bind (hget _) fun _ _ => ?_
    exact hnested _
  · refine hvalue fun value hvalue => ?_
    have hget := h.value hvalue
    refine .bind (hget _) fun _ _ => .bind (hget _) fun _ _ => .bind (hget _) fun _ _ => ?_
    exact hline _
  · refine hvalue fun value hvalue => ?_
    exact .bind (h.value hvalue _) fun _ _ => hnested _
  · refine hvalue fun value hvalue => ?_
    exact .bind (h.value hvalue _) fun _ _ => hline _
  · refine hvalue fun value hvalue => ?_
    exact .bind (h.value hvalue _) fun _ _ => hnested _
  · refine hvalue fun value hvalue => ?_
    have hget := h.value hvalue
    exact .bind (hget _) fun _ _ => .bind (hget _) fun _ _ => hnested _
  · exact .error (h.refused rfl)

/-- Reading a line of markup fails as reading a tree may. -/
theorem failsWithin_ofJson (data : Json) : FailsWithin Node.IsReadFault (Markup.ofJson data) := by
  have hattributes : ∀ attributes,
      FailsWithin Node.IsReadFault (Tag.readAttributes attributes) := by
    intro attributes
    unfold Tag.readAttributes
    split
    · exact .ok _
    · exact Json.failsWithin_misshapen rfl
  have hchildren : ∀ child : Json.Part data,
      FailsWithin Node.IsReadFault (Markup.ofJson child.1) :=
    fun child => failsWithin_ofJson child.1
  refine LooksWithin.ofJson ⟨.inl, data.failsWithin_get, fun _ => Json.failsWithin_key? _,
    fun _ => Json.failsWithin_get _, fun _ _ => hattributes _, ?_⟩
  exact .bind data.failsWithin_childNodes fun parts _ => .mapM fun child _ => hchildren child
termination_by data.weight
decreasing_by exact child.weight_lt

/-! ## Markup of the right shape -/

/-- The parts of a node are of the kinds that they should be: the kind of the node is
no container, and its value and the attributes in it are objects, if given. -/
structure PartsAreShaped (data : Json) : Prop where
  key : ∃ kind key, data.get "type" = .ok kind ∧ kind.key? = .ok key
  value : ∃ value attributes fields, data.get "value" = .ok value ∧
    (value.orElse (.obj [])).get "attributes" = .ok attributes ∧
    attributes.orElse (.obj []) = .obj fields

/-- Data shaped like markup: objects with parts of the right kinds, and with a list of
such objects as children if there are any. -/
inductive IsShaped : Json → Prop where
  | leaf {data children : Json} (hparts : PartsAreShaped data)
      (hchildren : data.get "children" = .ok children) (hnone : children.truthy = false) :
      IsShaped data
  | nested {data : Json} {children : List Json} (hparts : PartsAreShaped data)
      (hchildren : data.get "children" = .ok (.arr children))
      (h : ∀ child ∈ children, IsShaped child) : IsShaped data

/-- Looking at the parts of a node of the right shape does not fail. -/
theorem PartsAreShaped.looksWithin (h : PartsAreShaped data)
    (hchildren : FailsWithin (·.isRefusal)
      (do (← data.childNodes).mapM fun child => Markup.ofJson child.1)) :
    LooksWithin (·.isRefusal) data := by
  obtain ⟨kind, key, hkind, hkey⟩ := h.key
  obtain ⟨value, attributes, fields, hvalue, hattributes, hfields⟩ := h.value
  obtain ⟨outer, rfl, -⟩ := Json.eq_obj_of_get hkind
  obtain ⟨inner, hinner, -⟩ := Json.eq_obj_of_get hattributes
  refine ⟨id, failsWithin_get_obj outer, fun hfound => ?_, fun hfound name => ?_,
    fun hfound hfound' => ?_, hchildren⟩
  · cases hkind.symm.trans hfound
    rw [hkey]
    exact .ok key
  · cases hvalue.symm.trans hfound
    rw [hinner]
    exact failsWithin_get_obj inner name
  · cases hvalue.symm.trans hfound
    cases hattributes.symm.trans hfound'
    rw [hfields]
    exact .ok _

theorem childNodes_of_falsy {children : Json} (h : data.get "children" = .ok children)
    (hnone : children.truthy = false) : data.childNodes = .ok [] := by
  obtain ⟨found, hfound, h⟩ := Fault.bind_eq_ok.mp h
  rw [Json.childNodes, hfound, Fault.ok_bind]
  cases found with
  | none => rfl
  | some part =>
      cases h
      simp [hnone]
      rfl

/-- **Markup of the right shape is read or refused.** -/
theorem IsShaped.failsWithin (h : IsShaped data) :
    FailsWithin (·.isRefusal) (Markup.ofJson data) := by
  induction h with
  | leaf hparts hchildren hnone =>
      refine (hparts.looksWithin ?_).ofJson
      rw [childNodes_of_falsy hchildren hnone]
      exact .ok []
  | nested hparts hchildren _ ih =>
      refine (hparts.looksWithin ?_).ofJson
      obtain ⟨parts, hchildNodes, hvalues⟩ := Json.childNodes_arr hchildren
      rw [hchildNodes, Fault.ok_bind, Fault.mapM_val hvalues]
      exact .mapM ih

end Markup

/-! ## Trees -/

namespace Node

/-- **Reading a tree fails in three ways**: the kind of a node is not known, the data is
malformed, or a part of it is missing or of the wrong kind. -/
theorem failsWithin_ofJson (data : Json) : FailsWithin IsReadFault (Node.ofJson data) := by
  have hruby : FailsWithin IsReadFault (do return Node.ruby (← Ruby.ofJson data)) :=
    .bind (Ruby.failsWithin_ofJson data) fun _ _ => .ok _
  refine .bind (data.failsWithin_get _) fun kind _ => ?_
  split
  · exact .error (.inl rfl)
  · refine .bind kind.failsWithin_key? fun key _ => ?_
    split
    · split
      · exact .bind (Markup.failsWithin_ofJson data) fun _ _ => .ok _
      · exact hruby
    · exact hruby

/-- Data of a kind of markup and of the right shape is read or refused. -/
theorem failsWithin_of_isShaped {data : Json} {name : String}
    (hkind : data.get "type" = .ok (.str name)) (hname : name ∈ Markup.kinds)
    (h : Markup.IsShaped data) : FailsWithin (·.isRefusal)
      (Node.ofJson data) := by
  have hkinds : Markup.kinds.contains name = true := by simpa using hname
  rw [Node.ofJson, hkind, Fault.ok_bind, if_neg (by simp [Json.isNull])]
  rw [Json.key?, Fault.ok_bind, Option.bind_some, Text.toString?_ofString]
  simp only [hkinds, if_true]
  exact .bind h.failsWithin fun _ _ => .ok _

end Node

end HamlFormat
