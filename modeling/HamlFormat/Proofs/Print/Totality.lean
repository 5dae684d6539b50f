import HamlFormat.Proofs.Layout.Failure
import HamlFormat.Proofs.Print.Demand
import Mathlib.Data.List.Basic

/-!
# HamlFormat.Proofs.Print.Totality

Whether a tree is formatted. Printing fails only where a value of another kind stands
for a text (`Node.failsWithin_toDoc`), whatever the tree holds; there is no node
that it does not know. A tree whose texts are texts is printed, and then formatted if
the indentation that it asks for can be made (`Settings.format_ok_iff`). That is so for
all settings in use: only a level of spaces, or columns before an attribute hash,
that do not fit in memory cannot be made. Trees may be nested to any depth here; where
there is a bound on that, a tree beyond it is not formatted either.
-/

namespace HamlFormat

open Fault (FailsWithin)

/-! ## What printing fails with -/

/-- Whether a fault comes from a value of a kind that cannot stand where it does. -/
def Fault.isKindFault : Fault → Bool
  | .mismatch | .noMember => true
  | _ => false

theorem Json.failsWithin_key (value : Json) :
    FailsWithin (·.isKindFault) value.key? := by
  cases value with
  | arr _ | obj _ => exact .error rfl
  | _ => exact .ok _

namespace Ruby

theorem failsWithin_labelName (text : Json) :
    FailsWithin (·.isKindFault) (labelName text) := by
  cases text with
  | str s =>
      rw [labelName]
      split
      · exact .ok _
      · exact .ok _
  | _ => exact .error rfl

theorem failsWithin_isLabelName (name : Token) :
    FailsWithin (·.isKindFault) (isLabelName name) := by
  refine .bind name.kind.failsWithin_key fun key _ => ?_
  split
  · exact .ok _
  · exact .ok _

theorem failsWithin_separated (style : Style) (key : Ruby) (keyDoc : Doc) :
    FailsWithin (·.isKindFault) (separated style key keyDoc) := by
  unfold separated
  split
  · next text _ =>
      dsimp only
      split
      · exact .ok _
      · exact .bind (failsWithin_labelName text) fun _ _ => .ok _
  · next name _ =>
      dsimp only
      split
      · exact .bind (failsWithin_isLabelName name) fun _ _ => .ok _
      · exact .ok _
  · exact .ok _
  · exact .ok _

mutual

theorem failsWithin_toDoc (style : Style) : ∀ r : Ruby,
    FailsWithin (·.isKindFault) (r.toDoc style)
  | .token _ | .varRef _ _ | .label _ _ | .symbol _ _ | .array none _ | .hash none _ => .ok _
  | .quotedSymbol segments _ _ | .string segments _ _ =>
      .bind (failsWithin_listToDocs style segments) fun _ _ => .ok _
  | .interpolation expression _ => .bind (failsWithin_toDoc style expression) fun _ _ => .ok _
  | .array (some elements) _ => by
      rw [toDoc]
      refine .bind (failsWithin_listToDocs style elements) fun docs _ => ?_
      split
      · exact .ok _
      · exact .ok _
  | .binary left _ right _ =>
      .bind (failsWithin_toDoc style left) fun _ _ =>
        .bind (failsWithin_toDoc style right) fun _ _ => .ok _
  | .pair p => failsWithin_pairToDoc style p
  | .pairs ps => failsWithin_pairsToDoc style ps
  | .bareHash ps _ => .bind (failsWithin_pairListToDocs style ps) fun _ _ => .ok _
  | .hash (some ps) _ => by
      rw [toDoc]
      split
      · exact .ok _
      · exact .bind (failsWithin_pairsToDoc style ps) fun _ _ => .ok _

theorem failsWithin_listToDocs (style : Style) : ∀ rs : List Ruby,
    FailsWithin (·.isKindFault) (listToDocs style rs)
  | [] => .ok _
  | r :: rs =>
      .bind (failsWithin_toDoc style r) fun _ _ =>
        .bind (failsWithin_listToDocs style rs) fun _ _ => .ok _

theorem failsWithin_pairToDoc (style : Style) : ∀ p : Pair,
    FailsWithin (·.isKindFault) (pairToDoc style p)
  | .mk key value _ => by
      rw [pairToDoc]
      refine .bind (failsWithin_toDoc style key) fun own _ => ?_
      refine .bind (failsWithin_separated style key own) fun keyDoc _ => ?_
      refine .bind (failsWithin_toDoc style value) fun valueDoc _ => ?_
      split
      · exact .ok _
      · exact .ok _

theorem failsWithin_pairsToDoc (style : Style) : ∀ ps : Pairs,
    FailsWithin (·.isKindFault) (pairsToDoc style ps)
  | .mk ps _ => .bind (failsWithin_pairListToDocs style ps) fun _ _ => .ok _

theorem failsWithin_pairListToDocs (style : Style) : ∀ ps : List Pair,
    FailsWithin (·.isKindFault) (pairListToDocs style ps)
  | [] => .ok _
  | p :: ps =>
      .bind (failsWithin_pairToDoc style p) fun _ _ =>
        .bind (failsWithin_pairListToDocs style ps) fun _ _ => .ok _

end

end Ruby

theorem failsWithin_sourceLine (source : Text) (line : Json) :
    FailsWithin (·.isKindFault) (sourceLine source line) := by
  unfold sourceLine
  dsimp only
  split
  · exact .ok _
  · split
    · exact .ok _
    · exact .ok _
  · split
    · exact .ok _
    · exact .error rfl
  · exact .error rfl

theorem failsWithin_hamlCommentDoc (style : Style) (text line : Json) :
    FailsWithin (·.isKindFault) (hamlCommentDoc style text line) := by
  unfold hamlCommentDoc
  split
  · dsimp only
    split
    · exact .ok _
    · refine .bind (failsWithin_sourceLine style.source line) fun found _ => ?_
      split
      · exact .ok _
      · exact .ok _
  · exact .error rfl

theorem Doctype.failsWithin_toDoc (doctype : Doctype) :
    FailsWithin (·.isKindFault) doctype.toDoc := by
  have hspelling : ∀ value,
      FailsWithin (·.isKindFault) (Doctype.spelling? value) :=
    fun value => .bind value.failsWithin_key fun _ _ => .ok _
  refine .bind (hspelling doctype.kind) fun spelling _ => ?_
  cases spelling with
  | some _ => exact .ok _
  | none => exact .bind (hspelling doctype.version) fun _ _ => .ok _

namespace Markup

mutual

theorem failsWithin_toDoc (style : Style) : ∀ m : Markup,
    FailsWithin (·.isKindFault) (m.toDoc style)
  | .root children _ | .comment _ children _ | .script _ children _ | .tag _ children _ =>
      .bind (failsWithin_listToDocs style children) fun _ _ => .ok _
  | .doctype d _ => d.failsWithin_toDoc
  | .hamlComment text _ line => failsWithin_hamlCommentDoc style text line
  | .plain _ _ => .ok _
  | .silentScript _ children _ => by
      rw [toDoc]
      refine .bind (failsWithin_listToDocs style children) fun docs _ => ?_
      dsimp only
      split
      · exact .ok _
      · exact .ok _

theorem failsWithin_listToDocs (style : Style) : ∀ ms : List Markup,
    FailsWithin (·.isKindFault) (listToDocs style ms)
  | [] => .ok _
  | m :: ms =>
      .bind (failsWithin_toDoc style m) fun _ _ =>
        .bind (failsWithin_listToDocs style ms) fun _ _ => .ok _

end

end Markup

/-- **What printing fails with**, whatever the tree holds. -/
theorem Node.failsWithin_toDoc (style : Style) (node : Node) :
    FailsWithin (·.isKindFault) (node.toDoc style) := by
  cases node with
  | markup m => exact m.failsWithin_toDoc style
  | ruby r => exact r.failsWithin_toDoc style

/-! ## Trees -/

namespace Node

/-- Whether the texts that a tree is printed from are texts, or absent where they may be. -/
def isWellTyped : Node → Bool
  | .markup m => m.all Markup.isWellTyped
  | .ruby r => r.all Ruby.isWellTyped

/-- Whether a tree has nothing to indent. -/
def isFlush (source : Text) : Node → Bool
  | .markup m => m.isFlush source
  | .ruby r => r.isFlush

/-- Whether the attributes in a tree can be aligned. -/
def isAligned : Node → Bool
  | .markup m => m.isAligned
  | .ruby _ => true

/-- A well-typed tree that was read has a document, which asks for what the tree does. -/
theorem demands_toDoc (style : Style) {data : Json} {node : Node} (h : ofJson data = .ok node)
    (htyped : node.isWellTyped = true) :
    ∃ doc, node.toDoc style = .ok doc ∧
      doc.Demands (node.isFlush style.source) node.isAligned := by
  obtain ⟨m, rfl, hm⟩ | ⟨r, rfl, hr⟩ := cases_of_ofJson h
  · have hnormal := (Markup.all_of_ofJson hm).1
    have htext := Markup.all_mono (fun _ => Markup.hasText_of_isNormal) m hnormal
    exact m.demands_toDoc style htyped htext
  · exact r.demands_toDoc style htyped (Ruby.isNormal_of_ofJson hr)

end Node

/-! ## Formatting -/

namespace Settings

/-- A tree is formatted, or a value of the wrong kind or a number that is too large stands in
the way. -/
theorem failsWithin_format (settings : Settings) (source : Text) (node : Node) :
    FailsWithin (fun fault => fault.isKindFault = true ∨ fault.isLayoutFault = true)
      (settings.format source node) := by
  have hprint := node.failsWithin_toDoc (settings.style source)
  refine .bind (hprint.mono fun _ => .inl) fun doc _ => ?_
  exact (settings.failsWithin_layout doc).mono fun _ => .inr

/-- **Well-typed trees are formatted** if they have nothing to indent or a level of
indentation can be made, and the columns before each attribute hash fit in memory; else
a number is too large. No tree that is read, whatever its values are, holds a node that
cannot be printed. A bound on how deep trees may be nested is not part of this, and of the
memory that is needed only each level and each alignment is counted (`spaceCount`). -/
theorem format_ok_iff {data : Json} {node : Node} (hread : Node.ofJson data = .ok node)
    (settings : Settings) (source : Text) :
    (∀ kind, settings.format source node ≠ .error (.unsupportedNode kind)) ∧
    ∀ w t : Int, node.isWellTyped = true → settings.printWidth.int? = some w →
      settings.tabWidth.int? = some t →
        ((∃ out, settings.format source node = .ok out) ↔
          (settings.indents t = true ∨ node.isFlush source = true) ∧ node.isAligned = true) ∧
        ∀ fault, settings.format source node = .error fault → fault.isExcess = true := by
  constructor
  · intro kind hfault
    obtain hkind | hlayout := settings.failsWithin_format source node _ hfault
    · cases hkind
    · cases hlayout
  · intro w t htyped hw ht
    obtain ⟨doc, hdoc, hdemands⟩ := Node.demands_toDoc (settings.style source) hread htyped
    have hformat : settings.format source node = settings.layout doc := by
      rw [format, hdoc]
      rfl
    obtain ⟨hproper, hplain⟩ := (Doc.all_and doc).mp hdemands.ordinary
    rw [hformat]
    constructor
    · rw [layout_ok_iff hw ht hplain, hdemands.feasible, Bool.and_eq_true, Bool.or_eq_true]
      rfl
    · exact failsWithin_layout_of_isProper hw ht hproper

/-- A link with an attribute hash over a comment written as a block and an empty line. It is
formatted with levels of two spaces, and not with levels that do not fit in memory. -/
theorem format_ok_iff_of_nested_hash :
    let data : Json := .obj [("type", .str "root"), ("children", .arr [
      .obj [("type", .str "tag"), ("value", .obj [("name", .str "a"),
          ("attributes", .obj [("class", .str "x"), ("href", .str "/")])]),
        ("children", .arr [
          .obj [("type", .str "haml_comment"), ("value", .obj [("text", .str "\n  b")]),
            ("line", .int 2)],
          .obj [("type", .str "plain")]])]])]
    let tag : Tag :=
      ⟨.str "a", [("class", "x"), ("href", "/")], false, false, false, .null, false, ⟨.null, .null⟩,
        .null⟩
    let node : Node := .markup (.root [.tag tag
      [.hamlComment (.str "\n  b") [] (.int 2), .plain (.str "") .null] .null] .null)
    let source : Text := "%a\n  -#\n    b"
    let wide : Settings := { tabWidth := .int countLimit }
    Node.ofJson data = .ok node ∧ node.isWellTyped = true ∧ node.isFlush source = false ∧
      (∃ out, Settings.format {} source node = .ok out) ∧
      ¬ ∃ out, wide.format source node = .ok out := by
  intro data tag node source wide
  have hread : Node.ofJson data = .ok node := by decide +kernel
  have htyped : node.isWellTyped = true := by decide +kernel
  have hflush : node.isFlush source = false := by decide +kernel
  refine ⟨hread, htyped, hflush, ?_, fun hout => ?_⟩
  · have hiff := ((format_ok_iff hread {} source).2 80 2 htyped rfl rfl).1
    exact hiff.mpr ⟨.inl (by decide), by decide +kernel⟩
  · have hiff := ((format_ok_iff hread wide source).2 80 countLimit htyped rfl rfl).1
    obtain hindents | hflat := (hiff.mp hout).1
    · exact absurd hindents (by decide)
    · rw [hflush] at hflat
      cases hflat

/-- A level of spaces that is too wide to be made fails also where nothing is broken over
lines: the elements of an array are indented in any case. -/
theorem format_error_of_wide_level :
    let data : Json := .obj [("type", .str "array"),
      ("body", .arr [.arr [.obj [("type", .str "@int"), ("body", .str "1")]]])]
    let node : Node := .ruby (.array (some [.token ⟨.str "@int", "1", .null⟩]) .null)
    let settings : Settings := { tabWidth := .int countLimit }
    Node.ofJson data = .ok node ∧ node.isWellTyped = true ∧
      settings.printWidth.int? = some 80 ∧ settings.tabWidth.int? = some countLimit ∧
      Settings.format {} "" node = .ok "[1]" ∧ settings.format "" node = .error .overflow := by
  decide +kernel

end Settings

end HamlFormat
