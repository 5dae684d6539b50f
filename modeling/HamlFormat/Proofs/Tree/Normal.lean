import HamlFormat.Proofs.Json.Names
import HamlFormat.Proofs.Tree.Inversion
import HamlFormat.Proofs.Tree.Shape

/-!
# HamlFormat.Proofs.Tree.Normal

The trees that reading yields. Data is read with defaults, and some of it is
turned into a text or a truth value, so not every tree can be read: a tag always
has a name, a token that stands as an expression is of one of the kinds that may,
and so on. `Node.isNormal` says which trees these are. Every tree that is read is
normal (`isNormal_of_ofJson`). Only that no attribute stands twice needs data in
which no object has two fields of one name.
-/

namespace HamlFormat

/-! ## Normal forms -/

/-- Whether a value is `null` or counts as present. -/
def Json.isOptional (value : Json) : Bool :=
  value.isNull || value.truthy

/-- Whether a value is the empty text or counts as present. -/
def Json.isTextual (value : Json) : Bool :=
  value.isText "" || value.truthy

/-- A tag with a name, whose content and object reference are absent or count as
present; a reference `nil` is absent. -/
def Tag.isNormal (tag : Tag) : Bool :=
  tag.name.truthy && tag.value.isOptional && tag.objectRef.isOptional &&
    !tag.objectRef.isText "nil"

namespace Markup

/-- Whether a line's own values are as reading leaves them. -/
def isNormal : Markup → Bool
  | .tag t _ _ => t.isNormal
  | .plain text _ | .script text _ _ => text.isTextual
  | .silentScript statement _ _ => statement.text.isTextual
  | _ => true

/-- Whether no attribute of a line stands twice. -/
def hasDistinctAttributes : Markup → Bool
  | .tag t _ _ => decide (t.attributes.map Prod.fst).Nodup
  | _ => true

end Markup

/-- Whether a token is of a kind that stands as an expression. -/
def Token.isExpression (token : Token) : Bool :=
  match token.kind with
  | .str kind => kind.toString?.any Token.kinds.contains
  | _ => false

namespace Ruby

mutual

/-- Whether the tokens that stand as expressions may, and every quoted text has its
quote. -/
def isNormal : Ruby → Bool
  | .token t => t.isExpression
  | .varRef _ _ | .label _ _ | .symbol _ _ | .array none _ | .hash none _ => true
  | .quotedSymbol segments quote _ | .string segments quote _ =>
    listIsNormal segments && quote.truthy
  | .interpolation expression _ => isNormal expression
  | .array (some elements) _ => listIsNormal elements
  | .binary left _ right _ => isNormal left && isNormal right
  | .pair p => pairIsNormal p
  | .pairs ps | .hash (some ps) _ => pairsIsNormal ps
  | .bareHash ps _ => pairListIsNormal ps

/-- `isNormal` for expressions in a list. -/
def listIsNormal : List Ruby → Bool
  | [] => true
  | r :: rs => isNormal r && listIsNormal rs

/-- `isNormal` for the two sides of a pair. -/
def pairIsNormal : Pair → Bool
  | .mk key value _ => isNormal key && isNormal value

/-- `isNormal` for the pairs of a hash. -/
def pairsIsNormal : Pairs → Bool
  | .mk ps _ => pairListIsNormal ps

/-- `isNormal` for pairs in a list. -/
def pairListIsNormal : List Pair → Bool
  | [] => true
  | p :: ps => pairIsNormal p && pairListIsNormal ps

end

theorem listIsNormal_eq_true {rs : List Ruby} :
    listIsNormal rs = true ↔ ∀ r ∈ rs, r.isNormal = true := by
  induction rs with
  | nil => simp [listIsNormal]
  | cons r rs ih => simp [listIsNormal, ih]

theorem pairListIsNormal_eq_true {ps : List Pair} :
    pairListIsNormal ps = true ↔ ∀ p ∈ ps, pairIsNormal p = true := by
  induction ps with
  | nil => simp [pairListIsNormal]
  | cons p ps ih => simp [pairListIsNormal, ih]

end Ruby

/-! ## Reading markup -/

theorem Json.truthy_orElse {value default : Json} (h : default.truthy = true) :
    (value.orElse default).truthy = true := by
  rw [orElse]
  split
  · assumption
  · exact h

theorem Json.isOptional_orElse (value : Json) : (value.orElse .null).isOptional = true := by
  rw [orElse, isOptional]
  split
  · simp [*]
  · rfl

theorem Json.isTextual_orElse (value : Json) : (value.orElse (.str "")).isTextual = true := by
  rw [orElse, isTextual]
  split
  · simp [*]
  · rfl

/-- What is read of a tag: each value by its name, with the default it has. -/
theorem Tag.exists_of_ofJson {data : Json} {tag : Tag} (h : Tag.ofJson data = .ok tag) :
    ∃ name attributes value objectRef : Json, data.get "attributes" = .ok attributes ∧
      Tag.readAttributes (attributes.orElse (.obj [])) = .ok tag.attributes ∧
      tag.name = name.orElse (.str "div") ∧ tag.value = value.orElse .null ∧
      tag.objectRef = if objectRef.isText "nil" then .null else objectRef.orElse .null := by
  simp only [Tag.ofJson, Fault.bind_eq_ok, Fault.pure_eq_ok] at h
  obtain ⟨_, _, _, _, objectRef, _, name, _, attributes, hattributes, read, hread, _, _, _, _, _, _,
    value, _, _, _, rfl⟩ := h
  exact ⟨name, attributes, value, objectRef, hattributes, hread, rfl, rfl, rfl⟩

/-- A tag that is read is normal. -/
theorem Tag.isNormal_of_ofJson {data : Json} {tag : Tag} (h : Tag.ofJson data = .ok tag) :
    tag.isNormal = true := by
  obtain ⟨name, -, value, objectRef, -, -, hname, hvalue, hobjectRef⟩ := Tag.exists_of_ofJson h
  have hreference : tag.objectRef.isOptional = true ∧ tag.objectRef.isText "nil" = false := by
    rw [hobjectRef]
    split
    · exact ⟨rfl, rfl⟩
    · next hnil =>
        refine ⟨Json.isOptional_orElse objectRef, ?_⟩
        rw [Json.orElse]
        split
        · simpa using hnil
        · rfl
  rw [isNormal, hname, hvalue, Json.truthy_orElse rfl, Json.isOptional_orElse, hreference.1,
    hreference.2]
  rfl

/-- A tag read from data without double names has no attribute twice. -/
theorem Tag.nodup_of_ofJson {data : Json} {tag : Tag} (hdata : data.hasDistinctNames = true)
    (h : Tag.ofJson data = .ok tag) : (tag.attributes.map Prod.fst).Nodup := by
  obtain ⟨-, attributes, -, -, hattributes, hread, -⟩ := Tag.exists_of_ofJson h
  have hdistinct : (attributes.orElse (.obj [])).hasDistinctNames = true :=
    Json.hasDistinctNames_orElse (Json.hasDistinctNames_of_get hdata hattributes) rfl
  cases hobject : attributes.orElse (.obj []) with
  | obj fields =>
      rw [hobject] at hread hdistinct
      rw [Json.hasDistinctNames, Bool.and_eq_true, decide_eq_true_eq] at hdistinct
      have hnames : (fields.map fun f => (f.1, f.2.text)) = tag.attributes := Except.ok.inj hread
      rw [← hnames, List.map_map]
      exact hdistinct.1
  | _ => rw [hobject] at hread; cases hread

/-- **Markup that is read is normal**, and from data without double names no
attribute stands twice in it. -/
theorem Markup.all_of_ofJson {data : Json} {m : Markup} (h : Markup.ofJson data = .ok m) :
    m.all isNormal = true ∧
      (data.hasDistinctNames = true → m.all hasDistinctAttributes = true) := by
  have hnested : ∀ parts children, data.childNodes = .ok parts →
      parts.mapM (fun child => Markup.ofJson child.1) = .ok children →
      listAll isNormal children = true ∧
        (data.hasDistinctNames = true → listAll hasDistinctAttributes children = true) := by
    intro parts children hparts hchildren
    have hread := Fault.exists_mem_of_mapM hchildren
    simp only [listAll_eq_true]
    refine ⟨fun m hm => ?_, fun hdata m hm => ?_⟩
    · obtain ⟨part, -, hpart⟩ := hread m hm
      exact (Markup.all_of_ofJson hpart).1
    · obtain ⟨part, hmem, hpart⟩ := hread m hm
      exact (Markup.all_of_ofJson hpart).2 (Json.hasDistinctNames_of_childNodes hdata hparts _ hmem)
  cases readFrom_of_ofJson h with
  | root hparts hchildren _ => exact hnested _ _ hparts hchildren
  | tag hvalue ht hparts hchildren _ =>
      obtain ⟨hnormal, hdistinct⟩ := hnested _ _ hparts hchildren
      simp only [all, Bool.and_eq_true]
      refine ⟨⟨Tag.isNormal_of_ofJson ht, hnormal⟩, fun hdata => ⟨?_, hdistinct hdata⟩⟩
      have hfields := Json.hasDistinctNames_of_get hdata hvalue
      simpa [hasDistinctAttributes] using
        Tag.nodup_of_ofJson (Json.hasDistinctNames_orElse hfields rfl) ht
  | comment _ _ _ _ hparts hchildren _ => exact hnested _ _ hparts hchildren
  | doctype _ _ _ _ _ => exact ⟨rfl, fun _ => rfl⟩
  | hamlComment _ _ hparts hchildren _ => exact hnested _ _ hparts hchildren
  | plain _ _ _ => exact ⟨Json.isTextual_orElse _, fun _ => rfl⟩
  | script _ _ hparts hchildren _ =>
      obtain ⟨hnormal, hdistinct⟩ := hnested _ _ hparts hchildren
      simp only [all, Bool.and_eq_true]
      exact ⟨⟨Json.isTextual_orElse _, hnormal⟩, fun hdata => ⟨rfl, hdistinct hdata⟩⟩
  | silentScript _ _ _ hparts hchildren _ =>
      obtain ⟨hnormal, hdistinct⟩ := hnested _ _ hparts hchildren
      simp only [all, Bool.and_eq_true]
      exact ⟨⟨Json.isTextual_orElse _, hnormal⟩, fun hdata => ⟨rfl, hdistinct hdata⟩⟩
termination_by data.weight
decreasing_by all_goals exact part.2

/-! ## Reading Ruby -/

/-- A token read from data whose kind is a name has that kind. -/
theorem Token.kind_of_ofJson {data kind : Json} {token : Token}
    (hkind : data.get "type" = .ok kind) (h : Token.ofJson data = .ok token) :
    token.kind = kind := by
  obtain ⟨fields, rfl, rfl⟩ := Json.eq_obj_of_get hkind
  simp only [Token.ofJson, Fault.bind_eq_ok, Fault.pure_eq_ok] at h
  obtain ⟨part, hpart, -, -, -, -, rfl⟩ := h
  rw [Json.lookup_of_field hpart]
  rfl

theorem Ruby.truthy_of_readQuote {data quote : Json} (h : Ruby.readQuote data = .ok quote) :
    quote.truthy = true := by
  obtain ⟨found, -, hquote⟩ := Fault.bind_eq_ok.mp h
  cases hquote
  exact Json.truthy_orElse rfl

/-- **Ruby expressions that are read are normal.** -/
theorem Ruby.isNormal_of_ofJson {data : Json} {r : Ruby} (h : Ruby.ofJson data = .ok r) :
    r.isNormal = true := by
  have hinner : ∀ (part : Json.Part data) inner, Ruby.ofJson part.1 = .ok inner →
      inner.isNormal = true := fun part inner hread => Ruby.isNormal_of_ofJson hread
  have hlist : ∀ (parts : List (Json.Part data)) rs,
      parts.mapM (fun part => Ruby.ofJson part.1) = .ok rs → listIsNormal rs = true := by
    intro parts rs hrs
    rw [listIsNormal_eq_true]
    intro r hr
    obtain ⟨part, -, hpart⟩ := Fault.exists_mem_of_mapM hrs r hr
    exact hinner part r hpart
  have hpairs : ∀ (parts : List (Json.Part data)) ps,
      parts.mapM (fun part => do (← Ruby.ofJson part.1).asPair) = .ok ps →
      pairListIsNormal ps = true := by
    intro parts ps hps
    rw [pairListIsNormal_eq_true]
    intro p hp
    obtain ⟨part, -, hpart⟩ := Fault.exists_mem_of_mapM hps p hp
    obtain ⟨r, hr, hpair⟩ := Fault.bind_eq_ok.mp hpart
    cases Ruby.eq_pair_of_asPair hpair
    simpa [isNormal] using hinner part _ hr
  cases readFrom_of_ofJson h with
  | token htype hs hname ht =>
      rw [isNormal, Token.isExpression, Token.kind_of_ofJson htype ht]
      simpa [hs] using hname
  | varRef _ _ _ | label _ _ | symbol _ _ _ _ | array_none _ | hash_none _ => rfl
  | quotedSymbol _ _ hsegments hquote _ | string _ _ hsegments hquote _ =>
      rw [isNormal, hlist _ _ hsegments, truthy_of_readQuote hquote]
      rfl
  | interpolation _ hread _ =>
      rw [isNormal]
      exact hinner _ _ hread
  | array_some _ _ helements _ => exact hlist _ _ helements
  | binary _ hleft _ _ hright _ =>
      rw [isNormal, hinner _ _ hleft, hinner _ _ hright]
      rfl
  | pair _ hkey _ hvalue _ =>
      rw [isNormal, pairIsNormal, hinner _ _ hkey, hinner _ _ hvalue]
      rfl
  | pairs _ hps _ =>
      rw [isNormal, pairsIsNormal]
      exact hpairs _ _ hps
  | bareHash _ hps _ => exact hpairs _ _ hps
  | hash_some _ hps _ => simpa [isNormal] using hinner _ _ hps
termination_by data.weight
decreasing_by all_goals exact part.2

/-! ## Trees -/

/-- Whether a tree is as reading leaves it. -/
def Node.isNormal : Node → Bool
  | .markup m => m.all Markup.isNormal && m.all Markup.hasDistinctAttributes
  | .ruby r => r.isNormal

/-- What is read as a tree is read as markup or as Ruby. -/
theorem Node.cases_of_ofJson {data : Json} {node : Node} (h : Node.ofJson data = .ok node) :
    (∃ m, node = .markup m ∧ Markup.ofJson data = .ok m) ∨
      ∃ r, node = .ruby r ∧ Ruby.ofJson data = .ok r := by
  obtain ⟨kind, -, h⟩ := Fault.bind_eq_ok.mp h
  dsimp only at h
  split at h
  · cases h
  · obtain ⟨key, -, h⟩ := Fault.bind_eq_ok.mp h
    split at h
    · split at h
      · obtain ⟨m, hm, h⟩ := Fault.bind_eq_ok.mp h
        exact .inl ⟨m, (Fault.pure_eq_ok.mp h).symm, hm⟩
      · obtain ⟨r, hr, h⟩ := Fault.bind_eq_ok.mp h
        exact .inr ⟨r, (Fault.pure_eq_ok.mp h).symm, hr⟩
    · obtain ⟨r, hr, h⟩ := Fault.bind_eq_ok.mp h
      exact .inr ⟨r, (Fault.pure_eq_ok.mp h).symm, hr⟩

/-- **A tree read from data without double names is normal.** -/
theorem Node.isNormal_of_ofJson {data : Json} {node : Node} (hdata : data.hasDistinctNames = true)
    (h : Node.ofJson data = .ok node) : node.isNormal = true := by
  obtain ⟨m, rfl, hm⟩ | ⟨r, rfl, hr⟩ := cases_of_ofJson h
  · obtain ⟨hlines, hdistinct⟩ := Markup.all_of_ofJson hm
    rw [isNormal, hlines, hdistinct hdata]
    rfl
  · exact Ruby.isNormal_of_ofJson hr

end HamlFormat
