import HamlFormat.Proofs.Fault
import HamlFormat.Tree.Read

/-!
# HamlFormat.Proofs.Tree.Inversion

What stands in data that is read as a tree. `Ruby.ReadFrom` and `Markup.ReadFrom`
say for each kind of node which parts of the data were read, and as what, one
level deep; `readFrom_of_ofJson` says that nothing else is read. A property of
all trees that are read follows by induction on the weight of the data, with a
case for each kind.
-/

namespace HamlFormat

/-- A kind by whose name a node is read is that text. -/
theorem Json.eq_str_of_key {kind : Json} {key : Option Text} {name : String}
    (hkey : kind.key? = .ok key) (hname : key.bind Text.toString? = some name) :
    ∃ s, kind = .str s ∧ s.toString? = some name := by
  cases kind with
  | str s =>
      cases hkey
      exact ⟨s, rfl, hname⟩
  | arr _ | obj _ => cases hkey
  | _ =>
      cases hkey
      cases hname

/-! ## Ruby -/

namespace Ruby

theorem eq_pair_of_asPair {r : Ruby} {p : Pair} (h : r.asPair = .ok p) : r = .pair p := by
  cases r with
  | pair _ => cases h; rfl
  | _ => cases h

/-- What was read of data as an expression. -/
inductive ReadFrom (data : Json) : Ruby → Prop where
  | token {s : Text} {name : String} {t : Token} (htype : data.get "type" = .ok (.str s))
      (hs : s.toString? = some name) (hname : name ∈ Token.kinds)
      (ht : Token.ofJson data = .ok t) : ReadFrom data (.token t)
  | varRef {part : Json.Part data} {t : Token} {line : Json}
      (hpart : data.bodyItem 0 = .ok part) (ht : Token.ofJson part.1 = .ok t)
      (hline : data.get "line" = .ok line) : ReadFrom data (.varRef t line)
  | label {body : Json.Part data} {line : Json} (hbody : data.field "body" = .ok body)
      (hline : data.get "line" = .ok line) : ReadFrom data (.label body.1 line)
  | symbol {body part : Json.Part data} {t : Token} {line : Json}
      (hbody : data.unwrappedBody "symbol" = .ok body) (hpart : body.item 0 = .ok part)
      (ht : Token.ofJson part.1 = .ok t) (hline : data.get "line" = .ok line) :
      ReadFrom data (.symbol t line)
  | quotedSymbol {body : Json.Part data} {parts : List (Json.Part data)} {segments : List Ruby}
      {quote line : Json} (hbody : data.unwrappedBody "xstring" = .ok body)
      (hparts : body.elements = .ok parts)
      (hsegments : parts.mapM (fun part => Ruby.ofJson part.1) = .ok segments)
      (hquote : readQuote data = .ok quote) (hline : data.get "line" = .ok line) :
      ReadFrom data (.quotedSymbol segments quote line)
  | string {body : Json.Part data} {parts : List (Json.Part data)} {segments : List Ruby}
      {quote line : Json} (hbody : data.unwrappedBody "string" = .ok body)
      (hparts : body.elements = .ok parts)
      (hsegments : parts.mapM (fun part => Ruby.ofJson part.1) = .ok segments)
      (hquote : readQuote data = .ok quote) (hline : data.get "line" = .ok line) :
      ReadFrom data (.string segments quote line)
  | interpolation {part : Json.Part data} {expression : Ruby} {line : Json}
      (hpart : data.bodyItem 0 = .ok part) (hread : Ruby.ofJson part.1 = .ok expression)
      (hline : data.get "line" = .ok line) : ReadFrom data (.interpolation expression line)
  | array_none {line : Json} (hline : data.get "line" = .ok line) :
      ReadFrom data (.array none line)
  | array_some {body : Json.Part data} {parts : List (Json.Part data)} {elements : List Ruby}
      {line : Json} (hbody : data.bodyFirst? = .ok (some body)) (hparts : body.elements = .ok parts)
      (helements : parts.mapM (fun part => Ruby.ofJson part.1) = .ok elements)
      (hline : data.get "line" = .ok line) : ReadFrom data (.array (some elements) line)
  | binary {leftPart operator rightPart : Json.Part data} {left right : Ruby} {line : Json}
      (hleftPart : data.bodyItem 0 = .ok leftPart) (hleft : Ruby.ofJson leftPart.1 = .ok left)
      (hoperator : data.bodyItem 1 = .ok operator)
      (hrightPart : data.bodyItem 2 = .ok rightPart) (hright : Ruby.ofJson rightPart.1 = .ok right)
      (hline : data.get "line" = .ok line) :
      ReadFrom data (.binary left operator.1.text right line)
  | pair {keyPart valuePart : Json.Part data} {key value : Ruby} {line : Json}
      (hkeyPart : data.bodyItem 0 = .ok keyPart) (hkey : Ruby.ofJson keyPart.1 = .ok key)
      (hvaluePart : data.bodyItem 1 = .ok valuePart) (hvalue : Ruby.ofJson valuePart.1 = .ok value)
      (hline : data.get "line" = .ok line) : ReadFrom data (.pair (.mk key value line))
  | pairs {parts : List (Json.Part data)} {ps : List Pair} {line : Json}
      (hparts : data.pairNodes = .ok parts)
      (hps : parts.mapM (fun part => do (← Ruby.ofJson part.1).asPair) = .ok ps)
      (hline : data.get "line" = .ok line) : ReadFrom data (.pairs (.mk ps line))
  | bareHash {parts : List (Json.Part data)} {ps : List Pair} {line : Json}
      (hparts : data.pairNodes = .ok parts)
      (hps : parts.mapM (fun part => do (← Ruby.ofJson part.1).asPair) = .ok ps)
      (hline : data.get "line" = .ok line) : ReadFrom data (.bareHash ps line)
  | hash_none {line : Json} (hline : data.get "line" = .ok line) : ReadFrom data (.hash none line)
  | hash_some {body : Json.Part data} {ps : Pairs} {line : Json}
      (hbody : data.bodyFirst? = .ok (some body)) (hps : Ruby.ofJson body.1 = .ok (.pairs ps))
      (hline : data.get "line" = .ok line) : ReadFrom data (.hash (some ps) line)

theorem readFrom_of_ofJson {data : Json} {r : Ruby} (h : Ruby.ofJson data = .ok r) :
    ReadFrom data r := by
  rw [Ruby.ofJson] at h
  obtain ⟨kind, htype, h⟩ := Fault.bind_eq_ok.mp h
  obtain ⟨key, hkey, h⟩ := Fault.bind_eq_ok.mp h
  dsimp only at h
  split at h
  · cases h
  · next name hname =>
    split at h
    · next htoken =>
      obtain ⟨t, ht, h⟩ := Fault.bind_eq_ok.mp h
      cases h
      obtain ⟨s, rfl, hs⟩ := Json.eq_str_of_key hkey hname
      exact .token htype hs (by simpa using htoken) ht
    · split at h
      · -- a hash, without a body or with one that must be pairs
        obtain ⟨first, hbody, h⟩ := Fault.bind_eq_ok.mp h
        cases first with
        | none =>
            obtain ⟨line, hline, h⟩ := Fault.bind_eq_ok.mp h
            cases h
            exact .hash_none hline
        | some body =>
            obtain ⟨inner, hread, h⟩ := Fault.bind_eq_ok.mp h
            cases inner with
            | pairs ps =>
                obtain ⟨line, hline, h⟩ := Fault.bind_eq_ok.mp h
                cases h
                exact .hash_some hbody hread hline
            | _ =>
                obtain ⟨_, -, h⟩ := Fault.bind_eq_ok.mp h
                cases h
      any_goals simp only [Fault.bind_eq_ok, Fault.pure_eq_ok] at h
      · obtain ⟨parts, hparts, ps, hps, line, hline, rfl⟩ := h
        exact .pairs hparts hps hline
      · obtain ⟨parts, hparts, ps, hps, line, hline, rfl⟩ := h
        exact .bareHash hparts hps hline
      · obtain ⟨_, hkeyPart, key, hkey, _, hvaluePart, value, hvalue, line, hline, rfl⟩ := h
        exact .pair hkeyPart hkey hvaluePart hvalue hline
      · obtain ⟨body, hbody, line, hline, rfl⟩ := h
        exact .label hbody hline
      · obtain ⟨body, hbody, part, hpart, t, ht, line, hline, rfl⟩ := h
        exact .symbol hbody hpart ht hline
      · obtain ⟨body, hbody, parts, hparts, segments, hsegments, quote, hquote, line, hline,
          rfl⟩ := h
        exact .quotedSymbol hbody hparts hsegments hquote hline
      · obtain ⟨body, hbody, parts, hparts, segments, hsegments, quote, hquote, line, hline,
          rfl⟩ := h
        exact .string hbody hparts hsegments hquote hline
      · obtain ⟨part, hpart, expression, hread, line, hline, rfl⟩ := h
        exact .interpolation hpart hread hline
      · obtain ⟨part, hpart, t, ht, line, hline, rfl⟩ := h
        exact .varRef hpart ht hline
      · obtain ⟨first, hbody, h⟩ := h
        cases first with
        | none =>
            obtain ⟨line, hline, h⟩ := Fault.bind_eq_ok.mp h
            cases h
            exact .array_none hline
        | some body =>
            simp only [Fault.bind_eq_ok, Fault.pure_eq_ok] at h
            obtain ⟨parts, hparts, elements, helements, line, hline, rfl⟩ := h
            exact .array_some hbody hparts helements hline
      · obtain ⟨_, hleftPart, left, hleft, operator, hoperator, _, hrightPart, right, hright, line,
          hline, rfl⟩ := h
        exact .binary hleftPart hleft hoperator hrightPart hright hline
      · cases h

end Ruby

/-! ## Markup -/

namespace Markup

/-- What was read of data as a line of markup. -/
inductive ReadFrom (data : Json) : Markup → Prop where
  | root {parts : List (Json.Part data)} {children : List Markup} {line : Json}
      (hparts : data.childNodes = .ok parts)
      (hchildren : parts.mapM (fun part => Markup.ofJson part.1) = .ok children)
      (hline : data.get "line" = .ok line) : ReadFrom data (.root children line)
  | tag {value : Json} {t : Tag} {parts : List (Json.Part data)} {children : List Markup}
      {line : Json} (hvalue : data.get "value" = .ok value)
      (ht : Tag.ofJson (value.orElse (.obj [])) = .ok t) (hparts : data.childNodes = .ok parts)
      (hchildren : parts.mapM (fun part => Markup.ofJson part.1) = .ok children)
      (hline : data.get "line" = .ok line) : ReadFrom data (.tag t children line)
  | comment {value revealed conditional text : Json} {parts : List (Json.Part data)}
      {children : List Markup} {line : Json} (hvalue : data.get "value" = .ok value)
      (hrevealed : (value.orElse (.obj [])).get "revealed" = .ok revealed)
      (hconditional : (value.orElse (.obj [])).get "conditional" = .ok conditional)
      (htext : (value.orElse (.obj [])).get "text" = .ok text)
      (hparts : data.childNodes = .ok parts)
      (hchildren : parts.mapM (fun part => Markup.ofJson part.1) = .ok children)
      (hline : data.get "line" = .ok line) :
      ReadFrom data (.comment ⟨revealed.truthy, conditional, text⟩ children line)
  | doctype {value kind version encoding line : Json} (hvalue : data.get "value" = .ok value)
      (hkind : (value.orElse (.obj [])).get "type" = .ok kind)
      (hversion : (value.orElse (.obj [])).get "version" = .ok version)
      (hencoding : (value.orElse (.obj [])).get "encoding" = .ok encoding)
      (hline : data.get "line" = .ok line) :
      ReadFrom data (.doctype ⟨kind, version, encoding⟩ line)
  | hamlComment {value text : Json} {parts : List (Json.Part data)} {children : List Markup}
      {line : Json} (hvalue : data.get "value" = .ok value)
      (htext : (value.orElse (.obj [])).get "text" = .ok text)
      (hparts : data.childNodes = .ok parts)
      (hchildren : parts.mapM (fun part => Markup.ofJson part.1) = .ok children)
      (hline : data.get "line" = .ok line) : ReadFrom data (.hamlComment text children line)
  | plain {value text line : Json} (hvalue : data.get "value" = .ok value)
      (htext : (value.orElse (.obj [])).get "text" = .ok text)
      (hline : data.get "line" = .ok line) : ReadFrom data (.plain (text.orElse (.str "")) line)
  | script {value text : Json} {parts : List (Json.Part data)} {children : List Markup}
      {line : Json} (hvalue : data.get "value" = .ok value)
      (htext : (value.orElse (.obj [])).get "text" = .ok text)
      (hparts : data.childNodes = .ok parts)
      (hchildren : parts.mapM (fun part => Markup.ofJson part.1) = .ok children)
      (hline : data.get "line" = .ok line) :
      ReadFrom data (.script (text.orElse (.str "")) children line)
  | silentScript {value text keyword : Json} {parts : List (Json.Part data)}
      {children : List Markup} {line : Json} (hvalue : data.get "value" = .ok value)
      (htext : (value.orElse (.obj [])).get "text" = .ok text)
      (hkeyword : (value.orElse (.obj [])).get "keyword" = .ok keyword)
      (hparts : data.childNodes = .ok parts)
      (hchildren : parts.mapM (fun part => Markup.ofJson part.1) = .ok children)
      (hline : data.get "line" = .ok line) :
      ReadFrom data (.silentScript ⟨text.orElse (.str ""), keyword⟩ children line)

theorem readFrom_of_ofJson {data : Json} {m : Markup} (h : Markup.ofJson data = .ok m) :
    ReadFrom data m := by
  rw [Markup.ofJson] at h
  obtain ⟨kind, -, h⟩ := Fault.bind_eq_ok.mp h
  obtain ⟨name, -, h⟩ := Fault.bind_eq_ok.mp h
  dsimp only at h
  split at h
  · cases h
  any_goals simp only [Fault.bind_eq_ok, Fault.pure_eq_ok] at h
  · obtain ⟨children, ⟨parts, hparts, hchildren⟩, line, hline, rfl⟩ := h
    exact .root hparts hchildren hline
  · obtain ⟨-, ⟨value, hvalue, rfl⟩, t, ht, children, ⟨parts, hparts, hchildren⟩, line, hline,
      rfl⟩ := h
    exact .tag hvalue ht hparts hchildren hline
  · obtain ⟨-, ⟨value, hvalue, rfl⟩, revealed, hrevealed, conditional, hconditional, text, htext,
      children, ⟨parts, hparts, hchildren⟩, line, hline, rfl⟩ := h
    exact .comment hvalue hrevealed hconditional htext hparts hchildren hline
  · obtain ⟨-, ⟨value, hvalue, rfl⟩, kind, hkind, version, hversion, encoding, hencoding, line,
      hline, rfl⟩ := h
    exact .doctype hvalue hkind hversion hencoding hline
  · obtain ⟨-, ⟨value, hvalue, rfl⟩, text, htext, children, ⟨parts, hparts, hchildren⟩, line, hline,
      rfl⟩ := h
    exact .hamlComment hvalue htext hparts hchildren hline
  · obtain ⟨-, ⟨value, hvalue, rfl⟩, text, htext, line, hline, rfl⟩ := h
    exact .plain hvalue htext hline
  · obtain ⟨-, ⟨value, hvalue, rfl⟩, text, htext, children, ⟨parts, hparts, hchildren⟩, line, hline,
      rfl⟩ := h
    exact .script hvalue htext hparts hchildren hline
  · obtain ⟨-, ⟨value, hvalue, rfl⟩, text, htext, keyword, hkeyword, children,
      ⟨parts, hparts, hchildren⟩, line, hline, rfl⟩ := h
    exact .silentScript hvalue htext hkeyword hparts hchildren hline
  · cases h

end Markup

end HamlFormat
