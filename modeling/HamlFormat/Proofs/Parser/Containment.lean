import HamlFormat.Parser.External
import HamlFormat.Proofs.Json.Failure
import HamlFormat.Proofs.Tree.Failure
import Mathlib.Data.List.Basic

/-!
# HamlFormat.Proofs.Parser.Containment

Which failures of an external parser leave it as such. A parser is to give a tree,
a parse failure that names its command, or the kind of a node that nothing is
known about. Five other faults leave it: a source that has no encoding, a program
that may not be run, an answer that is no UTF-8, an integer of too many digits and
an object with parts missing or of the wrong kind. `Parser.Escapes` says when each
of them does, and `parse_escapes_iff` that nothing else does. How deep an answer is nested
plays no part: reading has no bound on that here, and a reader that has one may fail in
one more way, on an answer nested deeper than its bound.
-/

namespace HamlFormat

open Fault (FailsWithin)

/-! ## Octets -/

namespace Text

/-- A character that is begun is decoded as something. -/
theorem decodeFrom_ne_nil (begun : Begun) (bytes : List UInt8) :
    decodeFrom (some begun) bytes ≠ [] := by
  induction bytes generalizing begun with
  | nil => simp [decodeFrom]
  | cons b bytes ih =>
      rw [decodeFrom]
      split
      · dsimp only
        split
        · simp
        · exact ih _
      · split <;> simp

/-- Octets are decoded as nothing only if there are none. -/
theorem ofUtf8Lossy_isEmpty {bytes : List UInt8} : (ofUtf8Lossy bytes).isEmpty = bytes.isEmpty := by
  cases bytes with
  | nil => rfl
  | cons b bytes =>
      have hsome : decodeUtf8 (b :: bytes) ≠ [] := by
        rw [decodeUtf8, decodeFrom]
        split
        · simp
        · exact decodeFrom_ne_nil _ _
        · simp
      simpa [ofUtf8Lossy] using hsome

end Text

/-! ## The result of a run -/

namespace Journaled

variable {α : Type} {result : Except Fault α}

/-- A run has a result, whatever the journal holds. -/
def Yields (run : Journaled α) (result : Except Fault α) : Prop :=
  ∀ journal, (run.run.run journal).1 = result

theorem Yields.pure (a : α) : Yields (Pure.pure a) (.ok a) :=
  fun _ => rfl

theorem Yields.throw (fault : Fault) : Yields (throw fault : Journaled α) (.error fault) :=
  fun _ => rfl

/-- Logging a message that is there does not change the result. -/
theorem Yields.log {severity : Severity} {logger message : Text} {rest : Unit → Journaled α}
    (h : Yields (rest ()) result) :
    Yields (Journaled.log severity logger (.ok message) >>= rest) result := by
  rintro ⟨verbose, records, inputs⟩
  cases verbose with
  | true => exact h ⟨true, records ++ [⟨severity, logger, message⟩], inputs⟩
  | false => exact h ⟨false, records, inputs⟩

/-- Nor does noting an input. -/
theorem Yields.noteInput {input : List UInt8} {rest : Unit → Journaled α}
    (h : Yields (rest ()) result) : Yields (Journaled.noteInput input >>= rest) result := by
  intro journal
  exact h { journal with inputs := journal.inputs ++ [input] }

end Journaled

/-! ## What leaves a parser -/

/-- Whether a fault is one that a parser may leave with: a parse failure, or a node that
nothing is known about. -/
def Fault.isContained : Fault → Bool
  | .parse _ _ | .unsupportedNode _ => true
  | _ => false

namespace Parser

/-- The faults that reading an answer leaves with though it should not. -/
inductive Unreadable (output : List UInt8) : Fault → Prop where
  | invalidUtf8 (h : Text.ofUtf8? output = none) : Unreadable output .invalidUtf8
  | tooManyDigits {answer : Text} {digits : Nat} (hanswer : Text.ofUtf8? output = some answer)
      (h : Json.read answer = .error (.tooManyDigits Json.maxDigits digits)) :
      Unreadable output (.tooManyDigits Json.maxDigits digits)
  | misshapen {answer : Text} {fields : List (Text × Json)} {fault : Fault}
      (hanswer : Text.ofUtf8? output = some answer) (hread : Json.read answer = .ok (.obj fields))
      (h : Node.ofJson (.obj fields) = .error fault) (hfault : fault.isMisshapen = true) :
      Unreadable output fault

/-- The faults that a parser leaves with though it should not. -/
inductive Escapes (host : Host) (parser : Parser) (source : Text) : Fault → Prop where
  | unencodable (h : source.toUtf8? = none) : Escapes host parser source .unencodable
  | denied {input : List UInt8} (hinput : source.toUtf8? = some input)
      (h : host parser.command input = .denied) : Escapes host parser source .denied
  | unreadable {input output : List UInt8} {fault : Fault}
      (hinput : source.toUtf8? = some input)
      (hhost : host parser.command input = .finished output []) (h : Unreadable output fault) :
      Escapes host parser source fault

variable {host : Host} {parser : Parser} {source : Text} {fault : Fault}

theorem Unreadable.isContained {output : List UInt8} (h : Unreadable output fault) :
    fault.isContained = false := by
  cases h with
  | invalidUtf8 | tooManyDigits => rfl
  | misshapen _ _ _ hfault =>
      cases fault with
      | parse _ _ | unsupportedNode _ => cases hfault
      | _ => rfl

theorem Escapes.isContained (h : Escapes host parser source fault) :
    fault.isContained = false := by
  cases h with
  | unencodable | denied => rfl
  | unreadable _ _ h => exact h.isContained

/-- Reading an answer gives a result, and leaves with no other faults. -/
theorem exists_yields_readAnswer (parser : Parser) (output : List UInt8) :
    ∃ result, Journaled.Yields (parser.readAnswer output) result ∧
      FailsWithin (fun fault => fault.isContained = true ∨ Unreadable output fault) result := by
  unfold readAnswer
  split
  · next hutf8 => exact ⟨_, .throw _, .error (.inr (.invalidUtf8 hutf8))⟩
  · next answer hanswer =>
    split
    · exact ⟨_, .throw _, .error (.inl rfl)⟩
    · next fault hjson hfault =>
      refine ⟨_, .throw _, .error (.inr ?_)⟩
      obtain rfl | ⟨digits, -, rfl⟩ := Json.failsWithin_read answer fault hfault
      · exact absurd rfl hjson
      · exact .tooManyDigits hanswer hfault
    · next fields hfields =>
      split
      · exact ⟨_, .log (.pure _), .ok _⟩
      · exact ⟨_, .log (.throw _), .error (.inl rfl)⟩
      · next fault hmalformed hfault =>
        refine ⟨_, .log (.throw _), .error ?_⟩
        obtain hrefusal | hmisshapen := Node.failsWithin_ofJson _ fault hfault
        · cases fault with
          | unsupportedNode kind => exact .inl rfl
          | malformedTree cause => exact absurd rfl (hmalformed cause)
          | _ => cases hrefusal
        · exact .inr (.misshapen hanswer hfields hfault hmisshapen)
    · exact ⟨_, .throw _, .error (.inl rfl)⟩

/-- Parsing gives a result, and leaves with no other faults. -/
theorem exists_yields_parse (host : Host) (parser : Parser) (source : Text) :
    ∃ result, Journaled.Yields (parser.parse host source) result ∧
      FailsWithin (fun fault => fault.isContained = true ∨ Escapes host parser source fault)
        result := by
  unfold parse
  dsimp only
  split
  · next hinput => exact ⟨_, .log (.throw _), .error (.inr (.unencodable hinput))⟩
  · next input hinput =>
    split
    · exact ⟨_, .log (.noteInput (.throw _)), .error (.inl rfl)⟩
    · exact ⟨_, .log (.noteInput (.throw _)), .error (.inl rfl)⟩
    · next hdenied =>
      exact ⟨_, .log (.noteInput (.throw _)), .error (.inr (.denied hinput hdenied))⟩
    · next output errors hfinished =>
      split
      · next hquiet =>
        obtain ⟨result, hyields, hwithin⟩ := exists_yields_readAnswer parser output
        refine ⟨result, .log (.noteInput hyields), hwithin.mono fun fault hfault => ?_⟩
        rw [Text.ofUtf8Lossy_isEmpty, List.isEmpty_iff] at hquiet
        rw [hquiet] at hfinished
        exact hfault.imp_right (.unreadable hinput hfinished)
      · exact ⟨_, .log (.noteInput (.log (.throw _))), .error (.inl rfl)⟩

theorem Unreadable.yields {output : List UInt8} (h : Unreadable output fault) :
    Journaled.Yields (parser.readAnswer output) (.error fault) := by
  unfold readAnswer
  cases h with
  | invalidUtf8 hutf8 =>
      rw [hutf8]
      exact .throw _
  | tooManyDigits hanswer hdigits =>
      rw [hanswer]
      dsimp only
      rw [hdigits]
      exact .throw _
  | misshapen hanswer hread hnode hfault =>
      rw [hanswer]
      dsimp only
      rw [hread]
      refine .log ?_
      rw [hnode]
      cases fault with
      | malformedTree cause => cases hfault
      | _ => exact .throw _

theorem Escapes.yields (h : Escapes host parser source fault) :
    Journaled.Yields (parser.parse host source) (.error fault) := by
  unfold parse
  refine .log ?_
  cases h with
  | unencodable hinput =>
      rw [hinput]
      exact .throw _
  | denied hinput hdenied =>
      rw [hinput]
      refine .noteInput ?_
      rw [hdenied]
      exact .throw _
  | unreadable hinput hhost hunreadable =>
      rw [hinput]
      refine .noteInput ?_
      rw [hhost]
      exact hunreadable.yields

/-- **What leaves a parser uncontained is known**: a source that has no encoding, a
program that may not be run, and of a quiet program an answer that is no UTF-8, that
has too many digits or that lacks parts of a tree. Nothing leaves it uncontained if
the answer is markup of the right shape. A bound on how deep an answer may be nested is not
part of this. -/
theorem parse_escapes_iff (host : Host) (parser : Parser) (source : Text) (journal : Journal) :
    (∀ fault, (((parser.parse host source).run.run journal).1 = .error fault ∧
      fault.isContained = false) ↔ Escapes host parser source fault) ∧
    (∀ input output answer data name, source.toUtf8? = some input →
      host parser.command input = .finished output [] → Text.ofUtf8? output = some answer →
      Json.read answer = .ok data → data.get "type" = .ok (.str (.ofString name)) →
      name ∈ Markup.kinds → Markup.IsShaped data →
      ∀ fault, ((parser.parse host source).run.run journal).1 = .error fault →
        fault.isContained = true) := by
  obtain ⟨result, hyields, hwithin⟩ := exists_yields_parse host parser source
  have hresult : ∀ fault, ((parser.parse host source).run.run journal).1 = .error fault →
      fault.isContained = true ∨ Escapes host parser source fault := by
    intro fault hfault
    exact hwithin fault ((hyields journal).symm.trans hfault)
  constructor
  · intro fault
    constructor
    · rintro ⟨hfault, huncontained⟩
      refine (hresult fault hfault).resolve_left fun hcontained => ?_
      rw [huncontained] at hcontained
      cases hcontained
    · intro hescapes
      exact ⟨hescapes.yields journal, hescapes.isContained⟩
  · intro input output answer data name hinput hhost hanswer hread hkind hname hshaped fault hfault
    refine (hresult fault hfault).resolve_right fun hescapes => ?_
    cases hescapes with
    | unencodable h => rw [hinput] at h; cases h
    | denied hinput' h =>
        cases hinput.symm.trans hinput'
        rw [hhost] at h
        cases h
    | unreadable hinput' hhost' h =>
        cases hinput.symm.trans hinput'
        cases hhost.symm.trans hhost'
        cases h with
        | invalidUtf8 h => rw [hanswer] at h; cases h
        | tooManyDigits hanswer' h =>
            cases hanswer.symm.trans hanswer'
            rw [hread] at h
            cases h
        | misshapen hanswer' hread' h hmisshapen =>
            cases hanswer.symm.trans hanswer'
            cases hread.symm.trans hread'
            have hrefusal := Node.failsWithin_of_isShaped hkind hname hshaped fault h
            cases fault <;> simp_all [Fault.isRefusal, Fault.isMisshapen]

/-- A child that is no object leaves a parser as such; a tag whose dynamic attributes
are none does not. -/
theorem parse_escapes_of_scalar_child :
    let parser : Parser := ⟨"fake", [], .null⟩
    let answers (answer : String) : Host := fun _ _ => .finished answer.toUTF8.data.toList []
    let scalar := answers "\x7b\"type\": \"root\", \"children\": [1]\x7d"
    let dynamicAnswer :=
      "\x7b\"type\": \"tag\", \"value\": \x7b\"dynamic_attributes\": 3\x7d\x7d"
    let dynamic := answers dynamicAnswer
    ((parser.parse scalar "%p").run.run ⟨true, [], []⟩).1 = .error .noMember ∧
      Escapes scalar parser "%p" .noMember ∧
      ((parser.parse dynamic "%p").run.run ⟨true, [], []⟩).1 =
        .error (.parse (.malformed (.dynamicAttributes (.int 3))) ["fake"]) ∧
      ∀ fault, ((parser.parse dynamic "%p").run.run ⟨true, [], []⟩).1 = .error fault →
        fault.isContained = true := by
  intro parser answers scalar dynamicAnswer dynamic
  have hscalar : ((parser.parse scalar "%p").run.run ⟨true, [], []⟩).1 = .error .noMember := by
    decide +kernel
  refine ⟨hscalar, ((parse_escapes_iff scalar parser "%p" ⟨true, [], []⟩).1 _).mp ⟨hscalar, rfl⟩,
    by decide +kernel, ?_⟩
  let data : Json := .obj [("type", .str "tag"),
    ("value", .obj [("dynamic_attributes", .int 3)])]
  have hanswer : Text.ofUtf8? dynamicAnswer.toUTF8.data.toList = some dynamicAnswer := by
    decide +kernel
  have hread : Json.read dynamicAnswer = .ok data := by decide +kernel
  have hparts : Markup.PartsAreShaped data :=
    ⟨⟨.str "tag", _, by decide +kernel, rfl⟩, .obj [("dynamic_attributes", .int 3)], .null, [],
      by decide +kernel, by decide +kernel, rfl⟩
  have hshaped : Markup.IsShaped data := @Markup.IsShaped.leaf data .null hparts
    (by decide +kernel) rfl
  exact (parse_escapes_iff dynamic parser "%p" ⟨true, [], []⟩).2 _ _ dynamicAnswer data "tag" rfl
    rfl hanswer hread (by decide +kernel) (by decide) hshaped

end Parser

end HamlFormat
