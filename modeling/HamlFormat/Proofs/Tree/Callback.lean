import HamlFormat.Proofs.Tree.Walk

/-!
# HamlFormat.Proofs.Tree.Callback

Callbacks. A `Callback` is any program of nested calls and maps: it looks at where it
stands, makes notes, goes down keys, and goes on with each result or failure as it likes.
By induction on the program it leaves the trail as it found it
(`Callback.restores_watched`), is on a path at every moment (`Callback.along_watched`) and
does not depend on being watched (`Callback.agrees`).
-/

namespace HamlFormat

/-- A program on a walk. It goes on with what it gets, a failure included, so it may pass
failures on, handle them, or raise some of its own. -/
inductive Callback (ω α : Type) where
  /-- Return a result or raise a failure. -/
  | finish (result : Except Fault α)
  /-- Look at the trail. -/
  | look (next : Trail → Callback ω α)
  /-- Do something that can be seen. -/
  | note (done : ω) (next : Callback ω α)
  | call (keys : List Json) (body : Callback ω α) (next : Except Fault α → Callback ω α)
  | map (keys : List Json) (body : Callback ω α) (next : Except Fault (List α) → Callback ω α)

namespace Callback

variable {ω α : Type}

/-- What a callback does, on any walk on which it can make its notes. -/
def walk {m : Type → Type} [Monad m] [MonadStateOf Trail m] [MonadExceptOf Fault m]
    [MonadFinally m] (record : ω → m Unit) : Callback ω α → m α
  | .finish result => MonadExcept.ofExcept result
  | .look next => do (next (← getThe Trail)).walk record
  | .note done next => do
    record done
    next.walk record
  | .call keys body next => do
    (next (← observing (Walk.call keys (body.walk record)))).walk record
  | .map keys body next => do
    (next (← observing (Walk.map keys (body.walk record)))).walk record

/-- A callback whose notes are logged. -/
def watched (callback : Callback ω α) : ObservedWalk ω α :=
  callback.walk fun note => modifyThe (Observed ω) (·.record (.noted note))

/-- A callback whose notes go nowhere. -/
def plain (callback : Callback ω α) : Walk α :=
  callback.walk fun _ => pure ()

/-- A note is seen before what follows it. -/
theorem restores_note {next : Callback ω α} (h : next.watched.Restores) (done : ω) :
    (note done next).watched.Restores ∧ ∀ trail, (note done next).watched.outcome trail =
      (next.watched.outcome trail).between [.noted done] [] := by
  refine ObservedWalk.restores_of_run fun trail log => ?_
  have hrun : (note done next).watched.run.run ⟨trail, log⟩ =
      next.watched.run.run ⟨trail, log ++ [.noted done]⟩ := rfl
  rw [hrun, h]
  simp [WalkOutcome.between]

/-- **A callback comes back to where it began**, however it ends. -/
theorem restores_watched (callback : Callback ω α) : callback.watched.Restores := by
  induction callback with
  | finish result => exact (ObservedWalk.restores_ofExcept result).1
  | look next ih => exact fun trail log => ih trail trail log
  | note done next ih => exact (restores_note ih done).1
  | call keys body next ihBody ihNext =>
      have hcall := (ObservedWalk.restores_call ihBody keys).1
      exact (ObservedWalk.restores_bind (ObservedWalk.restores_observing hcall).1 ihNext).1
  | map keys body next ihBody ihNext =>
      have hmap := ObservedWalk.restores_map ihBody keys
      exact (ObservedWalk.restores_bind (ObservedWalk.restores_observing hmap).1 ihNext).1

/-- A callback that starts on a path is on one at every moment. -/
theorem along_watched (callback : Callback ω α) (root : Item) : callback.watched.Along root := by
  induction callback with
  | finish result =>
      intro trail steps hpath moment hmoment
      rw [watched, walk, (ObservedWalk.restores_ofExcept result).2] at hmoment
      cases hmoment
  | look next ih => exact fun trail => ih trail trail
  | note done next ih =>
      intro trail steps hpath moment hmoment
      rw [(restores_note next.restores_watched done).2] at hmoment
      exact ih trail steps hpath moment (by simpa [WalkOutcome.between] using hmoment)
  | call keys body next ihBody ihNext =>
      exact ObservedWalk.along_observing_bind
        (ObservedWalk.restores_call body.restores_watched keys).1 (fun _ => restores_watched _)
        (ObservedWalk.along_call body.restores_watched ihBody keys) ihNext
  | map keys body next ihBody ihNext =>
      exact ObservedWalk.along_observing_bind
        (ObservedWalk.restores_map body.restores_watched keys) (fun _ => restores_watched _)
        (ObservedWalk.along_map body.restores_watched ihBody keys) ihNext

/-- Watching a callback changes nothing. -/
theorem agrees (callback : Callback ω α) : Walk.Agrees callback.plain callback.watched := by
  induction callback with
  | finish result => exact .ofExcept result
  | look next ih => exact Walk.Agrees.get.bind ih
  | note done next ih => exact fun before => ih (before.record (.noted done))
  | call keys body next ihBody ihNext => exact (ihBody.call keys).observing.bind ihNext
  | map keys body next ihBody ihNext => exact (ihBody.map keys).observing.bind ihNext

/-- **The trail is always a path, and always restored.** From a root on, the trail is a path
from it at every moment of a callback, whatever fails on the way. A call or a map of a
callback ends on the trail where it began, with a result or with a failure, and watching it
changes neither. A call with several keys yields what one call per key does, and the
callback does the same in both.

What is seen of a call or a map is the way down, what happens there if the way leads there,
and the way back. A call runs the callback there. A map visits the positions there in
order, each exactly once, up to the first failure, and visits none if they cannot be
counted; in a sequence, a visit is the callback at the element. -/
theorem isPath_and_restored (callback : Callback ω α) (root : Item) :
    (∀ moment, moment = .ofRoot root ∨
        .moved moment ∈ (callback.watched.outcome (.ofRoot root)).log →
      ∃ steps, moment.IsPath root steps) ∧
    ∀ keys : List Json,
      let body := callback.watched
      let calling : ObservedWalk ω α := Walk.call keys body
      let mapping : ObservedWalk ω (List α) := Walk.map keys body
      let stepping : ObservedWalk ω α := keys.foldr (fun key inner => Walk.call [key] inner) body
      let visiting : Nat → ObservedWalk ω α := fun index => Walk.call [.int index] body
      (calling.Restores ∧ mapping.Restores) ∧
      ∀ trail : Trail,
        (Walk.call keys callback.plain).run.run trail = ((calling.outcome trail).result, trail) ∧
        (Walk.map keys callback.plain).run.run trail = ((mapping.outcome trail).result, trail) ∧
        ∀ item, trail.here = .ok item →
          (stepping.outcome trail).result = (calling.outcome trail).result ∧
          (stepping.outcome trail).notes = (calling.outcome trail).notes ∧
          ∀ way there down, (Walk.descend item keys : ObservedWalk ω Unit).run.run ⟨trail, []⟩ =
              (way, ⟨there, down⟩) →
            (∀ fault, way = .error fault →
              calling.outcome trail = ⟨.error fault, down ++ [.moved trail]⟩ ∧
              mapping.outcome trail = ⟨.error fault, down ++ [.moved trail]⟩) ∧
            (way = .ok () →
              calling.outcome trail = (body.outcome there).between down [.moved trail] ∧
              ∃ visits, InOrder (there.here >>= Item.length) (fun index =>
                  (visiting index).outcome there) visits ∧
                mapping.outcome trail = visits.between down [.moved trail]) ∧
            ∀ items, there.here = .ok (.tuple items) →
              there.here >>= Item.length = .ok items.length ∧
              ∀ (index : Nat) element, items[index]? = some element →
                (visiting index).outcome there =
                  (body.outcome (there.push (.int index) element)).between
                    [.moved (there.push (.int index) element)] [.moved there] := by
  have hbody := callback.restores_watched
  constructor
  · rintro moment (rfl | hmoment)
    · exact ⟨[], Trail.isPath_ofRoot root⟩
    · exact callback.along_watched root _ [] (Trail.isPath_ofRoot root) moment hmoment
  intro keys body calling mapping stepping visiting
  have hcalling : calling.Restores := (ObservedWalk.restores_call hbody keys).1
  have hmapping : mapping.Restores := ObservedWalk.restores_map hbody keys
  refine ⟨⟨hcalling, hmapping⟩, fun trail => ⟨?_, ?_, fun item hhere => ?_⟩⟩
  · rw [(callback.agrees.call keys) ⟨trail, []⟩, hcalling]
  · rw [(callback.agrees.map keys) ⟨trail, []⟩, hmapping]
  obtain ⟨hresult, hnotes⟩ := (ObservedWalk.nested_call hbody keys).2 trail item hhere
  refine ⟨hresult, hnotes, fun way there down hdown => ⟨?_, ?_, fun items hitems => ?_⟩⟩
  · rintro fault rfl
    exact ⟨ObservedWalk.outcome_call_of_error hbody hhere hdown,
      ObservedWalk.outcome_call_of_error (ObservedWalk.restores_each hbody).1 hhere hdown⟩
  · rintro rfl
    obtain ⟨heach, hvisits⟩ := ObservedWalk.restores_each hbody
    exact ⟨ObservedWalk.outcome_call_of_ok hbody hhere hdown, _, hvisits there,
      ObservedWalk.outcome_call_of_ok heach hhere hdown⟩
  · rw [hitems]
    exact ⟨rfl, fun index element => ObservedWalk.outcome_call_element hbody hitems⟩

/-- Two lines are asked for a field of their content that the first one lacks. The second is
not visited. When the first fails the trail is three keys deep, and its parent is the line,
not the sequence of lines or the root. -/
theorem isPath_and_restored_lines :
    let plain : Markup := .plain .null .null
    let script : Markup := .silentScript ⟨.null, .null⟩ [] .null
    let root : Item := .markup (.root [plain, script] .null)
    let field (name : String) : Json := .str (.ofString name)
    let body : Callback (Option Json) Nat := .look fun trail => .note trail.key?
      (.call [field "value", field "keyword"] (.finish (.ok 1)) .finish)
    let callback : Callback (Option Json) Nat :=
      .map [field "children"] body fun results => .finish (results.map List.length)
    let lines : Trail := ⟨[root, .data (field "children"), .lines [plain, script]]⟩
    let moment : Trail := ⟨lines.entries ++
      [.data (.int 0), .markup plain, .data (field "value"), .payload (.plain .null)]⟩
    ((∃ steps, moment.IsPath root steps) ∧ moment.parent? = some (.markup plain)) ∧
      (callback.watched.outcome (.ofRoot root)).notes = [some (.int 0)] ∧
      ∃ visits, InOrder (.ok 2) (fun index =>
          ObservedWalk.outcome (Walk.call [.int index] body.watched) lines) visits ∧
        ObservedWalk.outcome (Walk.map [field "children"] body.watched) (.ofRoot root) =
          visits.between [.moved lines] [.moved (.ofRoot root)] := by
  intro plain script root field body callback lines moment
  have hmoment : .moved moment ∈ (callback.watched.outcome (.ofRoot root)).log :=
    List.mem_of_getElem? (i := 3) rfl
  have hdown : (Walk.descend root [field "children"] : ObservedWalk (Option Json) Unit).run.run
      ⟨.ofRoot root, []⟩ = (.ok (), ⟨lines, [.moved lines]⟩) := rfl
  have hcount : lines.here >>= Item.length = .ok 2 := rfl
  obtain ⟨-, -, hseen⟩ := ((isPath_and_restored body root).2 [field "children"]).2 (.ofRoot root)
  obtain ⟨-, -, hway⟩ := hseen root rfl
  obtain ⟨-, hvisits, -⟩ := hway (.ok ()) lines [.moved lines] hdown
  rw [hcount] at hvisits
  exact ⟨⟨(isPath_and_restored callback root).1 moment (.inr hmoment), rfl⟩, by decide +kernel,
    (hvisits rfl).2⟩

end Callback

end HamlFormat
