import HamlFormat.Proofs.Session.Scope

/-!
# HamlFormat.Proofs.Session.Blocks

Blocks give back the settings that they found. `Session.inBlock` does something in a
block of its own, and `Script` is a program over a session that asks for things, does
things in blocks, and goes on with each result or failure as it likes.

Inside a block the active settings may be replaced, reset, or replaced by blocks inside
it, and it may end by a failure at any depth. None of this touches what the open blocks
have put aside (`Action.KeepsBlocks`, `Script.keepsBlocks_run`), so a block that is left
finds there the settings from before it (`Session.run_inBlock`).
-/

namespace HamlFormat

/-! ## Actions that leave the open blocks alone -/

namespace Action

variable {α β : Type} {action : Action α} {next : α → Action β}

/-- What is done finally is done after a result and after a failure, and changes
neither. -/
theorem run_tryFinally {cleanup : Action Unit} {session ended left : Session}
    {result : Except Fault α} (haction : action.run.run session = (result, ended))
    (hcleanup : cleanup.run.run ended = (.ok (), left)) :
    (tryFinally action cleanup).run.run session = (result, left) := by
  simp only [ExceptT.run, StateT.run] at haction hcleanup
  cases result <;>
    simp only [tryFinally, Functor.map, MonadFinally.tryFinally', ExceptT.map, ExceptT.mk,
      ExceptT.run, StateT.run, StateT.bind, bind, haction, hcleanup] <;>
    rfl

/-- Whether an action leaves as many blocks open as it finds, with the same settings put
aside, also when it fails. -/
def KeepsBlocks (action : Action α) : Prop :=
  ∀ session, (action.run.run session).2.blocks = session.blocks

namespace KeepsBlocks

theorem lift (result : Except Fault α) : KeepsBlocks (liftM result) :=
  fun _ => rfl

theorem bind (h : action.KeepsBlocks) (hnext : ∀ a, (next a).KeepsBlocks) :
    (action >>= next).KeepsBlocks := by
  intro session
  cases hrun : action.run.run session with
  | mk result after =>
      have hafter : after.blocks = session.blocks := by simpa [hrun] using h session
      cases result with
      | error fault => rw [Fault.run_bind_error hrun, hafter]
      | ok a => rw [Fault.run_bind_ok hrun, hnext a after, hafter]

theorem observing (h : action.KeepsBlocks) : KeepsBlocks (observing action) := by
  intro session
  rw [Fault.run_observing]
  exact h session

end KeepsBlocks

end Action

/-- Whether a request neither opens a block nor leaves one. -/
def Request.isPlain : Request → Bool
  | .enter _ | .leave _ => false
  | _ => true

namespace Session

variable {α : Type}

/-- A plain request leaves the open blocks alone, whatever it does to the active
settings. -/
theorem keepsBlocks_perform (tools : Tools) {request : Request} (h : request.isPlain = true) :
    Action.KeepsBlocks (perform tools request) := by
  intro session
  have hscope := congrArg Scope.blocks (scope_answer tools session request)
  cases request with
  | enter _ | leave _ => cases h
  | _ => exact hscope

/-! ## Blocks -/

/-- The session inside a block that has just been opened. -/
def entered (tools : Tools) (session : Session) (settings : Settings) : Session :=
  (session.answer tools (.enter settings)).2

/-- Do something in a block of its own. -/
def inBlock (tools : Tools) (settings : Settings) (action : Action α) : Action α := do
  let _ ← perform tools (.enter settings)
  try action finally leaveBlock

theorem blocks_entered (tools : Tools) (session : Session) (settings : Settings) :
    (session.entered tools settings).blocks = session.active :: session.blocks := rfl

/-- Leaving a block takes the settings that were put aside for it, whatever the active
ones are by then. -/
theorem run_leaveBlock {ended : Session} {previous : Settings} {outer : List Settings}
    (h : ended.blocks = previous :: outer) :
    leaveBlock.run.run ended = (.ok (), { ended with active := previous, blocks := outer }) := by
  obtain ⟨active, blocks, formatter, journal⟩ := ended
  cases h
  rfl

/-- **A block gives back the settings from before it**, and ends with the result or the
failure of what was done in it. -/
theorem run_inBlock (tools : Tools) (settings : Settings) {action : Action α}
    (h : action.KeepsBlocks) (session : Session) :
    let ended := action.run.run (session.entered tools settings)
    (inBlock tools settings action).run.run session =
      (ended.1, { ended.2 with active := session.active, blocks := session.blocks }) := by
  have hblocks := h (session.entered tools settings)
  rw [blocks_entered] at hblocks
  have henter : (perform tools (.enter settings)).run.run session =
      (.ok .done, session.entered tools settings) := rfl
  rw [inBlock, Fault.run_bind_ok henter]
  exact Action.run_tryFinally rfl (run_leaveBlock hblocks)

theorem keepsBlocks_inBlock (tools : Tools) (settings : Settings) {action : Action α}
    (h : action.KeepsBlocks) : (inBlock tools settings action).KeepsBlocks := by
  intro session
  rw [run_inBlock tools settings h]

end Session

/-! ## Programs with blocks -/

/-- A program over a session. It goes on with what it gets, a failure included, so it may
pass failures on, handle them, or raise some of its own. -/
inductive Script (α : Type) where
  /-- Return a result or raise a failure. -/
  | finish (result : Except Fault α)
  /-- Look at the active settings. -/
  | look (next : Settings → Script α)
  | ask (request : { request : Request // request.isPlain = true })
      (next : Except Fault Response → Script α)
  /-- Run another program in a block of its own. -/
  | block (settings : Settings) (body : Script α) (next : Except Fault α → Script α)

namespace Script

open Session (inBlock entered)

variable {α : Type}

/-- Run a program. -/
def run (tools : Tools) : Script α → Action α
  | .finish result => liftM result
  | .look next => do (next (← get).active).run tools
  | .ask request next => do
    (next (← observing (Session.perform tools request))).run tools
  | .block settings body next => do
    (next (← observing (inBlock tools settings (body.run tools)))).run tools

/-- The program that only runs another one in a block. -/
def inside (settings : Settings) (body : Script α) : Script α :=
  .block settings body .finish

/-- **A program leaves open blocks alone**, as each block that it opens is left again. -/
theorem keepsBlocks_run (tools : Tools) (script : Script α) :
    (script.run tools).KeepsBlocks := by
  induction script with
  | finish result => exact .lift result
  | look next ih => exact fun session => ih session.active session
  | ask request next ih =>
      exact (Session.keepsBlocks_perform tools request.2).observing.bind ih
  | block settings body next ihBody ihNext =>
      exact (Session.keepsBlocks_inBlock tools settings ihBody).observing.bind ihNext

theorem run_inside (tools : Tools) (settings : Settings) (body : Script α) (session : Session) :
    ((inside settings body).run tools).run.run session =
      (inBlock tools settings (body.run tools)).run.run session := by
  rw [inside, run, Fault.run_bind_ok (Fault.run_observing _ _)]
  rfl

/-- The scope is the same after a program in a block as before it. -/
theorem scope_run_inside (tools : Tools) (settings : Settings) (body : Script α)
    (session : Session) :
    (((inside settings body).run tools).run.run session).2.scope = session.scope := by
  rw [run_inside, Session.run_inBlock tools settings (keepsBlocks_run tools body)]
  rfl

/-- A program in blocks one inside the other, the outermost first, ends as it does in the
innermost of them. -/
theorem run_foldr_inside (tools : Tools) (blocks : List Settings) (body : Script α)
    (session : Session) :
    (((blocks.foldr inside body).run tools).run.run session).1 =
      ((body.run tools).run.run (blocks.foldl (entered tools) session)).1 := by
  induction blocks generalizing session with
  | nil => rfl
  | cons settings blocks ih =>
      rw [List.foldr_cons, run_inside,
        Session.run_inBlock tools settings (keepsBlocks_run tools _), List.foldl_cons]
      exact ih (session.entered tools settings)

/-- **A block restores the settings however it is left.** A program that runs in a block
starts with the settings of the block active. It may make other settings active, reset
them, open blocks, format and parse, and raise a failure at any point; the block ends with
its result or its failure, and the scope is then the one from before the block. The same
session comes out if the block is left by a request, which answers with the failure that
it is left by. A program in any number of blocks ends with the result or the failure that
it has in the innermost one, and the scope is then the one from before all of them. -/
theorem scope_block_restored (tools : Tools) (session : Session) (settings : Settings)
    (body : Script α) :
    let inner := session.entered tools settings
    let ended := (body.run tools).run.run inner
    let left := ((inside settings body).run tools).run.run session
    (inner.active = settings ∧ left.1 = ended.1 ∧ left.2.scope = session.scope) ∧
    (ended.2.answer tools (.leave none) = (.ok .done, left.2) ∧
      ∀ message, ended.2.answer tools (.leave (some message)) =
        (.error (.callback message), left.2)) ∧
    ∀ outer : List Settings,
      let all := ((outer.foldr inside (inside settings body)).run tools).run.run session
      all.1 = ((body.run tools).run.run ((outer ++ [settings]).foldl (entered tools) session)).1 ∧
      all.2.scope = session.scope := by
  intro inner ended left
  have hblocks : ended.2.blocks = session.active :: session.blocks :=
    keepsBlocks_run tools body inner
  have hleft : left =
      (ended.1, { ended.2 with active := session.active, blocks := session.blocks }) :=
    (run_inside tools settings body session).trans
      (Session.run_inBlock tools settings (keepsBlocks_run tools body) session)
  refine ⟨⟨rfl, by rw [hleft], scope_run_inside tools settings body session⟩,
    ⟨?_, fun message => ?_⟩, fun outer => ⟨?_, ?_⟩⟩
  · rw [hleft]
    exact Fault.run_bind_ok (Session.run_leaveBlock hblocks)
  · rw [hleft]
    exact Fault.run_bind_ok (Session.run_leaveBlock hblocks)
  · have hall := run_foldr_inside tools (outer ++ [settings]) body session
    rwa [List.foldr_append] at hall
  · cases outer with
    | nil => exact scope_run_inside tools settings body session
    | cons first outer => exact scope_run_inside tools first _ session

end Script

end HamlFormat
