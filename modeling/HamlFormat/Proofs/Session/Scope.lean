import HamlFormat.Session
import HamlFormat.Proofs.Fault

/-!
# HamlFormat.Proofs.Session.Scope

Under which settings a session goes on. `Scope` is the part of a session that says
so: the active settings, and those to restore when each open block is left. What a
request does to it does not depend on whether the request succeeds
(`Request.effect`, `scope_answer`), so the scope after any requests can be read off
them (`scope_after`).

Parsing and formatting change nothing but the journal (`Action.OnlyLogs`). A call of
the session's formatter is different: it makes its own settings the active ones and
afterwards the default settings, not those from before it. It keeps the active
settings only if they were the default ones (`active_answer_call_iff`).
-/

namespace HamlFormat

/-! ## Actions that change nothing but the journal -/

namespace Action

variable {α β : Type} {action : Action α} {next : α → Action β}

/-- Whether an action leaves a session as it is but for its journal, also when it
fails. -/
def OnlyLogs (action : Action α) : Prop :=
  ∀ session, ∃ journal, (action.run.run session).2 = { session with journal := journal }

namespace OnlyLogs

theorem pure (a : α) : OnlyLogs (Pure.pure a) :=
  fun session => ⟨session.journal, rfl⟩

theorem get : OnlyLogs (MonadState.get : Action Session) :=
  fun session => ⟨session.journal, rfl⟩

theorem lift (result : Except Fault α) : OnlyLogs (liftM result) :=
  fun session => ⟨session.journal, rfl⟩

theorem ofJournaled (run : Journaled α) : OnlyLogs (Action.ofJournaled run) :=
  fun session => ⟨(run.run.run session.journal).2, rfl⟩

theorem log (logger : Text) (message : Except Fault Text) : OnlyLogs (Action.log logger message) :=
  ofJournaled _

theorem effective (given : Option Settings) : OnlyLogs (Action.effective given) := by
  cases given <;> exact fun session => ⟨session.journal, rfl⟩

theorem bind (h : action.OnlyLogs) (hnext : ∀ a, (next a).OnlyLogs) :
    (action >>= next).OnlyLogs := by
  intro session
  obtain ⟨journal, hjournal⟩ := h session
  cases hrun : action.run.run session with
  | mk result after =>
      rw [hrun] at hjournal
      dsimp only at hjournal
      subst hjournal
      cases result with
      | error fault => exact ⟨journal, congrArg Prod.snd (Fault.run_bind_error hrun)⟩
      | ok a =>
          rw [Fault.run_bind_ok hrun]
          exact hnext a _

theorem mapM {f : α → Action β} (h : ∀ a, (f a).OnlyLogs) (as : List α) : (as.mapM f).OnlyLogs := by
  induction as with
  | nil => exact pure []
  | cons a as ih =>
      rw [List.mapM_cons]
      exact (h a).bind fun b => ih.bind fun bs => pure (b :: bs)

end OnlyLogs

end Action

open HamlFormat.Action (OnlyLogs)

theorem onlyLogs_formatTree (given : Option Settings) (source : Text) (node : Node) :
    OnlyLogs (formatTree given source node) :=
  (OnlyLogs.effective given).bind fun _ => (OnlyLogs.log _ _).bind fun _ =>
    (OnlyLogs.log _ _).bind fun _ => .lift _

theorem onlyLogs_parseSource (tools : Tools) (given : Option Settings)
    (parsers : Option ParserTable) (source : Text) :
    OnlyLogs (parseSource tools given parsers source) :=
  (OnlyLogs.effective given).bind fun _ => (OnlyLogs.lift _).bind fun _ => .ofJournaled _

theorem onlyLogs_formatSource (tools : Tools) (given : Option Settings) (parser : Option Parser)
    (source : Text) : OnlyLogs (formatSource tools given parser source) := by
  refine (OnlyLogs.effective given).bind fun settings => (OnlyLogs.log _ _).bind fun _ => ?_
  cases parser with
  | some parser => exact (OnlyLogs.ofJournaled _).bind fun _ => onlyLogs_formatTree _ _ _
  | none => exact (onlyLogs_parseSource _ _ _ _).bind fun _ => onlyLogs_formatTree _ _ _

/-- After an action done with other settings active, the default settings are. -/
theorem Action.run_withReset {α : Type} {action : Action α} (h : action.OnlyLogs)
    (settings : Settings) (session : Session) :
    ∃ journal, ((withReset settings action).run.run session).2 =
      { session with active := {}, journal := journal } := by
  obtain ⟨journal, hjournal⟩ := h { session with active := settings }
  refine ⟨journal, ?_⟩
  show { (action.run.run { session with active := settings }).2 with active := {} } = _
  rw [hjournal]

/-! ## What a request does to the active settings -/

/-- The active settings, and those to restore when each open block is left, those of the
innermost block first. -/
structure Scope where
  active : Settings
  blocks : List Settings

/-- The scope of a session. -/
def Session.scope (session : Session) : Scope :=
  ⟨session.active, session.blocks⟩

/-- What a request does to the scope of a session. -/
def Request.effect : Request → Scope → Scope
  | .activate settings, scope => { scope with active := settings }
  | .reset, scope | .format _, scope | .formatAll _, scope => { scope with active := {} }
  | .enter settings, scope => ⟨settings, scope.active :: scope.blocks⟩
  | .leave _, ⟨active, []⟩ => ⟨active, []⟩
  | .leave _, ⟨_, previous :: outer⟩ => ⟨previous, outer⟩
  | _, scope => scope

namespace Session

/-- The session after requests, each of them done whether or not those before it
succeeded. -/
def after (tools : Tools) (session : Session) (requests : List Request) : Session :=
  requests.foldl (fun session request => (session.answer tools request).2) session

/-- An action that only logs keeps the scope. -/
theorem scope_of_onlyLogs {α : Type} {action : Action α} (h : action.OnlyLogs)
    (session : Session) : (action.run.run session).2.scope = session.scope := by
  obtain ⟨journal, hjournal⟩ := h session
  rw [hjournal]
  rfl

/-- A call of a formatter leaves the default settings active, whatever it results in. -/
theorem scope_of_withReset {α : Type} {action : Action α} (h : action.OnlyLogs)
    (settings : Settings) (respond : α → Response) (session : Session) :
    ((do return respond (← Action.withReset settings action) : Action Response).run.run
      session).2.scope = { session.scope with active := {} } := by
  obtain ⟨journal, hjournal⟩ := Action.run_withReset h settings session
  cases hrun : (Action.withReset settings action).run.run session with
  | mk result after =>
      rw [hrun] at hjournal
      dsimp only at hjournal
      subst hjournal
      cases result with
      | error fault => rw [Fault.run_bind_error hrun]; rfl
      | ok a => rw [Fault.run_bind_ok hrun]; rfl

/-- **What a request does to the scope does not depend on its result.** -/
theorem scope_answer (tools : Tools) (session : Session) (request : Request) :
    (session.answer tools request).2.scope = request.effect session.scope := by
  have hlogs : ∀ {action : Action Response}, action.OnlyLogs → perform tools request = action →
      request.effect session.scope = session.scope →
      (session.answer tools request).2.scope = request.effect session.scope := by
    rintro action hlogs rfl heffect
    rw [heffect]
    exact scope_of_onlyLogs hlogs session
  have hget : ∀ session,
      (MonadState.get : Action Session).run.run session = (.ok session, session) := fun _ => rfl
  cases request with
  | pass | activate _ | reset | enter _ | configure _ => rfl
  | leave failure =>
      obtain ⟨active, blocks, formatter, journal⟩ := session
      cases blocks <;> cases failure <;> rfl
  | layout doc given =>
      exact hlogs ((Action.OnlyLogs.effective given).bind fun _ =>
        (Action.OnlyLogs.lift _).bind fun _ => .pure _) rfl rfl
  | formatTree node source given =>
      exact hlogs ((onlyLogs_formatTree _ _ _).bind fun _ => .pure _) rfl rfl
  | parse source given parsers =>
      exact hlogs ((onlyLogs_parseSource _ _ _ _).bind fun _ => .pure _) rfl rfl
  | formatSource source given parser =>
      exact hlogs ((onlyLogs_formatSource _ _ _ _).bind fun _ => .pure _) rfl rfl
  | formatterTree node source =>
      exact hlogs (Action.OnlyLogs.get.bind fun _ =>
        (onlyLogs_formatTree _ _ _).bind fun _ => .pure _) rfl rfl
  | format source =>
      show ((perform tools (.format source)).run.run session).2.scope = _
      rw [perform, Fault.run_bind_ok (hget session)]
      exact scope_of_withReset (onlyLogs_formatSource _ _ _ _) _ _ session
  | formatAll sources =>
      show ((perform tools (.formatAll sources)).run.run session).2.scope = _
      rw [perform, Fault.run_bind_ok (hget session)]
      exact scope_of_withReset (.mapM (onlyLogs_formatSource _ _ _) sources) _ _ session

/-- **The scope after requests can be read off them.** -/
theorem scope_after (tools : Tools) (session : Session) (requests : List Request) :
    (session.after tools requests).scope =
      requests.foldl (fun scope request => request.effect scope) session.scope := by
  induction requests generalizing session with
  | nil => rfl
  | cons request requests ih =>
      rw [after, List.foldl_cons, ← after, ih, scope_answer, List.foldl_cons]

end Session

/-! ## Calls of the formatter -/

/-- Whether a request calls the session's formatter on sources. -/
def Request.isCall : Request → Bool
  | .format _ | .formatAll _ => true
  | _ => false

namespace Session

/-- A document is laid out by the active settings where none are given. -/
theorem answer_layout (tools : Tools) (session : Session) (doc : Doc) :
    (session.answer tools (.layout doc none)).1 = (session.active.layout doc).map .text := by
  have hactive : (Action.effective none).run.run session = (.ok session.active, session) := rfl
  have hlift : (liftM (session.active.layout doc) : Action Text).run.run session =
      (session.active.layout doc, session) := rfl
  show ((perform tools (.layout doc none)).run.run session).1 = _
  rw [perform, Fault.run_bind_ok hactive]
  cases hresult : session.active.layout doc with
  | error fault => rw [hresult] at hlift; rw [Fault.run_bind_error hlift]; rfl
  | ok text => rw [hresult] at hlift; rw [Fault.run_bind_ok hlift]; rfl

/-- **A call of the formatter keeps the active settings only where they are the default
ones.** After any requests, nested blocks and failures among them, a call leaves the
default settings active and the open blocks as they are, whether it succeeds or fails,
and what follows it goes by the default settings even inside a block. -/
theorem active_answer_call_iff (tools : Tools) (start : Session) (history : List Request)
    {call : Request} (hcall : call.isCall = true) :
    let before := start.after tools history
    let later := (before.answer tools call).2
    before.scope = history.foldl (fun scope request => request.effect scope) start.scope ∧
    (later.active = before.active ↔ before.active = {}) ∧
    later.scope = { before.scope with active := {} } ∧
    ∀ doc, (later.answer tools (.layout doc none)).1 = (Settings.layout {} doc).map .text := by
  intro before later
  have hscope : later.scope = { before.scope with active := {} } := by
    have hanswer := scope_answer tools before call
    cases call with
    | format _ | formatAll _ => exact hanswer
    | _ => cases hcall
  have hactive : later.active = {} := congrArg Scope.active hscope
  refine ⟨scope_after tools start history, ?_, hscope, fun doc => ?_⟩
  · rw [hactive, eq_comm]
  · rw [answer_layout, hactive]

/-- In a block with narrow settings, inside another one with tabs, a call that fails for
want of a parser leaves the default settings active. -/
theorem active_answer_call_iff_in_blocks :
    let tools : Tools := ⟨fun _ _ => .notFound, []⟩
    let tabs : Settings := { useTabs := .bool true }
    let narrow : Settings := { printWidth := .int 40 }
    let inside := Session.after tools { journal := ⟨false, [], []⟩ } [.enter tabs, .enter narrow]
    (inside.answer tools (.format "%p")).1.isOk = false ∧ inside.active = narrow ∧
      (inside.answer tools (.format "%p")).2.active ≠ inside.active ∧
      (inside.answer tools (.format "%p")).2.scope = ⟨{}, [tabs, {}]⟩ := by
  intro tools tabs narrow inside
  obtain ⟨-, hkept, hscope, -⟩ := active_answer_call_iff tools { journal := ⟨false, [], []⟩ }
    [.enter tabs, .enter narrow] (show (Request.format "%p").isCall = true from rfl)
  exact ⟨by decide +kernel, rfl, fun hsame => absurd (hkept.mp hsame) (by decide), hscope⟩

end Session

end HamlFormat
