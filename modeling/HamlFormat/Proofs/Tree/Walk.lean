import HamlFormat.Proofs.Fault
import HamlFormat.Proofs.Tree.Trail

/-!
# HamlFormat.Proofs.Tree.Walk

What walks do, seen from outside. An `ObservedWalk` keeps a log next to its trail: every
change of the trail is in it, those half-way down a list of keys that fails later
included, and so is whatever the walk notes. `Walk.call` and `Walk.map` do not know of
the log; it is kept by the computation in which they run.

If what is done at an item leaves the trail as it found it (`ObservedWalk.Restores`), then
so does a call or a map of it, and what is seen of them can be read off what is seen of
their parts (`ObservedWalk.outcome_call`, `ObservedWalk.restores_each`). A walk does the
same when nobody watches (`Walk.Agrees`).
-/

namespace HamlFormat

/-! ## Walks that are watched -/

/-- Something seen of a walk. -/
inductive Event (ω : Type) where
  /-- The trail was changed, to another one or to itself. -/
  | moved (trail : Trail)
  /-- A callback did something. -/
  | noted (note : ω)

/-- What a callback did, if it did something. -/
def Event.note? {ω : Type} : Event ω → Option ω
  | .moved _ => none
  | .noted note => some note

/-- A trail and the log of what happened, the newest event last. -/
structure Observed (ω : Type) where
  trail : Trail
  log : List (Event ω)

/-- One more event. -/
def Observed.record {ω : Type} (observed : Observed ω) (event : Event ω) : Observed ω :=
  { observed with log := observed.log ++ [event] }

/-- Change the trail, for everyone to see. -/
def Observed.move {ω : Type} (observed : Observed ω) (trail : Trail) : Observed ω :=
  { observed with trail }.record (.moved trail)

instance {ω : Type} : MonadStateOf Trail (StateM (Observed ω)) where
  get := return (← getThe (Observed ω)).trail
  set trail := modifyThe (Observed ω) (·.move trail)
  modifyGet f := modifyGetThe (Observed ω) fun observed =>
    let (a, trail) := f observed.trail
    (a, observed.move trail)

/-- A walk with someone watching. -/
abbrev ObservedWalk (ω α : Type) := ExceptT Fault (StateM (Observed ω)) α

/-- How a walk ends, and what is seen of it. -/
@[ext]
structure WalkOutcome (ω α : Type) where
  result : Except Fault α
  log : List (Event ω)

/-- What the callbacks of a walk did. -/
def WalkOutcome.notes {ω α : Type} (outcome : WalkOutcome ω α) : List ω :=
  outcome.log.filterMap (·.note?)

/-- What is seen if another walk follows, unless the first one fails. -/
def WalkOutcome.andThen {ω α β : Type} (outcome : WalkOutcome ω α)
    (next : α → WalkOutcome ω β) : WalkOutcome ω β :=
  match outcome.result with
  | .error fault => ⟨.error fault, outcome.log⟩
  | .ok a => ⟨(next a).result, outcome.log ++ (next a).log⟩

/-- A result that is there already adds nothing to what follows it. -/
theorem WalkOutcome.ok_andThen {ω α β : Type} (a : α) (next : α → WalkOutcome ω β) :
    (⟨.ok a, []⟩ : WalkOutcome ω α).andThen next = next a := rfl

/-- The same with events before it and after it. -/
def WalkOutcome.between {ω α : Type} (outcome : WalkOutcome ω α) (front back : List (Event ω)) :
    WalkOutcome ω α :=
  ⟨outcome.result, front ++ outcome.log ++ back⟩

/-- Visits to the positions of a sequence in order, up to the first one that fails. If all
have results, each position was visited once; if one fails, each position up to it was,
and no other. If the positions cannot be counted, none was visited. -/
inductive InOrder {ω α : Type} (count : Except Fault Nat) (visit : Nat → WalkOutcome ω α) :
    WalkOutcome ω (List α) → Prop where
  | uncounted {fault : Fault} (h : count = .error fault) : InOrder count visit ⟨.error fault, []⟩
  | done {n : Nat} {results : List α} (hcount : count = .ok n)
      (h : (List.range n).map (fun index => (visit index).result) = results.map .ok) :
      InOrder count visit ⟨.ok results, (List.range n).flatMap fun index => (visit index).log⟩
  | failed {n k : Nat} {results : List α} {fault : Fault} (hcount : count = .ok n) (hk : k < n)
      (hbefore : (List.range k).map (fun index => (visit index).result) = results.map .ok)
      (hfault : (visit k).result = .error fault) :
      InOrder count visit
        ⟨.error fault, (List.range (k + 1)).flatMap fun index => (visit index).log⟩

/-- What is seen of visits is seen of one of them. -/
theorem InOrder.exists_mem_log {ω α : Type} {count : Except Fault Nat}
    {visit : Nat → WalkOutcome ω α} {visits : WalkOutcome ω (List α)}
    (h : InOrder count visit visits) {event : Event ω} (hevent : event ∈ visits.log) :
    ∃ index, event ∈ (visit index).log := by
  cases h with
  | uncounted _ => cases hevent
  | done _ _ | failed _ _ _ _ =>
      obtain ⟨index, -, hindex⟩ := List.mem_flatMap.mp hevent
      exact ⟨index, hindex⟩

/-- One position more is visited if no visit has failed. -/
theorem InOrder.succ {ω α : Type} {n : Nat} {visit : Nat → WalkOutcome ω α}
    {visits : WalkOutcome ω (List α)} (h : InOrder (.ok n) visit visits) :
    InOrder (.ok (n + 1)) visit (visits.andThen fun results =>
      (visit n).andThen fun result => ⟨.ok (results ++ [result]), []⟩) := by
  have hlog : (List.range (n + 1)).flatMap (fun index => (visit index).log) =
      (List.range n).flatMap (fun index => (visit index).log) ++ (visit n).log := by
    simp [List.range_succ]
  cases h with
  | uncounted hcount => cases hcount
  | failed hcount hk hbefore hfault =>
      cases hcount
      exact .failed rfl (Nat.lt_succ_of_lt hk) hbefore hfault
  | @done _ results hcount hresults =>
      cases hcount
      cases hlast : (visit n).result with
      | error fault =>
          have hfailed := InOrder.failed rfl (Nat.lt_succ_self n) hresults hlast
          simpa [WalkOutcome.andThen, hlast, hlog] using hfailed
      | ok result =>
          have hall : (List.range (n + 1)).map (fun index => (visit index).result) =
              (results ++ [result]).map .ok := by
            simp [List.range_succ, hresults, hlast]
          simpa [WalkOutcome.andThen, hlast, hlog] using InOrder.done rfl hall

namespace ObservedWalk

variable {ω α β : Type} {walk body : ObservedWalk ω α} {trail there : Trail} {item : Item}
  {keys : List Json}

theorem run_get (before : Observed ω) :
    (getThe Trail : ObservedWalk ω Trail).run.run before = (.ok before.trail, before) := rfl

theorem run_modify (f : Trail → Trail) (before : Observed ω) :
    (modifyThe Trail f : ObservedWalk ω Unit).run.run before =
      (.ok (), before.move (f before.trail)) := rfl

theorem run_here (before : Observed ω) :
    (Walk.here : ObservedWalk ω Item).run.run before = (before.trail.here, before) := by
  rw [Walk.here, Fault.run_bind_ok (run_get before), Fault.run_ofExcept]

/-! ## Coming back -/

/-- What is seen of a walk from a trail. -/
def outcome (walk : ObservedWalk ω α) (trail : Trail) : WalkOutcome ω α :=
  ⟨(walk.run.run ⟨trail, []⟩).1, (walk.run.run ⟨trail, []⟩).2.log⟩

/-- Whether a walk ends on the trail where it began, also when it fails, and does not look
at what was logged before it. -/
def Restores (walk : ObservedWalk ω α) : Prop :=
  ∀ trail log, walk.run.run ⟨trail, log⟩ =
    ((walk.outcome trail).result, ⟨trail, log ++ (walk.outcome trail).log⟩)

/-- A walk comes back if its runs are known, and they tell what is seen of it. -/
theorem restores_of_run {seen : Trail → WalkOutcome ω α}
    (h : ∀ trail log, walk.run.run ⟨trail, log⟩ =
      ((seen trail).result, ⟨trail, log ++ (seen trail).log⟩)) :
    walk.Restores ∧ ∀ trail, walk.outcome trail = seen trail := by
  have hseen : ∀ trail, walk.outcome trail = seen trail := by
    intro trail
    simp [outcome, h]
  exact ⟨fun trail log => by rw [h, hseen], hseen⟩

theorem restores_ofExcept (result : Except Fault α) :
    Restores (MonadExcept.ofExcept result : ObservedWalk ω α) ∧
      ∀ trail, outcome (MonadExcept.ofExcept result : ObservedWalk ω α) trail = ⟨result, []⟩ := by
  refine restores_of_run fun trail log => ?_
  simp [Fault.run_ofExcept]

theorem restores_pure (a : α) :
    Restores (pure a : ObservedWalk ω α) ∧
      ∀ trail, outcome (pure a : ObservedWalk ω α) trail = ⟨.ok a, []⟩ :=
  restores_ofExcept (.ok a)

theorem restores_here :
    Restores (Walk.here : ObservedWalk ω Item) ∧
      ∀ trail, outcome (Walk.here : ObservedWalk ω Item) trail = ⟨trail.here, []⟩ := by
  refine restores_of_run fun trail log => ?_
  simp [run_here]

/-- After a walk that has come back, the next one starts from the same trail. -/
theorem restores_bind {next : α → ObservedWalk ω β} (h : walk.Restores)
    (hnext : ∀ a, (next a).Restores) :
    Restores (walk >>= next) ∧ ∀ trail, outcome (walk >>= next) trail =
      (walk.outcome trail).andThen fun a => (next a).outcome trail := by
  refine restores_of_run fun trail log => ?_
  have hrun := h trail log
  cases hresult : (walk.outcome trail).result with
  | error fault =>
      rw [hresult] at hrun
      rw [Fault.run_bind_error hrun]
      simp [WalkOutcome.andThen, hresult]
  | ok a =>
      rw [hresult] at hrun
      rw [Fault.run_bind_ok hrun, hnext]
      simp [WalkOutcome.andThen, hresult]

/-- The failure of a walk may be taken as its result. -/
theorem restores_observing (h : walk.Restores) :
    Restores (observing walk) ∧ ∀ trail, outcome (observing walk) trail =
      ⟨.ok (walk.outcome trail).result, (walk.outcome trail).log⟩ := by
  refine restores_of_run fun trail log => ?_
  rw [Fault.run_observing, h]

/-- Visits that come back are all made from the same trail, in order. -/
theorem restores_visits {visit : Nat → ObservedWalk ω α} (h : ∀ index, (visit index).Restores)
    (n : Nat) :
    Restores ((List.range n).mapM visit) ∧ ∀ trail, InOrder (.ok n)
      (fun index => (visit index).outcome trail) (outcome ((List.range n).mapM visit) trail) := by
  induction n with
  | zero => exact ⟨(restores_pure []).1, fun trail => .done rfl rfl⟩
  | succ n ih =>
      have hlast := fun results : List α =>
        restores_bind (h n) fun result => (restores_pure (results ++ [result])).1
      have hall := restores_bind ih.1 fun results => (hlast results).1
      rw [Fault.mapM_range_succ]
      refine ⟨hall.1, fun trail => ?_⟩
      simp only [hall.2, (hlast _).2, (restores_pure _).2]
      exact (ih.2 trail).succ

/-! ## Calls -/

/-- What is seen of a walk that is done where some keys lead, from the first key on. -/
def below (body : ObservedWalk ω α) (trail : Trail) (item : Item) : List Json → WalkOutcome ω α
  | [] => body.outcome trail
  | key :: keys =>
    match item.step key with
    | .error fault => ⟨.error fault, []⟩
    | .ok next =>
      let there := trail.push key next
      ⟨(below body there next keys).result, .moved there :: (below body there next keys).log⟩

theorem below_cons_error {key : Json} {fault : Fault} (h : item.step key = .error fault) :
    below body trail item (key :: keys) = ⟨.error fault, []⟩ := by
  simp [below, h]

theorem below_cons_ok {key : Json} {next : Item} (h : item.step key = .ok next) :
    below body trail item (key :: keys) =
      ⟨(below body (trail.push key next) next keys).result,
        .moved (trail.push key next) :: (below body (trail.push key next) next keys).log⟩ := by
  simp [below, h]

/-- On the way down and in the body a walk goes on from where it stands. -/
theorem run_descend_bind (h : body.Restores) (keys : List Json) (item : Item) (trail : Trail) :
    ∃ steps, ∀ log, (Walk.descend item keys >>= fun _ => body).run.run ⟨trail, log⟩ =
      ((below body trail item keys).result,
        ⟨trail.advance steps, log ++ (below body trail item keys).log⟩) := by
  -- a key that fails ends the way down, so the steps taken may be fewer than the keys
  induction keys generalizing item trail with
  | nil =>
      refine ⟨[], fun log => ?_⟩
      rw [Walk.descend, pure_bind, h, Trail.advance_nil, below]
  | cons key keys ih =>
      cases hnext : item.step key with
      | error fault =>
          refine ⟨[], fun log => ?_⟩
          rw [below_cons_error hnext, Walk.descend, bind_assoc, hnext,
            Fault.run_bind_error (Fault.run_ofExcept _ _)]
          simp
      | ok next =>
          obtain ⟨steps, hsteps⟩ := ih next (trail.push key next)
          refine ⟨(key, next) :: steps, fun log => ?_⟩
          rw [below_cons_ok hnext, Walk.descend, bind_assoc, hnext,
            Fault.run_bind_ok (Fault.run_ofExcept _ _), bind_assoc,
            Fault.run_bind_ok (run_modify _ _), Trail.advance_cons]
          simp only [Observed.move, Observed.record]
          rw [hsteps]
          simp

/-- What is seen of a call: the way down and what is done there, up to where one of them
fails, and the way back. -/
theorem restores_call (h : body.Restores) (keys : List Json) :
    Restores (Walk.call keys body) ∧ ∀ trail, outcome (Walk.call keys body) trail =
      match trail.here with
      | .error fault => ⟨.error fault, []⟩
      | .ok item => ⟨(below body trail item keys).result,
          (below body trail item keys).log ++ [.moved trail]⟩ := by
  refine restores_of_run fun trail log => ?_
  rw [Walk.call, Fault.run_bind_ok (run_get _)]
  have hrun := run_here (⟨trail, log⟩ : Observed ω)
  cases hhere : trail.here with
  | error fault =>
      simp only [hhere] at hrun
      rw [Fault.run_bind_error hrun]
      simp
  | ok item =>
      simp only [hhere] at hrun
      obtain ⟨steps, hsteps⟩ := run_descend_bind h keys item trail
      rw [Fault.run_bind_ok hrun, Fault.run_tryFinally (hsteps log) (run_modify _ _)]
      -- whatever steps were taken, cutting the trail to its old size undoes them
      simp [Observed.move, Observed.record]

theorem outcome_call (h : body.Restores) (hhere : trail.here = .ok item) (keys : List Json) :
    outcome (Walk.call keys body) trail = ⟨(below body trail item keys).result,
      (below body trail item keys).log ++ [.moved trail]⟩ := by
  rw [(restores_call h keys).2, hhere]

/-- What is seen below an item is what the descent and the body after it come to. -/
theorem below_eq_of_run {result : Except Fault α} {after : Observed ω} (h : body.Restores)
    (hrun : (Walk.descend item keys >>= fun _ => body).run.run ⟨trail, []⟩ = (result, after)) :
    below body trail item keys = ⟨result, after.log⟩ := by
  obtain ⟨steps, hsteps⟩ := run_descend_bind h keys item trail
  obtain ⟨hresult, hafter⟩ := Prod.mk.inj ((hsteps []).symm.trans hrun)
  exact WalkOutcome.ext hresult (congrArg Observed.log hafter)

/-- A call whose keys fail half-way comes back from there. -/
theorem outcome_call_of_error {fault : Fault} {down : List (Event ω)} (h : body.Restores)
    (hhere : trail.here = .ok item)
    (hdown : (Walk.descend item keys : ObservedWalk ω Unit).run.run ⟨trail, []⟩ =
      (.error fault, ⟨there, down⟩)) :
    outcome (Walk.call keys body) trail = ⟨.error fault, down ++ [.moved trail]⟩ := by
  rw [outcome_call h hhere, below_eq_of_run h (Fault.run_bind_error hdown)]

/-- A call whose keys lead somewhere does there what it does. -/
theorem outcome_call_of_ok {down : List (Event ω)} (h : body.Restores)
    (hhere : trail.here = .ok item)
    (hdown : (Walk.descend item keys : ObservedWalk ω Unit).run.run ⟨trail, []⟩ =
      (.ok (), ⟨there, down⟩)) :
    outcome (Walk.call keys body) trail = (body.outcome there).between down [.moved trail] := by
  have hrun : (Walk.descend item keys >>= fun _ => body).run.run ⟨trail, []⟩ =
      ((body.outcome there).result, ⟨there, down ++ (body.outcome there).log⟩) := by
    rw [Fault.run_bind_ok hdown, h]
  rw [outcome_call h hhere, below_eq_of_run h hrun, WalkOutcome.between]

/-- **Keys may be taken one call at a time.** The result is the same, and so is what the
callbacks do. -/
theorem nested_call (h : body.Restores) (keys : List Json) :
    let nested : ObservedWalk ω α := keys.foldr (fun key inner => Walk.call [key] inner) body
    Restores nested ∧ ∀ trail item, trail.here = .ok item →
      (outcome nested trail).result = (outcome (Walk.call keys body) trail).result ∧
      (outcome nested trail).notes = (outcome (Walk.call keys body) trail).notes := by
  induction keys with
  | nil =>
      refine ⟨h, fun trail item hhere => ?_⟩
      rw [outcome_call h hhere]
      simp [below, WalkOutcome.notes, Event.note?]
  | cons key keys ih =>
      obtain ⟨hrestores, hnested⟩ := ih
      refine ⟨(restores_call hrestores [key]).1, fun trail item hhere => ?_⟩
      rw [List.foldr_cons, outcome_call hrestores hhere, outcome_call h hhere]
      cases hstep : item.step key with
      | error fault => rw [below_cons_error hstep, below_cons_error hstep]; simp
      | ok next =>
          obtain ⟨hresult, hnotes⟩ := hnested (trail.push key next) next (by simp)
          rw [outcome_call h (Trail.here_push trail key next)] at hresult hnotes
          rw [below_cons_ok hstep, below_cons_ok hstep]
          simp_all [below, WalkOutcome.notes, Event.note?]

/-! ## Maps -/

/-- What is seen where a map arrives: visits to the elements in order. -/
theorem restores_each (h : body.Restores) :
    Restores (Walk.each body) ∧ ∀ trail, InOrder (trail.here >>= Item.length)
      (fun (index : Nat) => outcome (Walk.call [.int index] body) trail)
      (outcome (Walk.each body) trail) := by
  have hvisits := restores_visits fun index : Nat => (restores_call h [.int index]).1
  have hcount := fun item : Item =>
    restores_bind (restores_ofExcept item.length).1 fun count => (hvisits count).1
  have heach := restores_bind restores_here.1 fun item => (hcount item).1
  refine ⟨heach.1, fun trail => ?_⟩
  rw [Walk.each, heach.2, restores_here.2]
  cases trail.here with
  | error fault => exact .uncounted rfl
  | ok item =>
      rw [WalkOutcome.ok_andThen, (hcount item).2, (restores_ofExcept item.length).2,
        Fault.ok_bind]
      cases item.length with
      | error fault => exact .uncounted rfl
      | ok count => exact (hvisits count).2 trail

theorem restores_map (h : body.Restores) (keys : List Json) : Restores (Walk.map keys body) :=
  (restores_call (restores_each h).1 keys).1

/-- A position of a sequence is visited at the element there. -/
theorem outcome_call_element (h : body.Restores) {items : List Item} {index : Nat}
    (hhere : trail.here = .ok (.tuple items)) (hitem : items[index]? = some item) :
    outcome (Walk.call [.int index] body) trail =
      (body.outcome (trail.push (.int index) item)).between
        [.moved (trail.push (.int index) item)] [.moved trail] := by
  have hstep : (Item.tuple items).step (.int index) = .ok item := by
    have hindex : ¬(index : Int) < 0 := by omega
    simp [Item.step, Json.int?, Item.element, Item.elementAt, hindex, hitem]
  rw [outcome_call h hhere, below_cons_ok hstep]
  rfl

/-! ## Paths -/

/-- Whether a walk from any path sees paths from the same root alone. -/
def Along (root : Item) (walk : ObservedWalk ω α) : Prop :=
  ∀ trail steps, trail.IsPath root steps → ∀ moment,
    .moved moment ∈ (walk.outcome trail).log → ∃ steps, moment.IsPath root steps

variable {root : Item} {moment : Trail} {steps : List KeyStep}

theorem along_below (h : body.Along root) (hpath : trail.IsPath root steps)
    (hhere : trail.here = .ok item) (hmoment : .moved moment ∈ (below body trail item keys).log) :
    ∃ steps, moment.IsPath root steps := by
  induction keys generalizing trail item steps with
  | nil => exact h trail steps hpath moment hmoment
  | cons key keys ih =>
      cases hstep : item.step key with
      | error fault => simp [below_cons_error hstep] at hmoment
      | ok next =>
          have hpush := hpath.push hhere hstep
          rw [below_cons_ok hstep, List.mem_cons, Event.moved.injEq] at hmoment
          obtain rfl | hmoment := hmoment
          · exact ⟨_, hpush⟩
          · exact ih hpush (Trail.here_push trail key next) hmoment

theorem along_call (h : body.Restores) (hbody : body.Along root) (keys : List Json) :
    Along root (Walk.call keys body) := by
  intro trail steps hpath moment hmoment
  rw [outcome_call h hpath.here_eq, List.mem_append, List.mem_singleton,
    Event.moved.injEq] at hmoment
  obtain hmoment | rfl := hmoment
  · exact along_below hbody hpath hpath.here_eq hmoment
  · exact ⟨steps, hpath⟩

theorem along_map (h : body.Restores) (hbody : body.Along root) (keys : List Json) :
    Along root (Walk.map keys body) := by
  refine along_call (restores_each h).1 (fun trail steps hpath moment hmoment => ?_) keys
  obtain ⟨index, hindex⟩ := ((restores_each h).2 trail).exists_mem_log hmoment
  exact along_call h hbody [.int index] trail steps hpath moment hindex

/-- A walk that goes on after another one, whose failure it is told. -/
theorem along_observing_bind {next : Except Fault α → ObservedWalk ω β} (h : walk.Restores)
    (hnext : ∀ result, (next result).Restores) (hwalk : walk.Along root)
    (halong : ∀ result, (next result).Along root) : Along root (observing walk >>= next) := by
  intro trail steps hpath moment hmoment
  rw [(restores_bind (restores_observing h).1 hnext).2, (restores_observing h).2,
    WalkOutcome.andThen, List.mem_append] at hmoment
  obtain hmoment | hmoment := hmoment
  · exact hwalk trail steps hpath moment hmoment
  · exact halong _ trail steps hpath moment hmoment

end ObservedWalk

/-! ## Nobody watching -/

namespace Walk

variable {ω α β : Type}

theorem run_modify (f : Trail → Trail) (trail : Trail) :
    (modifyThe Trail f : Walk Unit).run.run trail = (.ok (), f trail) := rfl

/-- Whether a walk does what another one does with someone watching. -/
def Agrees (plain : Walk α) (watched : ObservedWalk ω α) : Prop :=
  ∀ before, plain.run.run before.trail =
    ((watched.run.run before).1, (watched.run.run before).2.trail)

namespace Agrees

variable {plain : Walk α} {watched : ObservedWalk ω α}

theorem ofExcept (result : Except Fault α) :
    Agrees (MonadExcept.ofExcept result) (MonadExcept.ofExcept result : ObservedWalk ω α) := by
  intro before
  rw [Fault.run_ofExcept, Fault.run_ofExcept]

theorem bind {next : α → Walk β} {watchedNext : α → ObservedWalk ω β} (h : Agrees plain watched)
    (hnext : ∀ a, Agrees (next a) (watchedNext a)) :
    Agrees (plain >>= next) (watched >>= watchedNext) := by
  intro before
  have hplain := h before
  cases hrun : watched.run.run before with
  | mk result after =>
      rw [hrun] at hplain
      cases result with
      | error fault => rw [Fault.run_bind_error hplain, Fault.run_bind_error hrun]
      | ok a => rw [Fault.run_bind_ok hplain, Fault.run_bind_ok hrun, hnext]

theorem observing (h : Agrees plain watched) : Agrees (observing plain) (observing watched) := by
  intro before
  rw [Fault.run_observing, Fault.run_observing, h before]

theorem mapM {f : α → Walk β} {g : α → ObservedWalk ω β} (h : ∀ a, Agrees (f a) (g a))
    (as : List α) : Agrees (as.mapM f) (as.mapM g) := by
  induction as with
  | nil => exact fun before => rfl
  | cons a as ih =>
      rw [List.mapM_cons, List.mapM_cons]
      exact (h a).bind fun b => ih.bind fun bs before => rfl

theorem get : Agrees (getThe Trail) (getThe Trail : ObservedWalk ω Trail) :=
  fun _ => rfl

theorem modify (f : Trail → Trail) :
    Agrees (modifyThe Trail f) (modifyThe Trail f : ObservedWalk ω Unit) :=
  fun _ => rfl

theorem here : Agrees Walk.here (Walk.here : ObservedWalk ω Item) :=
  get.bind fun trail => ofExcept trail.here

theorem descend (item : Item) (keys : List Json) :
    Agrees (Walk.descend item keys) (Walk.descend item keys : ObservedWalk ω Unit) := by
  induction keys generalizing item with
  | nil => exact fun before => rfl
  | cons key keys ih => exact (ofExcept _).bind fun next => (modify _).bind fun _ => ih next

theorem tryFinally (h : Agrees plain watched) (f : Trail → Trail) :
    Agrees (tryFinally plain (modifyThe Trail f)) (tryFinally watched (modifyThe Trail f)) := by
  intro before
  rw [Fault.run_tryFinally (h before) (run_modify f _),
    Fault.run_tryFinally (Prod.eta _).symm (ObservedWalk.run_modify f _)]
  rfl

theorem call (h : Agrees plain watched) (keys : List Json) :
    Agrees (Walk.call keys plain) (Walk.call keys watched) :=
  get.bind fun _ => here.bind fun item => ((descend item keys).bind fun _ => h).tryFinally _

theorem map (h : Agrees plain watched) (keys : List Json) :
    Agrees (Walk.map keys plain) (Walk.map keys watched) := by
  refine call (here.bind fun item => (ofExcept item.length).bind fun count => ?_) keys
  exact mapM (fun (index : Nat) => h.call [.int index]) (List.range count)

end Agrees

end Walk

end HamlFormat
