import HamlFormat.Fault

/-!
# HamlFormat.Proofs.Fault

Computations that may fail, taken apart: when a sequence of them succeeds, each
step of it has. Two computations are related if they fail alike or their results
are, and sequences of related steps are (`Related.bind`). The faults that a
sequence can fail with are those of its steps (`FailsWithin.bind`). A computation that
also has a state hands it on as far as it gets (`run_bind_ok`, `run_bind_error`).
-/

namespace HamlFormat.Fault

variable {α β : Type} {a b : α} {x : Except Fault α} {f : α → Except Fault β} {c : β}

/-- A sequence succeeds if its first step does and the rest does with its result. -/
theorem bind_eq_ok : x >>= f = .ok c ↔ ∃ a, x = .ok a ∧ f a = .ok c := by
  cases x with
  | error fault => exact ⟨nofun, fun ⟨_, h, _⟩ => nomatch h⟩
  | ok a => exact ⟨fun h => ⟨a, rfl, h⟩, fun ⟨_, h, hc⟩ => by cases h; exact hc⟩

theorem pure_eq_ok : (pure a : Except Fault α) = .ok b ↔ a = b :=
  Except.ok.injEq a b ▸ Iff.rfl

/-- A first step that succeeds hands its result on. -/
theorem ok_bind (a : α) (f : α → Except Fault β) : (Except.ok a : Except Fault α) >>= f = f a :=
  rfl

/-- Two computations that fail alike, or that both succeed and have results in a
relation. -/
inductive Related (R : α → β → Prop) : Except Fault α → Except Fault β → Prop where
  | error (fault : Fault) : Related R (.error fault) (.error fault)
  | ok {a : α} {b : β} (h : R a b) : Related R (.ok a) (.ok b)

/-- Sequences are related step by step. -/
theorem Related.bind {γ δ : Type} {R : α → β → Prop} {S : γ → δ → Prop} {x : Except Fault α}
    {y : Except Fault β} {f : α → Except Fault γ} {g : β → Except Fault δ} (h : Related R x y)
    (hrest : ∀ a b, R a b → Related S (f a) (g b)) : Related S (x >>= f) (y >>= g) := by
  cases h with
  | error fault => exact .error fault
  | ok h => exact hrest _ _ h

theorem Related.refl {R : α → α → Prop} (h : ∀ a, R a a) (x : Except Fault α) : Related R x x := by
  cases x with
  | error fault => exact .error fault
  | ok a => exact .ok (h a)

/-- Computations are related the other way round if their results are. -/
theorem Related.flip {R : α → β → Prop} {S : β → α → Prop} {x : Except Fault α}
    {y : Except Fault β} (h : Related R x y) (hS : ∀ a b, R a b → S b a) : Related S y x := by
  cases h with
  | error fault => exact .error fault
  | ok h => exact .ok (hS _ _ h)

/-- A step more that cannot fail may be taken on one side alone. -/
theorem Related.bind_ok {γ : Type} {R : α → β → Prop} {S : α → γ → Prop} {x : Except Fault α}
    {y : Except Fault β} {g : β → γ} (h : Related R x y) (hS : ∀ a b, R a b → S a (g b)) :
    Related S x (y >>= fun b => .ok (g b)) := by
  cases h with
  | error fault => exact .error fault
  | ok h => exact .ok (hS _ _ h)

/-- Sequences with the same first step are related if their rests are. -/
theorem Related.bind_same {γ δ : Type} {S : γ → δ → Prop} (x : Except Fault α)
    {f : α → Except Fault γ} {g : α → Except Fault δ} (hrest : ∀ a, Related S (f a) (g a)) :
    Related S (x >>= f) (x >>= g) := by
  cases x with
  | error fault => exact .error fault
  | ok a => exact hrest a

/-- What follows on related results does not tell them apart. -/
theorem Related.bind_eq {γ : Type} {R : α → β → Prop} {x : Except Fault α} {y : Except Fault β}
    {f : α → Except Fault γ} {g : β → Except Fault γ} (h : Related R x y)
    (hrest : ∀ a b, R a b → f a = g b) : x >>= f = y >>= g := by
  cases h with
  | error fault => rfl
  | ok h => exact hrest _ _ h

/-! ## Faults that can occur -/

/-- A computation that fails, if it does, with a fault of a certain kind. -/
def FailsWithin (P : Fault → Prop) (x : Except Fault α) : Prop :=
  ∀ fault, x = .error fault → P fault

namespace FailsWithin

variable {P Q : Fault → Prop} {fault : Fault}

theorem ok (a : α) : FailsWithin P (.ok a) := by
  intro fault h
  cases h

theorem error (h : P fault) : FailsWithin P (.error fault : Except Fault α) := by
  intro _ hfault
  cases hfault
  exact h

theorem mono (h : FailsWithin P x) (hPQ : ∀ fault, P fault → Q fault) : FailsWithin Q x :=
  fun fault hfault => hPQ fault (h fault hfault)

/-- A sequence fails as one of its steps does. -/
theorem bind (h : FailsWithin P x) (hrest : ∀ a, x = .ok a → FailsWithin P (f a)) :
    FailsWithin P (x >>= f) := by
  cases hx : x with
  | error fault => exact error (h fault hx)
  | ok a => exact hrest a hx

/-- A run through a list fails as it does at one of its members. -/
theorem mapM {xs : List α} (h : ∀ a ∈ xs, FailsWithin P (f a)) : FailsWithin P (xs.mapM f) := by
  induction xs with
  | nil => exact ok []
  | cons a xs ih =>
      rw [List.forall_mem_cons] at h
      rw [List.mapM_cons]
      refine bind h.1 fun b _ => ?_
      exact bind (ih h.2) fun bs _ => ok (b :: bs)

end FailsWithin

/-! ## Lists -/

/-- What a successful run through a list yields comes from its members. -/
theorem exists_mem_of_mapM {xs : List α} {ys : List β} (h : xs.mapM f = .ok ys) :
    ∀ y ∈ ys, ∃ x ∈ xs, f x = .ok y := by
  induction xs generalizing ys with
  | nil =>
      rw [List.mapM_nil, pure_eq_ok] at h
      subst h
      exact fun _ hy => nomatch hy
  | cons x xs ih =>
      rw [List.mapM_cons] at h
      obtain ⟨first, hfirst, hrest⟩ := bind_eq_ok.mp h
      obtain ⟨others, hothers, hys⟩ := bind_eq_ok.mp hrest
      cases hys
      rw [List.forall_mem_cons]
      refine ⟨⟨x, List.mem_cons_self, hfirst⟩, fun y hy => ?_⟩
      obtain ⟨x', hx', hy⟩ := ih hothers y hy
      exact ⟨x', List.mem_cons_of_mem _ hx', hy⟩

/-- A run through the numbers below a bound and on to the bound itself. -/
theorem mapM_range_succ {m : Type → Type} [Monad m] [LawfulMonad m] (n : Nat) (f : Nat → m β) :
    (List.range (n + 1)).mapM f =
      (List.range n).mapM f >>= fun ys => f n >>= fun y => pure (ys ++ [y]) := by
  rw [List.range_succ, List.mapM_append, List.mapM_cons, List.mapM_nil]
  simp only [bind_assoc, pure_bind]

/-- A run that looks at the values in a list alone can be made on those. -/
theorem mapM_val {p : α → Prop} {parts : List (Subtype p)} {xs : List α}
    (h : parts.map Subtype.val = xs) (f : α → Except Fault β) :
    parts.mapM (fun part => f part.1) = xs.mapM f := by
  rw [← h, List.mapM_map]
  rfl

/-! ## Computations with a state -/

section

variable {σ : Type} {action : ExceptT Fault (StateM σ) α} {next : α → ExceptT Fault (StateM σ) β}
  {before after : σ}

/-- A computation in two parts goes on with the result of the first. -/
theorem run_bind_ok (h : action.run.run before = (.ok a, after)) :
    (action >>= next).run.run before = (next a).run.run after := by
  simp only [ExceptT.run, StateT.run] at h
  simp only [bind, ExceptT.bind, ExceptT.mk, StateT.bind, ExceptT.run, StateT.run, h]
  rfl

/-- A computation in two parts ends where the first one fails. -/
theorem run_bind_error {fault : Fault} (h : action.run.run before = (.error fault, after)) :
    (action >>= next).run.run before = (.error fault, after) := by
  simp only [ExceptT.run, StateT.run] at h
  simp only [bind, ExceptT.bind, ExceptT.mk, StateT.bind, ExceptT.run, StateT.run, h]
  rfl

/-- A result that is there already, or a failure. -/
theorem run_ofExcept (result : Except Fault α) (before : σ) :
    (MonadExcept.ofExcept result : ExceptT Fault (StateM σ) α).run.run before =
      (result, before) := by
  cases result <;> rfl

/-- What is done at the end of a computation is done from where it ended, whether it failed
or not. -/
theorem run_tryFinally {finalizer : ExceptT Fault (StateM σ) β} {result : Except Fault α}
    {middle : σ} {b : β} (h : action.run.run before = (result, middle))
    (hfinalizer : finalizer.run.run middle = (.ok b, after)) :
    (tryFinally action finalizer).run.run before = (result, after) := by
  simp only [ExceptT.run, StateT.run] at h hfinalizer
  cases result <;>
    simp only [tryFinally, tryFinally', Functor.map, ExceptT.map, ExceptT.run, ExceptT.mk,
      StateT.run, bind, StateT.bind, h, hfinalizer] <;>
    rfl

/-- The failure of a computation taken as its result: nothing else about it changes. -/
theorem run_observing (action : ExceptT Fault (StateM σ) α) (before : σ) :
    (observing action : ExceptT Fault (StateM σ) (Except Fault α)).run.run before =
      (.ok (action.run.run before).1, (action.run.run before).2) := by
  cases hrun : action.run.run before with
  | mk result after =>
      simp only [ExceptT.run, StateT.run] at hrun
      cases result <;>
        simp only [observing, tryCatch, tryCatchThe, MonadExceptOf.tryCatch, ExceptT.tryCatch,
          ExceptT.run, ExceptT.mk, StateT.run, bind, ExceptT.bind, StateT.bind, hrun] <;>
        rfl

end

end HamlFormat.Fault
