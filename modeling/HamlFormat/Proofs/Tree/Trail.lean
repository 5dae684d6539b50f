import HamlFormat.Tree.Trail
import Mathlib.Data.List.Induction

/-!
# HamlFormat.Proofs.Tree.Trail

What a trail says about the tree. A trail is one flat list, so most of them mean nothing:
`Trail.ofSteps` lays a root and the steps taken from it out as such a list, and `Leads`
says that each step takes a key of the item before it. `Trail.IsPath` gathers what a trail
then answers about itself, each answer in terms of the steps. Taking a key of the current
item leads from one path to another (`Trail.IsPath.push`).
-/

namespace HamlFormat

/-! ## Steps -/

/-- One key taken and the item that it leads to. -/
abbrev KeyStep := Json × Item

/-- Steps each of which takes a key of the item before it. -/
inductive Leads : Item → List KeyStep → Prop where
  | nil (item : Item) : Leads item []
  | cons {item next : Item} {key : Json} {rest : List KeyStep} (h : item.step key = .ok next)
      (hrest : Leads next rest) : Leads item ((key, next) :: rest)

/-- The items passed from a root on, the last one included. -/
def passed (root : Item) (steps : List KeyStep) : List Item :=
  root :: steps.map (·.2)

/-- The item where some steps lead. -/
def arrived (root : Item) (steps : List KeyStep) : Item :=
  (passed root steps).getLast (List.cons_ne_nil _ _)

theorem passed_concat (root : Item) (steps : List KeyStep) (step : KeyStep) :
    passed root (steps ++ [step]) = passed root steps ++ [step.2] := by
  simp [passed]

theorem arrived_concat (root : Item) (steps : List KeyStep) (step : KeyStep) :
    arrived root (steps ++ [step]) = step.2 := by
  simp only [arrived, passed_concat, List.getLast_concat]

theorem arrived_cons (root : Item) (step : KeyStep) (steps : List KeyStep) :
    arrived root (step :: steps) = arrived step.2 steps := by
  simp [arrived, passed]

/-- Steps may go on with a key of the item where they lead. -/
theorem Leads.concat {root next : Item} {key : Json} {steps : List KeyStep} (h : Leads root steps)
    (hstep : (arrived root steps).step key = .ok next) : Leads root (steps ++ [(key, next)]) := by
  induction h with
  | nil item => exact .cons hstep (.nil next)
  | cons hfirst _ ih =>
      rw [arrived_cons] at hstep
      exact .cons hfirst (ih hstep)

namespace Trail

variable {trail : Trail} {root item next : Item} {key : Json} {steps : List KeyStep}

/-! ## The flat list -/

/-- The entries that some steps add. -/
def laidOut (steps : List KeyStep) : List Item :=
  steps.flatMap fun step => [.data step.1, step.2]

/-- The trail of some steps from a root. -/
def ofSteps (root : Item) (steps : List KeyStep) : Trail :=
  ⟨root :: laidOut steps⟩

@[simp] theorem length_laidOut (steps : List KeyStep) :
    (laidOut steps).length = 2 * steps.length := by
  induction steps with
  | nil => rfl
  | cons step steps ih =>
      have hcons : laidOut (step :: steps) = .data step.1 :: step.2 :: laidOut steps := rfl
      rw [hcons]
      simp only [List.length_cons, ih]
      omega

theorem ofSteps_push (root : Item) (steps : List KeyStep) (key : Json) (item : Item) :
    (ofSteps root steps).push key item = ofSteps root (steps ++ [(key, item)]) := by
  simp [ofSteps, push, laidOut]

/-- The last entry is the item where the steps lead. -/
theorem here_ofSteps (root : Item) (steps : List KeyStep) :
    (ofSteps root steps).here = .ok (arrived root steps) := by
  induction steps using List.reverseRecOn with
  | nil => rfl
  | append_singleton steps step _ =>
      rw [← ofSteps_push, arrived_concat]
      simp [here, push]

/-- The entry before the last one is the last key. -/
theorem key?_ofSteps (root : Item) (steps : List KeyStep) :
    (ofSteps root steps).key? = (steps.map (·.1)).getLast? := by
  induction steps using List.reverseRecOn with
  | nil => rfl
  | append_singleton steps step _ =>
      rw [← ofSteps_push]
      simp [key?, push]

/-- Every second entry is an item, up to the key that ends the list. -/
theorem everySecond_laidOut (root : Item) (steps : List KeyStep) (key : Json) :
    everySecond (root :: laidOut steps ++ [.data key]) = passed root steps := by
  induction steps generalizing root with
  | nil => rfl
  | cons step steps ih => exact congrArg (root :: ·) (ih step.2)

/-- Every second entry before the last one is an item passed before it. -/
theorem everySecond_dropLast_ofSteps (root : Item) (steps : List KeyStep) :
    everySecond (ofSteps root steps).entries.dropLast = (passed root steps).dropLast := by
  induction steps using List.reverseRecOn with
  | nil => rfl
  | append_singleton steps step _ =>
      have hentries : (ofSteps root (steps ++ [step])).entries =
          root :: laidOut steps ++ [.data step.1] ++ [step.2] := by
        simp [ofSteps, laidOut]
      rw [hentries, List.dropLast_concat, everySecond_laidOut, passed_concat, List.dropLast_concat]

/-! ## Paths -/

/-- **A path from a root by some steps.** The entries are the root and, for each step, its
key and its item, and each item is what the key before it leads to from the item before
that. So the number of entries is odd, the current item is the last one, its key the last
key, the depth the number of keys, and the parent the nearest of the earlier items that is
not a sequence. -/
structure IsPath (trail : Trail) (root : Item) (steps : List KeyStep) : Prop where
  entries_eq : trail.entries = root :: steps.flatMap fun step => [.data step.1, step.2]
  leads : Leads root steps
  length_odd : trail.entries.length % 2 = 1
  here_eq : trail.here = .ok (arrived root steps)
  key?_eq : trail.key? = (steps.map (·.1)).getLast?
  depth_eq : trail.depth = steps.length
  parent?_eq : trail.parent? = (passed root steps).dropLast.reverse.find? (!·.isTuple)

/-- What a trail answers about itself, it answers from the steps that it lays out. -/
theorem isPath_ofSteps (h : Leads root steps) : (ofSteps root steps).IsPath root steps where
  entries_eq := rfl
  leads := h
  length_odd := by
    simp only [ofSteps, List.length_cons, length_laidOut]
    omega
  here_eq := here_ofSteps root steps
  key?_eq := key?_ofSteps root steps
  depth_eq := by
    simp only [depth, size, ofSteps, List.length_cons, length_laidOut]
    omega
  parent?_eq := by rw [parent?, everySecond_dropLast_ofSteps]

theorem IsPath.eq_ofSteps (h : trail.IsPath root steps) : trail = ofSteps root steps :=
  congrArg Trail.mk h.entries_eq

theorem isPath_ofRoot (root : Item) : (ofRoot root).IsPath root [] :=
  isPath_ofSteps (.nil root)

/-- A path stays one when a key of its current item is taken. -/
theorem IsPath.push (h : trail.IsPath root steps) (hhere : trail.here = .ok item)
    (hstep : item.step key = .ok next) :
    (trail.push key next).IsPath root (steps ++ [(key, next)]) := by
  have hitem : arrived root steps = item := Except.ok.inj (h.here_eq.symm.trans hhere)
  rw [h.eq_ofSteps, ofSteps_push]
  exact isPath_ofSteps (h.leads.concat (hitem ▸ hstep))

/-! ## Going down and coming back -/

@[simp] theorem here_push (trail : Trail) (key : Json) (item : Item) :
    (trail.push key item).here = .ok item := by
  simp [here, push]

/-- A trail some steps further. -/
def advance (trail : Trail) (steps : List KeyStep) : Trail :=
  ⟨trail.entries ++ laidOut steps⟩

@[simp] theorem advance_nil (trail : Trail) : trail.advance [] = trail := by
  simp [advance, laidOut]

theorem advance_cons (trail : Trail) (step : KeyStep) (steps : List KeyStep) :
    trail.advance (step :: steps) = (trail.push step.1 step.2).advance steps := by
  simp [advance, push, laidOut]

/-- Cutting a trail that has gone on leads back. -/
@[simp] theorem cut_advance (trail : Trail) (steps : List KeyStep) :
    (trail.advance steps).cut trail.size = trail := by
  simp [advance, cut, size]

end Trail

end HamlFormat
