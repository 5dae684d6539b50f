import HamlFormat.Tree.Item

/-!
# HamlFormat.Tree.Trail

Walking a syntax tree. A trail is a stack of items and keys in turn, from the root to
where a walk stands; `call` goes down some keys, does something there and comes back,
also when it failed.

Walks are written for every kind of computation that has a trail and can fail. What is
done at an item may therefore have effects of its own, and the same walk can be run with
someone watching.
-/

namespace HamlFormat

/-- The way from the root to the current item, as `item, key, item, key, item …`. -/
structure Trail where
  entries : List Item

namespace Trail

/-- A trail that has not left the root. -/
def ofRoot (root : Item) : Trail :=
  ⟨[root]⟩

/-- How many entries there are. -/
def size (trail : Trail) : Nat :=
  trail.entries.length

/-- The current item: the last entry. -/
def here (trail : Trail) : Except Fault Item :=
  match trail.entries.getLast? with
  | some item => .ok item
  | none => .error .outOfRange

/-- The key that led to the current item: the entry before the last one. -/
def key? (trail : Trail) : Option Json :=
  match trail.entries.dropLast.getLast? with
  | some (.data key) => some key
  | _ => none

/-- How many keys have been taken: every second entry is one. -/
def depth (trail : Trail) : Nat :=
  trail.size / 2

/-- Every second entry, from the first one on. -/
def everySecond : List Item → List Item
  | [] => []
  | [item] => [item]
  | item :: _ :: rest => item :: everySecond rest

/-- The closest item passed on the way that is not a sequence. -/
def parent? (trail : Trail) : Option Item :=
  (everySecond trail.entries.dropLast).reverse.find? (!·.isTuple)

/-- Take a key that leads to an item. -/
def push (trail : Trail) (key : Json) (item : Item) : Trail :=
  ⟨trail.entries ++ [.data key, item]⟩

/-- Drop the entries from a position on. -/
def cut (trail : Trail) (size : Nat) : Trail :=
  ⟨trail.entries.take size⟩

end Trail

namespace Walk

variable {m : Type → Type} [Monad m] [MonadStateOf Trail m] [MonadExceptOf Fault m] {α : Type}

/-- The item where a walk stands. -/
def here : m Item := do
  MonadExcept.ofExcept (← getThe Trail).here

/-- Take one key after another from an item on. -/
def descend (item : Item) : List Json → m Unit
  | [] => pure ()
  | key :: keys => do
    let next ← MonadExcept.ofExcept (item.step key)
    modifyThe Trail (·.push key next)
    descend next keys

variable [MonadFinally m]

/-- Do something at the item that some keys lead to, and come back. -/
def call (keys : List Json) (body : m α) : m α := do
  let size := (← getThe Trail).size
  let item ← here
  try
    descend item keys
    body
  finally
    modifyThe Trail (·.cut size)

/-- Do something at each element of the current sequence. -/
def each (body : m α) : m (List α) := do
  let count ← MonadExcept.ofExcept (← here).length
  (List.range count).mapM fun (index : Nat) => call [.int index] body

/-- Do something at each element of the sequence that some keys lead to. -/
def map (keys : List Json) (body : m α) : m (List α) :=
  call keys (each body)

end Walk

/-- Something done along a trail, which may fail on the way and has no other effects. -/
abbrev Walk (α : Type) := ExceptT Fault (StateM Trail) α

/-! ## Programs

A walk given as data: what to do at the current item, and where to go. -/

/-- One thing to do on a walk. -/
inductive WalkStep where
  /-- Say where the walk stands. -/
  | info
  /-- Fail. -/
  | fail (message : Text)
  | call (keys : List Json) (body : List WalkStep)
  | map (keys : List Json) (body : List WalkStep)
  deriving Inhabited

/-- What a step of a walk reports. -/
inductive WalkReport where
  | info (here : Item) (key : Option Json) (parent : Option Item) (depth : Nat)
  | list (reports : List WalkReport)
  | fault (fault : Fault)

/-- A failure of a walk as its report. -/
def Walk.guarded (walk : Walk WalkReport) : Walk WalkReport :=
  tryCatch walk fun fault => pure (.fault fault)

mutual

/-- Do one thing. A failure inside a `call` or a `map` is what it reports. -/
def WalkStep.run : WalkStep → Walk WalkReport
  | .info => do
    let trail ← get
    return .info (← Walk.here) trail.key? trail.parent? trail.depth
  | .fail message => throw (.callback message)
  | .call keys body =>
    Walk.guarded do return .list (← Walk.call keys (WalkStep.runList body))
  | .map keys body =>
    Walk.guarded do return .list ((← Walk.map keys (WalkStep.runList body)).map .list)

/-- Do one thing after another, up to the first failure. -/
def WalkStep.runList : List WalkStep → Walk (List WalkReport)
  | [] => return []
  | step :: steps => do
    let report ← step.run
    return report :: (← WalkStep.runList steps)

end

/-- The report of each step of a program along one trail. -/
def Trail.walk (trail : Trail) (program : List WalkStep) : List WalkReport :=
  match ((program.mapM fun step => Walk.guarded step.run).run trail).1 with
  | .ok reports => reports
  | .error fault => [.fault fault]

/-- The item that some keys lead to. -/
def Item.follow (item : Item) (keys : List Json) : Except Fault Item :=
  ((Walk.call keys Walk.here : Walk Item).run (.ofRoot item)).1

end HamlFormat
