/-
  Interproc.Fixpoint.Item
  ───────────────────────
  Pending actions with the context they are interpreted in: the state before the
  action, the stack of entered scopes, and the stack of loops entered on the way.
  Items are values; a successor starts from a copy of its predecessor's context,
  so what happens to one item is invisible to its siblings.

  All scopes share one stack of loops.  Each scope remembers how many loops were
  active when it was entered, and only the loops above that mark are its own.
-/
import Interproc.Fixpoint.Summaries

namespace Interproc

/-- A scope that was entered and not left yet. -/
structure Scope (A S : Type) where
  /-- The action that entered the scope. -/
  action : A
  /-- The layer that holds the states of the scope. -/
  layer : LayerId
  /-- The state right before the scope was entered. -/
  before : Disjunction S
  /-- The state the scope was entered with, widened against on recursion. -/
  entry : Disjunction S
  /-- The number of loops that were active when the scope was entered. -/
  loopDepth : Nat
  deriving Repr, DecidableEq

/-- A loop that was entered and not left yet. -/
structure ActiveLoop (L S : Type) where
  head : L
  /-- How often the loop was entered. -/
  counter : Nat
  /-- The state at the head when the loop was last entered. -/
  snapshot : Disjunction S
  deriving Repr, DecidableEq

/-- An action that waits to be interpreted, and its context. -/
structure Item (L A S : Type) where
  action : A
  /-- The state before the action. -/
  pre : Disjunction S
  predecessor : Option ItemId
  /-- The layer outside of any scope. -/
  rootLayer : LayerId
  /-- The entered scopes, innermost first. -/
  scopes : List (Scope A S)
  /-- The active loops of all scopes, outermost first. -/
  loops : List (ActiveLoop L S)
  /-- The summary by which the item steps over a call. -/
  summary : Option (SummaryRef A)
  /-- Whether the item hands the exit of another activation to a call that was not entered. -/
  returned : Bool
  deriving Repr, DecidableEq

namespace Item

variable {L A S : Type}

/-! ## §1. Scopes. -/

/-- The action that entered the innermost scope. -/
def currentScope (item : Item L A S) : Option A := item.scopes.head?.map Scope.action

/-- The layer of the innermost scope. -/
def currentLayer (item : Item L A S) : LayerId :=
  (item.scopes.head?.map Scope.layer).getD item.rootLayer

/-- The layer that the innermost scope returns to. -/
def callerLayer (item : Item L A S) : LayerId :=
  match item.scopes with
  | _ :: caller :: _ => caller.layer
  | _ => item.rootLayer

/-- The state right before the innermost scope was entered. -/
def beforeScope (item : Item L A S) : Option (Disjunction S) := item.scopes.head?.map Scope.before

/-- Enter a scope. -/
def enterScope (item : Item L A S) (action : A) (layer : LayerId)
    (before entry : Disjunction S) : Item L A S :=
  { item with scopes := ⟨action, layer, before, entry, item.loops.length⟩ :: item.scopes }

/-- Leave the innermost scope, and every loop entered inside it.  Also answers which action
entered the scope, and the state before it. -/
def leaveScope (item : Item L A S) : Option ((A × Disjunction S) × Item L A S) :=
  match item.scopes with
  | [] => none
  | scope :: outer =>
    some ((scope.action, scope.before),
      { item with scopes := outer, loops := item.loops.take scope.loopDepth })

/-- The layer and the entry state of the innermost scope that `action` entered. -/
def latestEntry [DecidableEq A] (item : Item L A S) (action : A) :
    Option (LayerId × Disjunction S) :=
  (item.scopes.find? fun scope => scope.action = action).map fun scope =>
    (scope.layer, scope.entry)

/-- Count one more occurrence of `a` in a tally. -/
def tally [DecidableEq A] (a : A) : List (A × Nat) → List (A × Nat)
  | [] => [(a, 1)]
  | (b, n) :: rest => if b = a then (b, n + 1) :: rest else (b, n) :: tally a rest

/-- How deep entering the scope of `action` would recurse: the number of entered scopes, the
prospective one included, whose action is `action` or occurs more than once. -/
def reentryDepth [DecidableEq A] (item : Item L A S) (action : A) : Nat :=
  let occurrences := ((item.scopes.reverse.map Scope.action) ++ [action]).foldl
    (fun counts a => tally a counts) []
  (occurrences.filter fun e => 1 < e.2 || e.1 = action).foldr (fun e n => e.2 + n) 0

/-! ## §2. Loops of the innermost scope. -/

/-- The number of loops that belong to outer scopes. -/
def loopDepth (item : Item L A S) : Nat := (item.scopes.head?.map Scope.loopDepth).getD 0

/-- The loops entered in the innermost scope, outermost first. -/
def scopeLoops (item : Item L A S) : List (ActiveLoop L S) := item.loops.drop item.loopDepth

/-- The head of the innermost loop of the innermost scope. -/
def currentLoopHead (item : Item L A S) : Option L := item.scopeLoops.getLast?.map ActiveLoop.head

/-- Enter the loop at `head` with `snapshot` as the state there.  Loops entered after it are
left.  Also answers how often the loop had been entered before. -/
def enterLoop [DecidableEq L] (item : Item L A S) (head : L) (snapshot : Disjunction S) :
    Nat × Item L A S :=
  let outer := item.loops.take item.loopDepth
  let earlier := item.scopeLoops.takeWhile fun l => l.head ≠ head
  match item.scopeLoops.dropWhile fun l => l.head ≠ head with
  | [] => (0, { item with loops := item.loops ++ [⟨head, 1, snapshot⟩] })
  | l :: _ =>
    (l.counter, { item with loops := outer ++ earlier ++ [⟨head, l.counter + 1, snapshot⟩] })

/-- Leave the innermost loop of the innermost scope, forgetting its counter. -/
def leaveLoop (item : Item L A S) : Option L × Item L A S :=
  match item.currentLoopHead with
  | none => (none, item)
  | some head => (some head, { item with loops := item.loops.dropLast })

/-- Whether `location` is the head of a loop of the innermost scope. -/
def isLoopHead [DecidableEq L] (item : Item L A S) (location : L) : Bool :=
  item.scopeLoops.any fun l => l.head = location

/-- The counter and the snapshot of the innermost loop at `location` in the innermost scope. -/
def loopAt [DecidableEq L] (item : Item L A S) (location : L) : Option (Nat × Disjunction S) :=
  (item.scopeLoops.reverse.find? fun l => l.head = location).map fun l => (l.counter, l.snapshot)

/-! ## §3. Making items. -/

/-- An item at a start location, outside of any scope. -/
def initial (action : A) (pre : Disjunction S) (rootLayer : LayerId) : Item L A S where
  action := action
  pre := pre
  predecessor := none
  rootLayer := rootLayer
  scopes := []
  loops := []
  summary := none
  returned := false

/-- An item that goes on from `predecessor`. -/
def successor (pre : Disjunction S) (action : A) (id : ItemId) (predecessor : Item L A S) :
    Item L A S where
  action := action
  pre := pre
  predecessor := some id
  rootLayer := predecessor.rootLayer
  scopes := predecessor.scopes
  loops := predecessor.loops
  summary := none
  returned := false

/-- An item that leaves a scope with `exitState` by `exitAction` and returns to the context of
`call`, whose scope was not entered because the activation at `layer` covers it. -/
def returning (exitState : Disjunction S) (exitAction : A) (predecessor : Option ItemId)
    (call : Item L A S) (layer : LayerId) : Item L A S :=
  enterScope
    { action := exitAction
      pre := exitState
      predecessor := predecessor
      rootLayer := call.rootLayer
      scopes := call.scopes
      loops := call.loops
      summary := none
      returned := true }
    call.action layer call.pre call.pre

end Item

end Interproc
