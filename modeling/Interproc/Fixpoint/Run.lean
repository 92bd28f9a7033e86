/-
  Interproc.Fixpoint.Run
  ──────────────────────
  The computation of a fixpoint.  States are propagated along actions until no
  stored state changes.  Each pending action is an item: it is interpreted by the
  domain, the state after it is merged into the layer of its scope, and an item is
  made for every action that follows.

  States are widened in three places, so that computations come to an end:

  * at loop heads, once the loop was entered more often than allowed on the way,
    against the state with which it was last entered;
  * at recursive calls, once the call would recurse deeper than allowed, against
    the entry state of the innermost activation of the same call;
  * at the exits of an activation that other calls wait for, once the exit grew
    more often than allowed.

  A widening that does not change the state widened against is a fixpoint, and the
  item is dropped.  A recursive call dropped that way is covered by an activation
  on its own scope stack, whose returns are handed to the call as well.
-/
import Interproc.Fixpoint.Answer
import Interproc.Fixpoint.Engine
import Interproc.Fixpoint.Event
import Interproc.Fixpoint.Exits
import Interproc.Fixpoint.Worklist

namespace Interproc

/-! ## §1. The state of a computation. -/

/-- Why a computation ends without an answer. -/
inductive Halt (A : Type) where
  /-- There is no location to start from. -/
  | noStartLocations
  /-- The timer stopped the computation. -/
  | cancelled (iterations : Nat)
  /-- The domain or the declarations refused to answer. -/
  | refused (cause : Error)
  /-- An item or a layer that the computation refers to does not exist. -/
  | lost (cause : Error)
  /-- The summary by which a call is stepped over does not exist. -/
  | noSummary (call : A)
  /-- The second opinion rejects the states after an action. -/
  | unsound (action : A)
  /-- More items than the budget allows. -/
  | exhausted
  deriving Repr, DecidableEq

/-- The state of a computation. -/
structure RunState (L A S : Type) where
  items : Arena L A S := {}
  worklist : Worklist
  layers : Layers L A S
  summaries : Summaries A S := {}
  exits : Exits A S := {}
  /-- The actions that reached an error location. -/
  reachedErrors : List A := []
  counterexamples : List (Counterexample L A S) := []
  statistics : Statistics := {}
  /-- What was reported so far, oldest first. -/
  events : Array (Event L A S) := #[]

/-- The state before the first item. -/
def RunState.start {L A S : Type} (options : Options) : RunState L A S where
  worklist := { order := options.order }
  layers := .empty options.maxParallelStates

/-- Steps of a computation.  A step that fails keeps what it did before. -/
abbrev Run (L A S α : Type) := EStateM (Halt A) (RunState L A S) α

namespace Run

variable {L A S α : Type}

/-- Report an event. -/
def emit (event : Event L A S) : Run L A S Unit :=
  modify fun s => { s with events := s.events.push event }

/-- Update the counters. -/
def count (f : Statistics → Statistics) : Run L A S Unit :=
  modify fun s => { s with statistics := f s.statistics }

/-- Take a step only if a condition holds. -/
def onlyIf (condition : Bool) (step : Run L A S Unit) : Run L A S Unit :=
  if condition then step else pure ()

/-- The answer of the domain or the declarations. -/
def ask : Except Error α → Run L A S α
  | .ok value => pure value
  | .error cause => throw (.refused cause)

/-- The result of a look-up that cannot fail as long as references are counted right. -/
def expect : Except Error α → Run L A S α
  | .ok value => pure value
  | .error cause => throw (.lost cause)

/-! ## §2. Items. -/

/-- A live item. -/
def item (id : ItemId) : Run L A S (Item L A S) := do
  expect ((← get).items.get id)

/-- Replace a live item. -/
def setItem (id : ItemId) (item : Item L A S) : Run L A S Unit := do
  let items ← expect ((← get).items.set id item)
  modify fun s => { s with items := items }

/-- Take a reference to an item. -/
def retain (id : ItemId) : Run L A S Unit := do
  let items ← expect ((← get).items.retain id)
  modify fun s => { s with items := items }

/-- Give back a reference to an item. -/
def release (id : ItemId) : Run L A S Unit := fun s =>
  match Arena.release id s.items with
  | .ok () items => .ok () { s with items := items }
  | .error cause items => .error (.lost cause) { s with items := items }

/-- Insert an item. -/
def insert (item : Item L A S) : Run L A S ItemId := do
  let (id, items) ← expect ((← get).items.insert item)
  modify fun s => { s with items := items }
  return id

/-- Put an item on the worklist, which holds a reference to it. -/
def enqueue (id : ItemId) : Run L A S Unit := do
  retain id
  modify fun s => { s with worklist := s.worklist.push id }

/-! ## §3. Covered calls. -/

variable [DecidableEq L] [DecidableEq A] [AbstractState S]

/-- Hand an exit of the activation at a layer to a call that was not entered. -/
def returnTo (call : ItemId) (layer : LayerId) (exit : ScopeExit A S) : Run L A S Unit := do
  let callItem ← item call
  let id ← insert (.returning exit.state exit.action exit.predecessor callItem layer)
  emit (.returned exit.action call id)
  enqueue id

/-- A call is covered by the activation at a layer: hand it the exits known so far, and remember
it for those to come. -/
def subscribe (call : ItemId) (layer : LayerId) : Run L A S Unit := do
  emit (.subscribed call layer)
  retain call
  let exits := (← get).exits
  modify fun s => { s with exits := exits.subscribe layer call }
  (exits.activation layer).exits.forM (returnTo call layer)

/-- Process an item that stepped over a call once more, since its summary has grown. -/
def requeue (stale : ItemId) : Run L A S Unit := do
  let staleItem ← item stale
  match staleItem.predecessor with
  | none => pure ()
  | some predecessorId => do
    let predecessor ← item predecessorId
    let id ← insert
      { Item.successor staleItem.pre staleItem.action predecessorId predecessor with
        summary := staleItem.summary }
    emit (.requeued stale id)
    enqueue id
    release stale

end Run

/-! ## §4. Interpreting an item. -/

namespace Engine

open Run

variable {L A S : Type} [DecidableEq L] [DecidableEq A] [AbstractState S] (e : Engine L A S)

/-- Remember the state with which an activation leaves its scope, and hand it to the calls that
wait for it.  Items that hand over the exit of another activation are not remembered. -/
def recordExit (item : Item L A S) : Run L A S Unit := do
  if item.returned || item.pre.isBottom then
    pure ()
  else
    let layer := item.currentLayer
    let (change, exits) ← ask ((← get).exits.record e.domain e.options layer item.action
      item.pre item.predecessor)
    modify fun s => { s with exits := exits }
    match change with
    | none => pure ()
    | some change => do
      onlyIf change.first (change.exit.predecessor.forM retain)
      onlyIf change.widened do
        count fun n => { n with widenings := n.widenings + 1 }
        emit (.widenedExit layer change.exit.state)
      (exits.activation layer).calls.forM fun call => returnTo call layer change.exit

/-- The states after an item's action, by the domain. -/
def applyPost (item : Item L A S) (leaving : Bool) (fresh : Disjunction S) :
    Run L A S (Disjunction S) := do
  let width := e.options.maxParallelStates
  match leaving, item.beforeScope with
  | true, some before => do
    let post ← ask (fresh.postLeaving before e.domain item.action width)
    onlyIf (post.isBottom && !fresh.isBottom && !before.isBottom)
      (emit (.lostReturn item.action))
    return post
  | _, _ => ask (fresh.post e.domain item.action width)

/-- Ask for a second opinion on the states after an action. -/
def checkPost (item : Item L A S) (fresh post : Disjunction S) : Run L A S Unit := do
  match e.postCheck with
  | none => pure ()
  | some isSound =>
    if e.transitions.standsForCall item.action then
      pure ()
    else do
      emit (.checked item.action item.pre.states fresh.states post.states)
      if isSound item.pre.states fresh.states post.states item.action then
        pure ()
      else
        throw (.unsound item.action)

/-- Interpret an item's action. -/
def interpret (item : Item L A S) (leaving : Bool) : Run L A S (Disjunction S) := do
  let outer := item.beforeScope.bind Disjunction.collapse
  let fresh ← ask (item.pre.mapDisjuncts e.options.maxParallelStates fun s =>
    e.declarations.after item.action s (outer.getD s))
  let post ← e.applyPost item leaving fresh
  e.checkPost item fresh post
  return post

/-- Step over a call by a summary, which remembers the item that did so. -/
def applySummary (id : ItemId) (summary : SummaryRef A) : Run L A S (Disjunction S) := do
  match (← get).summaries.post? summary with
  | none => throw (.noSummary summary.call)
  | some post => do
    modify fun s => { s with summaries := s.summaries.addUse summary id }
    retain id
    count fun n => { n with summariesApplied := n.summariesApplied + 1 }
    return post

/-- The states after an item's action. -/
def postState (id : ItemId) (item : Item L A S) (leaving : Bool) :
    Run L A S (Disjunction S) :=
  match item.summary with
  | some summary => applySummary id summary
  | none => e.interpret item leaving

/-- Whether the states after an action add nothing to what is known.  For an action that enters a
scope, a fixpoint recorded for that scope has to cover them; for any other, the state stored at
its target. -/
def isCovered (item : Item L A S) (leaving : Bool) (post : Disjunction S) :
    Run L A S Bool := do
  let layers := (← get).layers
  if e.transitions.entersScope item.action then
    expect (layers.isScopeFixpoint item.currentLayer item.action post)
  else
    let layer := if leaving then item.callerLayer else item.currentLayer
    let stored ← expect (layers.state? layer (e.transitions.target item.action))
    return stored.any post.isSubset

/-- Drop a covered item.  A call waits for the returns of the activation that covers it. -/
def dropCovered (id : ItemId) (item : Item L A S) : Run L A S Unit := do
  emit (.covered item.action (e.transitions.target item.action))
  onlyIf (e.transitions.entersScope item.action)
    ((item.latestEntry item.action).forM fun entry => subscribe id entry.1)

/-! ## §5. Bookkeeping of scopes and loops. -/

/-- Leave the scope that an item's action leaves, and record the summary of the call that entered
it.  Also answers the items that used the summary before it grew. -/
def leaveScope (item : Item L A S) (leaving : Bool) (post : Disjunction S) :
    Run L A S (Item L A S × List ItemId) := do
  match leaving, item.leaveScope with
  | true, some ((call, before), outside) => do
    emit (.leftScope call)
    let (stale, summaries) :=
      (← get).summaries.record call before post e.options.maxParallelStates
    modify fun s => { s with summaries := summaries }
    return (outside, stale)
  | _, _ => return (item, [])

/-- Enter or leave the loop at the source of an item's action. -/
def trackLoop (item : Item L A S) : Run L A S (Item L A S) := do
  let source := e.transitions.source item.action
  if e.entersLoop item.action then
    let (counter, inside) := item.enterLoop source item.pre
    emit (.enteredLoop source (counter + 1))
    return inside
  else if item.currentLoopHead = some source then
    emit (.leftLoop source)
    return item.leaveLoop.2
  else
    return item

/-- Bring an item's scopes and loops up to date, which is done once for each item. -/
def bookkeep (id : ItemId) (item : Item L A S) (leaving : Bool) (post : Disjunction S) :
    Run L A S (Item L A S) := do
  let (outside, stale) ← e.leaveScope item leaving post
  let tracked ← e.trackLoop outside
  setItem id tracked
  stale.forM requeue
  return tracked

/-- Report an action that reaches an error location, the first time it does. -/
def reportError (id : ItemId) (action : A) (post : Disjunction S) : Run L A S Unit := do
  let target := e.transitions.target action
  let s ← get
  onlyIf (e.transitions.isError target && !s.reachedErrors.contains action) do
    modify fun s => { s with reachedErrors := s.reachedErrors ++ [action] }
    emit (.reachedError action target)
    let counterexample ← expect
      (Counterexample.ofItem s.items e.transitions.source e.transitions.target id post)
    modify fun s => { s with counterexamples := s.counterexamples ++ [counterexample] }

/-! ## §6. Widening. -/

/-- Widen at a loop head, if the loop was entered more often than allowed.  There is no result if
widening changed nothing. -/
def widenLoop (item : Item L A S) (post : Disjunction S) :
    Run L A S (Option (Disjunction S)) := do
  let target := e.transitions.target item.action
  match item.loopAt target with
  | none => return some post
  | some (counter, snapshot) =>
    if e.options.maxUnwindings < counter then do
      let widened ← ask (snapshot.widen post e.domain)
      count fun n => { n with widenings := n.widenings + 1 }
      emit (.widenedLoop target widened)
      if widened.isEquivalent snapshot then
        count fun n => { n with fixpoints := n.fixpoints + 1 }
        emit (.loopFixpoint target)
        return none
      else
        return some widened
    else
      return some post

/-- Widen the entry state of a call, if it would recurse deeper than allowed.  There is no result
if widening changed nothing; the call then waits for the returns of the activation that it was
widened against. -/
def widenEntry (id : ItemId) (item : Item L A S) (post : Disjunction S) :
    Run L A S (Option (Disjunction S)) := do
  if e.options.maxUnwindings < item.reentryDepth item.action then
    match item.latestEntry item.action with
    | none => return some post
    | some (activation, snapshot) => do
      let widened ← ask (snapshot.widen post e.domain)
      count fun n => { n with widenings := n.widenings + 1 }
      emit (.widenedEntry item.action widened)
      if widened.isEquivalent snapshot then
        count fun n => { n with fixpoints := n.fixpoints + 1 }
        emit (.scopeFixpoint item.action)
        let layers ← expect
          ((← get).layers.addScopeFixpoint item.currentLayer item.action snapshot)
        modify fun s => { s with layers := layers }
        subscribe id activation
        return none
      else
        return some widened
  else
    return some post

/-- Widen the states after an action where a loop or a recursion went on for too long. -/
def widen (id : ItemId) (item : Item L A S) (post : Disjunction S) :
    Run L A S (Option (Disjunction S)) :=
  if e.transitions.entersScope item.action then e.widenEntry id item post
  else e.widenLoop item post

/-! ## §7. Storing and going on. -/

/-- Enter the scope of an item's action, with a layer of its own. -/
def enterScope (id : ItemId) (item : Item L A S) (post : Disjunction S) :
    Run L A S (Item L A S) := do
  if e.transitions.entersScope item.action then
    let (layer, layers) ← expect ((← get).layers.create item.currentLayer)
    modify fun s => { s with layers := layers }
    let inside := item.enterScope item.action layer item.pre post
    setItem id inside
    count fun n => { n with scopeEntries := n.scopeEntries + 1 }
    emit (.enteredScope item.action layer)
    return inside
  else
    return item

/-- Merge the states after an action into those stored at its target.  Answers whether that
changed them. -/
def store (item : Item L A S) (post : Disjunction S) : Run L A S Bool := do
  let target := e.transitions.target item.action
  let layer := item.currentLayer
  let previous ← expect ((← get).layers.state? layer target)
  let (stored, layers) ← expect ((← get).layers.addState layer target post)
  modify fun s => { s with layers := layers }
  count fun n => { n with maxTrackedVariables := max n.maxTrackedVariables stored.tracked }
  match previous with
  | none => return true
  | some previous =>
    if stored.isEquivalent previous then
      emit (.unchanged item.action target)
      return false
    else
      count fun n => { n with merges := n.merges + 1 }
      return true

/-- The item for an action that follows.  Where summaries may be used, a call that is known for
these states is replaced by the action that stands for it. -/
def successorItem (id : ItemId) (item : Item L A S) (post : Disjunction S) (action : A) :
    Run L A S (Item L A S) := do
  let summaries := (← get).summaries
  let known :=
    if e.options.useSummaries && e.transitions.entersScope action then
      summaries.lookup action post
    else
      none
  match known, e.transitions.summaryOf action with
  | some summary, some standIn => do
    emit (.steppedOver action)
    return { Item.successor post standIn id item with summary := some summary }
  | _, _ => return .successor post action id item

/-- Put an item on the worklist for each action that follows.  Actions that stand for a call whose
body is analysed are left out. -/
def enqueueSuccessors (id : ItemId) (item : Item L A S) (post : Disjunction S) :
    Run L A S Unit := do
  let actions := (e.transitions.following item.action item.currentScope).filter fun action =>
    !e.transitions.standsForCall action
  let successors ← actions.mapM (e.successorItem id item post)
  successors.forM fun successor => do
    let successorId ← insert successor
    emit (.enqueued successorId id)
    enqueue successorId

/-- Propagate states that are neither bottom nor covered. -/
def propagate (id : ItemId) (item : Item L A S) (leaving : Bool) (post : Disjunction S) :
    Run L A S Unit := do
  let tracked ← e.bookkeep id item leaving post
  e.reportError id tracked.action post
  match ← e.widen id tracked post with
  | none => pure ()
  | some widened => do
    let inside ← e.enterScope id tracked widened
    if ← e.store inside widened then
      e.enqueueSuccessors id inside widened
    else
      pure ()

/-- Whether an item's action leaves the innermost scope. -/
def leaves (item : Item L A S) : Bool := e.transitions.leavesScope item.action item.currentScope

/-- Take up an item: remember the exit that it takes, if it leaves a scope, and interpret its
action. -/
def takeUp (id : ItemId) (item : Item L A S) : Run L A S (Disjunction S) := do
  emit (.taken id item.action)
  onlyIf (e.leaves item) (e.recordExit item)
  e.postState id item (e.leaves item)

/-- Process an item. -/
def process (id : ItemId) : Run L A S Unit := do
  let current ← item id
  let post ← e.takeUp id current
  if post.isBottom then
    emit (.infeasible current.action)
  else if ← e.isCovered current (e.leaves current) post then
    e.dropCovered id current
  else
    e.propagate id current (e.leaves current) post

/-! ## §8. The whole computation. -/

/-- Make an item for every action that leaves a start location. -/
def seed (starts : List L) : Run L A S Unit :=
  starts.forM fun location =>
    (e.transitions.actionsFrom location).forM fun action => do
      let state ← ask (e.declarations.initial action e.domain.fresh)
      let pre := Disjunction.single state
      let (_, layers) ← expect ((← get).layers.addState Layers.root location pre)
      modify fun s => { s with layers := layers }
      let id ← insert (.initial action pre Layers.root)
      emit (.seeded location id)
      enqueue id

/-- Take one item from the worklist and process it.  Answers whether there was one. -/
def iterate : Run L A S Bool := do
  let s ← get
  match s.worklist.pop with
  | none => return false
  | some (id, worklist) =>
    if e.timer.allows s.statistics.iterations then do
      modify fun s => { s with worklist := worklist }
      count fun n => { n with iterations := n.iterations + 1 }
      e.process id
      release id
      return true
    else do
      emit (.cancelled s.statistics.iterations)
      throw (.cancelled s.statistics.iterations)

/-- Take items until none is left, fewer than `budget` of them. -/
def drain : (budget : Nat) → Run L A S Unit
  | 0 => throw .exhausted
  | budget + 1 => do
    if ← e.iterate then drain budget else pure ()

/-- Compute a fixpoint from every action that leaves a start location. -/
def compute (budget : Nat) (starts : List L) : Run L A S (Answer L A S) := do
  if starts.isEmpty then
    throw .noStartLocations
  else
    e.seed starts
    e.drain budget
    let s ← get
    emit (.stillLive s.items.live)
    emit (.finished s.statistics s.layers.size s.counterexamples.length)
    return { layers := s.layers
             summaries := s.summaries
             counterexamples := s.counterexamples
             statistics := s.statistics }

/-- Compute a fixpoint.  The final state tells what was reported, also if there is no answer. -/
def run (budget : Nat) (starts : List L) :
    EStateM.Result (Halt A) (RunState L A S) (Answer L A S) :=
  e.compute budget starts (.start e.options)

end Engine

end Interproc
