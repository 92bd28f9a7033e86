/-
  Interproc.Residue.ActionTable
  ─────────────────────────────
  Control-flow graphs written down as a table of named actions over named
  locations, with residue sets as states.  Scopes, loops and summaries are
  whatever the table says, so they need not fit together.
-/
import Interproc.Fixpoint.Report
import Interproc.Json.Document
import Interproc.Residue.Set

namespace Interproc

/-- One line of an action table. -/
structure ActionRow where
  name : String
  source : String
  target : String
  transfer : ResidueSet.Transfer := .identity
  /-- Whether the action enters a scope. -/
  enters : Bool := false
  /-- The actions whose scopes the action leaves, if it leaves any. -/
  leaves : Option (List String) := none
  /-- Whether the action stands for a call whose body is analysed. -/
  standsForCall : Bool := false
  /-- The action that stands for this call. -/
  summary : Option String := none
  /-- Whether the action enters a loop body. -/
  entersLoop : Bool := false
  /-- Whether the state before the scope flows into the variables of the action. -/
  mixes : Bool := false
  /-- The actions that follow, if they are not those from the target. -/
  next : Option (List String) := none

/-- A table of actions. -/
structure ActionTable where
  rows : List ActionRow
  /-- The locations that are errors. -/
  errors : List String := []
  /-- The state at the start, if it is not the fresh state. -/
  initial : Option ResidueSet := none
  widening : ResidueSet.Widening := .standard

namespace ActionTable

variable (t : ActionTable)

/-- The line of an action; an unknown action leads nowhere. -/
def row (name : String) : ActionRow :=
  (t.rows.find? fun r => r.name = name).getD { name := name, source := "", target := "" }

/-- The lines of the actions that leave a location. -/
def rowsFrom (location : String) : List ActionRow := t.rows.filter fun r => r.source = location

end ActionTable

/-- Whether the action of a line leaves the current scope. -/
def ActionRow.leavesScope (r : ActionRow) (scope : Option String) : Bool :=
  scope.any (r.leaves.getD []).contains

namespace ActionTable

variable (t : ActionTable)

/-- The control-flow graph of a table. -/
def transitions : Transitions String String where
  actionsFrom location := (t.rowsFrom location).map ActionRow.name
  source a := (t.row a).source
  target a := (t.row a).target
  following a scope :=
    match (t.row a).next with
    | some next => next
    | none =>
      ((t.rowsFrom (t.row a).target).filter fun r =>
        r.leaves.isNone || r.leavesScope scope).map ActionRow.name
  entersScope a := (t.row a).enters
  leavesScope a scope := (t.row a).leavesScope scope
  isError location := t.errors.contains location
  standsForCall a := (t.row a).standsForCall
  summaryOf a := (t.row a).summary

/-- The domain of a table. -/
def domain : Domain String ResidueSet :=
  ResidueSet.domain (fun a => (t.row a).transfer) t.widening

/-- The variables that come into scope in a table. -/
def declarations : Declarations String ResidueSet where
  initial _ s := .ok (t.initial.getD s)
  after a s before := .ok (if (t.row a).mixes then s.union before else s)

/-- All locations of a table, in order of appearance. -/
def locations : List String := t.rows.flatMap fun r => [r.source, r.target]

/-- The engine of a table. -/
def engine (options : Options) (timer : Timer)
    (postCheck : Option (PostCheck String ResidueSet)) : Engine String String ResidueSet where
  transitions := t.transitions
  domain := t.domain
  declarations := t.declarations
  entersLoop a := (t.row a).entersLoop
  options := options
  postCheck := postCheck
  timer := timer

/-- Compute with options from a document. -/
def run (options : Json.Value) (timer : Timer) (postCheck : Option (PostCheck String ResidueSet))
    (budget : Nat) (starts : List String) : Report String String ResidueSet :=
  match Json.optionsOf options with
  | .error cause => .ofError [] cause
  | .ok options => .ofResult [] ((t.engine options timer postCheck).run budget starts)

end ActionTable

end Interproc
