/-
  Interproc.Interval.Command
  ──────────────────────────
  Statements with more effects than most analyses meet: choices between several
  commands, refusals, and commands that look back at the store before a scope.
-/
import Interproc.Interval.Statement

namespace Interproc

/-- A statement, or something more intricate. -/
inductive Command where
  | basic (statement : Statement)
  /-- Any of several commands. -/
  | choice (branches : List Command)
  /-- Refuse to answer. -/
  | fail (reason : String)
  /-- Go on with the bottom store. -/
  | bottom
  /-- On leaving a scope, give variables the intervals they had before it. -/
  | restore (names : List String)
  deriving Repr

namespace Command

mutual

/-- Whether two commands are equal. -/
def decEq : (a b : Command) → Decidable (a = b)
  | .basic s, .basic t =>
    if h : s = t then isTrue (by rw [h]) else isFalse (by simpa using h)
  | .choice l, .choice m =>
    match decEqList l m with
    | isTrue h => isTrue (by rw [h])
    | isFalse h => isFalse (by simpa using h)
  | .fail r, .fail q =>
    if h : r = q then isTrue (by rw [h]) else isFalse (by simpa using h)
  | .bottom, .bottom => isTrue rfl
  | .restore l, .restore m =>
    if h : l = m then isTrue (by rw [h]) else isFalse (by simpa using h)
  | .basic _, .choice _ | .basic _, .fail _ | .basic _, .bottom | .basic _, .restore _
  | .choice _, .basic _ | .choice _, .fail _ | .choice _, .bottom | .choice _, .restore _
  | .fail _, .basic _ | .fail _, .choice _ | .fail _, .bottom | .fail _, .restore _
  | .bottom, .basic _ | .bottom, .choice _ | .bottom, .fail _ | .bottom, .restore _
  | .restore _, .basic _ | .restore _, .choice _ | .restore _, .fail _ | .restore _, .bottom =>
    isFalse (by simp)

/-- Whether two lists of commands are equal. -/
def decEqList : (l m : List Command) → Decidable (l = m)
  | [], [] => isTrue rfl
  | a :: l, b :: m =>
    match decEq a b with
    | isTrue ha =>
      match decEqList l m with
      | isTrue hl => isTrue (by rw [ha, hl])
      | isFalse hl => isFalse (by simp [hl])
    | isFalse ha => isFalse (by simp [ha])
  | [], _ :: _ | _ :: _, [] => isFalse (by simp)

end

instance : DecidableEq Command := decEq

mutual

/-- The detailed text of a command. -/
def describe : Command → String
  | .basic statement => inspect statement
  | .choice branches => Text.applied "Choice" [Text.bracketed (describeAll branches)]
  | .fail reason => Text.applied "Fail" [inspect reason]
  | .bottom => "Bottom"
  | .restore names => Text.applied "Restore" [inspect names]

/-- The detailed texts of several commands. -/
def describeAll : List Command → List String
  | [] => []
  | c :: rest => describe c :: describeAll rest

end

instance : Inspect Command := ⟨describe⟩

mutual

/-- The stores after a command, given the store before the scope that it leaves, if it leaves
one. -/
def post (s : IntervalState) (before : Option IntervalState) :
    Command → Except Error (List IntervalState)
  | .basic statement => .ok (s.post statement)
  | .choice branches => postAll s before branches
  | .fail reason => .error (.domain reason)
  | .bottom => .ok [.empty]
  | .restore names =>
    match before with
    | none => .ok [s]
    | some outer =>
      .ok [names.foldl (fun t name => t.setVariable name (outer.interval name)) s]

/-- The stores after each of several commands, in order. -/
def postAll (s : IntervalState) (before : Option IntervalState) :
    List Command → Except Error (List IntervalState)
  | [] => .ok []
  | c :: rest => do return (← post s before c) ++ (← postAll s before rest)

end

/-- The domain of abstract stores over commands. -/
def domain : Domain (Transition Command) IntervalState where
  fresh := .unconstrained
  post s t := t.statement.post s none
  postLeaving s before t := t.statement.post s (some before)
  widen older newer := .ok (older.widen newer)

end Command

end Interproc
