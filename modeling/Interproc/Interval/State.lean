/-
  Interproc.Interval.State
  ────────────────────────
  Abstract stores: an interval for each variable that is constrained.  A variable
  without an interval may hold any integer, and the bottom store none at all.
-/
import Interproc.Abstract.Domain
import Interproc.Collections.SortedMap
import Interproc.Interval.Basic

namespace Interproc

/-- An abstract store. -/
structure IntervalState where
  /-- Whether the store stands for no concrete store. -/
  bottom : Bool := false
  /-- The intervals of the constrained variables. -/
  intervals : SortedMap String Interval := .empty
  deriving DecidableEq

namespace IntervalState

/-- The store that constrains nothing. -/
def unconstrained : IntervalState := {}

/-- The store that stands for no concrete store. -/
def empty : IntervalState := { bottom := true }

/-- The interval of a variable. -/
def interval (s : IntervalState) (name : String) : Interval :=
  (s.intervals.find? name).getD .top

/-- Constrain a variable to an interval, in place of what was known of it.  An empty interval
leaves no store. -/
def setVariable (s : IntervalState) (name : String) (i : Interval) : IntervalState :=
  if i.isEmpty then empty
  else if s.bottom then s
  else { s with intervals := s.intervals.insert name i }

/-- Forget what is known of a variable. -/
def forget (s : IntervalState) (name : String) : IntervalState :=
  { s with intervals := s.intervals.erase name }

/-- Combine the intervals of the variables that both stores constrain, and forget the others. -/
def combine (f : Interval → Interval → Interval) (s t : IntervalState) : IntervalState :=
  { intervals := s.intervals.filterMap fun name i => (t.intervals.find? name).map (f i) }

/-- Whether every interval of `t` holds that of `s`. -/
def isSubset (s t : IntervalState) : Bool :=
  s.bottom ||
    (!t.bottom && t.intervals.entries.all fun e => (s.interval e.1).isSubset e.2)

/-- The least store above both. -/
def join (s t : IntervalState) : IntervalState :=
  if s.bottom then t
  else if t.bottom then s
  else combine .join s t

/-- Widen each interval of the older store by that of the newer one. -/
def widen (older newer : IntervalState) : IntervalState :=
  if older.bottom then newer
  else if newer.bottom then older
  else combine .widen older newer

instance : AbstractState IntervalState where
  isBottom s := s.bottom
  isBelow := isSubset
  join := join
  tracked s := s.intervals.size

instance : ToString IntervalState :=
  ⟨fun s =>
    if s.bottom then "⊥"
    else Text.braced (s.intervals.entries.map fun e => e.1 ++ "=" ++ toString e.2)⟩

instance : Inspect IntervalState :=
  ⟨fun s => Text.record "IntervalState"
    [("bottom", inspect s.bottom),
      ("variables",
        Text.braced (s.intervals.entries.map fun e => inspect e.1 ++ ": " ++ inspect e.2))]⟩

end IntervalState

end Interproc
