/-
  Interproc.Fixpoint.Timer
  ────────────────────────
  Timers that may stop a computation.  A timer is asked once before each item is
  taken; the first time it answers no, the computation is cancelled.
-/

namespace Interproc

/-- A timer: whether the computation may go on, given how often the timer was asked before. -/
structure Timer where
  allows : Nat → Bool

namespace Timer

/-- Never stops a computation. -/
def unbounded : Timer := ⟨fun _ => true⟩

/-- Stops a computation the first time it is asked. -/
def stopped : Timer := ⟨fun _ => false⟩

/-- Lets `n` items be taken. -/
def limited (n : Nat) : Timer := ⟨fun asked => asked < n⟩

/-- A deadline some seconds away, for a computation that takes no time to speak of. -/
def deadline (seconds : Nat) : Timer := if seconds = 0 then stopped else unbounded

end Timer

/-- Flags that cancel a computation.  A flag and its copies share one switch, so that cancelling
any of them cancels them all. -/
structure Flags where
  /-- The switch of each flag. -/
  switches : List Nat := [0]
  /-- The switches that were thrown. -/
  thrown : List Nat := []
  /-- The number of switches. -/
  count : Nat := 1
  deriving Repr, DecidableEq

namespace Flags

/-- A further flag with a switch of its own, and its number. -/
def create (f : Flags) : Nat × Flags :=
  (f.switches.length, { f with switches := f.switches ++ [f.count], count := f.count + 1 })

/-- The switch of flag `i`. -/
def switchOf (f : Flags) (i : Nat) : Nat := f.switches.getD i f.count

/-- A copy of flag `i`, and its number. -/
def copy (f : Flags) (i : Nat) : Nat × Flags :=
  (f.switches.length, { f with switches := f.switches ++ [f.switchOf i] })

/-- Throw the switch of flag `i`. -/
def cancel (f : Flags) (i : Nat) : Flags := { f with thrown := f.switchOf i :: f.thrown }

/-- Whether the switch of flag `i` was thrown. -/
def isCancelled (f : Flags) (i : Nat) : Bool := f.thrown.contains (f.switchOf i)

/-- The timer of flag `i`. -/
def timer (f : Flags) (i : Nat) : Timer := ⟨fun _ => !f.isCancelled i⟩

end Flags

end Interproc
