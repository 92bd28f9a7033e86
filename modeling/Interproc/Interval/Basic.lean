/-
  Interproc.Interval.Basic
  ────────────────────────
  Intervals of integers with 64-bit ends.  The least and the greatest end stand
  for the infinities, and arithmetic that would pass them stays there.
-/
import Interproc.Text.Inspect

namespace Interproc

/-- An interval of integers, ends included.  It is empty if its ends are out of order. -/
structure Interval where
  lo : Int64
  hi : Int64
  deriving Repr, DecidableEq

namespace Interval

/-- The end that stands for minus infinity. -/
def negInfinity : Int64 := Int64.minValue

/-- The end that stands for plus infinity. -/
def posInfinity : Int64 := Int64.maxValue

/-- The sum of two ends, held at the infinities. -/
def saturatingAdd (a b : Int64) : Int64 := Int64.ofIntClamp (a.toInt + b.toInt)

/-- The difference of two ends, held at the infinities. -/
def saturatingSub (a b : Int64) : Int64 := Int64.ofIntClamp (a.toInt - b.toInt)

/-- All integers. -/
def top : Interval := ⟨negInfinity, posInfinity⟩

/-- A single integer. -/
def constant (k : Int64) : Interval := ⟨k, k⟩

/-- Whether the interval holds no integer. -/
def isEmpty (i : Interval) : Bool := i.hi < i.lo

/-- Whether the ends of `i` lie between those of `j`. -/
def isSubset (i j : Interval) : Bool := j.lo ≤ i.lo && i.hi ≤ j.hi

/-- The least interval around both. -/
def join (i j : Interval) : Interval := ⟨min i.lo j.lo, max i.hi j.hi⟩

/-- What is common to both. -/
def meet (i j : Interval) : Interval := ⟨max i.lo j.lo, min i.hi j.hi⟩

/-- Move each end that the newer interval passes to infinity. -/
def widen (older newer : Interval) : Interval where
  lo := if newer.lo < older.lo then negInfinity else older.lo
  hi := if older.hi < newer.hi then posInfinity else older.hi

/-- Move both ends by `k`.  Infinite ends stay where they are. -/
def add (i : Interval) (k : Int64) : Interval where
  lo := if i.lo = negInfinity then negInfinity else saturatingAdd i.lo k
  hi := if i.hi = posInfinity then posInfinity else saturatingAdd i.hi k

end Interval

instance : Inspect Int64 := ⟨fun k => toString k.toInt⟩

instance : Inspect Interval :=
  ⟨fun i => Text.record "Interval" [("lo", inspect i.lo), ("hi", inspect i.hi)]⟩

instance : ToString Interval := ⟨fun i => Text.bracketed [inspect i.lo, inspect i.hi]⟩

end Interproc
