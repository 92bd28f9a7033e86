/-
  Interproc.Fixpoint.Statistics
  ─────────────────────────────
  Counters kept while a fixpoint is computed.
-/

namespace Interproc

/-- Counters of a computation. -/
structure Statistics where
  /-- Items taken from the worklist. -/
  iterations : Nat := 0
  /-- Times a state changed one that was already stored. -/
  merges : Nat := 0
  widenings : Nat := 0
  /-- Widenings that did not change the state widened against. -/
  fixpoints : Nat := 0
  /-- The largest number of variables that a stored disjunct says something about. -/
  maxTrackedVariables : Nat := 0
  scopeEntries : Nat := 0
  /-- Calls stepped over by a summary. -/
  summariesApplied : Nat := 0
  deriving Repr, DecidableEq

instance : ToString Statistics :=
  ⟨fun s =>
    "iterations=" ++ toString s.iterations ++ " merges=" ++ toString s.merges ++
    " widenings=" ++ toString s.widenings ++ " fixpoints=" ++ toString s.fixpoints ++
    " max_tracked_variables=" ++ toString s.maxTrackedVariables⟩

end Interproc
