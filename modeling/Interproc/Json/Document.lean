/-
  Interproc.Json.Document
  ───────────────────────
  Which values are kept as JSON documents, and how.  Records are written as
  objects with their fields in a fixed order; alternatives without fields as their
  bare name, and those with fields as an object with the name as its only key.
-/
import Interproc.Digraph.NaturalLoop
import Interproc.Fixpoint.Ids
import Interproc.Fixpoint.Options
import Interproc.Fixpoint.Statistics
import Interproc.Json.Value
import Interproc.Program.Basic

namespace Interproc.Json

/-- Values that are kept as documents. -/
class Document (α : Type) where
  /-- The value of a document, if it has the right shape. -/
  read? : Value → Option α
  /-- The document of a value. -/
  write : α → String

/-- Read a value from text. -/
def ofText {α : Type} [Document α] (text : String) : Except Error α :=
  match (parse? text).bind Document.read? with
  | some value => .ok value
  | none => .error .malformedJson

/-- The document of a value. -/
def toText {α : Type} [Document α] (value : α) : String := Document.write value

/-! ## §1. Plain values. -/

instance : Document Nat := ⟨Value.nat?, toString⟩

instance : Document Bool := ⟨Value.bool?, fun b => if b then "true" else "false"⟩

instance : Document String := ⟨Value.text?, written⟩

instance {α : Type} [Document α] : Document (Option α) where
  read?
    | .null => some none
    | v => (Document.read? v).map some
  write
    | none => "null"
    | some value => toText value

instance : Document (SortedSet Nat) where
  read? v := do return .ofList (← (← v.items?).mapM Document.read?)
  write s := writtenArray (s.toList.map toText)

/-- A field that has to be given. -/
def field {α : Type} [Document α] (fields : Value.Fields) (name : String) : Option α :=
  (fields.get? name).bind Document.read?

/-- A field with a default. -/
def fieldD {α : Type} [Document α] (fields : Value.Fields) (name : String) (fallback : α) :
    Option α :=
  match fields.get? name with
  | none => some fallback
  | some v => Document.read? v

/-- A field that may be missing from an object, but not from a list of fields by position. -/
def optionalField {α : Type} [Document α] (fields : Value.Fields) (name : String) :
    Option (Option α) :=
  match fields.get? name with
  | none => if fields.positional then none else some none
  | some v => Document.read? v

/-! ## §2. Ids and counters. -/

instance : Document ItemId := ⟨fun v => v.nat?.map ItemId.mk, fun id => toText id.index⟩

instance : Document LayerId := ⟨fun v => v.nat?.map LayerId.mk, fun id => toText id.index⟩

instance : Document Statistics where
  read? v := do
    let fields ← v.record? ["iterations", "merges", "widenings", "fixpoints",
      "max_tracked_variables", "scope_entries", "summaries_applied"]
    return { iterations := ← field fields "iterations"
             merges := ← field fields "merges"
             widenings := ← field fields "widenings"
             fixpoints := ← field fields "fixpoints"
             maxTrackedVariables := ← field fields "max_tracked_variables"
             scopeEntries := ← field fields "scope_entries"
             summariesApplied := ← field fields "summaries_applied" }
  write s := writtenObject
    [("iterations", toText s.iterations), ("merges", toText s.merges),
      ("widenings", toText s.widenings), ("fixpoints", toText s.fixpoints),
      ("max_tracked_variables", toText s.maxTrackedVariables),
      ("scope_entries", toText s.scopeEntries),
      ("summaries_applied", toText s.summariesApplied)]

/-! ## §3. Options. -/

instance : Document Order where
  read? v := do
    let (name, payload) ← v.alternative?
    if Value.isPlain payload then Order.ofName? name else none
  write order := written order.name

/-- The document of options. -/
def writeOptions (o : Options) : String := writtenObject
  [(Limit.unwindings.name, toText o.maxUnwindings),
    (Limit.parallelStates.name, toText o.maxParallelStates),
    ("worklist_order", toText o.order), ("use_summaries", toText o.useSummaries)]

/-- Options as a document gives them, before their bounds are checked. -/
def readDraft? (v : Value) : Option (Nat × Nat × Order × Bool) := do
  let fields ← v.record? [Limit.unwindings.name, Limit.parallelStates.name, "worklist_order",
    "use_summaries"]
  return (← field fields Limit.unwindings.name, ← field fields Limit.parallelStates.name,
    ← fieldD fields "worklist_order" .fifo, ← fieldD fields "use_summaries" false)

/-- The options of a document.  Bounds that are zero are refused. -/
def optionsOf (v : Value) : Except Error Options :=
  match readDraft? v with
  | some (unwindings, parallelStates, order, useSummaries) =>
    Options.check unwindings parallelStates order useSummaries
  | none => .error .malformedJson

/-- Read options from text. -/
def readOptions (text : String) : Except Error Options :=
  match parse? text with
  | some v => optionsOf v
  | none => .error .malformedJson

/-! ## §4. Programs and loops. -/

instance : Document Node where
  read? v := do
    let fields ← v.record? ["index", "procedure", "error", "comment"]
    return { index := ← field fields "index"
             procedure := ← field fields "procedure"
             isError := ← field fields "error"
             comment := ← optionalField fields "comment" }
  write n := writtenObject
    [("index", toText n.index), ("procedure", toText n.procedure), ("error", toText n.isError),
      ("comment", toText n.comment)]

instance : Document Procedure where
  read? v := do
    let fields ← v.record? ["name", "entry", "exit"]
    return ⟨← field fields "name", ← field fields "entry", ← field fields "exit"⟩
  write p := writtenObject
    [("name", toText p.name), ("entry", toText p.entry), ("exit", toText p.exit)]

instance : Document Kind where
  read? v := do
    let (name, payload) ← v.alternative?
    match name, payload with
    | "Internal", payload => if Value.isPlain payload then some .internal else none
    | "Call", payload => if Value.isPlain payload then some .call else none
    | "Return", some v => do return .ret (← field (← v.record? ["call_site"]) "call_site")
    | "Summary", some v => do
      return .summary (← field (← v.record? ["has_implementation"]) "has_implementation")
    | _, _ => none
  write
    | .internal => written "Internal"
    | .call => written "Call"
    | .ret callSite =>
      writtenObject [("Return", writtenObject [("call_site", toText callSite)])]
    | .summary hasImplementation =>
      writtenObject
        [("Summary", writtenObject [("has_implementation", toText hasImplementation)])]

instance {T : Type} [Document T] : Document (Transition T) where
  read? v := do
    let fields ← v.record? ["head", "tail", "kind", "statement"]
    return ⟨← field fields "head", ← field fields "tail", ← field fields "kind",
      ← field fields "statement"⟩
  write t := writtenObject
    [("head", toText t.head), ("tail", toText t.tail), ("kind", toText t.kind),
      ("statement", toText t.statement)]

instance : Document NaturalLoop where
  read? v := do
    let fields ← v.record? ["header", "nodes"]
    return ⟨← field fields "header", ← field fields "nodes"⟩
  write l := writtenObject [("header", toText l.header), ("nodes", toText l.nodes)]

/-! ## §5. Graphs. -/

/-- A document keyed by the vertices of a graph. -/
def writeByVertex {α : Type} (write : α → String) (m : SortedMap Nat α) : String :=
  writtenObject (m.entries.map fun e => (toString e.1, write e.2))

/-- The document of a graph whose vertices carry a number each.  An edge has a pair for its key,
which no document can hold, so a graph with edges has no document. -/
def writeGraph {E : Type} (g : Digraph Nat E) : Except Error String :=
  if g.edges.entries.isEmpty then
    .ok (writtenObject
      [("vertices", writeByVertex (fun i => writtenObject [("index", toText i)]) g.vertices),
        ("edges", writtenObject []),
        ("successors", writeByVertex toText g.successors),
        ("predecessors", writeByVertex toText g.predecessors)])
  else .error .malformedJson

end Interproc.Json
