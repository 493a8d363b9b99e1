import AheadOfTime.Marking.Run
import AheadOfTime.Scan.Expand
import AheadOfTime.Scan.Root

/-!
# Scanning

A scan marks everything that can be reached from the roots.
-/

set_option autoImplicit false

namespace AheadOfTime

open Marking

/-- The graph of a scan. -/
abbrev NodeGraph := Marking.Graph Node Diagnostic

/-- The marking before it is run, and the nodes that must not fail. -/
structure Start where
  /-- The marking, with the roots marked. -/
  analysis : Analysis Node Diagnostic := {}
  /-- The nodes that must not fail. -/
  required : List Node := []

namespace Setting

variable (S : Setting)

/-- The nodes that must not fail if a root must not: the node itself and the shared code that it
runs on. -/
def requiredNodes (n : Node) : Tracked (List Node) := do
  match n with
  | .shadow m =>
    let owner ← S.codeOwner m
    pure [n, .code owner]
  | _ => pure [n]

/-- Adds a root.  An optional root that is not possible is left out. -/
def addRoot (start : Start) (root : Root) : Attempt Start := do
  match ← liftM (S.rootNodes root.kind).run, root.required with
  | .error error, true => throw error
  | .error _, false => pure start
  | .ok nodes, required =>
    let requiredNodes ← if required then nodes.mapM fun n => liftM (S.requiredNodes n) else pure []
    let analysis := nodes.foldl (fun a n => a.addRoot S.system n root.reason) start.analysis
    pure ⟨analysis, start.required ++ requiredNodes.flatten⟩

/-- Whether a failure makes everything fail. -/
def isDecisive (required : List Node) (f : Failure Node Diagnostic) : Bool :=
  f.error.isFatal || required.contains f.node

/-- Marks everything that can be reached from the roots; there is no answer if the fuel runs out.
With `cancelled`, the run can be stopped, and may have been asked to stop already. -/
def analyze (fuel : Nat) (roots : List Root) (cancelled : Option Bool) :
    Attempt (Option NodeGraph) := do
  let start : Start :=
    { analysis := { heedsStop := cancelled.isSome, stopRequested := cancelled.getD false } }
  let start ← roots.foldlM S.addRoot start
  match ← liftM (start.analysis.run S.system fuel) with
  | .exhausted => pure none
  | .cancelled _ => throw .cancelled
  | .finished analysis =>
    match analysis.graph.failures.find? (isDecisive start.required) with
    | some f => throw f.error
    | none => pure (some analysis.graph)

end Setting

/-- What a scan found. -/
structure Scan where
  /-- What was marked. -/
  graph : NodeGraph
  /-- The roots that the scan started from. -/
  roots : List Root

namespace Scan

/-- The types of which objects exist. -/
def constructedTypes (s : Scan) : List Ty :=
  s.graph.nodes.toList.filterMap fun
    | .constructed t => some t
    | _ => none

/-- The methods whose code is needed. -/
def compiledMethods (s : Scan) : List Method :=
  s.graph.nodes.toList.filterMap fun
    | .code m => some m
    | _ => none

/-- The slots that are called through. -/
def slots (s : Scan) : List Method :=
  s.graph.nodes.toList.filterMap fun
    | .slot m => some m
    | _ => none

/-- The number of marked nodes of each kind. -/
def counts (s : Scan) : List Nat :=
  Node.Kind.all.map fun k => s.graph.nodes.toList.countP (·.kind = k)

/-- What the scan tells about sealing. -/
def sealing (s : Scan) (P : Program) : Tracked Sealing :=
  .constructed <$> Constructed.ofTypes P s.constructedTypes

end Scan

/-- Scans a program: sealing is read off the declarations. -/
def Program.scan (P : Program) (fuel : Nat) (options : Options) (roots : List Root)
    (cancelled : Option Bool) : Attempt (Option Scan) := do
  let S : Setting := { program := P, options }
  let graph? ← S.analyze fuel roots cancelled
  pure (graph?.map fun graph => { graph, roots })

end AheadOfTime
