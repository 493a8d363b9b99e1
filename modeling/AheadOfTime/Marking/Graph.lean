import AheadOfTime.Marking.Basic
import AheadOfTime.Roster
import AheadOfTime.Dot

/-!
# Marked graphs

The outcome of a marking: the marked nodes in marking order, the reason for which each was marked
first, and what failed.  The reasons form a forest whose trees hang from the roots; `toDot` draws
it.
-/

set_option autoImplicit false

namespace AheadOfTime.Marking

/-- A node whose expansion or search failed. -/
structure Failure (N ε : Type) where
  /-- The position of the node. -/
  id : Nat
  /-- The node. -/
  node : N
  /-- What went wrong. -/
  error : ε
deriving DecidableEq, Repr

/-- The marked nodes and why they are marked. -/
structure Graph (N ε : Type) [BEq N] [LawfulBEq N] [Hashable N] where
  /-- The marked nodes, in marking order. -/
  nodes : Roster N := .empty
  /-- The first reason of each node, in marking order. -/
  reasons : Array Reason := #[]
  /-- The failures, in order. -/
  failures : Array (Failure N ε) := #[]
  /-- The counters. -/
  stats : Stats := {}

namespace Graph

variable {N ε : Type} [BEq N] [LawfulBEq N] [Hashable N]

/-- The number of marked nodes. -/
def size (g : Graph N ε) : Nat :=
  g.nodes.size

/-- Whether a node is marked. -/
def isMarked (g : Graph N ε) (n : N) : Bool :=
  g.nodes.contains n

/-- The position of a marked node. -/
def position? (g : Graph N ε) (n : N) : Option Nat :=
  g.nodes.position? n

/-- The graph with one more marked node, for a node that is not marked yet. -/
def enter (g : Graph N ε) (n : N) (r : Reason) : Graph N ε :=
  { g with
    nodes := g.nodes.insert n
    reasons := g.reasons.push r
    stats := { g.stats with marked := g.stats.marked + 1 } }

/-- Why a node was marked first. -/
def reason? (g : Graph N ε) (n : N) : Option Reason :=
  (g.position? n).bind (g.reasons[·]?)

/-- The marked nodes with their reasons, in marking order. -/
def entries (g : Graph N ε) : List (N × Reason) :=
  g.nodes.toList.zip g.reasons.toList

/-- Whether the node at a position has failed. -/
def hasFailed (g : Graph N ε) (id : Nat) : Bool :=
  g.failures.any (·.id == id)

/-- The nodes marked from position `start` on. -/
def since (g : Graph N ε) (start : Nat) : List N :=
  (g.nodes.items.extract start g.size).toList

/-- The chain of first reasons from a position back to a root, at most `fuel` long. -/
def pathFrom (g : Graph N ε) : Nat → Nat → List (N × String)
  | 0, _ => []
  | fuel + 1, id =>
    match g.nodes.get? id, g.reasons[id]? with
    | some n, some r =>
      (n, r.label) :: match r.source? with
        | some source => g.pathFrom fuel source
        | none => []
    | _, _ => []

/-- The chain of first reasons from a marked node back to a root, each node with the label of the
edge that marked it.  Reasons refer to earlier nodes, so a chain has no more nodes than the graph.
-/
def pathToRoot? (g : Graph N ε) (n : N) : Option (List (N × String)) :=
  (g.position? n).map (g.pathFrom g.size)

/-- The written form of a position. -/
def nodeName (id : Nat) : String :=
  "n" ++ Nat.repr id

/-- How the node at a position is drawn. -/
def nodeStyle (g : Graph N ε) (id : Nat) : Reason → String
  | .root _ => ", style=bold"
  | _ => if g.hasFailed id then ", color=red" else ""

/-- How an edge is drawn. -/
def edgeStyle : Reason → String
  | .conditional _ _ _ => ", style=dashed"
  | .dynamic _ _ => ", style=dotted"
  | _ => ""

/-- The statement that draws a node. -/
def nodeLine (g : Graph N ε) (label : N → String) (id : Nat) (n : N) (r : Reason) : String :=
  "  " ++ nodeName id ++ " [label=\"" ++ Dot.escape (label n) ++ "\"" ++ g.nodeStyle id r ++ "];\n"

/-- The statement that draws the edge to a node; roots have none. -/
def edgeLine (id : Nat) (r : Reason) : String :=
  match r.source? with
  | none => ""
  | some source =>
    "  " ++ nodeName source ++ " -> " ++ nodeName id ++
      " [label=\"" ++ Dot.escape r.label ++ "\"" ++ edgeStyle r ++ "];\n"

/-- The forest of first reasons as Graphviz text: one statement for each node, then one for each
node that is no root. -/
def toDot (g : Graph N ε) (name : String) (label : N → String) : String :=
  let entries := g.entries.zipIdx
  "digraph \"" ++ Dot.escape name ++ "\" \x7b\n" ++
    "  node [shape=box, fontname=\"monospace\"];\n" ++
    String.join (entries.map fun ((n, r), id) => g.nodeLine label id n r) ++
    String.join (entries.map fun ((_, r), id) => edgeLine id r) ++
    "\x7d\n"

end Graph

end AheadOfTime.Marking
