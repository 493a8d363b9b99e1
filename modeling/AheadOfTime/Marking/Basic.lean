import AheadOfTime.Recorded

/-!
# Node systems

A marking starts from roots and follows edges.  Expanding a node yields edges that hold at once and
edges that hold when a further node, their condition, is marked too.  A dynamic node is also shown
the marked nodes and finds edges among them.  A `NodeSystem` says all this for one kind of node.
-/

set_option autoImplicit false

namespace AheadOfTime.Marking

/-- An edge to `target`. -/
structure Edge (N : Type) where
  /-- The node that becomes marked. -/
  target : N
  /-- Why the edge exists. -/
  label : String
deriving DecidableEq, Repr

/-- An edge to `target` that holds once `condition` is marked. -/
structure ConditionalEdge (N : Type) where
  /-- The node that becomes marked. -/
  target : N
  /-- The node whose marking releases the edge. -/
  condition : N
  /-- Why the edge exists. -/
  label : String
deriving DecidableEq, Repr

/-- The edges that expanding a node yields. -/
structure Expansion (N : Type) where
  /-- The edges that hold at once. -/
  edges : List (Edge N) := []
  /-- The edges that wait for their condition. -/
  conditional : List (ConditionalEdge N) := []
deriving DecidableEq, Repr

/-- Whether there are no edges. -/
def Expansion.isEmpty {N : Type} (e : Expansion N) : Bool :=
  e.edges.isEmpty && e.conditional.isEmpty

/-- The nodes of one kind: how they expand, and how they are treated.  Expansions and searches may
fail with an `ε` and are recorded in a state `σ`. -/
structure NodeSystem (N ε σ : Type) {ω : Type} [Recorder σ ω] where
  /-- The edges of a node. -/
  expand : N → Recorded σ (Except ε (Expansion N))
  /-- The edges that a dynamic node finds among newly marked nodes. -/
  search : N → List N → Recorded σ (Except ε (List (Edge N))) := fun _ _ => pure (.ok [])
  /-- Whether the node is expanded together with the other deferred ones. -/
  isDeferred : N → Bool := fun _ => false
  /-- Whether the node is shown the marked nodes. -/
  isDynamic : N → Bool := fun _ => false
  /-- Whether expanding the node asks the run to stop. -/
  requestsStop : N → Bool := fun _ => false

/-- Why a node was marked first; nodes are referred to by their position. -/
inductive Reason where
  /-- The node is a root. -/
  | root (label : String)
  /-- An edge of `source`. -/
  | edge (source : Nat) (label : String)
  /-- An edge of `source` that `condition` released. -/
  | conditional (source condition : Nat) (label : String)
  /-- An edge that the search of `source` found. -/
  | dynamic (source : Nat) (label : String)
deriving DecidableEq, Repr

namespace Reason

/-- The node whose edge it was; roots have none. -/
def source? : Reason → Option Nat
  | root _ => none
  | edge s _ => some s
  | conditional s _ _ => some s
  | dynamic s _ => some s

/-- The label of the edge or root. -/
def label : Reason → String
  | root l => l
  | edge _ l => l
  | conditional _ _ l => l
  | dynamic _ l => l

end Reason

/-- What happened during a run, in numbers. -/
structure Stats where
  /-- Nodes marked. -/
  marked : Nat := 0
  /-- Nodes expanded, with or without success. -/
  expanded : Nat := 0
  /-- Edges that expansions yielded. -/
  edges : Nat := 0
  /-- Conditional edges that expansions yielded. -/
  conditionalEdges : Nat := 0
  /-- Conditional edges released by their condition. -/
  releasedEdges : Nat := 0
  /-- Edges that searches found. -/
  dynamicEdges : Nat := 0
  /-- Batches of deferred nodes. -/
  deferredBatches : Nat := 0
  /-- Rounds begun. -/
  rounds : Nat := 0
  /-- Expansions and searches that failed. -/
  failures : Nat := 0
deriving DecidableEq, Repr

end AheadOfTime.Marking
