import AheadOfTime.Marking.Graph

/-!
# Running a marking

A run works in rounds.  A round first expands the nodes that are waiting to be expanded, one after
the other.  Then, if there are deferred nodes, it expands all of them and the next round begins;
otherwise it shows every dynamic node what has been marked since it last looked, and the run is
finished when this marks nothing new.  The graph may be infinite, so a run is given fuel; with
enough of it, the outcome does not depend on how much.
-/

set_option autoImplicit false

namespace AheadOfTime.Marking

/-- A conditional edge whose condition is not yet marked. -/
structure Waiting (N : Type) where
  /-- The node that will become marked. -/
  target : N
  /-- The position of the node whose edge it is. -/
  source : Nat
  /-- Why the edge exists. -/
  label : String
deriving DecidableEq, Repr

/-- The state of a marking. -/
structure Analysis (N ε : Type) [BEq N] [LawfulBEq N] [Hashable N] where
  /-- What has been marked. -/
  graph : Graph N ε := {}
  /-- Nodes before this position are expanded, except for deferred ones. -/
  expanded : Nat := 0
  /-- Deferred nodes before this position are expanded. -/
  batched : Nat := 0
  /-- The positions of the dynamic nodes, in order. -/
  dynamic : Array Nat := #[]
  /-- Dynamic nodes before this position have been shown the nodes before it; the others have been
  shown nothing. -/
  shown : Nat := 0
  /-- The conditional edges that wait for each condition, newest first. -/
  waiting : Std.HashMap N (List (Waiting N)) := ∅
  /-- Whether the run heeds a request to stop. -/
  heedsStop : Bool := false
  /-- Whether the run was asked to stop. -/
  stopRequested : Bool := false

namespace Analysis

variable {N ε σ ω : Type} [BEq N] [LawfulBEq N] [Hashable N] [Recorder σ ω]

/-- Changes the counters. -/
def count (s : Analysis N ε) (f : Stats → Stats) : Analysis N ε :=
  { s with graph := { s.graph with stats := f s.graph.stats } }

/-- Enters a node that is not marked yet. -/
def enter (sys : NodeSystem N ε σ) (s : Analysis N ε) (n : N) (r : Reason) : Analysis N ε :=
  let s := if sys.isDynamic n then { s with dynamic := s.dynamic.push s.graph.size } else s
  { s with graph := s.graph.enter n r }

/-- Entering a node leaves the waiting edges as they are. -/
@[simp] theorem waiting_enter (sys : NodeSystem N ε σ) (s : Analysis N ε) (n : N) (r : Reason) :
    (s.enter sys n r).waiting = s.waiting := by
  unfold enter
  split <;> rfl

/-- The edges that wait for a node, newest first. -/
def waitingFor (s : Analysis N ε) (n : N) : List (Waiting N) :=
  s.waiting[n]?.getD []

/-- The state without the edges that wait for a node. -/
def release (s : Analysis N ε) (n : N) : Analysis N ε :=
  let released := (s.waitingFor n).length
  { s with waiting := s.waiting.erase n }.count fun c =>
    { c with releasedEdges := c.releasedEdges + released }

/-- Once they are released, no edges wait for a node any more. -/
@[simp] theorem waiting_release (s : Analysis N ε) (n : N) :
    (s.release n).waiting = s.waiting.erase n := rfl

/-- Either edges wait for a node, and after they are released edges wait for fewer nodes; or no edge
waits for it. -/
theorem size_release (s : Analysis N ε) (n : N) :
    (s.release n).waiting.size < s.waiting.size ∨
      (s.release n).waiting.size = s.waiting.size ∧ s.waitingFor n = [] := by
  rw [waiting_release, Std.HashMap.size_erase]
  by_cases h : n ∈ s.waiting
  · have hne := Std.HashMap.isEmpty_eq_false_iff_exists_mem.2 ⟨n, h⟩
    rw [Std.HashMap.isEmpty_eq_size_eq_zero, beq_eq_false_iff_ne] at hne
    left
    rw [if_pos h]
    omega
  · right
    rw [if_neg h, waitingFor, Std.HashMap.getElem?_eq_none h]
    exact ⟨rfl, rfl⟩

/-- Marks the nodes of a stack, topmost first.  Marking a node puts the targets that waited for it
on top of the stack, the edge that waited for the shortest time uppermost. -/
def markAll (sys : NodeSystem N ε σ) (s : Analysis N ε) : List (N × Reason) → Analysis N ε
  | [] => s
  | (n, r) :: rest =>
    if s.graph.isMarked n then s.markAll sys rest
    else
      let id := s.graph.size
      let released := s.waitingFor n
      ((s.release n).enter sys n r).markAll sys
        (released.map (fun w => (w.target, .conditional w.source id w.label)) ++ rest)
  termination_by stack => (s.waiting.size, stack.length)
  decreasing_by
    · exact Prod.Lex.right _ (by simp)
    · rw [waiting_enter]
      rcases s.size_release n with h | ⟨h, hn⟩
      · exact Prod.Lex.left _ _ h
      · rw [h, hn]
        exact Prod.Lex.right _ (by simp)

/-- Marks a node, unless it is marked already. -/
def mark (sys : NodeSystem N ε σ) (s : Analysis N ε) (n : N) (r : Reason) : Analysis N ε :=
  s.markAll sys [(n, r)]

/-- Marks a root. -/
def addRoot (sys : NodeSystem N ε σ) (s : Analysis N ε) (n : N) (label : String) : Analysis N ε :=
  s.mark sys n (.root label)

/-- Takes note of a conditional edge of the node at `source`.  If its condition is marked, so
becomes its target; otherwise it waits, unless its target is marked already. -/
def addConditional (sys : NodeSystem N ε σ) (source : Nat) (s : Analysis N ε)
    (e : ConditionalEdge N) : Analysis N ε :=
  match s.graph.position? e.condition with
  | some condition =>
    (s.count fun c => { c with releasedEdges := c.releasedEdges + 1 }).mark sys e.target
      (.conditional source condition e.label)
  | none =>
    if s.graph.isMarked e.target then s
    else
      let others := s.waitingFor e.condition
      { s with waiting := s.waiting.insert e.condition (⟨e.target, source, e.label⟩ :: others) }

/-- Records that the node at a position failed. -/
def fail (s : Analysis N ε) (id : Nat) (error : ε) : Analysis N ε :=
  match s.graph.nodes.get? id with
  | none => s
  | some n =>
    { s with graph := { s.graph with
        failures := s.graph.failures.push ⟨id, n, error⟩
        stats := { s.graph.stats with failures := s.graph.stats.failures + 1 } } }

/-- Follows the edges of the node at a position. -/
def apply (sys : NodeSystem N ε σ) (s : Analysis N ε) (id : Nat) :
    Except ε (Expansion N) → Analysis N ε
  | .error error => (s.count fun c => { c with expanded := c.expanded + 1 }).fail id error
  | .ok expansion =>
    let s := s.count fun c => { c with
      expanded := c.expanded + 1
      edges := c.edges + expansion.edges.length
      conditionalEdges := c.conditionalEdges + expansion.conditional.length }
    let s := expansion.edges.foldl (fun s e => s.mark sys e.target (.edge id e.label)) s
    expansion.conditional.foldl (addConditional sys id) s

/-- Expands a node, which is at the given position. -/
def expandNode (sys : NodeSystem N ε σ) (s : Analysis N ε) (id : Nat) (n : N) :
    Recorded σ (Analysis N ε) := do
  let s := { s with stopRequested := s.stopRequested || sys.requestsStop n }
  let expansion ← sys.expand n
  pure (s.apply sys id expansion)

/-- Expands the nodes that are not deferred, in the order in which they were marked, until none is
left; `none` if the fuel runs out. -/
def drain (sys : NodeSystem N ε σ) : Nat → Analysis N ε → Recorded σ (Option (Analysis N ε))
  | fuel, s =>
    let id := s.expanded
    match s.graph.nodes.get? id with
    | none => pure (some s)
    | some n =>
      match fuel with
      | 0 => pure none
      | fuel + 1 =>
        let s := { s with expanded := id + 1 }
        if sys.isDeferred n then drain sys fuel s
        else do
          let s ← s.expandNode sys id n
          drain sys fuel s

/-- The deferred nodes that are not expanded yet, with their positions. -/
def pending (sys : NodeSystem N ε σ) (s : Analysis N ε) : List (Nat × N) :=
  ((s.graph.since s.batched).zipIdx s.batched).filterMap fun (n, id) =>
    if sys.isDeferred n then some (id, n) else none

/-- Expands a batch of deferred nodes. -/
def expandBatch (sys : NodeSystem N ε σ) (s : Analysis N ε) (batch : List (Nat × N)) :
    Recorded σ (Analysis N ε) :=
  let s := s.count fun c => { c with deferredBatches := c.deferredBatches + 1 }
  batch.foldlM (fun s node => s.expandNode sys node.1 node.2) s

/-- The position from which on the dynamic node at a position has seen nothing. -/
def seen (s : Analysis N ε) (id : Nat) : Nat :=
  if id < s.shown then s.shown else 0

/-- Shows the dynamic node at a position what it has not seen yet; there is no answer if that is
nothing, or if the node has failed. -/
def look (sys : NodeSystem N ε σ) (s : Analysis N ε) (id : Nat) :
    Recorded σ (Option (Except ε (List (Edge N)))) :=
  let seen := s.seen id
  if seen = s.graph.size || s.graph.hasFailed id then pure none
  else
    match s.graph.nodes.get? id with
    | none => pure none
    | some n => some <$> sys.search n (s.graph.since seen)

/-- Follows the edges that the search of the node at a position found. -/
def applySearch (sys : NodeSystem N ε σ) (s : Analysis N ε) (id : Nat) (found : List (Edge N)) :
    Analysis N ε :=
  let s := s.count fun c => { c with dynamicEdges := c.dynamicEdges + found.length }
  found.foldl (fun s e => s.mark sys e.target (.dynamic id e.label)) s

/-- Takes note of what the dynamic nodes found; failures are recorded before any edge is followed.
-/
def applyAnswers (sys : NodeSystem N ε σ) (s : Analysis N ε)
    (answers : List (Nat × Option (Except ε (List (Edge N))))) : Analysis N ε :=
  let s := answers.foldl (fun s a => match a.2 with
    | some (.error error) => s.fail a.1 error
    | _ => s) { s with shown := s.graph.size }
  answers.foldl (fun s a => match a.2 with
    | some (.ok found) => s.applySearch sys a.1 found
    | _ => s) s

/-- Shows every dynamic node what has been marked since it last looked.  All of them look before
any edge is followed. -/
def searchAll (sys : NodeSystem N ε σ) (s : Analysis N ε) : Recorded σ (Analysis N ε) := do
  let answers ← s.dynamic.toList.mapM fun id => do
    let answer ← look sys s id
    pure (id, answer)
  pure (s.applyAnswers sys answers)

/-- How a run ended. -/
inductive Outcome (N ε : Type) [BEq N] [LawfulBEq N] [Hashable N] where
  /-- Nothing is left to mark. -/
  | finished (s : Analysis N ε)
  /-- The run was asked to stop. -/
  | cancelled (s : Analysis N ε)
  /-- The fuel ran out. -/
  | exhausted

/-- Runs a marking.  A request to stop takes effect between two rounds. -/
def run (sys : NodeSystem N ε σ) : Nat → Analysis N ε → Recorded σ (Outcome N ε)
  | 0, _ => pure .exhausted
  | fuel + 1, s =>
    if s.heedsStop && s.stopRequested then pure (.cancelled s)
    else do
      match ← drain sys fuel (s.count fun c => { c with rounds := c.rounds + 1 }) with
      | none => pure .exhausted
      | some s =>
        let size := s.graph.size
        let batch := s.pending sys
        let s := { s with batched := size }
        if batch.isEmpty then
          let s ← s.searchAll sys
          if s.graph.size > size then run sys fuel s else pure (.finished s)
        else
          let s ← s.expandBatch sys batch
          run sys fuel s

end Analysis

end AheadOfTime.Marking
