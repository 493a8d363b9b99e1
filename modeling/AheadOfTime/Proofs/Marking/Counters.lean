import AheadOfTime.Proofs.Marking.Once

/-!
# What the counters of a run say

The counters of a marking are kept while edges are followed: conditional edges are counted when they
are yielded, and once more when they are released, be it at once or after they have waited.  In the
end the counters can be read off the marked nodes and the journal.  The one exception are
conditional edges whose target is marked when they are taken note of, and whose condition is not:
these are dropped, and nobody counts them should their condition be marked later (`Note.isDropped`).

Whatever is done to a marking comes down to a few moves (`Log.Move`).  So what each move keeps holds
after any sequence of runs.
-/

set_option autoImplicit false

namespace AheadOfTime.Marking

variable {N ε σ ω : Type} [BEq N] [LawfulBEq N] [Hashable N] [Recorder σ ω] [Inhabited σ]

/-! ## What there is to count -/

namespace NodeSystem

/-- The edges that expanding a node yields; there are none if it fails. -/
def expansionOf (sys : NodeSystem N ε σ) (n : N) : Expansion N :=
  (sys.expand n).value.toOption.getD {}

omit [BEq N] [LawfulBEq N] [Hashable N] in
/-- A node that expands yields its edges. -/
theorem expansionOf_ok (sys : NodeSystem N ε σ) {n : N} {x : Expansion N}
    (h : (sys.expand n).value = .ok x) : sys.expansionOf n = x := by
  rw [expansionOf, h]
  rfl

omit [BEq N] [LawfulBEq N] [Hashable N] in
/-- A node that fails yields no edges. -/
theorem expansionOf_error (sys : NodeSystem N ε σ) {n : N} {error : ε}
    (h : (sys.expand n).value = .error error) : sys.expansionOf n = {} := by
  rw [expansionOf, h]
  rfl

/-- The edges that a search found. -/
def foundBy (sys : NodeSystem N ε σ) : Event N → List (Edge N)
  | .search n shown => (sys.search n shown).value.toOption.getD []
  | _ => []

end NodeSystem

/-- A conditional edge that is taken note of. -/
structure Note (N : Type) where
  /-- The edge. -/
  edge : ConditionalEdge N
  /-- The nodes that are marked when its turn comes. -/
  marked : List N

/-- The edge need not wait, since its target is marked, and it is not released either, since its
condition is not. -/
def Note.isDropped (t : Note N) : Bool :=
  !t.marked.contains t.edge.condition && t.marked.contains t.edge.target

/-- The edge is not dropped and is released by a node that has a property. -/
def Note.releasedBy (p : N → Bool) (t : Note N) : Bool :=
  p t.edge.condition && !t.isDropped

/-- Conditional edges of the node at `source`, taken note of one after the other. -/
def Analysis.notesOf (sys : NodeSystem N ε σ) (source : Nat) :
    Analysis N ε → List (ConditionalEdge N) → List (Note N)
  | _, [] => []
  | s, e :: rest => ⟨e, s.nodes⟩ :: notesOf sys source (s.addConditional sys source e) rest

/-- The conditional edges that are taken note of when a node is expanded, which is at the given
position. -/
def Analysis.notesAt (sys : NodeSystem N ε σ) (s : Analysis N ε) (id : Nat) (n : N) :
    List (Note N) :=
  notesOf sys id ((sys.expansionOf n).edges.foldl
    (fun s e => s.mark sys e.target (.edge id e.label)) s) (sys.expansionOf n).conditional

/-- The conditional edges that are taken note of at an event. -/
def Analysis.notesOn (sys : NodeSystem N ε σ) (s : Analysis N ε) : Event N → List (Note N)
  | .expand n => s.notesAt sys ((s.graph.position? n).getD 0) n
  | _ => []

/-- The conditional edges that are taken note of when events are replayed from a state. -/
def Analysis.notesFrom (sys : NodeSystem N ε σ) : Analysis N ε → List (Event N) → List (Note N)
  | _, [] => []
  | s, e :: rest => s.notesOn sys e ++ notesFrom sys (s.redo sys e) rest

/-- All conditional edges that were taken note of, in order. -/
def notes (sys : NodeSystem N ε σ) (events : List (Event N)) : List (Note N) :=
  Analysis.notesFrom sys {} events

section Views

variable {sys : NodeSystem N ε σ} {events : List (Event N)}

/-- At a further event, the conditional edges that it brings are taken note of last. -/
theorem notes_concat (sys : NodeSystem N ε σ) (events : List (Event N)) (e : Event N) :
    notes sys (events ++ [e]) = notes sys events ++ (replay sys events).notesOn sys e := by
  have hfrom : ∀ s : Analysis N ε, Analysis.notesFrom sys s (events ++ [e]) =
      Analysis.notesFrom sys s events ++ (events.foldl (Analysis.redo sys) s).notesOn sys e := by
    induction events with
    | nil => exact fun s => List.append_nil _
    | cons e' events ih =>
      intro s
      rw [List.cons_append, Analysis.notesFrom, Analysis.notesFrom, ih, List.append_assoc]
      rfl
  exact hfrom {}

omit [Inhabited σ] in
/-- Every conditional edge is taken note of, in order. -/
theorem Analysis.map_edge_notesOf (sys : NodeSystem N ε σ) (source : Nat) (s : Analysis N ε)
    (l : List (ConditionalEdge N)) : (notesOf sys source s l).map (·.edge) = l := by
  induction l generalizing s with
  | nil => rfl
  | cons e l ih => rw [notesOf, List.map_cons, ih]

omit [BEq N] [LawfulBEq N] [Hashable N] in
/-- The expansions of joined journals are joined. -/
theorem expansions_concat (events : List (Event N)) (e : Event N) :
    expansions (events ++ [e]) = expansions events ++ expansions [e] :=
  List.filterMap_append

/-- Each conditional edge of an expanded node is taken note of once. -/
theorem map_edge_notes (sys : NodeSystem N ε σ) (events : List (Event N)) :
    (notes sys events).map (·.edge) =
      (expansions events).flatMap fun n => (sys.expansionOf n).conditional := by
  induction events using List.reverseRecOn with
  | nil => rfl
  | append_singleton events e ih =>
    rw [notes_concat, expansions_concat, List.map_append, ih, List.flatMap_append]
    congr 1
    cases e with
    | expand n =>
      simp only [Analysis.notesOn, Analysis.notesAt, Analysis.map_edge_notesOf]
      exact (List.append_nil _).symm
    | _ => rfl

end Views

omit [Inhabited σ] in
/-- States with the same marks take note of conditional edges in the same way. -/
theorem Analysis.SameMarks.notesOf_eq (sys : NodeSystem N ε σ) (source : Nat) {s t : Analysis N ε}
    (h : s.SameMarks t) (l : List (ConditionalEdge N)) :
    Analysis.notesOf sys source s l = Analysis.notesOf sys source t l := by
  induction l generalizing s t with
  | nil => rfl
  | cons e l ih =>
    rw [Analysis.notesOf, Analysis.notesOf, h.toList, ih (h.addConditional sys source e)]

/-- What is taken note of depends on the marks only. -/
theorem Analysis.SameMarks.notesAt_eq (sys : NodeSystem N ε σ) {s t : Analysis N ε}
    (h : s.SameMarks t) (id : Nat) (n : N) : s.notesAt sys id n = t.notesAt sys id n :=
  (foldl (fun e h => h.mark sys e.target (.edge id e.label)) _ h).notesOf_eq sys id _

/-! ## Moves -/

namespace Log

/-- The moves that everything comes down to that happens to a marking. -/
inductive Move (sys : NodeSystem N ε σ) : Log N ε → Log N ε → Prop
  /-- A root is added. -/
  | root (l : Log N ε) (n : N) (label : String) :
      Move sys l ⟨l.analysis.addRoot sys n label, l.events.push (.root n label)⟩
  /-- A marked node is expanded. -/
  | expand (l : Log N ε) {i : Nat} {n : N} :
      l.analysis.nodes[i]? = some n →
      Move sys l ⟨(l.analysis.expandNode sys i n).value, l.events.push (.expand n)⟩
  /-- All dynamic nodes look. -/
  | search (l : Log N ε) :
      Move sys l ⟨(l.analysis.searchAll sys).value,
        Recorder.noteAll l.events (l.analysis.dynamic.toList.filterMap l.analysis.searchAt?)⟩
  /-- Cursors are moved, and requests to stop are made or withdrawn. -/
  | aside (l : Log N ε) (expanded batched : Nat) (heeds asked : Bool) :
      Move sys l { l with
        analysis := { l.analysis with
          expanded, batched, heedsStop := heeds, stopRequested := asked } }
  /-- Rounds and batches are counted. -/
  | tick (l : Log N ε) (rounds batches : Nat) :
      Move sys l { l with
        analysis := l.analysis.count fun c => { c with rounds, deferredBatches := batches } }

/-- What moves lead to. -/
def Moves (sys : NodeSystem N ε σ) : Log N ε → Log N ε → Prop :=
  Relation.ReflTransGen (Move sys)

variable {sys : NodeSystem N ε σ} {l l' : Log N ε} {s s' : Analysis N ε} {events : Array (Event N)}

/-- Passing a node is a move if it is expanded, and no move if it is deferred. -/
theorem moves_passNext {n : N} (hn : s.nodes[s.expanded]? = some n) :
    Moves sys ⟨s, events⟩
      ⟨s.passNext sys n, if sys.isDeferred n then events else events.push (.expand n)⟩ := by
  have hpass : Moves sys ⟨s, events⟩ ⟨{ s with expanded := s.expanded + 1 }, events⟩ :=
    .single (.aside ⟨s, events⟩ (s.expanded + 1) s.batched s.heedsStop s.stopRequested)
  unfold Analysis.passNext
  split
  · exact hpass
  · exact hpass.tail (.expand ⟨{ s with expanded := s.expanded + 1 }, events⟩ hn)

/-- Draining the queue comes down to moves. -/
theorem moves_drain (events : Array (Event N)) {fuel : Nat}
    (hdrain : (Analysis.drain sys fuel s).value = some s') :
    Moves sys ⟨s, events⟩ ⟨s', ((Analysis.drain sys.journaled fuel s).run events).2⟩ := by
  induction fuel generalizing s events with
  | zero =>
    cases hn : s.nodes[s.expanded]? with
    | none =>
      rw [Analysis.value_drain_of_none 0 hn] at hdrain
      rw [Analysis.run_drain_journaled_of_none sys hn, Option.some.inj hdrain]
      exact .refl
    | some n =>
      rw [Analysis.value_drain_zero hn] at hdrain
      cases hdrain
  | succ fuel ih =>
    cases hn : s.nodes[s.expanded]? with
    | none =>
      rw [Analysis.value_drain_of_none _ hn] at hdrain
      rw [Analysis.run_drain_journaled_of_none sys hn, Option.some.inj hdrain]
      exact .refl
    | some n =>
      rw [Analysis.value_drain_succ fuel hn] at hdrain
      rw [Analysis.run_drain_journaled_succ sys hn]
      exact (moves_passNext hn).trans (ih _ hdrain)

/-- Nodes are expanded one after the other. -/
theorem moves_expandAll {batch : List (Nat × N)} (hbatch : ∀ p ∈ batch, s.nodes[p.1]? = some p.2) :
    Moves sys ⟨s, events⟩ ⟨batch.foldl (fun s p => (s.expandNode sys p.1 p.2).value) s,
      Recorder.noteAll events (batch.map fun p => .expand p.2)⟩ := by
  induction batch generalizing s events with
  | nil => exact .refl
  | cons p batch ih =>
    have hp := hbatch p List.mem_cons_self
    refine .head (.expand ⟨s, events⟩ hp) (ih fun q hq => ?_)
    exact (Analysis.expandNode_spec sys s hp).1.getElem? (hbatch q (List.mem_cons_of_mem _ hq))

/-- A round comes down to moves. -/
theorem moves_round (events : Array (Event N)) {fuel : Nat} {more : Bool}
    (hround : s.round sys fuel = some (more, s')) :
    Moves sys ⟨s, events⟩ ⟨s', ((Analysis.recordedRound sys.journaled fuel s).run events).2⟩ := by
  obtain ⟨s₁, hdrain, hs'⟩ := Option.map_eq_some_iff.1 hround
  have hmoves := moves_drain events hdrain
  rw [Analysis.recordedRound, Recorded.run_bind, Analysis.fst_run_drain_journaled, hdrain]
  generalize ((Analysis.drain sys.journaled fuel _).run events).2 = events₁ at hmoves
  have hstart : Moves sys ⟨s, events⟩
      ⟨s.count fun c => { c with rounds := c.rounds + 1 }, events⟩ :=
    .single (.tick ⟨s, events⟩ (s.graph.stats.rounds + 1) s.graph.stats.deferredBatches)
  have hbatch : Moves sys ⟨s, events⟩ ⟨{ s₁ with batched := s₁.graph.size }, events₁⟩ :=
    (hstart.trans hmoves).tail
      (.aside ⟨s₁, events₁⟩ s₁.expanded s₁.graph.size s₁.heedsStop s₁.stopRequested)
  have hpending : s₁.pending sys.journaled = s₁.pending sys := rfl
  dsimp only
  rw [hpending]
  cases hempty : (s₁.pending sys).isEmpty with
  | true =>
    rw [hempty, if_pos rfl] at hs'
    cases hs'
    simp only [if_true, Recorded.run_bind, Recorded.run_pure, Analysis.run_searchAll_journaled]
    exact hbatch.tail (.search _)
  | false =>
    rw [hempty, if_neg Bool.false_ne_true] at hs'
    cases hs'
    simp only [Bool.false_eq_true, if_false, Recorded.run_bind, Recorded.run_pure,
      Analysis.run_expandBatch_journaled]
    rw [Analysis.expandBatch, Recorded.value_foldlM]
    refine (hbatch.tail (.tick _ _ (s₁.graph.stats.deferredBatches + 1))).trans
      (moves_expandAll fun p hp => ?_)
    exact (Analysis.mem_pending.1 hp).1

/-- A run that ends comes down to moves. -/
theorem moves_run (events : Array (Event N)) {fuel : Nat}
    (hrun : (Analysis.run sys fuel s).value = .finished s' ∨
      (Analysis.run sys fuel s).value = .cancelled s') :
    Moves sys ⟨s, events⟩ ⟨s', ((Analysis.run sys.journaled fuel s).run events).2⟩ := by
  induction fuel generalizing s events with
  | zero => rcases hrun with hrun | hrun <;> cases hrun
  | succ fuel ih =>
    rw [Analysis.value_run_eq_round] at hrun
    rw [Analysis.run_eq_recordedRound]
    by_cases hstop : (s.heedsStop && s.stopRequested) = true
    · rw [if_pos hstop] at hrun ⊢
      rcases hrun with hrun | hrun <;> cases hrun
      exact .refl
    · have hanswer := Analysis.fst_run_recordedRound_journaled sys fuel s events
      rw [if_neg hstop] at hrun ⊢
      rw [Recorded.run_bind, hanswer]
      cases hs : s.round sys fuel with
      | none =>
        rw [hs] at hrun
        rcases hrun with hrun | hrun <;> cases hrun
      | some p =>
        obtain ⟨more, s₁⟩ := p
        have hround := moves_round events hs
        rw [hs] at hrun
        cases more with
        | true => exact hround.trans (ih _ hrun)
        | false =>
          rcases hrun with hrun | hrun <;> cases hrun
          exact hround

/-- A step of the marking comes down to moves. -/
theorem moves_of_step (hstep : Step sys l l') : Moves sys l l' := by
  cases hstep with
  | addRoot n label => exact .single (.root l n label)
  | run fuel hrun => exact moves_run l.events hrun
  | round fuel hround => exact moves_round l.events hround
  | signal heeds asked =>
    exact .single (.aside l l.analysis.expanded l.analysis.batched heeds asked)

/-- Whatever can happen to a marking comes down to moves. -/
theorem moves_of_leads (h : Leads sys l l') : Moves sys l l' := by
  induction h with
  | refl => exact .refl
  | tail _ hstep ih => exact ih.trans (moves_of_step hstep)

end Log

/-! ## Marks -/

namespace Analysis

variable {sys : NodeSystem N ε σ} {s s' t : Analysis N ε} {i : Nat} {n : N}

/-- In states with the same marks, nodes have the same positions. -/
theorem SameMarks.position?_eq_some (h : t.SameMarks s) (hn : s.nodes[i]? = some n) :
    t.graph.position? n = some i := by
  rw [Graph.position?, h.nodes]
  exact (s.graph.nodes.position?_eq_some_iff n i).2 (s.get?_nodes i ▸ hn)

/-- All searches over one list of nodes are answers that are followed one after the other. -/
theorem value_searchAll_eq (sys : NodeSystem N ε σ) (s : Analysis N ε) :
    (s.searchAll sys).value =
      (s.dynamic.toList.map fun id => (id, (look sys s id).value)).foldl (followAnswer sys)
        (s.recordSearches sys) := by
  rw [value_searchAll, applyAnswers_eq]
  rfl

end Analysis

namespace Log

variable {sys : NodeSystem N ε σ} {l l' : Log N ε}

/-- The marks of a state are those that its journal leads to. -/
def Marks (sys : NodeSystem N ε σ) (l : Log N ε) : Prop :=
  (replay sys l.events.toList).SameMarks l.analysis

/-- A move keeps the marks as the journal tells them. -/
theorem Marks.move (h : l.Marks sys) (hmove : Move sys l l') : l'.Marks sys := by
  unfold Marks at h ⊢
  cases hmove with
  | root n label =>
    rw [Array.toList_push, replay_append]
    exact h.mark sys n _
  | @expand i n hn =>
    have hmarks : (replay sys l.events.toList).SameMarks { l.analysis with
      stopRequested := l.analysis.stopRequested || sys.requestsStop n } := ⟨h.nodes, h.waiting⟩
    rw [Array.toList_push, replay_append, Analysis.value_expandNode]
    show ((replay sys l.events.toList).apply sys _ _).SameMarks _
    rw [h.position?_eq_some hn]
    exact hmarks.apply sys i _
  | search =>
    obtain ⟨-, hnodes, -, hmarks⟩ := Analysis.recordSearches_spec sys l.analysis
    rw [toList_noteAll, replay_append, Analysis.value_searchAll_eq]
    exact (h.trans hmarks).searches sys l.analysis _ (hnodes ▸ List.prefix_rfl)
  | aside expanded batched heeds asked => exact ⟨h.nodes, h.waiting⟩
  | tick rounds batches => exact ⟨h.nodes, h.waiting⟩

end Log

/-! ## Edges and failures -/

/-- The counters other than those of marked nodes and of released edges. -/
def Stats.withoutMarks (c : Stats) : Stats :=
  { c with marked := 0, releasedEdges := 0 }

namespace Analysis

variable {sys : NodeSystem N ε σ} {s s' : Analysis N ε} {events : List (Event N)} {n : N}

omit [Inhabited σ] in
/-- Entering a node counts it and the edges that it releases. -/
theorem stats_enter_release (sys : NodeSystem N ε σ) (s : Analysis N ε) (n : N) (r : Reason) :
    ((s.release n).enter sys n r).graph.stats = { s.graph.stats with
      marked := s.graph.stats.marked + 1
      releasedEdges := s.graph.stats.releasedEdges + (s.waitingFor n).length } := by
  unfold enter
  split <;> rfl

/-- What leaves the other counters alone at each item leaves them alone along a list. -/
theorem withoutMarks_foldl {α : Type} {f : Analysis N ε → α → Analysis N ε}
    (hf : ∀ s a, (f s a).graph.stats.withoutMarks = s.graph.stats.withoutMarks) (l : List α)
    (s : Analysis N ε) : (l.foldl f s).graph.stats.withoutMarks = s.graph.stats.withoutMarks := by
  induction l generalizing s with
  | nil => rfl
  | cons a l ih => exact (ih (f s a)).trans (hf s a)

section Following

omit [Inhabited σ]

variable (sys : NodeSystem N ε σ) (s : Analysis N ε)

/-- Marking nodes changes the counters of marked nodes and released edges only. -/
theorem withoutMarks_markAll (stack : List (N × Reason)) :
    (s.markAll sys stack).graph.stats.withoutMarks = s.graph.stats.withoutMarks := by
  fun_induction markAll sys s stack with
  | case1 s => rfl
  | case2 s n r rest hn ih => exact ih
  | case3 s n r rest hn id released ih =>
    rw [ih, stats_enter_release]
    rfl

/-- Taking note of a conditional edge changes the counters of marked nodes and released edges only. -/
theorem withoutMarks_addConditional (source : Nat) (e : ConditionalEdge N) :
    (s.addConditional sys source e).graph.stats.withoutMarks = s.graph.stats.withoutMarks := by
  unfold addConditional
  split
  · exact withoutMarks_markAll sys _ _
  · split <;> rfl

/-- Following the edges of a node counts them before anything is marked. -/
theorem withoutMarks_apply_ok (id : Nat) (x : Expansion N) :
    (s.apply sys id (.ok x)).graph.stats.withoutMarks = Stats.withoutMarks
      { s.graph.stats with
        expanded := s.graph.stats.expanded + 1
        edges := s.graph.stats.edges + x.edges.length
        conditionalEdges := s.graph.stats.conditionalEdges + x.conditional.length } := by
  unfold apply
  refine (withoutMarks_foldl (fun s e => withoutMarks_addConditional sys s id e) _ _).trans ?_
  exact withoutMarks_foldl (fun s _ => withoutMarks_markAll sys s _) _ _

/-- Following what a search found counts the edges that were found. -/
theorem withoutMarks_applySearch (id : Nat) (found : List (Edge N)) :
    (s.applySearch sys id found).graph.stats.withoutMarks = Stats.withoutMarks
      { s.graph.stats with dynamicEdges := s.graph.stats.dynamicEdges + found.length } :=
  withoutMarks_foldl (fun s _ => withoutMarks_markAll sys s _) found _

end Following

/-- The counters of edges and failures are right. -/
structure Counted (sys : NodeSystem N ε σ) (events : List (Event N)) (s : Analysis N ε) : Prop where
  expanded : s.graph.stats.expanded = (expansions events).length
  edges : s.graph.stats.edges =
    ((expansions events).flatMap fun n => (sys.expansionOf n).edges).length
  conditionalEdges : s.graph.stats.conditionalEdges =
    ((expansions events).flatMap fun n => (sys.expansionOf n).conditional).length
  dynamicEdges : s.graph.stats.dynamicEdges = (events.flatMap sys.foundBy).length
  failures : s.graph.stats.failures = s.failures.length

namespace Counted

/-- Whether the counters are right depends on them and on the failures. -/
theorem of_eq (h : Counted sys events s)
    (hstats : s'.graph.stats.withoutMarks = s.graph.stats.withoutMarks)
    (hfailures : s'.failures = s.failures) : Counted sys events s' where
  expanded := (congrArg Stats.expanded hstats).trans h.expanded
  edges := (congrArg Stats.edges hstats).trans h.edges
  conditionalEdges := (congrArg Stats.conditionalEdges hstats).trans h.conditionalEdges
  dynamicEdges := (congrArg Stats.dynamicEdges hstats).trans h.dynamicEdges
  failures := hfailures.symm ▸ (congrArg Stats.failures hstats).trans h.failures

/-- A failure is counted as it is recorded. -/
theorem fail (h : Counted sys events s) (id : Nat) (error : ε) :
    Counted sys events (s.fail id error) := by
  unfold Analysis.fail
  split
  · exact h
  · refine ⟨h.expanded, h.edges, h.conditionalEdges, h.dynamicEdges, ?_⟩
    show s.graph.stats.failures + 1 = (s.graph.failures.push _).toList.length
    rw [Array.toList_push, List.length_append, h.failures]
    rfl

/-- An event by which no edge comes to light is not counted. -/
theorem skip (h : Counted sys events s) {e : Event N} (hexpansions : expansions [e] = [])
    (hfound : sys.foundBy e = []) : Counted sys (events ++ [e]) s := by
  have hflatMap : (events ++ [e]).flatMap sys.foundBy = events.flatMap sys.foundBy := by
    rw [List.flatMap_append, List.flatMap_singleton, hfound, List.append_nil]
  refine ⟨?_, ?_, ?_, hflatMap ▸ h.dynamicEdges, h.failures⟩ <;>
    rw [expansions_concat, hexpansions, List.append_nil]
  · exact h.expanded
  · exact h.edges
  · exact h.conditionalEdges

/-- An expansion is counted, with the edges that it yields. -/
theorem expand (h : Counted sys events s) (n : N) :
    Counted sys (events ++ [.expand n]) (s.count fun c => { c with
      expanded := c.expanded + 1
      edges := c.edges + (sys.expansionOf n).edges.length
      conditionalEdges := c.conditionalEdges + (sys.expansionOf n).conditional.length }) := by
  have hexpansions : expansions (events ++ [.expand n]) = expansions events ++ [n] :=
    expansions_concat events _
  have hfound : (events ++ [Event.expand n]).flatMap sys.foundBy = events.flatMap sys.foundBy := by
    rw [List.flatMap_append]
    exact List.append_nil _
  refine ⟨?_, ?_, ?_, hfound.symm ▸ h.dynamicEdges, h.failures⟩
  · show s.graph.stats.expanded + 1 = _
    simp [hexpansions, h.expanded]
  · show s.graph.stats.edges + _ = _
    simp [hexpansions, h.edges]
  · show s.graph.stats.conditionalEdges + _ = _
    simp [hexpansions, h.conditionalEdges]

/-- Expanding a node counts it with its edges, or its failure. -/
theorem apply (h : Counted sys events s) (id : Nat) (n : N) :
    Counted sys (events ++ [.expand n]) (s.apply sys id (sys.expand n).value) := by
  have hexpand := h.expand n
  cases hx : (sys.expand n).value with
  | ok x =>
    rw [sys.expansionOf_ok hx] at hexpand
    exact hexpand.of_eq (withoutMarks_apply_ok sys s id x)
      ((KeptByMarking.failures sys s.failures).apply_ok rfl id x)
  | error error =>
    rw [sys.expansionOf_error hx] at hexpand
    exact hexpand.fail id error

/-- The edges that a search found are counted. -/
theorem search (h : Counted sys events s) {n : N} {shown : List N} {found : List (Edge N)}
    (hfound : (sys.search n shown).value = .ok found) :
    Counted sys (events ++ [.search n shown])
      (s.count fun c => { c with dynamicEdges := c.dynamicEdges + found.length }) := by
  have hexpansions : expansions (events ++ [.search n shown]) = expansions events := by
    rw [expansions_concat]
    exact List.append_nil _
  have hevent : sys.foundBy (.search n shown) = found := by
    rw [NodeSystem.foundBy, hfound]
    rfl
  refine ⟨hexpansions.symm ▸ h.expanded, hexpansions.symm ▸ h.edges,
    hexpansions.symm ▸ h.conditionalEdges, ?_, h.failures⟩
  show s.graph.stats.dynamicEdges + found.length = _
  simp [hevent, h.dynamicEdges]

/-- Following what a round of searches found counts what the searches that are entered found. -/
theorem searches (h : Counted sys events s') (s : Analysis N ε) (ids : List Nat) :
    Counted sys (events ++ ids.filterMap s.searchAt?)
      ((ids.map fun id => (id, (look sys s id).value)).foldl (followAnswer sys) s') := by
  induction ids generalizing events s' with
  | nil => exact (List.append_nil events).symm ▸ h
  | cons i ids ih =>
    rw [List.map_cons, List.foldl_cons]
    cases hsearch : s.searchAt? i with
    | none =>
      rw [List.filterMap_cons_none hsearch, value_look_eq_none sys hsearch]
      exact ih h
    | some e =>
      obtain ⟨n, hn, -, -, rfl⟩ := searchAt?_eq_some.1 hsearch
      rw [List.filterMap_cons_some hsearch, (value_look_eq_some hn).2 ⟨hsearch, rfl⟩,
        ← List.singleton_append, ← List.append_assoc]
      refine ih ?_
      cases hfound : (sys.search n (s.nodes.drop (s.seen i))).value with
      | ok found =>
        exact (h.search hfound).of_eq (withoutMarks_applySearch sys s' i found)
          ((KeptByMarking.failures sys s'.failures).applySearch rfl i found)
      | error error =>
        refine h.skip rfl ?_
        rw [NodeSystem.foundBy, hfound]
        rfl

/-- All searches over one list of nodes count what they find. -/
theorem searchAll (h : Counted sys events s) :
    Counted sys (events ++ s.dynamic.toList.filterMap s.searchAt?) (s.searchAll sys).value := by
  have hrecord : Counted sys events (s.recordSearches sys) := by
    refine List.foldlRecOn _ recordAnswer ?_ fun t ht a _ => ?_
    · exact ⟨h.expanded, h.edges, h.conditionalEdges, h.dynamicEdges, h.failures⟩
    · unfold recordAnswer
      split
      · exact ht.fail _ _
      · exact ht
  rw [value_searchAll_eq]
  exact hrecord.searches s _

end Counted

end Analysis

namespace Log

variable {sys : NodeSystem N ε σ} {l l' : Log N ε}

/-- A move keeps the counters of edges and failures right. -/
theorem counted_move (h : l.analysis.Counted sys l.events.toList) (hmove : Move sys l l') :
    l'.analysis.Counted sys l'.events.toList := by
  cases hmove with
  | root n label =>
    rw [Array.toList_push]
    exact (h.of_eq (Analysis.withoutMarks_markAll sys _ [(n, .root label)])
      ((Analysis.KeptByMarking.failures sys _).markAll rfl _)).skip rfl rfl
  | @expand i n hn =>
    have hasked : Analysis.Counted sys l.events.toList { l.analysis with
        stopRequested := l.analysis.stopRequested || sys.requestsStop n } := h.of_eq rfl rfl
    rw [Array.toList_push, Analysis.value_expandNode]
    exact hasked.apply i n
  | search =>
    rw [toList_noteAll]
    exact h.searchAll
  | aside expanded batched heeds asked => exact h.of_eq rfl rfl
  | tick rounds batches =>
    exact ⟨h.expanded, h.edges, h.conditionalEdges, h.dynamicEdges, h.failures⟩

end Log

/-! ## Marked nodes and released edges -/

omit [Hashable N] in
/-- When one more node is marked, the edges are released that wait for it. -/
theorem countP_releasedBy_or {p : N → Bool} {n : N} (hn : p n = false) (l : List (Note N)) :
    l.countP (·.releasedBy fun m => p m || m == n) =
      l.countP (·.releasedBy p) + l.countP (·.releasedBy (· == n)) := by
  induction l with
  | nil => rfl
  | cons t l ih =>
    have hnote : (if t.releasedBy (fun m => p m || m == n) then 1 else 0) =
        (if t.releasedBy p then 1 else 0) + if t.releasedBy (· == n) then 1 else 0 := by
      unfold Note.releasedBy
      cases hcondition : t.edge.condition == n with
      | false => simp [hcondition]
      | true => simp [eq_of_beq hcondition, hn]
    rw [List.countP_cons, List.countP_cons, List.countP_cons, ih, hnote]
    omega

namespace Analysis

variable {sys : NodeSystem N ε σ} {s s' : Analysis N ε} {l : List (Note N)} {n : N}

/-- Each conditional edge that was taken note of is dropped, or it waits until its condition is
marked, or it is counted as released. -/
structure Balanced (l : List (Note N)) (s : Analysis N ε) : Prop where
  marked : s.graph.stats.marked = s.nodes.length
  waiting : ∀ c ∉ s.nodes, (s.waitingFor c).length = l.countP (·.releasedBy (· == c))
  released : s.graph.stats.releasedEdges = l.countP (·.releasedBy s.graph.isMarked)

namespace Balanced

/-- In a fresh state there is nothing to account for. -/
theorem fresh : Balanced [] ({} : Analysis N ε) :=
  ⟨rfl, fun c _ => by simp [waitingFor], rfl⟩

/-- Nothing but marks, waiting edges and two counters matters. -/
theorem of_eq (h : Balanced l s) (hmarks : s.SameMarks s')
    (hmarked : s'.graph.stats.marked = s.graph.stats.marked)
    (hreleased : s'.graph.stats.releasedEdges = s.graph.stats.releasedEdges) : Balanced l s' where
  marked := by rw [hmarked, h.marked, hmarks.toList]
  waiting c hc := by rw [← hmarks.waitingFor, h.waiting c (hmarks.toList ▸ hc)]
  released := by rw [hreleased, h.released, funext hmarks.isMarked]

omit [Inhabited σ] in
/-- Entering a node releases exactly the edges that waited for it. -/
theorem enter_release (h : Balanced l s) (hn : n ∉ s.nodes) (r : Reason) :
    Balanced l ((s.release n).enter sys n r) := by
  have hnodes : ((s.release n).enter sys n r).nodes = s.nodes ++ [n] :=
    nodes_enter sys (s.release n) n r hn
  have hunmarked : s.graph.isMarked n = false := by
    rw [Bool.eq_false_iff, Ne, s.isMarked_iff]
    exact hn
  have hisMarked : ((s.release n).enter sys n r).graph.isMarked =
      fun m => s.graph.isMarked m || m == n := by
    funext m
    rw [Bool.eq_iff_iff, isMarked_iff, hnodes, Bool.or_eq_true, s.isMarked_iff]
    simp
  refine ⟨?_, fun c hc => ?_, ?_⟩
  · rw [stats_enter_release, hnodes, List.length_append, ← h.marked]
    rfl
  · rw [hnodes, List.mem_append, List.mem_singleton, not_or] at hc
    rw [waitingFor_enter, waitingFor_release, if_neg (by simpa using Ne.symm hc.2)]
    exact h.waiting c hc.1
  · rw [stats_enter_release, hisMarked, countP_releasedBy_or hunmarked, ← h.released,
      ← h.waiting n hn]

omit [Inhabited σ] in
/-- Marking nodes keeps the account of conditional edges. -/
theorem markAll (h : Balanced l s) (sys : NodeSystem N ε σ) (stack : List (N × Reason)) :
    Balanced l (s.markAll sys stack) := by
  fun_induction Analysis.markAll sys s stack with
  | case1 s => exact h
  | case2 s n r rest hn ih => exact ih h
  | case3 s n r rest hn id released ih =>
    exact ih (h.enter_release (by rwa [s.isMarked_iff] at hn) r)

omit [Inhabited σ] in
/-- Marking the targets of edges keeps the account of conditional edges. -/
theorem markEdges (h : Balanced l s) (sys : NodeSystem N ε σ) (reason : Edge N → Reason)
    (edges : List (Edge N)) :
    Balanced l (edges.foldl (fun s e => s.mark sys e.target (reason e)) s) :=
  List.foldlRecOn edges _ h fun _ hs _ _ => hs.markAll sys _

/-- A failure keeps the account of conditional edges. -/
theorem fail (h : Balanced l s) (id : Nat) (error : ε) : Balanced l (s.fail id error) := by
  refine h.of_eq (.fail s id error) ?_ ?_
  all_goals
    unfold Analysis.fail
    split <;> rfl

/-- An edge is released whose condition is marked. -/
theorem release (h : Balanced l s) {t : Note N} (hdropped : t.isDropped = false)
    (hcondition : t.edge.condition ∈ s.nodes) :
    Balanced (l ++ [t]) (s.count fun c => { c with releasedEdges := c.releasedEdges + 1 }) := by
  have hmarked : t.releasedBy s.graph.isMarked = true := by
    rw [Note.releasedBy, (s.isMarked_iff _).2 hcondition, hdropped]
    rfl
  refine ⟨h.marked, fun c hc => ?_, ?_⟩
  · have hother : t.releasedBy (· == c) = false := by
      rw [Note.releasedBy, beq_eq_false_iff_ne.2 (ne_of_mem_of_not_mem hcondition hc)]
      rfl
    rw [List.countP_append, List.countP_singleton, hother]
    exact h.waiting c hc
  · show s.graph.stats.releasedEdges + 1 = (l ++ [t]).countP (·.releasedBy s.graph.isMarked)
    rw [List.countP_append, List.countP_singleton, hmarked, h.released]
    rfl

/-- An edge is dropped. -/
theorem drop (h : Balanced l s) {t : Note N} (hdropped : t.isDropped = true) :
    Balanced (l ++ [t]) s := by
  have hnever : ∀ p : N → Bool, (l ++ [t]).countP (·.releasedBy p) = l.countP (·.releasedBy p) := by
    intro p
    rw [List.countP_append, List.countP_singleton, Note.releasedBy, hdropped]
    simp
  exact ⟨h.marked, fun c hc => (h.waiting c hc).trans (hnever _).symm,
    h.released.trans (hnever _).symm⟩

/-- An edge waits whose condition is not marked. -/
theorem wait (h : Balanced l s) {t : Note N} (hdropped : t.isDropped = false)
    (hcondition : t.edge.condition ∉ s.nodes) (w : Waiting N) :
    Balanced (l ++ [t]) { s with
      waiting := s.waiting.insert t.edge.condition (w :: s.waitingFor t.edge.condition) } := by
  have hunmarked : t.releasedBy s.graph.isMarked = false := by
    rw [Note.releasedBy, Bool.eq_false_iff.2 (mt (s.isMarked_iff _).1 hcondition)]
    rfl
  refine ⟨h.marked, fun c hc => ?_, ?_⟩
  · have hwaiting := h.waiting c hc
    rw [List.countP_append, List.countP_singleton, ← hwaiting, Note.releasedBy, hdropped]
    simp only [waitingFor, Std.HashMap.getElem?_insert]
    by_cases heq : t.edge.condition = c
    · simp [heq]
    · simp [heq]
  · show s.graph.stats.releasedEdges = (l ++ [t]).countP (·.releasedBy s.graph.isMarked)
    rw [List.countP_append, List.countP_singleton, hunmarked]
    exact h.released

omit [Inhabited σ] in
/-- A conditional edge is released at once, or it waits, or it is dropped. -/
theorem addConditional (h : Balanced l s) (sys : NodeSystem N ε σ) (source : Nat)
    (e : ConditionalEdge N) :
    Balanced (l ++ [⟨e, s.nodes⟩]) (s.addConditional sys source e) := by
  unfold Analysis.addConditional
  split
  · next i hi =>
    have hcondition := s.position?_eq_some hi
    exact (h.release (by simp [Note.isDropped, hcondition]) hcondition).markAll sys _
  · next hnone =>
    have hcondition := s.position?_eq_none hnone
    split
    · next htarget =>
      have htarget := (s.isMarked_iff _).1 htarget
      exact h.drop (by simp [Note.isDropped, hcondition, htarget])
    · next htarget =>
      have htarget := mt (s.isMarked_iff _).2 htarget
      exact h.wait (t := ⟨e, s.nodes⟩) (by simp [Note.isDropped, htarget]) hcondition _

omit [Inhabited σ] in
/-- Each conditional edge of an expansion is released at once, or waits, or is dropped. -/
theorem addConditionals (h : Balanced l s) (sys : NodeSystem N ε σ) (source : Nat)
    (edges : List (ConditionalEdge N)) :
    Balanced (l ++ notesOf sys source s edges)
      (edges.foldl (Analysis.addConditional sys source) s) := by
  induction edges generalizing l s with
  | nil => exact (List.append_nil l).symm ▸ h
  | cons e edges ih =>
    rw [notesOf, ← List.singleton_append, ← List.append_assoc]
    exact ih (h.addConditional sys source e)

/-- Expanding a node adds its conditional edges to the account. -/
theorem apply (h : Balanced l s) (sys : NodeSystem N ε σ) (id : Nat) (n : N) :
    Balanced (l ++ s.notesAt sys id n) (s.apply sys id (sys.expand n).value) := by
  cases hx : (sys.expand n).value with
  | error error =>
    have hcount := h.of_eq (.count s fun c => { c with expanded := c.expanded + 1 }) rfl rfl
    rw [notesAt, sys.expansionOf_error hx, notesOf, List.append_nil]
    exact hcount.fail id error
  | ok x =>
    -- edges are counted first, which leaves the marks alone
    have hmarks := SameMarks.count s fun c => { c with
      expanded := c.expanded + 1
      edges := c.edges + x.edges.length
      conditionalEdges := c.conditionalEdges + x.conditional.length }
    rw [hmarks.notesAt_eq sys id n, notesAt, sys.expansionOf_ok hx]
    exact ((h.of_eq hmarks rfl rfl).markEdges sys _ x.edges).addConditionals sys id x.conditional

/-- Searches keep the account of conditional edges. -/
theorem searchAll (h : Balanced l s) (sys : NodeSystem N ε σ) :
    Balanced l (s.searchAll sys).value := by
  have hrecord : Balanced l (s.recordSearches sys) := by
    refine List.foldlRecOn _ recordAnswer (h.of_eq ⟨rfl, rfl⟩ rfl rfl) fun t ht a _ => ?_
    unfold recordAnswer
    split
    · exact ht.fail _ _
    · exact ht
  rw [value_searchAll_eq]
  refine List.foldlRecOn _ _ hrecord fun t ht a _ => ?_
  unfold followAnswer
  split
  · exact (ht.of_eq (.count t _) rfl rfl).markEdges sys _ _
  · exact ht

end Balanced

end Analysis

namespace Log

variable {sys : NodeSystem N ε σ} {l l' : Log N ε}

/-- Searches bring no conditional edges. -/
theorem notes_searches (sys : NodeSystem N ε σ) (events : List (Event N)) (s : Analysis N ε)
    (ids : List Nat) : notes sys (events ++ ids.filterMap s.searchAt?) = notes sys events := by
  induction ids using List.reverseRecOn with
  | nil => rw [List.filterMap_nil, List.append_nil]
  | append_singleton ids i ih =>
    rw [List.filterMap_append, ← List.append_assoc]
    cases hsearch : s.searchAt? i with
    | none => simpa [hsearch] using ih
    | some e =>
      obtain ⟨n, -, -, -, rfl⟩ := Analysis.searchAt?_eq_some.1 hsearch
      rw [List.filterMap_cons_some hsearch, List.filterMap_nil, notes_concat, ih]
      exact List.append_nil _

/-- A move keeps the account of conditional edges. -/
theorem balanced_move (h : l.analysis.Balanced (notes sys l.events.toList)) (hmarks : l.Marks sys)
    (hmove : Move sys l l') : l'.analysis.Balanced (notes sys l'.events.toList) := by
  cases hmove with
  | root n label =>
    rw [Array.toList_push, notes_concat]
    exact (List.append_nil (notes sys l.events.toList)).symm ▸ h.markAll sys _
  | @expand i n hn =>
    have hasked : l.analysis.SameMarks { l.analysis with
        stopRequested := l.analysis.stopRequested || sys.requestsStop n } := ⟨rfl, rfl⟩
    have hnotes : (replay sys l.events.toList).notesOn sys (.expand n) = Analysis.notesAt sys
        { l.analysis with
          stopRequested := l.analysis.stopRequested || sys.requestsStop n } i n := by
      rw [Analysis.notesOn, hmarks.position?_eq_some hn]
      exact (hmarks.trans hasked).notesAt_eq sys i n
    rw [Array.toList_push, notes_concat, hnotes, Analysis.value_expandNode]
    exact (h.of_eq hasked rfl rfl).apply sys i n
  | search =>
    rw [toList_noteAll, notes_searches]
    exact h.searchAll sys
  | aside expanded batched heeds asked => exact h.of_eq ⟨rfl, rfl⟩ rfl rfl
  | tick rounds batches => exact h.of_eq ⟨rfl, rfl⟩ rfl rfl

/-- What each move keeps: the marks and the counters are those that the journal tells. -/
structure Kept (sys : NodeSystem N ε σ) (l : Log N ε) : Prop where
  marks : l.Marks sys
  counted : l.analysis.Counted sys l.events.toList
  balanced : l.analysis.Balanced (notes sys l.events.toList)

/-- What every move keeps is kept along moves. -/
theorem Kept.moves (h : l.Kept sys) (hmoves : Moves sys l l') : l'.Kept sys := by
  induction hmoves with
  | refl => exact h
  | tail _ hmove ih =>
    exact ⟨ih.marks.move hmove, counted_move ih.counted hmove,
      balanced_move ih.balanced ih.marks hmove⟩

/-- In whatever way a state was reached, its counters are right. -/
theorem kept_of_leads (h : Leads sys {} l) : l.Kept sys := by
  have hfresh : Kept sys ({} : Log N ε) :=
    ⟨Analysis.SameMarks.refl _, ⟨rfl, rfl, rfl, rfl, rfl⟩, .fresh⟩
  exact hfresh.moves (moves_of_leads h)

end Log

/-! ## Finished runs -/

omit [LawfulBEq N] [Hashable N] in
/-- Of the edges whose condition has a property, those are not released that were dropped. -/
theorem countP_releasedBy_add (p : N → Bool) (l : List (Note N)) :
    l.countP (·.releasedBy p) + l.countP (fun t => t.isDropped && p t.edge.condition) =
      l.countP fun t => p t.edge.condition := by
  induction l with
  | nil => rfl
  | cons t l ih =>
    have hnote : (if t.releasedBy p then 1 else 0) +
        (if t.isDropped && p t.edge.condition then 1 else 0) =
          if p t.edge.condition then 1 else 0 := by
      unfold Note.releasedBy
      cases p t.edge.condition <;> cases t.isDropped <;> rfl
    rw [List.countP_cons, List.countP_cons, List.countP_cons, ← ih, ← hnote]
    omega

namespace Log

variable {sys : NodeSystem N ε σ} {l : Log N ε}

/-- When a run is finished, whatever was done before, the counters describe the graph.  As many nodes
were marked as there are, and as many expanded; failures, edges and conditional edges are those of
the marked nodes, and dynamic edges those that searches found.  The conditional edges that were
counted as released are those whose condition is marked, except for the ones that were dropped: when
their turn came their target was marked, but their condition was not. -/
theorem counters_describe_graph (h : Leads sys {} l) {fuel : Nat} {s : Analysis N ε}
    (hrun : (l.analysis.run sys fuel).value = .finished s) :
    s.graph.stats.marked = s.nodes.length ∧
    s.graph.stats.expanded = s.nodes.length ∧
    s.graph.stats.failures = s.failures.length ∧
    s.graph.stats.edges = (s.nodes.flatMap fun n => (sys.expansionOf n).edges).length ∧
    s.graph.stats.conditionalEdges =
      (s.nodes.flatMap fun n => (sys.expansionOf n).conditional).length ∧
    s.graph.stats.dynamicEdges = ((l.eventsOfRun sys fuel).toList.flatMap sys.foundBy).length ∧
    ((notes sys (l.eventsOfRun sys fuel).toList).map (·.edge)).Perm
      (s.nodes.flatMap fun n => (sys.expansionOf n).conditional) ∧
    s.graph.stats.releasedEdges + (notes sys (l.eventsOfRun sys fuel).toList).countP
        (fun t => t.isDropped && s.graph.isMarked t.edge.condition) =
      (s.nodes.flatMap fun n => (sys.expansionOf n).conditional).countP
        (fun e => s.graph.isMarked e.condition) ∧
    (s.graph.stats.releasedEdges =
        (s.nodes.flatMap fun n => (sys.expansionOf n).conditional).countP
          (fun e => s.graph.isMarked e.condition) ↔
      ∀ t ∈ notes sys (l.eventsOfRun sys fuel).toList, t.isDropped = true →
        t.edge.condition ∉ s.nodes) := by
  obtain ⟨-, hcounted, hbalanced⟩ := kept_of_leads (h.tail (.run l fuel (.inl hrun)))
  obtain ⟨-, hfinished, -⟩ := Analysis.Accurate.run (accurate_of_leads h) fuel
  have hperm := (hfinished s hrun).2.expansions
  have hnotes : ((notes sys (l.eventsOfRun sys fuel).toList).map (·.edge)).Perm
      (s.nodes.flatMap fun n => (sys.expansionOf n).conditional) := by
    rw [map_edge_notes]
    exact hperm.flatMap_right _
  have hreleased : s.graph.stats.releasedEdges + (notes sys (l.eventsOfRun sys fuel).toList).countP
        (fun t => t.isDropped && s.graph.isMarked t.edge.condition) =
      (s.nodes.flatMap fun n => (sys.expansionOf n).conditional).countP
        (fun e => s.graph.isMarked e.condition) := by
    rw [hbalanced.released, countP_releasedBy_add, ← hnotes.countP_eq, List.countP_map]
    rfl
  refine ⟨hbalanced.marked, hcounted.expanded.trans hperm.length_eq, hcounted.failures,
    hcounted.edges.trans (hperm.flatMap_right _).length_eq,
    hcounted.conditionalEdges.trans (hperm.flatMap_right _).length_eq, hcounted.dynamicEdges,
    hnotes, hreleased, ?_⟩
  rw [← hreleased, Nat.left_eq_add, List.countP_eq_zero]
  simp [s.isMarked_iff]

end Log

namespace Analysis

/-- Both conditional edges of `shortcut` have a condition that is marked. -/
theorem countP_conditional_shortcut {s : Analysis Nat String} (hnodes : s.nodes = [0, 1, 2, 3]) :
    (s.nodes.flatMap fun n => (shortcut.expansionOf n).conditional).countP
      (fun e => s.graph.isMarked e.condition) = 2 := by
  have hconditional : (s.nodes.flatMap fun n => (shortcut.expansionOf n).conditional) =
      [⟨1, 2, "if 2"⟩, ⟨3, 0, "if 0"⟩] := by
    rw [hnodes]
    rfl
  rw [hconditional, List.countP_eq_length.2]
  · rfl
  · simp [s.isMarked_iff, hnodes]

/-- In a run of `shortcut` one of two conditional edges is dropped and not counted later. -/
theorem counters_describe_graph_shortcut : ∃ (l : Log Nat String) (s : Analysis Nat String),
    Log.Leads shortcut {} l ∧ (l.analysis.run shortcut 5).value = .finished s ∧
    s.graph.stats.marked = 4 ∧ s.graph.stats.expanded = 4 ∧ s.graph.stats.edges = 2 ∧
    s.graph.stats.conditionalEdges = 2 ∧ s.graph.stats.releasedEdges = 1 ∧
    (notes shortcut (l.eventsOfRun shortcut 5).toList).countP
      (fun t => t.isDropped && s.graph.isMarked t.edge.condition) = 1 := by
  obtain ⟨s, hrun, hshows⟩ := value_run_shortcut
  let l : Log Nat String := ⟨({} : Analysis Nat String).addRoot shortcut 0 "start",
    #[.root 0 "start"]⟩
  have hleads : Log.Leads shortcut {} l := .single (.addRoot {} 0 "start")
  obtain ⟨hmarked, hexpanded, -, hedges, hconditional, -, -, hreleased, -⟩ :=
    Log.counters_describe_graph hleads hrun
  have hone : s.graph.stats.releasedEdges = 1 := congrArg Stats.releasedEdges hshows.stats
  rw [countP_conditional_shortcut hshows.nodes, hone] at hreleased
  rw [hshows.nodes] at hmarked hexpanded hedges hconditional
  exact ⟨l, s, hleads, hrun, hmarked, hexpanded, hedges, hconditional, hone,
    Nat.add_left_cancel hreleased⟩

/-- Two conditional edges of a run of `shortcut` have a condition that is marked, but only one was
counted as released, although no expansion and no search can fail. -/
theorem releasedEdges_lt_shortcut : ∃ (l : Log Nat String) (s : Analysis Nat String),
    Log.Leads shortcut {} l ∧ (l.analysis.run shortcut 5).value = .finished s ∧
    (∀ n, ∃ x, (shortcut.expand n).value = .ok x) ∧
    (∀ n shown, ∃ found, (shortcut.search n shown).value = .ok found) ∧
    s.graph.stats.releasedEdges = 1 ∧
    (s.nodes.flatMap fun n => (shortcut.expansionOf n).conditional).countP
      (fun e => s.graph.isMarked e.condition) = 2 := by
  obtain ⟨s, hrun, hshows⟩ := value_run_shortcut
  let l : Log Nat String := ⟨({} : Analysis Nat String).addRoot shortcut 0 "start",
    #[.root 0 "start"]⟩
  have hleads : Log.Leads shortcut {} l := .single (.addRoot {} 0 "start")
  refine ⟨l, s, hleads, hrun, fun n => ?_, fun _ _ => ⟨_, rfl⟩,
    congrArg Stats.releasedEdges hshows.stats, countP_conditional_shortcut hshows.nodes⟩
  match n with
  | 0 | 1 | 2 | n + 3 => exact ⟨_, rfl⟩

end Analysis

end AheadOfTime.Marking
