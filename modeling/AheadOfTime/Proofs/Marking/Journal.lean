import AheadOfTime.Proofs.Marking.Reasons

/-!
# A journal of a marking

The nodes of a marking can be asked to enter in a journal what they are asked: whenever one is
expanded, and whenever one is shown others.  The answers are the same, and so is the marking.  So
whatever is read off the journal of the recording nodes is about the nodes themselves.
-/

set_option autoImplicit false

namespace AheadOfTime.Marking

/-- What happens to a node. -/
inductive Event (N : Type) where
  /-- The node is added as a root. -/
  | root (n : N) (label : String)
  /-- The node is expanded. -/
  | expand (n : N)
  /-- The node, which is dynamic, is shown nodes that were marked. -/
  | search (n : N) (shown : List N)

/-- The same nodes, where every expansion and every search is entered in a journal. -/
def NodeSystem.journaled {N ε σ ω : Type} [Recorder σ ω] [Inhabited σ] (sys : NodeSystem N ε σ) :
    NodeSystem N ε (Array (Event N)) where
  expand n := do
    Recorded.report (.expand n)
    pure (sys.expand n).value
  search n shown := do
    Recorded.report (.search n shown)
    pure (sys.search n shown).value
  isDeferred := sys.isDeferred
  isDynamic := sys.isDynamic
  requestsStop := sys.requestsStop

/-! ## Marks -/

namespace Analysis

variable {N ε σ ω : Type} [BEq N] [LawfulBEq N] [Hashable N] [Recorder σ ω]

/-- Two states have marked the same nodes in the same order, and the same edges wait in them. -/
structure SameMarks (s t : Analysis N ε) : Prop where
  nodes : s.graph.nodes = t.graph.nodes
  waiting : s.waiting = t.waiting

namespace SameMarks

variable {s t u : Analysis N ε} (sys : NodeSystem N ε σ)

/-- A state has the same marks as itself. -/
theorem refl (s : Analysis N ε) : s.SameMarks s := ⟨rfl, rfl⟩

/-- States that share marks with one in between share them with each other. -/
theorem trans (h : s.SameMarks t) (h' : t.SameMarks u) : s.SameMarks u :=
  ⟨h.nodes.trans h'.nodes, h.waiting.trans h'.waiting⟩

/-- To have the same marks is mutual. -/
theorem symm (h : s.SameMarks t) : t.SameMarks s := ⟨h.nodes.symm, h.waiting.symm⟩

/-- States with the same marks list the same nodes. -/
theorem toList (h : s.SameMarks t) : s.nodes = t.nodes := congrArg Roster.toList h.nodes

/-- In states with the same marks, the same nodes are marked. -/
theorem isMarked (h : s.SameMarks t) (n : N) : s.graph.isMarked n = t.graph.isMarked n :=
  congrArg (Roster.contains · n) h.nodes

/-- In states with the same marks, the same edges wait. -/
theorem waitingFor (h : s.SameMarks t) (c : N) : s.waitingFor c = t.waitingFor c := by
  rw [Analysis.waitingFor, Analysis.waitingFor, h.waiting]

/-- Neither counters nor failures are marks. -/
theorem count (s : Analysis N ε) (f : Stats → Stats) : s.SameMarks (s.count f) := ⟨rfl, rfl⟩

/-- Recording a failure keeps the marks. -/
theorem fail (s : Analysis N ε) (id : Nat) (error : ε) : s.SameMarks (s.fail id error) := by
  unfold Analysis.fail
  split
  · exact .refl s
  · exact ⟨rfl, rfl⟩

/-- Entering a node keeps marks the same. -/
theorem enter_release (h : s.SameMarks t) (n : N) (r : Reason) :
    ((s.release n).enter sys n r).SameMarks ((t.release n).enter sys n r) := by
  have hnodes : ∀ s : Analysis N ε,
      ((s.release n).enter sys n r).graph.nodes = s.graph.nodes.insert n := by
    intro s
    unfold enter
    split <;> rfl
  refine ⟨by rw [hnodes, hnodes, h.nodes], ?_⟩
  rw [waiting_enter, waiting_enter, waiting_release, waiting_release, h.waiting]

/-- Marking nodes keeps marks the same. -/
theorem markAll (s : Analysis N ε) (stack : List (N × Reason)) : ∀ t : Analysis N ε, s.SameMarks t →
    (s.markAll sys stack).SameMarks (t.markAll sys stack) := by
  fun_induction Analysis.markAll sys s stack with
  | case1 s =>
    intro t h
    rw [Analysis.markAll]
    exact h
  | case2 s n r rest hn ih =>
    intro t h
    rw [Analysis.markAll, if_pos (h.isMarked n ▸ hn)]
    exact ih t h
  | case3 s n r rest hn id released ih =>
    intro t h
    have hid : id = t.graph.size := congrArg Roster.size h.nodes
    have hreleased : released = t.waitingFor n := h.waitingFor n
    rw [Analysis.markAll, if_neg (h.isMarked n ▸ hn), ← hid, ← hreleased]
    exact ih _ (h.enter_release sys n r)

/-- Marking a node keeps marks the same. -/
theorem mark (h : s.SameMarks t) (n : N) (r : Reason) :
    (s.mark sys n r).SameMarks (t.mark sys n r) :=
  markAll sys s _ t h

/-- Taking note of a conditional edge keeps marks the same. -/
theorem addConditional (h : s.SameMarks t) (source : Nat) (e : ConditionalEdge N) :
    (s.addConditional sys source e).SameMarks (t.addConditional sys source e) := by
  unfold Analysis.addConditional
  rw [Graph.position?, Graph.position?, h.isMarked, h.nodes]
  split
  · exact SameMarks.mark sys (((count s _).symm.trans h).trans (count t _)) _ _
  · split
    · exact h
    · refine ⟨h.nodes, ?_⟩
      show s.waiting.insert _ _ = t.waiting.insert _ _
      rw [h.waiting, h.waitingFor]

/-- A step that keeps marks the same can be repeated along a list. -/
theorem foldl {α : Type} {f : Analysis N ε → α → Analysis N ε}
    (hf : ∀ {s t : Analysis N ε} (a : α), s.SameMarks t → (f s a).SameMarks (f t a)) (l : List α)
    (h : s.SameMarks t) : (l.foldl f s).SameMarks (l.foldl f t) := by
  induction l generalizing s t with
  | nil => exact h
  | cons a l ih => exact ih (hf a h)

/-- Taking care of an expansion keeps marks the same. -/
theorem apply (h : s.SameMarks t) (id : Nat) (r : Except ε (Expansion N)) :
    (s.apply sys id r).SameMarks (t.apply sys id r) := by
  cases r with
  | error error =>
    exact (((count s _).trans (fail _ id error)).symm.trans h).trans
      ((count t _).trans (fail _ id error))
  | ok x =>
    unfold Analysis.apply
    refine foldl (fun e h => h.addConditional sys id e) _ ?_
    refine foldl (fun e h => h.mark sys e.target _) _ ?_
    exact ((count s _).symm.trans h).trans (count t _)

/-- Following what a search found keeps marks the same. -/
theorem applySearch (h : s.SameMarks t) (id : Nat) (found : List (Edge N)) :
    (s.applySearch sys id found).SameMarks (t.applySearch sys id found) := by
  unfold Analysis.applySearch
  refine foldl (fun e h => h.mark sys e.target _) _ ?_
  exact ((count s _).symm.trans h).trans (count t _)

end SameMarks

/-! ## Entering events changes nothing else -/

section Journaled

variable [Inhabited σ] (sys : NodeSystem N ε σ)

/-- A journal does not change how nodes are marked. -/
theorem markAll_journaled (s : Analysis N ε) (stack : List (N × Reason)) :
    s.markAll sys.journaled stack = s.markAll sys stack := by
  fun_induction markAll sys s stack with
  | case1 s => rw [markAll]
  | case2 s n r rest hn ih => rw [markAll, if_pos hn, ih]
  | case3 s n r rest hn id released ih =>
    rw [markAll, if_neg hn]
    exact ih

/-- A journal does not change how a node is marked. -/
theorem mark_journaled (s : Analysis N ε) (n : N) (r : Reason) :
    s.mark sys.journaled n r = s.mark sys n r :=
  markAll_journaled sys s _

/-- A journal does not change how conditional edges are noted. -/
theorem addConditional_journaled (source : Nat) (s : Analysis N ε) (e : ConditionalEdge N) :
    s.addConditional sys.journaled source e = s.addConditional sys source e := by
  simp only [addConditional, mark_journaled]

/-- A journal does not change how expansions are taken care of. -/
theorem apply_journaled (s : Analysis N ε) (id : Nat) (r : Except ε (Expansion N)) :
    s.apply sys.journaled id r = s.apply sys id r := by
  cases r with
  | error error => rfl
  | ok x =>
    have hconditional : addConditional sys.journaled id = addConditional sys id :=
      funext fun s => funext fun e => addConditional_journaled sys id s e
    simp only [apply, mark_journaled, hconditional]

/-- A journal does not change how the answers of searches are followed. -/
theorem applyAnswers_journaled (s : Analysis N ε)
    (answers : List (Nat × Option (Except ε (List (Edge N))))) :
    s.applyAnswers sys.journaled answers = s.applyAnswers sys answers := by
  simp only [applyAnswers, applySearch, mark_journaled]

/-- A node is expanded with the same outcome, and that is entered. -/
theorem run_expandNode_journaled (s : Analysis N ε) (id : Nat) (n : N) (events : Array (Event N)) :
    (s.expandNode sys.journaled id n).run events =
      ((s.expandNode sys id n).value, events.push (.expand n)) := by
  rw [value_expandNode, ← apply_journaled]
  rfl

/-- If no node is left, draining writes nothing. -/
theorem run_drain_journaled_of_none {s : Analysis N ε} (hn : s.nodes[s.expanded]? = none)
    (fuel : Nat) (events : Array (Event N)) :
    (drain sys.journaled fuel s).run events = (some s, events) := by
  rw [← s.get?_nodes] at hn
  unfold drain
  simp [hn]

/-- Without fuel, draining writes nothing. -/
theorem run_drain_journaled_zero {s : Analysis N ε} {n : N} (hn : s.nodes[s.expanded]? = some n)
    (events : Array (Event N)) : (drain sys.journaled 0 s).run events = (none, events) := by
  rw [← s.get?_nodes] at hn
  unfold drain
  simp [hn]

/-- Draining writes down the next node if it expands it, and goes on. -/
theorem run_drain_journaled_succ {s : Analysis N ε} {n : N} (hn : s.nodes[s.expanded]? = some n)
    (fuel : Nat) (events : Array (Event N)) :
    (drain sys.journaled (fuel + 1) s).run events = (drain sys.journaled fuel (s.passNext sys n)).run
      (if sys.isDeferred n then events else events.push (.expand n)) := by
  rw [← s.get?_nodes] at hn
  rw [drain, passNext]
  simp only [hn]
  cases hd : sys.isDeferred n with
  | true => simp [NodeSystem.journaled, hd]
  | false =>
    have hd' : sys.journaled.isDeferred n = false := hd
    simp [hd', run_expandNode_journaled]

/-- A journal does not change what draining leads to. -/
theorem fst_run_drain_journaled (fuel : Nat) (s : Analysis N ε) (events : Array (Event N)) :
    ((drain sys.journaled fuel s).run events).1 = (drain sys fuel s).value := by
  induction fuel generalizing s events with
  | zero =>
    cases hn : s.nodes[s.expanded]? with
    | none => rw [run_drain_journaled_of_none sys hn, value_drain_of_none 0 hn]
    | some n => rw [run_drain_journaled_zero sys hn, value_drain_zero hn]
  | succ fuel ih =>
    cases hn : s.nodes[s.expanded]? with
    | none => rw [run_drain_journaled_of_none sys hn, value_drain_of_none _ hn]
    | some n => rw [run_drain_journaled_succ sys hn, value_drain_succ fuel hn, ih]

/-- Expanding a batch writes down its nodes in order. -/
theorem run_expandBatch_journaled (s : Analysis N ε) (batch : List (Nat × N))
    (events : Array (Event N)) :
    (s.expandBatch sys.journaled batch).run events = ((s.expandBatch sys batch).value,
      Recorder.noteAll events (batch.map fun p => .expand p.2)) := by
  simp only [expandBatch, Recorded.value_foldlM]
  generalize s.count _ = s
  induction batch generalizing s events with
  | nil => rfl
  | cons p batch ih =>
    rw [List.foldlM_cons, Recorded.run_bind, run_expandNode_journaled, ih]
    rfl

/-- The search of the node at a position, if it is due. -/
def searchAt? (s : Analysis N ε) (id : Nat) : Option (Event N) :=
  if s.seen id = s.nodes.length ∨ s.graph.hasFailed id = true then none
  else s.nodes[id]?.map fun n => .search n (s.nodes.drop (s.seen id))

/-- A search is written down if there is something to show. -/
theorem run_look_journaled (s : Analysis N ε) (id : Nat) (events : Array (Event N)) :
    (look sys.journaled s id).run events =
      ((look sys s id).value, Recorder.noteAll events (s.searchAt? id).toList) := by
  rw [value_look, searchAt?, look, s.size_graph, s.get?_nodes]
  simp only [Bool.or_eq_true, decide_eq_true_eq, since_eq_drop]
  split
  · rfl
  · cases s.nodes[id]? with
    | none => rfl
    | some n => rfl

/-- All searches over one list of nodes are written down in order. -/
theorem run_searchAll_journaled (s : Analysis N ε) (events : Array (Event N)) :
    (s.searchAll sys.journaled).run events = ((s.searchAll sys).value,
      Recorder.noteAll events (s.dynamic.toList.filterMap s.searchAt?)) := by
  have hmapM : ∀ (ids : List Nat) (events : Array (Event N)),
      (ids.mapM fun id => do
        let answer ← look sys.journaled s id
        pure (id, answer)).run events =
        (ids.map fun id => (id, (look sys s id).value),
          Recorder.noteAll events (ids.filterMap s.searchAt?)) := by
    intro ids
    induction ids with
    | nil => exact fun _ => rfl
    | cons id ids ih =>
      intro events
      rw [List.mapM_cons, List.filterMap_cons]
      simp only [Recorded.run_bind, Recorded.run_pure, run_look_journaled, ih]
      cases s.searchAt? id <;> rfl
  rw [value_searchAll, searchAll]
  simp only [Recorded.run_bind, Recorded.run_pure, hmapM, applyAnswers_journaled]

/-- One round of a run, and whether there has to be another one; `none` if the fuel runs out. -/
def recordedRound (sys : NodeSystem N ε σ) (fuel : Nat) (s : Analysis N ε) :
    Recorded σ (Option (Bool × Analysis N ε)) := do
  match ← drain sys fuel (s.count fun c => { c with rounds := c.rounds + 1 }) with
  | none => pure none
  | some s =>
    let size := s.graph.size
    let batch := s.pending sys
    let s := { s with batched := size }
    if batch.isEmpty then
      let s ← s.searchAll sys
      pure (some (decide (size < s.graph.size), s))
    else
      let s ← s.expandBatch sys batch
      pure (some (true, s))

/-- A round that keeps a journal leads where a round leads. -/
theorem value_recordedRound (fuel : Nat) (s : Analysis N ε) :
    (recordedRound sys fuel s).value = s.round sys fuel := by
  rw [recordedRound, round, Recorded.value_bind]
  cases (drain sys fuel (s.count fun c => { c with rounds := c.rounds + 1 })).value with
  | none => rfl
  | some s₁ =>
    simp only [Option.map_some]
    split
    · rw [Recorded.value_bind]
      rfl
    · rw [Recorded.value_bind]
      rfl

omit [Inhabited σ] in
/-- A run is a round and a further run, unless it is cancelled. -/
theorem run_eq_recordedRound (fuel : Nat) (s : Analysis N ε) :
    run sys (fuel + 1) s =
      if (s.heedsStop && s.stopRequested) = true then pure (.cancelled s)
      else recordedRound sys fuel s >>= fun
        | none => pure .exhausted
        | some (more, s) => if more = true then run sys fuel s else pure (.finished s) := by
  rw [run, recordedRound]
  split
  · rfl
  · rw [bind_assoc]
    congr 1
    funext answer
    cases answer with
    | none => rfl
    | some s₁ =>
      dsimp only
      split
      · simp only [bind_assoc, pure_bind, decide_eq_true_eq, gt_iff_lt]
      · simp only [bind_assoc, pure_bind, if_true]

/-- A journal does not change what a round leads to. -/
theorem fst_run_recordedRound_journaled (fuel : Nat) (s : Analysis N ε) (events : Array (Event N)) :
    ((recordedRound sys.journaled fuel s).run events).1 = s.round sys fuel := by
  rw [← value_recordedRound, recordedRound, recordedRound, Recorded.run_bind, Recorded.value_bind,
    fst_run_drain_journaled]
  generalize ((drain sys.journaled fuel _).run events).2 = events
  cases (drain sys fuel (s.count fun c => { c with rounds := c.rounds + 1 })).value with
  | none => rfl
  | some s₁ =>
    have hpending : s₁.pending sys.journaled = s₁.pending sys := rfl
    dsimp only
    rw [hpending]
    split
    · simp only [Recorded.run_bind, Recorded.run_pure, run_searchAll_journaled, Recorded.value_bind,
        Recorded.value_pure]
    · simp only [Recorded.run_bind, Recorded.run_pure, run_expandBatch_journaled, Recorded.value_bind,
        Recorded.value_pure]

/-- A run has the same outcome when it is entered in a journal. -/
theorem fst_run_journaled (fuel : Nat) (s : Analysis N ε) (events : Array (Event N)) :
    ((run sys.journaled fuel s).run events).1 = (run sys fuel s).value := by
  induction fuel generalizing s events with
  | zero => rfl
  | succ fuel ih =>
    rw [run_eq_recordedRound, value_run_eq_round]
    split
    · rfl
    · rw [Recorded.run_bind, fst_run_recordedRound_journaled]
      cases s.round sys fuel with
      | none => rfl
      | some p =>
        obtain ⟨more, s₁⟩ := p
        cases more with
        | true => exact ih s₁ _
        | false => rfl

end Journaled

/-! ## What marking leaves alone -/

/-- A property of states that does not change when nodes are marked and edges are noted. -/
structure KeptByMarking (sys : NodeSystem N ε σ) (P : Analysis N ε → Prop) : Prop where
  enter : ∀ {s : Analysis N ε} {n : N} (r : Reason), n ∉ s.nodes → P s →
    P ((s.release n).enter sys n r)
  wait : ∀ {s : Analysis N ε} (waiting : Std.HashMap N (List (Waiting N))), P s →
    P { s with waiting }
  count : ∀ {s : Analysis N ε} (f : Stats → Stats), P s → P (s.count f)

namespace KeptByMarking

variable {sys : NodeSystem N ε σ} {P : Analysis N ε → Prop} {s : Analysis N ε}

/-- What marking leaves alone is kept when nodes are marked. -/
theorem markAll (hP : KeptByMarking sys P) (h : P s) (stack : List (N × Reason)) :
    P (s.markAll sys stack) := by
  fun_induction Analysis.markAll sys s stack with
  | case1 s => exact h
  | case2 s n r rest hn ih => exact ih h
  | case3 s n r rest hn id released ih =>
    exact ih (hP.enter r (by rwa [s.isMarked_iff] at hn) h)

/-- What marking leaves alone is kept when the targets of edges are marked. -/
theorem markEdges (hP : KeptByMarking sys P) (h : P s) (reason : Edge N → Reason)
    (l : List (Edge N)) : P (l.foldl (fun s e => s.mark sys e.target (reason e)) s) :=
  List.foldlRecOn l _ h fun _ hs _ _ => hP.markAll hs _

/-- What marking leaves alone is kept when a conditional edge is noted. -/
theorem addConditional (hP : KeptByMarking sys P) (h : P s) (source : Nat) (e : ConditionalEdge N) :
    P (s.addConditional sys source e) := by
  unfold Analysis.addConditional
  split
  · exact hP.markAll (hP.count _ h) _
  · split
    · exact h
    · exact hP.wait _ h

/-- What marking leaves alone is kept when the edges of a node are followed. -/
theorem apply_ok (hP : KeptByMarking sys P) (h : P s) (id : Nat) (x : Expansion N) :
    P (s.apply sys id (.ok x)) := by
  unfold Analysis.apply
  refine List.foldlRecOn x.conditional _ ?_ fun s hs e _ => hP.addConditional hs id e
  exact hP.markEdges (hP.count _ h) (fun e => .edge id e.label) x.edges

/-- What marking leaves alone is kept when the edges that a search found are followed. -/
theorem applySearch (hP : KeptByMarking sys P) (h : P s) (id : Nat) (found : List (Edge N)) :
    P (s.applySearch sys id found) :=
  hP.markEdges (hP.count _ h) _ found

/-- Marking records no failure. -/
theorem failures (sys : NodeSystem N ε σ) (l : List (Failure N ε)) :
    KeptByMarking sys fun s => s.failures = l where
  enter {s n} r _ h := by
    unfold Analysis.enter
    split <;> exact h
  wait _ h := h
  count _ h := h

/-- Each dynamic node is listed once. -/
theorem dynamic (sys : NodeSystem N ε σ) :
    KeptByMarking sys fun s : Analysis N ε => s.dynamic.toList.Nodup ∧
      ∀ i ∈ s.dynamic.toList, i < s.nodes.length where
  enter {s n} r hn h := by
    have hlt : ∀ i ∈ s.dynamic.toList, i < (s.nodes ++ [n]).length := fun i hi => by
      rw [List.length_append]
      exact Nat.lt_add_right _ (h.2 i hi)
    rw [nodes_enter sys (s.release n) n r hn, nodes_release]
    unfold Analysis.enter
    split
    · have hpush : (s.dynamic.push s.graph.size).toList = s.dynamic.toList ++ [s.nodes.length] := by
        rw [Array.toList_push, s.size_graph]
      show (s.dynamic.push s.graph.size).toList.Nodup ∧
        ∀ i ∈ (s.dynamic.push s.graph.size).toList, i < _
      rw [hpush]
      refine ⟨List.nodup_append.2 ⟨h.1, List.nodup_singleton _, ?_⟩, ?_⟩
      · intro i hi j hj hij
        rw [List.mem_singleton.1 hj] at hij
        exact absurd (h.2 i hi) (by omega)
      · intro i hi
        rcases List.mem_append.1 hi with hi | hi
        · exact hlt i hi
        · rw [List.mem_singleton.1 hi]
          simp
    · exact ⟨h.1, hlt⟩
  wait _ h := h
  count _ h := h

end KeptByMarking

end Analysis

end AheadOfTime.Marking
