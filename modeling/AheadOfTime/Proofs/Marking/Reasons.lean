import AheadOfTime.Proofs.Marking.FixedPoint
import Mathlib.Logic.Relation

/-!
# Why a node is marked

Every marked node has a reason, and every reason is genuine: it names an edge that leads to the node,
from nodes that were marked before.  This is so after any sequence of added roots and runs, and runs
may be stopped between any two rounds.  An edge that waits keeps the position of the node that it
comes from, and it is released only when its condition gets a position of its own; so a target always
comes after both.  As reasons lead to earlier nodes only, following them back ends, and it ends at a
root.

While no edge waits and no node is dynamic, all that there is to see of a marking can be followed step
by step (`Shows`).
-/

set_option autoImplicit false

namespace AheadOfTime.Marking

/-! ## Genuine reasons -/

section Genuine

variable {N ε σ ω : Type} [Recorder σ ω] [Inhabited σ]

/-- A reason for which `n` may be marked at position `i`, if `nodes` are marked before: `n` is one of
the roots with that label, or nodes before position `i` lead to it by an edge with that label. -/
def Genuine (sys : NodeSystem N ε σ) (roots : List (N × String)) (nodes : List N) (i : Nat) (n : N) :
    Reason → Prop
  | .root label => (n, label) ∈ roots
  | .edge source label => source < i ∧ ∃ m x, nodes[source]? = some m ∧
      (sys.expand m).value = .ok x ∧ ⟨n, label⟩ ∈ x.edges
  | .conditional source condition label => source < i ∧ condition < i ∧ ∃ m c x,
      nodes[source]? = some m ∧ nodes[condition]? = some c ∧ (sys.expand m).value = .ok x ∧
        ⟨n, c, label⟩ ∈ x.conditional
  | .dynamic source label => source < i ∧ ∃ m shown found, nodes[source]? = some m ∧
      sys.isDynamic m = true ∧ shown <:+: nodes.take i ∧
        (sys.search m shown).value = .ok found ∧ ⟨n, label⟩ ∈ found

variable {sys : NodeSystem N ε σ} {roots roots' : List (N × String)} {nodes nodes' : List N}
  {i i' : Nat} {n : N} {r : Reason}

/-- A reason stays genuine when more roots are added and more nodes are marked. -/
theorem Genuine.mono (h : Genuine sys roots nodes i n r) (hroots : ∀ p ∈ roots, p ∈ roots')
    (hnodes : nodes <+: nodes') (hi : i ≤ i') : Genuine sys roots' nodes' i' n r := by
  cases r with
  | root label => exact hroots _ h
  | edge source label =>
    obtain ⟨hsource, m, x, hm, hx, he⟩ := h
    exact ⟨by omega, m, x, getElem?_of_isPrefix hnodes hm, hx, he⟩
  | conditional source condition label =>
    obtain ⟨hsource, hcondition, m, c, x, hm, hc, hx, he⟩ := h
    exact ⟨by omega, by omega, m, c, x, getElem?_of_isPrefix hnodes hm,
      getElem?_of_isPrefix hnodes hc, hx, he⟩
  | dynamic source label =>
    obtain ⟨hsource, m, shown, found, hm, hd, hshown, hfound, he⟩ := h
    have htake : nodes.take i <+: nodes'.take i' :=
      (hnodes.take i).trans (List.take_prefix_take_left hi)
    exact ⟨by omega, m, shown, found, getElem?_of_isPrefix hnodes hm, hd,
      hshown.trans htake.isInfix, hfound, he⟩

/-- The node that a genuine reason comes from was marked before. -/
theorem Genuine.source_lt (h : Genuine sys roots nodes i n r) {source : Nat}
    (hsource : r.source? = some source) : source < i := by
  cases r with
  | root label => cases hsource
  | _ =>
    cases hsource
    exact h.1

end Genuine

namespace Analysis

variable {N ε σ ω : Type} [BEq N] [LawfulBEq N] [Hashable N] [Recorder σ ω] [Inhabited σ]

/-! ## Founded states -/

/-- The reasons of the marked nodes, in marking order. -/
def reasons (s : Analysis N ε) : List Reason :=
  s.graph.reasons.toList

omit [Inhabited σ] in
/-- The reason of a node that is entered is listed last. -/
theorem reasons_enter (sys : NodeSystem N ε σ) (s : Analysis N ε) (n : N) (r : Reason) :
    (s.enter sys n r).reasons = s.reasons ++ [r] := by
  unfold enter
  split <;> simp [reasons, Graph.enter]

/-- Every marked node has a genuine reason, and the edges that wait would be genuine ones. -/
structure Founded (sys : NodeSystem N ε σ) (roots : List (N × String)) (s : Analysis N ε) :
    Prop where
  /-- There are as many reasons as marked nodes. -/
  length : s.reasons.length = s.nodes.length
  /-- The reasons are genuine. -/
  genuine : ∀ {i : Nat} {n : N} {r : Reason}, s.nodes[i]? = some n → s.reasons[i]? = some r →
    Genuine sys roots s.nodes i n r
  /-- The edges that wait are edges of the nodes at their sources. -/
  waiting : ∀ c, ∀ w ∈ s.waitingFor c, ∃ m x, s.nodes[w.source]? = some m ∧
    (sys.expand m).value = .ok x ∧ ⟨w.target, c, w.label⟩ ∈ x.conditional
  /-- The listed positions are those of dynamic nodes. -/
  dynamic : ∀ i ∈ s.dynamic.toList, ∃ n, s.nodes[i]? = some n ∧ sys.isDynamic n = true

/-- From a founded state, the second state is founded too, and in it all nodes and reasons are where
they were. -/
def Continues (sys : NodeSystem N ε σ) (roots : List (N × String)) (s s' : Analysis N ε) : Prop :=
  Founded sys roots s → Founded sys roots s' ∧ s.nodes <+: s'.nodes ∧ s.reasons <+: s'.reasons

variable {sys : NodeSystem N ε σ} {roots roots' : List (N × String)} {s s' s'' : Analysis N ε}

/-- With more roots, the reasons stay genuine. -/
theorem Founded.mono (h : Founded sys roots s) (hroots : ∀ p ∈ roots, p ∈ roots') :
    Founded sys roots' s where
  length := h.length
  genuine hn hr := (h.genuine hn hr).mono hroots List.prefix_rfl (Nat.le_refl _)
  waiting := h.waiting
  dynamic := h.dynamic

namespace Continues

/-- A state continues itself. -/
theorem refl (s : Analysis N ε) : Continues sys roots s s :=
  fun h => ⟨h, List.prefix_rfl, List.prefix_rfl⟩

/-- A state may be continued step by step. -/
theorem trans (h : Continues sys roots s s') (h' : Continues sys roots s' s'') :
    Continues sys roots s s'' := by
  intro hs
  obtain ⟨hs', hnodes, hreasons⟩ := h hs
  obtain ⟨hs'', hnodes', hreasons'⟩ := h' hs'
  exact ⟨hs'', hnodes.trans hnodes', hreasons.trans hreasons'⟩

/-- Cursors, counters, failures and requests to stop do not matter. -/
theorem of_eq (hnodes : s'.nodes = s.nodes) (hreasons : s'.reasons = s.reasons)
    (hwaiting : s'.waiting = s.waiting) (hdynamic : s'.dynamic = s.dynamic) :
    Continues sys roots s s' := by
  intro h
  refine ⟨⟨?_, ?_, ?_, ?_⟩, hnodes ▸ List.prefix_rfl, hreasons ▸ List.prefix_rfl⟩
  · rw [hnodes, hreasons, h.length]
  · rw [hnodes, hreasons]
    exact h.genuine
  · unfold waitingFor
    rw [hnodes, hwaiting]
    exact h.waiting
  · rw [hnodes, hdynamic]
    exact h.dynamic

/-- Steps along a list may need something of the marked nodes, as long as it stays true when more
nodes are marked. -/
theorem foldl {α : Type} {f : Analysis N ε → α → Analysis N ε} {Q : α → List N → Prop}
    (hmono : ∀ {a : α} {nodes nodes' : List N}, nodes <+: nodes' → Q a nodes → Q a nodes')
    (hf : ∀ {s : Analysis N ε} {a : α}, Q a s.nodes → Continues sys roots s (f s a)) {l : List α}
    (hl : ∀ a ∈ l, Q a s.nodes) : Continues sys roots s (l.foldl f s) := by
  induction l generalizing s with
  | nil => exact refl s
  | cons a l ih =>
    intro hs
    have hstep := hf (hl a List.mem_cons_self)
    have hprefix := (hstep hs).2.1
    exact hstep.trans (ih fun b hb => hmono hprefix (hl b (List.mem_cons_of_mem _ hb))) hs

end Continues

/-! ## Marking -/

/-- A node may be entered for a reason that is genuine at the next position. -/
theorem Founded.enter (h : Founded sys roots s) {n : N} {r : Reason} (hn : n ∉ s.nodes)
    (hr : Genuine sys roots s.nodes s.nodes.length n r) :
    Founded sys roots ((s.release n).enter sys n r) := by
  have hnodes : ((s.release n).enter sys n r).nodes = s.nodes ++ [n] :=
    nodes_enter sys (s.release n) n r hn
  have hreasons : ((s.release n).enter sys n r).reasons = s.reasons ++ [r] :=
    reasons_enter sys (s.release n) n r
  have hprefix : s.nodes <+: s.nodes ++ [n] := List.prefix_append _ _
  constructor
  · rw [hnodes, hreasons, List.length_append, List.length_append, h.length]
    rfl
  · intro i m r' hm hr'
    rw [hnodes] at hm ⊢
    rw [hreasons] at hr'
    by_cases hi : i < s.nodes.length
    · rw [List.getElem?_append_left hi] at hm
      rw [List.getElem?_append_left (h.length ▸ hi)] at hr'
      exact (h.genuine hm hr').mono (fun _ hp => hp) hprefix (Nat.le_refl _)
    · -- what was not marked before stands last, with the reason that was given
      have hlast : i = s.nodes.length := by
        have := (List.getElem?_eq_some_iff.1 hm).1
        rw [List.length_append, List.length_singleton] at this
        omega
      subst hlast
      rw [List.getElem?_concat_length] at hm
      rw [← h.length, List.getElem?_concat_length] at hr'
      cases hm
      cases hr'
      exact hr.mono (fun _ hp => hp) hprefix (Nat.le_refl _)
  · intro c w hw
    rw [waitingFor_enter, waitingFor_release] at hw
    rw [hnodes]
    split at hw
    · cases hw
    · obtain ⟨m, x, hm, hx⟩ := h.waiting c w hw
      exact ⟨m, x, getElem?_of_isPrefix hprefix hm, hx⟩
  · intro i hi
    rw [hnodes]
    rcases (mem_dynamic_enter_release sys s n r i).1 hi with hi | ⟨rfl, hd⟩
    · obtain ⟨m, hm, hd⟩ := h.dynamic i hi
      exact ⟨m, getElem?_of_isPrefix hprefix hm, hd⟩
    · exact ⟨n, by rw [List.getElem?_concat_length], hd⟩

/-- Nodes may be marked for genuine reasons.  The edges that this releases come with genuine reasons
of their own: their source was marked before, and their condition now is. -/
theorem continues_markAll {stack : List (N × Reason)}
    (hstack : ∀ p ∈ stack, Genuine sys roots s.nodes s.nodes.length p.1 p.2) :
    Continues sys roots s (s.markAll sys stack) := by
  fun_induction Analysis.markAll sys s stack with
  | case1 s => exact .refl s
  | case2 s n r rest hn ih => exact ih fun p hp => hstack p (List.mem_cons_of_mem _ hp)
  | case3 s n r rest hn id released ih =>
    intro hs
    have hnot : n ∉ s.nodes := by rwa [s.isMarked_iff] at hn
    have hnodes : ((s.release n).enter sys n r).nodes = s.nodes ++ [n] :=
      nodes_enter sys (s.release n) n r hnot
    have hprefix : s.nodes <+: s.nodes ++ [n] := List.prefix_append _ _
    have hlength : (s.nodes ++ [n]).length = s.nodes.length + 1 := by simp
    have hentered := hs.enter hnot (hstack (n, r) List.mem_cons_self)
    have hrest : ∀ p ∈ released.map (fun w => (w.target, .conditional w.source id w.label)) ++ rest,
        Genuine sys roots ((s.release n).enter sys n r).nodes
          ((s.release n).enter sys n r).nodes.length p.1 p.2 := by
      intro p hp
      rw [hnodes, hlength]
      rcases List.mem_append.1 hp with hp | hp
      · obtain ⟨w, hw, rfl⟩ := List.mem_map.1 hp
        obtain ⟨m, x, hm, hx, he⟩ := hs.waiting n w hw
        have hsource := (List.getElem?_eq_some_iff.1 hm).1
        have hid : id = s.nodes.length := s.size_graph
        refine ⟨by omega, by omega, m, n, x, getElem?_of_isPrefix hprefix hm, ?_, hx, he⟩
        rw [hid, List.getElem?_concat_length]
      · exact (hstack p (List.mem_cons_of_mem _ hp)).mono (fun _ hp => hp) hprefix (Nat.le_succ _)
    obtain ⟨hs', hnodes', hreasons'⟩ := ih hrest hentered
    refine ⟨hs', ?_, ?_⟩
    · rw [hnodes] at hnodes'
      exact hprefix.trans hnodes'
    · rw [reasons_enter] at hreasons'
      exact (List.prefix_append _ _).trans hreasons'

/-- Marking a node for a genuine reason continues a state. -/
theorem continues_mark {n : N} {r : Reason}
    (h : Genuine sys roots s.nodes s.nodes.length n r) : Continues sys roots s (s.mark sys n r) :=
  continues_markAll (by simpa using h)

/-- Marking the targets of edges for genuine reasons continues a state. -/
theorem continues_markEdges {reason : Edge N → Reason} {l : List (Edge N)}
    (hl : ∀ e ∈ l, Genuine sys roots s.nodes s.nodes.length e.target (reason e)) :
    Continues sys roots s (l.foldl (fun s e => s.mark sys e.target (reason e)) s) :=
  .foldl (Q := fun (e : Edge N) nodes => Genuine sys roots nodes nodes.length e.target (reason e))
    (fun hnodes h => h.mono (fun _ hp => hp) hnodes hnodes.length_le) continues_mark hl

/-! ## Expanding and searching -/

/-- Recording a failure continues a state. -/
theorem continues_fail (s : Analysis N ε) (id : Nat) (error : ε) :
    Continues sys roots s (s.fail id error) := by
  unfold fail
  split
  · exact .refl s
  · exact .of_eq rfl rfl rfl rfl

/-- Counting continues a state. -/
theorem continues_count (s : Analysis N ε) (f : Stats → Stats) :
    Continues sys roots s (s.count f) :=
  .of_eq rfl rfl rfl rfl

/-- Taking note of a conditional edge of a marked node continues a state. -/
theorem continues_addConditional {source : Nat} {m : N} {x : Expansion N}
    (hm : s.nodes[source]? = some m) (hx : (sys.expand m).value = .ok x) {e : ConditionalEdge N}
    (he : e ∈ x.conditional) : Continues sys roots s (s.addConditional sys source e) := by
  unfold addConditional
  have hsource := (List.getElem?_eq_some_iff.1 hm).1
  split
  · next condition hcondition =>
    refine (continues_count s _).trans (continues_mark ?_)
    have hc := (s.graph.nodes.position?_eq_some_iff e.condition condition).1 hcondition
    rw [s.get?_nodes] at hc
    exact ⟨hsource, (List.getElem?_eq_some_iff.1 hc).1, m, e.condition, x, hm, hc, hx, he⟩
  · split
    · exact .refl s
    · intro h
      refine ⟨⟨h.length, h.genuine, ?_, h.dynamic⟩, List.prefix_rfl, List.prefix_rfl⟩
      intro c w hw
      simp only [waitingFor, Std.HashMap.getElem?_insert] at hw
      split at hw
      · next heq =>
        have hc : e.condition = c := eq_of_beq heq
        subst hc
        rcases List.mem_cons.1 hw with rfl | hw
        · exact ⟨m, x, hm, hx, he⟩
        · exact h.waiting e.condition w hw
      · exact h.waiting c w hw

/-- The edges of a marked node may be followed. -/
theorem continues_follow {id : Nat} {n : N} {x : Expansion N} (hn : s.nodes[id]? = some n)
    (hx : (sys.expand n).value = .ok x) :
    Continues sys roots s (x.conditional.foldl (addConditional sys id)
      (x.edges.foldl (fun s e => s.mark sys e.target (.edge id e.label)) s)) := by
  intro hs
  have hid := (List.getElem?_eq_some_iff.1 hn).1
  have hedges : Continues sys roots s
      (x.edges.foldl (fun s e => s.mark sys e.target (.edge id e.label)) s) :=
    continues_markEdges fun e he => ⟨hid, n, x, hn, hx, he⟩
  have hn' := getElem?_of_isPrefix (hedges hs).2.1 hn
  refine hedges.trans (.foldl
    (Q := fun (e : ConditionalEdge N) nodes => nodes[id]? = some n ∧ e ∈ x.conditional) ?_ ?_ ?_) hs
  · exact fun hprefix hq => ⟨getElem?_of_isPrefix hprefix hq.1, hq.2⟩
  · exact fun hq => continues_addConditional hq.1 hx hq.2
  · exact fun e he => ⟨hn', he⟩

/-- Taking care of the expansion of a marked node continues a state. -/
theorem continues_apply {id : Nat} {n : N} (hn : s.nodes[id]? = some n) :
    Continues sys roots s (s.apply sys id (sys.expand n).value) := by
  unfold apply
  split
  · exact (continues_count s _).trans (continues_fail _ id _)
  · next x hx =>
    dsimp only
    exact (continues_count s _).trans (continues_follow hn hx)

/-- Expanding a marked node continues a state. -/
theorem continues_expandNode {id : Nat} {n : N} (hn : s.nodes[id]? = some n) :
    Continues sys roots s (s.expandNode sys id n).value := by
  have hasked : Continues sys roots s
      { s with stopRequested := s.stopRequested || sys.requestsStop n } := .of_eq rfl rfl rfl rfl
  rw [value_expandNode]
  exact hasked.trans (continues_apply hn)

/-- Draining the queue continues a state. -/
theorem continues_drain {fuel : Nat} (hdrain : (drain sys fuel s).value = some s') :
    Continues sys roots s s' := by
  refine drain_induction (motive := (Continues sys roots · s')) (fun _ => .refl s')
    (fun {s n} hn ih => ?_) hdrain
  have hpass : Continues sys roots s { s with expanded := s.expanded + 1 } :=
    .of_eq rfl rfl rfl rfl
  refine Continues.trans ?_ ih
  unfold passNext
  split
  · exact hpass
  · exact hpass.trans (continues_expandNode hn)

/-- Expanding a batch of deferred nodes continues a state. -/
theorem continues_expandBatch :
    Continues sys roots s
      ({ s with batched := s.graph.size }.expandBatch sys (s.pending sys)).value := by
  have hbatched : Continues sys roots s { s with batched := s.graph.size } :=
    .of_eq rfl rfl rfl rfl
  rw [expandBatch, Recorded.value_foldlM]
  refine (hbatched.trans (continues_count _ _)).trans (Continues.foldl
    (Q := fun (p : Nat × N) nodes => nodes[p.1]? = some p.2)
    (fun hprefix hp => getElem?_of_isPrefix hprefix hp) continues_expandNode ?_)
  intro p hp
  exact (mem_pending.1 hp).1

/-- What a dynamic node finds over nodes that are marked before may be followed. -/
theorem continues_searchAll : Continues sys roots s (s.searchAll sys).value := by
  have hshown : Continues sys roots s { s with shown := s.graph.size } := .of_eq rfl rfl rfl rfl
  rw [value_searchAll, applyAnswers_eq]
  intro hs
  have hrecorded : Continues sys roots s
      ((s.dynamic.toList.map fun id => (id, (look sys s id).value)).foldl recordAnswer
        { s with shown := s.graph.size }) := by
    refine hshown.trans (.foldl (Q := fun _ _ => True) (fun _ _ => trivial) (fun {s a} _ => ?_)
      fun _ _ => trivial)
    unfold recordAnswer
    split
    · exact continues_fail s _ _
    · exact .refl s
  obtain ⟨-, hnodes, -⟩ := hrecorded hs
  refine hrecorded.trans (.foldl (Q := fun a nodes => ∀ found, a.2 = some (.ok found) →
    ∀ e ∈ found, Genuine sys roots nodes nodes.length e.target (.dynamic a.1 e.label)) ?_ ?_ ?_) hs
  · intro a nodes nodes' hprefix hq found ha e he
    exact (hq found ha e he).mono (fun _ hp => hp) hprefix hprefix.length_le
  · intro s a hq
    unfold followAnswer
    split
    · next found ha => exact (continues_count s _).trans (continues_markEdges (hq found ha))
    · exact .refl s
  · intro a ha found hfound e he
    obtain ⟨id, hid, rfl⟩ := List.mem_map.1 ha
    obtain ⟨n, hn, -, hsearch⟩ := look_eq_some hfound
    obtain ⟨m, hm, hd⟩ := hs.dynamic id hid
    cases hn.symm.trans hm
    have hinfix : s.nodes.drop (s.seen id) <:+: s.nodes.take s.nodes.length := by
      rw [List.take_length]
      exact (List.drop_suffix _ _).isInfix
    have hgenuine : Genuine sys roots s.nodes s.nodes.length e.target (.dynamic id e.label) :=
      ⟨(List.getElem?_eq_some_iff.1 hn).1, n, _, found, hn, hd, hinfix, hsearch.symm, he⟩
    exact hgenuine.mono (fun _ hp => hp) hnodes hnodes.length_le

/-! ## Rounds and runs -/

/-- One round of a run, with whether the run goes on after it; nothing if the fuel runs out. -/
def round (sys : NodeSystem N ε σ) (fuel : Nat) (s : Analysis N ε) :
    Option (Bool × Analysis N ε) :=
  (drain sys fuel (s.count fun c => { c with rounds := c.rounds + 1 })).value.map fun s₁ =>
    if (s₁.pending sys).isEmpty then
      let s₂ := ({ s₁ with batched := s₁.graph.size }.searchAll sys).value
      (decide (s₁.graph.size < s₂.graph.size), s₂)
    else (true, ({ s₁ with batched := s₁.graph.size }.expandBatch sys (s₁.pending sys)).value)

/-- A run is made of rounds. -/
theorem value_run_eq_round (sys : NodeSystem N ε σ) (fuel : Nat) (s : Analysis N ε) :
    (run sys (fuel + 1) s).value =
      if (s.heedsStop && s.stopRequested) = true then .cancelled s
      else
        match s.round sys fuel with
        | none => .exhausted
        | some (more, s') => if more = true then (run sys fuel s').value else .finished s' := by
  rw [value_run_succ, round]
  split
  · rfl
  · cases (drain sys fuel (s.count fun c => { c with rounds := c.rounds + 1 })).value with
    | none => rfl
    | some s₁ => by_cases hpending : s₁.pending sys = [] <;> simp [hpending]

/-- A round continues a state. -/
theorem continues_round {fuel : Nat} {more : Bool} (h : s.round sys fuel = some (more, s')) :
    Continues sys roots s s' := by
  unfold round at h
  obtain ⟨s₁, hdrain, h⟩ := Option.map_eq_some_iff.1 h
  have hbatched : Continues sys roots s₁ { s₁ with batched := s₁.graph.size } :=
    .of_eq rfl rfl rfl rfl
  refine ((continues_count s _).trans (continues_drain hdrain)).trans ?_
  split at h
  · cases h
    exact hbatched.trans continues_searchAll
  · cases h
    exact continues_expandBatch

/-- A run that ends continues a state. -/
theorem continues_run {fuel : Nat}
    (h : (run sys fuel s).value = .finished s' ∨ (run sys fuel s).value = .cancelled s') :
    Continues sys roots s s' := by
  induction fuel generalizing s with
  | zero => rcases h with h | h <;> cases h
  | succ fuel ih =>
    rw [value_run_eq_round] at h
    split at h
    · rcases h with h | h <;> cases h
      exact .refl _
    · cases hround : s.round sys fuel with
      | none => simp [hround] at h
      | some p =>
        obtain ⟨more, s₁⟩ := p
        simp only [hround] at h
        cases more with
        | true => exact (continues_round hround).trans (ih h)
        | false =>
          rcases h with h | h <;> cases h
          exact continues_round hround

end Analysis

/-! ## What leads to a state -/

/-- A marking and the roots that were added to it, with their labels. -/
structure Course (N ε : Type) [BEq N] [LawfulBEq N] [Hashable N] where
  /-- The roots. -/
  roots : List (N × String) := []
  /-- The marking. -/
  analysis : Analysis N ε := {}

namespace Course

variable {N ε σ ω : Type} [BEq N] [LawfulBEq N] [Hashable N] [Recorder σ ω] [Inhabited σ]

/-- What may happen to a marking. -/
inductive Step (sys : NodeSystem N ε σ) : Course N ε → Course N ε → Prop
  /-- A root is added. -/
  | addRoot (c : Course N ε) (n : N) (label : String) :
      Step sys c ⟨c.roots ++ [(n, label)], c.analysis.addRoot sys n label⟩
  /-- A run is made, which is finished or cancelled; some nodes may ask it to stop. -/
  | run (c : Course N ε) (stops : N → Bool) (fuel : Nat) {s : Analysis N ε} :
      (c.analysis.run { sys with requestsStop := stops } fuel).value = .finished s ∨
        (c.analysis.run { sys with requestsStop := stops } fuel).value = .cancelled s →
      Step sys c { c with analysis := s }
  /-- A run is stopped after a round, whoever asked for it. -/
  | round (c : Course N ε) (fuel : Nat) {more : Bool} {s : Analysis N ε} :
      c.analysis.round sys fuel = some (more, s) → Step sys c { c with analysis := s }
  /-- A request to stop is made or withdrawn. -/
  | signal (c : Course N ε) (heeds asked : Bool) :
      Step sys c { c with
        analysis := { c.analysis with heedsStop := heeds, stopRequested := asked } }

/-- What can happen to a marking. -/
def Leads (sys : NodeSystem N ε σ) : Course N ε → Course N ε → Prop :=
  Relation.ReflTransGen (Step sys)

/-- All reasons are genuine. -/
def Founded (sys : NodeSystem N ε σ) (c : Course N ε) : Prop :=
  c.analysis.Founded sys c.roots

variable {sys : NodeSystem N ε σ} {c c' : Course N ε}

/-- Each step keeps all reasons genuine, and all nodes and reasons where they are. -/
theorem Founded.step (h : c.Founded sys) (hstep : Step sys c c') :
    c'.Founded sys ∧ c.analysis.nodes <+: c'.analysis.nodes ∧
      c.analysis.reasons <+: c'.analysis.reasons := by
  cases hstep with
  | addRoot n label =>
    have hroots : ∀ p ∈ c.roots, p ∈ c.roots ++ [(n, label)] := fun _ =>
      List.mem_append_left _
    exact Analysis.continues_mark (List.mem_append_right _ (List.mem_singleton_self _))
      (Analysis.Founded.mono h hroots)
  | run stops fuel hrun =>
    -- founded states do not speak of who asks to stop
    have h' : c.analysis.Founded { sys with requestsStop := stops } c.roots :=
      ⟨h.length, h.genuine, h.waiting, h.dynamic⟩
    obtain ⟨hs, hnodes, hreasons⟩ := Analysis.continues_run hrun h'
    exact ⟨⟨hs.length, hs.genuine, hs.waiting, hs.dynamic⟩, hnodes, hreasons⟩
  | round fuel hround => exact Analysis.continues_round hround h
  | signal heeds asked => exact Analysis.Continues.of_eq rfl rfl rfl rfl h

/-- Whatever happens to a marking, its reasons stay genuine and where they are. -/
theorem Founded.leads (h : c.Founded sys) (hleads : c.Leads sys c') :
    c'.Founded sys ∧ c.analysis.nodes <+: c'.analysis.nodes ∧
      c.analysis.reasons <+: c'.analysis.reasons := by
  induction hleads with
  | refl => exact ⟨h, List.prefix_rfl, List.prefix_rfl⟩
  | tail _ hstep ih =>
    obtain ⟨hfounded, hnodes, hreasons⟩ := ih
    obtain ⟨hfounded', hnodes', hreasons'⟩ := hfounded.step hstep
    exact ⟨hfounded', hnodes.trans hnodes', hreasons.trans hreasons'⟩

/-- However a marking was reached, all its reasons are genuine. -/
theorem founded_of_leads (h : Leads sys {} c) : c.Founded sys := by
  have hstart : Founded sys ({} : Course N ε) := by
    refine ⟨rfl, ?_, ?_, ?_⟩
    · intro i n r hn
      cases hn
    · intro w hw
      simp [Analysis.waitingFor]
    · intro i hi
      cases hi
  exact (hstart.leads h).1

end Course

/-! ## Back to a root -/

namespace Graph

variable {N ε : Type} [BEq N] [LawfulBEq N] [Hashable N]

/-- A way back from a position to a root: each node with the label of its reason, and then the way
back from where the reason comes from. -/
inductive Traces (g : Graph N ε) : Nat → List (N × String) → Prop
  | root {i : Nat} {n : N} {label : String} : g.nodes.get? i = some n →
      g.reasons[i]? = some (.root label) → Traces g i [(n, label)]
  | back {i j : Nat} {n : N} {r : Reason} {path : List (N × String)} : g.nodes.get? i = some n →
      g.reasons[i]? = some r → r.source? = some j → j < i → Traces g j path →
      Traces g i ((n, r.label) :: path)

variable {g : Graph N ε}

/-- A way back begins at the node that it leads back from. -/
theorem Traces.exists_head {i : Nat} {path : List (N × String)} (h : g.Traces i path) :
    ∃ n label, g.nodes.get? i = some n ∧ path.head? = some (n, label) := by
  cases h with
  | root hn _ => exact ⟨_, _, hn, rfl⟩
  | back hn _ _ _ _ => exact ⟨_, _, hn, rfl⟩

/-- A way back ends at a root. -/
theorem Traces.exists_getLast {i : Nat} {path : List (N × String)} (h : g.Traces i path) :
    ∃ n label, path.getLast? = some (n, label) ∧ g.reason? n = some (.root label) := by
  induction h with
  | @root i n label hn hr =>
    have hposition := (g.nodes.position?_eq_some_iff n i).2 hn
    exact ⟨n, label, rfl, by rw [reason?, position?, hposition, Option.bind_some, hr]⟩
  | @back i j n r path _ _ _ _ _ ih =>
    obtain ⟨m, label, hlast, hroot⟩ := ih
    refine ⟨m, label, ?_, hroot⟩
    rw [List.getLast?_cons, hlast]
    rfl

end Graph

namespace Analysis

variable {N ε σ ω : Type} [BEq N] [LawfulBEq N] [Hashable N] [Recorder σ ω] [Inhabited σ]
  {sys : NodeSystem N ε σ} {roots : List (N × String)} {s : Analysis N ε}

/-- From every marked node, following the reasons ends at a root.  It takes no more steps than the
position of the node. -/
theorem Founded.exists_path (h : Founded sys roots s) {i : Nat} {n : N}
    (hn : s.graph.nodes.get? i = some n) :
    ∃ path, s.graph.Traces i path ∧ ∀ fuel, i < fuel → s.graph.pathFrom fuel i = path := by
  induction i using Nat.strong_induction_on generalizing n with
  | _ i ih =>
    have hn' : s.nodes[i]? = some n := s.get?_nodes i ▸ hn
    have hi : i < s.reasons.length := h.length ▸ (List.getElem?_eq_some_iff.1 hn').1
    obtain ⟨r, hr⟩ : ∃ r, s.reasons[i]? = some r := ⟨_, List.getElem?_eq_getElem hi⟩
    have hr' : s.graph.reasons[i]? = some r := Array.getElem?_toList ▸ hr
    have hgenuine := h.genuine hn' hr
    cases hsource : r.source? with
    | none =>
      obtain ⟨label, rfl⟩ : ∃ label, r = .root label := by
        cases r with
        | root label => exact ⟨label, rfl⟩
        | _ => cases hsource
      refine ⟨[(n, label)], .root hn hr', fun fuel hfuel => ?_⟩
      obtain ⟨fuel, rfl⟩ : ∃ k, fuel = k + 1 := ⟨fuel - 1, by omega⟩
      simp [Graph.pathFrom, hn, hr', Reason.source?, Reason.label]
    | some j =>
      have hj := hgenuine.source_lt hsource
      obtain ⟨m, hm⟩ : ∃ m, s.nodes[j]? = some m :=
        ⟨_, List.getElem?_eq_getElem (h.length ▸ hj.trans hi)⟩
      obtain ⟨path, htraces, hpath⟩ := ih j hj (s.get?_nodes j ▸ hm)
      refine ⟨(n, r.label) :: path, .back hn hr' hsource hj htraces, fun fuel hfuel => ?_⟩
      obtain ⟨fuel, rfl⟩ : ∃ k, fuel = k + 1 := ⟨fuel - 1, by omega⟩
      simp [Graph.pathFrom, hn, hr', hsource, hpath fuel (by omega)]

end Analysis

namespace Course

variable {N ε σ ω : Type} [BEq N] [LawfulBEq N] [Hashable N] [Recorder σ ω] [Inhabited σ]
  {sys : NodeSystem N ε σ} {c : Course N ε}

/-- Whatever was done to a marking, each marked node has one position and one reason, which it keeps
whatever is done later.  The reason is genuine: it names an edge that leads to the node, from nodes
marked before it.  Following the reasons from a marked node ends, at a root, however long one is
ready to follow them. -/
theorem reasons_genuine (h : Leads sys {} c) :
    (∀ n i, c.analysis.graph.position? n = some i ↔ c.analysis.graph.nodes.get? i = some n) ∧
    c.analysis.graph.reasons.size = c.analysis.graph.size ∧
    (∀ i n r, c.analysis.graph.nodes.get? i = some n → c.analysis.graph.reasons[i]? = some r →
      Genuine sys c.roots c.analysis.nodes i n r) ∧
    (∀ c', c.Leads sys c' → ∀ n i, c.analysis.graph.position? n = some i →
      c'.analysis.graph.position? n = some i ∧
        c'.analysis.graph.reason? n = c.analysis.graph.reason? n) ∧
    ∀ n, c.analysis.graph.isMarked n = true → ∃ i path,
      c.analysis.graph.position? n = some i ∧ c.analysis.graph.pathToRoot? n = some path ∧
      c.analysis.graph.Traces i path ∧
      (∀ fuel, i < fuel → c.analysis.graph.pathFrom fuel i = path) ∧
      (∃ label, path.head? = some (n, label)) ∧
      ∃ m label, path.getLast? = some (m, label) ∧
        c.analysis.graph.reason? m = some (.root label) := by
  have hfounded := founded_of_leads h
  have hposition := c.analysis.graph.nodes.position?_eq_some_iff
  refine ⟨hposition, ?_, ?_, ?_, ?_⟩
  · rw [c.analysis.size_graph, ← hfounded.length]
    exact Array.length_toList.symm
  · intro i n r hn hr
    rw [c.analysis.get?_nodes] at hn
    exact hfounded.genuine hn (Array.getElem?_toList.trans hr)
  · intro c' hleads n i hi
    obtain ⟨-, hnodes, hreasons⟩ := hfounded.leads hleads
    have hi' : c'.analysis.graph.position? n = some i :=
      (c'.analysis.graph.nodes.position?_eq_some_iff n i).2
        (Roster.get?_of_prefix hnodes ((hposition n i).1 hi))
    refine ⟨hi', ?_⟩
    have hget := (hposition n i).1 hi
    rw [c.analysis.get?_nodes] at hget
    have hlt : i < c.analysis.reasons.length :=
      hfounded.length ▸ (List.getElem?_eq_some_iff.1 hget).1
    have hr : c.analysis.reasons[i]? = some c.analysis.reasons[i] := List.getElem?_eq_getElem hlt
    rw [Graph.reason?, Graph.reason?, hi, hi', Option.bind_some, Option.bind_some,
      ← Array.getElem?_toList, ← Array.getElem?_toList]
    exact (getElem?_of_isPrefix hreasons hr).trans hr.symm
  · intro n hn
    obtain ⟨i, hi⟩ := (c.analysis.graph.nodes.mem_toList_iff_get? n).1
      ((c.analysis.isMarked_iff n).1 hn)
    have hi' := (hposition n i).2 hi
    obtain ⟨path, htraces, hpath⟩ := hfounded.exists_path hi
    obtain ⟨m, label, hm, hhead⟩ := htraces.exists_head
    cases hi.symm.trans hm
    refine ⟨i, path, hi', ?_, htraces, hpath, ⟨label, hhead⟩, htraces.exists_getLast⟩
    have hsize : i < c.analysis.graph.size := Roster.lt_size_of_get? hi
    rw [Graph.pathToRoot?, Graph.position?, hi', Option.map_some, hpath _ hsize]

end Course

namespace Analysis

/-- In `branching`, only the root leads to node 3, and nothing leads to the root. -/
theorem genuine_branching {nodes : List Nat} {i n : Nat} {r : Reason}
    (h : Genuine branching [(0, "start")] nodes i n r) :
    (n = 0 → r = .root "start") ∧
      (n = 3 → ∃ j k, r = .conditional j k "if 2" ∧ nodes[j]? = some 0) := by
  cases r with
  | root label =>
    obtain ⟨rfl, rfl⟩ := Prod.mk.inj (List.mem_singleton.1 h)
    simp
  | edge source label =>
    obtain ⟨-, m, x, -, hx, he⟩ := h
    match m, hx with
    | 0, hx | 1, hx | 2, hx | k + 4, hx =>
      cases hx
      simp_all
  | conditional source condition label =>
    obtain ⟨-, -, m, c, x, hm, -, hx, he⟩ := h
    match m, hx with
    | 0, hx =>
      cases hx
      simp only [List.mem_cons, ConditionalEdge.mk.injEq, List.not_mem_nil, or_false] at he
      rcases he with ⟨rfl, -, rfl⟩ | ⟨rfl, -, -⟩
      · exact ⟨by simp, fun _ => ⟨source, condition, rfl, hm⟩⟩
      · simp
    | 1, hx | 2, hx | k + 4, hx =>
      cases hx
      cases he
  | dynamic source label =>
    obtain ⟨-, m, shown, found, -, -, -, hfound, he⟩ := h
    cases hfound
    obtain ⟨k, -, he⟩ := List.mem_flatMap.1 he
    split at he <;> simp_all

/-- Once `branching` is run, node 3 is marked, and the way back from it leads straight to the root,
although the condition was found by another node. -/
theorem reasons_genuine_branching : ∃ c : Course Nat String, Course.Leads branching {} c ∧
    c.roots = [(0, "start")] ∧ c.analysis.graph.isMarked 3 = true ∧
    c.analysis.graph.pathToRoot? 3 = some [(3, "if 2"), (0, "start")] := by
  obtain ⟨s, fuel, hfinished, hnodes⟩ := exists_finished_branching
  let c : Course Nat String := ⟨[(0, "start")], s⟩
  have hleads : Course.Leads branching {} c :=
    (Relation.ReflTransGen.single (.addRoot {} 0 "start")).tail
      (.run _ branching.requestsStop fuel (.inl hfinished))
  have hmarked : s.graph.isMarked 3 = true := by
    rw [s.isMarked_iff, hnodes]
    simp
  refine ⟨c, hleads, rfl, hmarked, ?_⟩
  obtain ⟨hposition, -, hgenuine, -, hpaths⟩ := Course.reasons_genuine hleads
  obtain ⟨i, path, hi, hpath, htraces, -⟩ := hpaths 3 hmarked
  rw [hpath]
  have hthree := (hposition 3 i).1 hi
  cases htraces with
  | root hn hr =>
    cases hthree.symm.trans hn
    obtain ⟨j, k, hreason, -⟩ := (genuine_branching (hgenuine i 3 _ hn hr)).2 rfl
    cases hreason
  | @back i j n r path hn hr hsource _ htraces =>
    cases hthree.symm.trans hn
    obtain ⟨j', k, rfl, hj⟩ := (genuine_branching (hgenuine i 3 _ hn hr)).2 rfl
    cases hsource
    rw [← c.analysis.get?_nodes] at hj
    cases htraces with
    | root hn hr =>
      cases hj.symm.trans hn
      cases (genuine_branching (hgenuine j 0 _ hn hr)).1 rfl
      rfl
    | back hn hr hsource _ _ =>
      cases hj.symm.trans hn
      cases (genuine_branching (hgenuine j 0 _ hn hr)).1 rfl
      cases hsource

end Analysis

/-! ## Markings that can be followed step by step -/

namespace Analysis

section Followed

variable {N ε σ ω : Type} [BEq N] [LawfulBEq N] [Hashable N] [Recorder σ ω] [Inhabited σ]
  {sys : NodeSystem N ε σ} {s : Analysis N ε} {n : N} {r : Reason}

omit [Inhabited σ] in
/-- Marking a node for which no edge waits marks nothing else. -/
theorem mark_of_not_mem (hn : n ∉ s.nodes) (hw : s.waitingFor n = []) :
    s.mark sys n r = (s.release n).enter sys n r := by
  have hmarked : ¬s.graph.isMarked n = true := fun h => hn ((s.isMarked_iff n).1 h)
  rw [mark, markAll, if_neg hmarked, hw]
  exact markAll.eq_1 _ _

/-- What there is to see of a state in which no edge waits and no node is dynamic. -/
structure Shows (s : Analysis N ε) (entries : List (N × Reason)) (expanded : Nat) (stats : Stats) :
    Prop where
  nodes : s.nodes = entries.map (·.1)
  reasons : s.reasons = entries.map (·.2)
  expanded : s.expanded = expanded
  stats : s.graph.stats = stats
  waiting : ∀ n, s.waitingFor n = []
  dynamic : s.dynamic = #[]
  goesOn : s.heedsStop = false

namespace Shows

variable {entries : List (N × Reason)} {k : Nat} {stats : Stats}

/-- In a fresh state there is nothing to see. -/
theorem fresh : Shows ({} : Analysis N ε) [] 0 {} :=
  ⟨rfl, rfl, rfl, rfl, fun n => by simp [waitingFor], rfl, rfl⟩

/-- Counting shows in the counters only. -/
theorem count (h : s.Shows entries k stats) (f : Stats → Stats) :
    (s.count f).Shows entries k (f stats) :=
  ⟨h.nodes, h.reasons, h.expanded, congrArg f h.stats, h.waiting, h.dynamic, h.goesOn⟩

/-- Where no edge waits, a release does not show. -/
theorem release (h : s.Shows entries k stats) (n : N) : (s.release n).Shows entries k stats := by
  refine ⟨h.nodes, h.reasons, h.expanded, ?_, fun c => ?_, h.dynamic, h.goesOn⟩
  · rw [Analysis.release, h.waiting n]
    exact h.stats
  · rw [waitingFor_release, h.waiting c, ite_self]

omit [Inhabited σ] in
/-- A node that is entered shows at the end, and is counted. -/
theorem enter (h : s.Shows entries k stats) (hn : n ∉ entries.map (·.1))
    (hd : sys.isDynamic n = false) (r : Reason) :
    (s.enter sys n r).Shows (entries ++ [(n, r)]) k { stats with marked := stats.marked + 1 } := by
  have hn' : n ∉ s.nodes := h.nodes ▸ hn
  have henter : s.enter sys n r = { s with graph := s.graph.enter n r } := by
    rw [Analysis.enter, hd]
    rfl
  refine ⟨?_, ?_, ?_, ?_, fun c => ?_, ?_, ?_⟩
  · rw [nodes_enter sys s n r hn', h.nodes, List.map_append]
    rfl
  · rw [reasons_enter, h.reasons, List.map_append]
    rfl
  · rw [henter]
    exact h.expanded
  · rw [henter, ← h.stats]
    rfl
  · rw [waitingFor_enter, h.waiting c]
  · rw [henter]
    exact h.dynamic
  · rw [henter]
    exact h.goesOn

omit [Inhabited σ] in
/-- A node that is marked shows at the end, and is counted. -/
theorem mark (sys : NodeSystem N ε σ) (h : s.Shows entries k stats) (hn : n ∉ entries.map (·.1))
    (hd : sys.isDynamic n = false) (r : Reason) :
    (s.mark sys n r).Shows (entries ++ [(n, r)]) k { stats with marked := stats.marked + 1 } := by
  rw [mark_of_not_mem (h.nodes ▸ hn) (h.waiting n)]
  exact (h.release n).enter hn hd r

/-- A node has the position at which it shows. -/
theorem position? (h : s.Shows entries k stats) {i : Nat} {r : Reason}
    (hi : entries[i]? = some (n, r)) : s.graph.position? n = some i := by
  refine (s.graph.nodes.position?_eq_some_iff n i).2 ?_
  rw [s.get?_nodes, h.nodes, List.getElem?_map, hi]
  rfl

omit [Inhabited σ] in
/-- A conditional edge whose condition is marked is released at once. -/
theorem addConditional (sys : NodeSystem N ε σ) (h : s.Shows entries k stats) {i : Nat}
    {e : ConditionalEdge N} (hcondition : entries[i]? = some (e.condition, r))
    (htarget : e.target ∉ entries.map (·.1)) (hd : sys.isDynamic e.target = false) (source : Nat) :
    (s.addConditional sys source e).Shows
      (entries ++ [(e.target, .conditional source i e.label)]) k
      { stats with marked := stats.marked + 1, releasedEdges := stats.releasedEdges + 1 } := by
  have hcount := (h.count fun c => { c with releasedEdges := c.releasedEdges + 1 }).mark sys htarget
    hd (.conditional source i e.label)
  rw [Analysis.addConditional, h.position? hcondition]
  exact hcount

omit [Inhabited σ] in
/-- A conditional edge whose target is marked before its condition is dropped. -/
theorem addConditional_eq (sys : NodeSystem N ε σ) (h : s.Shows entries k stats)
    {e : ConditionalEdge N} (hcondition : e.condition ∉ entries.map (·.1))
    (htarget : e.target ∈ entries.map (·.1)) (source : Nat) : s.addConditional sys source e = s := by
  have hnone : s.graph.position? e.condition = none := by
    rw [Option.eq_none_iff_forall_not_mem]
    intro i hi
    exact hcondition (h.nodes ▸ s.position?_eq_some hi)
  have hmarked := (s.isMarked_iff e.target).2 (h.nodes ▸ htarget)
  simp only [Analysis.addConditional, hnone, hmarked, if_true]

/-- The state in which the edges of the next node are followed. -/
theorem passNext (sys : NodeSystem N ε σ) (h : s.Shows entries k stats)
    (hd : sys.isDeferred n = false) {x : Expansion N} (hx : (sys.expand n).value = .ok x) :
    ∃ t : Analysis N ε, t.Shows entries (k + 1) { stats with
        expanded := stats.expanded + 1
        edges := stats.edges + x.edges.length
        conditionalEdges := stats.conditionalEdges + x.conditional.length } ∧
      s.passNext sys n = x.conditional.foldl (Analysis.addConditional sys k)
        (x.edges.foldl (fun s e => s.mark sys e.target (.edge k e.label)) t) := by
  have hnext : Shows { s with
      expanded := s.expanded + 1
      stopRequested := s.stopRequested || sys.requestsStop n } entries (k + 1) stats :=
    ⟨h.nodes, h.reasons, congrArg (· + 1) h.expanded, h.stats, h.waiting, h.dynamic, h.goesOn⟩
  refine ⟨_, hnext.count fun c => { c with
    expanded := c.expanded + 1
    edges := c.edges + x.edges.length
    conditionalEdges := c.conditionalEdges + x.conditional.length }, ?_⟩
  rw [Analysis.passNext, hd, if_neg Bool.false_ne_true, value_expandNode, hx, h.expanded]
  rfl

/-- Draining goes on with the next node. -/
theorem value_drain_succ (h : s.Shows entries k stats) (fuel : Nat)
    (hk : entries[k]? = some (n, r)) :
    (drain sys (fuel + 1) s).value = (drain sys fuel (s.passNext sys n)).value := by
  refine Analysis.value_drain_succ fuel ?_
  rw [h.expanded, h.nodes, List.getElem?_map, hk]
  rfl

/-- If no node is left, draining changes nothing. -/
theorem value_drain_of_none (h : s.Shows entries k stats) (fuel : Nat)
    (hk : entries[k]? = none) : (drain sys fuel s).value = some s := by
  refine Analysis.value_drain_of_none fuel ?_
  rw [h.expanded, h.nodes, List.getElem?_map, hk]
  rfl

/-- A run is finished when nothing is left to expand, if no node is deferred. -/
theorem value_run (h : s.Shows entries k stats) (hd : ∀ n, sys.isDeferred n = false) {fuel : Nat}
    {t : Analysis N ε} {entries' : List (N × Reason)} {k' : Nat} {stats' : Stats}
    (hdrain : (drain sys fuel (s.count fun c => { c with rounds := c.rounds + 1 })).value = some t)
    (ht : t.Shows entries' k' stats') :
    ∃ t' : Analysis N ε, (run sys (fuel + 1) s).value = .finished t' ∧
      t'.Shows entries' k' stats' := by
  have hpending : t.pending sys = [] := by
    rw [List.eq_nil_iff_forall_not_mem]
    rintro ⟨i, m⟩ hm
    exact absurd ((mem_pending.1 hm).2.2.symm.trans (hd m)) nofun
  have hsearch : ({ t with batched := t.graph.size }.searchAll sys).value =
      { t with batched := t.graph.size, shown := t.graph.size } := by
    rw [value_searchAll, ht.dynamic]
    rfl
  refine ⟨{ t with batched := t.graph.size, shown := t.graph.size }, ?_,
    ⟨ht.nodes, ht.reasons, ht.expanded, ht.stats, ht.waiting, ht.dynamic, ht.goesOn⟩⟩
  rw [value_run_eq_round, h.goesOn, round, hdrain]
  simp [hpending, hsearch]

end Shows

end Followed

/-- A system of four nodes.  Node 0 leads to node 1 at once, and once more under the condition 2; when
node 2 is marked, node 1 has been for long.  Node 2 leads to node 3 under the condition 0. -/
def shortcut : NodeSystem Nat String (Array Unit) where
  expand n := pure <| match n with
    | 0 => .ok { edges := [⟨1, "the \"next\" one"⟩], conditional := [⟨1, 2, "if 2"⟩] }
    | 1 => .ok { edges := [⟨2, "edge"⟩] }
    | 2 => .ok { conditional := [⟨3, 0, "if 0"⟩] }
    | _ => .ok {}

/-- What a run of `shortcut` marks and counts. -/
theorem value_run_shortcut : ∃ s : Analysis Nat String,
    (run shortcut 5 (({} : Analysis Nat String).addRoot shortcut 0 "start")).value = .finished s ∧
    s.Shows [(0, .root "start"), (1, .edge 0 "the \"next\" one"), (2, .edge 1 "edge"),
        (3, .conditional 2 0 "if 0")] 4
      { marked := 4, expanded := 4, edges := 2, conditionalEdges := 2, releasedEdges := 1,
        rounds := 1 } := by
  have hroot := (Shows.fresh (N := Nat) (ε := String)).mark shortcut (n := 0) (by simp)
    rfl (.root "start")
  have h₀ := hroot.count fun c => { c with rounds := c.rounds + 1 }
  obtain ⟨t₀, ht₀, hpass₀⟩ := h₀.passNext shortcut (n := 0) rfl rfl
  have h₁ := ht₀.mark shortcut (n := 1) (by simp) rfl (.edge 0 "the \"next\" one")
  -- node 1 is marked, node 2 is not
  have hdrop := h₁.addConditional_eq shortcut (e := ⟨1, 2, "if 2"⟩) (by simp) (by simp) 0
  obtain ⟨t₁, ht₁, hpass₁⟩ := h₁.passNext shortcut (n := 1) rfl rfl
  have h₂ := ht₁.mark shortcut (n := 2) (by simp) rfl (.edge 1 "edge")
  obtain ⟨t₂, ht₂, hpass₂⟩ := h₂.passNext shortcut (n := 2) rfl rfl
  have h₃ := ht₂.addConditional shortcut (e := ⟨3, 0, "if 0"⟩) (i := 0) rfl (by simp) rfl 2
  obtain ⟨t₃, ht₃, hpass₃⟩ := h₃.passNext shortcut (n := 3) rfl rfl
  refine hroot.value_run (fun _ => rfl) ?_ ht₃
  calc (drain shortcut 4 _).value
    _ = (drain shortcut 3 (t₀.mark shortcut 1 (.edge 0 "the \"next\" one"))).value := by
      rw [h₀.value_drain_succ 3 rfl, hpass₀]
      exact congrArg (fun s => (drain shortcut 3 s).value) hdrop
    _ = (drain shortcut 2 (t₁.mark shortcut 2 (.edge 1 "edge"))).value := by
      rw [h₁.value_drain_succ 2 rfl, hpass₁]
      rfl
    _ = (drain shortcut 1 (t₂.addConditional shortcut 2 ⟨3, 0, "if 0"⟩)).value := by
      rw [h₂.value_drain_succ 1 rfl, hpass₂]
      rfl
    _ = some t₃ := by
      rw [h₃.value_drain_succ 0 rfl, hpass₃]
      exact ht₃.value_drain_of_none 0 rfl

end Analysis

end AheadOfTime.Marking
