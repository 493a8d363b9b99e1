import AheadOfTime.Marking.Run
import AheadOfTime.Proofs.Roster

/-!
# What marking does to a state

Every operation of a marking only adds to the state: marked nodes keep their positions, failures
stay recorded, and a conditional edge that was taken note of is never lost.  It is either settled,
because its target is marked, or it still waits for a condition that is not marked.  `Grows` says
this, and it is proved once for each operation, from the marking of a stack upwards.

The other direction, that nothing is marked without a reason, is `Sound`: the marked nodes stay in
every set that is closed under the edges of the system, the edges that wait are edges of marked
nodes, and the recorded failures did happen.
-/

set_option autoImplicit false

namespace AheadOfTime

namespace Marking.Analysis

variable {N ε σ ω : Type} [BEq N] [LawfulBEq N] [Hashable N] [Recorder σ ω]

/-! ## Views of a state -/

/-- The marked nodes, in marking order. -/
def nodes (s : Analysis N ε) : List N :=
  s.graph.nodes.toList

/-- The recorded failures, in order. -/
def failures (s : Analysis N ε) : List (Failure N ε) :=
  s.graph.failures.toList

/-- A conditional edge to `t` under the condition `c` is taken care of: `t` is marked, or `c` is not
and the edge waits for it. -/
def Noted (s : Analysis N ε) (t c : N) : Prop :=
  t ∈ s.nodes ∨ c ∉ s.nodes ∧ ∃ w ∈ s.waitingFor c, w.target = t

/-- The marked nodes are the listed ones. -/
theorem isMarked_iff (s : Analysis N ε) (n : N) : s.graph.isMarked n = true ↔ n ∈ s.nodes :=
  s.graph.nodes.contains_iff_mem n

/-- The node at a position is the one that is listed there. -/
theorem get?_nodes (s : Analysis N ε) (i : Nat) : s.graph.nodes.get? i = s.nodes[i]? :=
  s.graph.nodes.get?_eq_getElem? i

/-- The size of the graph is the number of marked nodes. -/
theorem size_graph (s : Analysis N ε) : s.graph.size = s.nodes.length :=
  s.graph.nodes.size_eq_length

/-- No node is marked twice. -/
theorem nodup_nodes (s : Analysis N ε) : s.nodes.Nodup :=
  s.graph.nodes.nodup_toList

/-- The nodes since a position are those that were marked later. -/
theorem since_eq_drop (s : Analysis N ε) (start : Nat) :
    s.graph.since start = s.nodes.drop start := by
  have hsize := s.size_graph
  simp only [Graph.since, nodes, Roster.toList] at hsize ⊢
  rw [Array.toList_extract, List.extract_eq_take_drop, List.take_of_length_le]
  simp [hsize]

/-- A node has failed exactly if a failure is recorded for its position. -/
theorem hasFailed_iff (s : Analysis N ε) (id : Nat) :
    s.graph.hasFailed id = true ↔ ∃ f ∈ s.failures, f.id = id := by
  rw [Graph.hasFailed, ← Array.any_toList, List.any_eq_true]
  simp [failures]

/-- A node with a position is marked. -/
theorem position?_eq_some (s : Analysis N ε) {n : N} {i : Nat}
    (h : s.graph.position? n = some i) : n ∈ s.nodes := by
  have hget := (s.graph.nodes.position?_eq_some_iff n i).1 h
  rw [s.get?_nodes] at hget
  exact List.mem_of_getElem? hget

/-- A node without a position is not marked. -/
theorem position?_eq_none (s : Analysis N ε) {n : N} (h : s.graph.position? n = none) :
    n ∉ s.nodes := by
  intro hn
  obtain ⟨i, hi⟩ := List.mem_iff_getElem?.1 hn
  rw [← s.get?_nodes] at hi
  have := (s.graph.nodes.position?_eq_some_iff n i).2 hi
  exact absurd (this.symm.trans h) (by simp)

/-- Releasing edges marks nothing by itself. -/
@[simp] theorem nodes_release (s : Analysis N ε) (n : N) : (s.release n).nodes = s.nodes := rfl

/-- The edges that wait for other nodes still do so after a release. -/
theorem waitingFor_release (s : Analysis N ε) (n c : N) :
    (s.release n).waitingFor c = if n == c then [] else s.waitingFor c := by
  simp only [waitingFor, waiting_release, Std.HashMap.getElem?_erase]
  split <;> rfl

/-- Entering a node leaves alone what waits for any node. -/
@[simp] theorem waitingFor_enter (sys : NodeSystem N ε σ) (s : Analysis N ε) (n : N) (r : Reason)
    (c : N) : (s.enter sys n r).waitingFor c = s.waitingFor c := by
  simp [waitingFor]

/-- A node that is entered is listed last. -/
theorem nodes_enter (sys : NodeSystem N ε σ) (s : Analysis N ε) (n : N) (r : Reason)
    (h : n ∉ s.nodes) : (s.enter sys n r).nodes = s.nodes ++ [n] := by
  unfold enter
  split <;> exact s.graph.nodes.toList_insert_of_not_mem n h

/-- A node that is entered is dynamic at its position, if it is at all, and the positions of other
dynamic nodes stay. -/
theorem mem_dynamic_enter_release (sys : NodeSystem N ε σ) (s : Analysis N ε) (n : N) (r : Reason)
    (i : Nat) : i ∈ ((s.release n).enter sys n r).dynamic.toList ↔
      i ∈ s.dynamic.toList ∨ i = s.nodes.length ∧ sys.isDynamic n = true := by
  unfold enter
  split
  · next hd => simp [hd, release, Analysis.count, ← s.size_graph, Graph.size]
  · next hd => simp [hd, release, Analysis.count]

/-! ## Growth -/

/-- The second state has everything that the first one has. -/
structure Grows (s s' : Analysis N ε) : Prop where
  nodes : s.nodes <+: s'.nodes
  failures : s.failures <+: s'.failures
  noted : ∀ t c, s.Noted t c → s'.Noted t c

/-- The second state has everything that the first one has, and the same cursors. -/
structure Extends (s s' : Analysis N ε) : Prop extends Grows s s' where
  expanded : s'.expanded = s.expanded
  batched : s'.batched = s.batched
  shown : s'.shown = s.shown
  heedsStop : s'.heedsStop = s.heedsStop

namespace Grows

variable {s s' s'' : Analysis N ε}

/-- A state has everything that it has. -/
theorem refl (s : Analysis N ε) : s.Grows s :=
  ⟨List.prefix_rfl, List.prefix_rfl, fun _ _ h => h⟩

/-- What grows in two steps grows. -/
theorem trans (h : s.Grows s') (h' : s'.Grows s'') : s.Grows s'' where
  nodes := h.nodes.trans h'.nodes
  failures := h.failures.trans h'.failures
  noted t c hn := h'.noted t c (h.noted t c hn)

/-- Marked nodes stay marked. -/
theorem mem (h : s.Grows s') {n : N} (hn : n ∈ s.nodes) : n ∈ s'.nodes :=
  h.nodes.subset hn

/-- Nodes keep their positions. -/
theorem getElem? (h : s.Grows s') {i : Nat} {n : N} (hn : s.nodes[i]? = some n) :
    s'.nodes[i]? = some n :=
  getElem?_of_isPrefix h.nodes hn

/-- Positions that were taken have kept their nodes. -/
theorem getElem?_of_lt (h : s.Grows s') {i : Nat} {n : N} (hn : s'.nodes[i]? = some n)
    (hi : i < s.nodes.length) : s.nodes[i]? = some n := by
  obtain ⟨rest, hrest⟩ := h.nodes
  rwa [← hrest, List.getElem?_append_left hi] at hn

/-- The number of marked nodes does not shrink. -/
theorem length_le (h : s.Grows s') : s.nodes.length ≤ s'.nodes.length :=
  h.nodes.length_le

/-- Failures stay recorded. -/
theorem hasFailed (h : s.Grows s') {i : Nat} (hi : s.graph.hasFailed i = true) :
    s'.graph.hasFailed i = true := by
  rw [hasFailed_iff] at hi ⊢
  obtain ⟨f, hf, hid⟩ := hi
  exact ⟨f, h.failures.subset hf, hid⟩

/-- What has not failed in the end did not fail before. -/
theorem hasFailed_eq_false (h : s.Grows s') {i : Nat} (hi : s'.graph.hasFailed i = false) :
    s.graph.hasFailed i = false := by
  rw [Bool.eq_false_iff] at hi ⊢
  exact fun hfailed => hi (h.hasFailed hfailed)

end Grows

namespace Extends

variable {s s' s'' : Analysis N ε}

/-- A state that stays as it is has the same cursors. -/
theorem refl (s : Analysis N ε) : s.Extends s :=
  ⟨.refl s, rfl, rfl, rfl, rfl⟩

/-- Two steps that keep the cursors keep them together. -/
theorem trans (h : s.Extends s') (h' : s'.Extends s'') : s.Extends s'' where
  toGrows := h.toGrows.trans h'.toGrows
  expanded := h'.expanded.trans h.expanded
  batched := h'.batched.trans h.batched
  shown := h'.shown.trans h.shown
  heedsStop := h'.heedsStop.trans h.heedsStop

end Extends

/-- A step that extends the state can be repeated along a list. -/
theorem extends_foldl {α : Type} (f : Analysis N ε → α → Analysis N ε)
    (hf : ∀ s a, Extends s (f s a)) (l : List α) (s : Analysis N ε) :
    s.Extends (l.foldl f s) := by
  induction l generalizing s with
  | nil => exact .refl s
  | cons a l ih => exact (hf s a).trans (ih (f s a))

/-! ## Marking a stack -/

section Mark

variable (sys : NodeSystem N ε σ)

/-- Entering a node with its waiting edges released keeps every edge noted, except for those that
were released. -/
theorem noted_enter_release (s : Analysis N ε) {n : N} (r : Reason) (hn : n ∉ s.nodes) {t c : N}
    (h : s.Noted t c) :
    ((s.release n).enter sys n r).Noted t c ∨ ∃ w ∈ s.waitingFor n, w.target = t := by
  have hnodes : ((s.release n).enter sys n r).nodes = s.nodes ++ [n] :=
    nodes_enter sys (s.release n) n r hn
  unfold Noted
  rw [hnodes, waitingFor_enter, waitingFor_release]
  rcases h with ht | ⟨hc, hw⟩
  · exact .inl (.inl (List.mem_append_left _ ht))
  · by_cases hcn : n = c
    · subst hcn
      exact .inr hw
    · rw [if_neg (by simpa using hcn)]
      refine .inl (.inr ⟨?_, hw⟩)
      simp [hc, Ne.symm hcn]

/-- Every node of the stack becomes marked, and marked nodes keep their positions. -/
theorem markAll_nodes (s : Analysis N ε) (stack : List (N × Reason)) :
    s.nodes <+: (s.markAll sys stack).nodes ∧
      ∀ p ∈ stack, p.1 ∈ (s.markAll sys stack).nodes := by
  fun_induction markAll sys s stack with
  | case1 s => exact ⟨List.prefix_rfl, by simp⟩
  | case2 s n r rest h ih =>
    refine ⟨ih.1, ?_⟩
    intro p hp
    rcases List.mem_cons.1 hp with rfl | hp
    · exact ih.1.subset ((s.isMarked_iff _).1 h)
    · exact ih.2 p hp
  | case3 s n r rest h id released ih =>
    have hn : n ∉ s.nodes := by rwa [s.isMarked_iff] at h
    rw [nodes_enter sys (s.release n) n r hn, nodes_release] at ih
    refine ⟨(List.prefix_append _ _).trans ih.1, ?_⟩
    intro p hp
    rcases List.mem_cons.1 hp with rfl | hp
    · exact ih.1.subset (by simp)
    · exact ih.2 p (List.mem_append_right _ hp)

/-- Marking nodes takes nothing away and moves no cursor. -/
theorem markAll_extends (s : Analysis N ε) (stack : List (N × Reason)) :
    s.Extends (s.markAll sys stack) := by
  fun_induction markAll sys s stack with
  | case1 s => exact .refl s
  | case2 s n r rest h ih => exact ih
  | case3 s n r rest h id released ih =>
    have hn : n ∉ s.nodes := by rwa [s.isMarked_iff] at h
    have hstack := (markAll_nodes sys ((s.release n).enter sys n r)
      (released.map (fun w => (w.target, .conditional w.source id w.label)) ++ rest)).2
    have hfields : ∀ s₁ : Analysis N ε, (s₁.enter sys n r).failures = s₁.failures ∧
        (s₁.enter sys n r).expanded = s₁.expanded ∧ (s₁.enter sys n r).batched = s₁.batched ∧
        (s₁.enter sys n r).shown = s₁.shown ∧ (s₁.enter sys n r).heedsStop = s₁.heedsStop := by
      intro s₁
      unfold enter
      split <;> exact ⟨rfl, rfl, rfl, rfl, rfl⟩
    obtain ⟨hf, he, hb, hs, hh⟩ := hfields (s.release n)
    refine ⟨⟨?_, ?_, ?_⟩, ih.expanded.trans he, ih.batched.trans hb, ih.shown.trans hs,
      ih.heedsStop.trans hh⟩
    · refine List.IsPrefix.trans ?_ ih.nodes
      rw [nodes_enter sys (s.release n) n r hn]
      exact List.prefix_append _ _
    · have := ih.failures
      rwa [hf] at this
    · intro t c htc
      rcases noted_enter_release sys s r hn htc with h' | ⟨w, hw, rfl⟩
      · exact ih.noted t c h'
      · -- a released edge lies on the stack, so its target becomes marked
        exact .inl (hstack _ (List.mem_append_left _ (List.mem_map_of_mem hw)))

/-- Marking a node takes nothing away and moves no cursor. -/
theorem mark_extends (s : Analysis N ε) (n : N) (r : Reason) : s.Extends (s.mark sys n r) :=
  markAll_extends sys s _

/-- A node is marked once it was to be marked. -/
theorem mem_mark (s : Analysis N ε) (n : N) (r : Reason) : n ∈ (s.mark sys n r).nodes :=
  (markAll_nodes sys s _).2 (n, r) (by simp)

/-- Counting takes nothing away and moves no cursor. -/
theorem count_extends (s : Analysis N ε) (f : Stats → Stats) : s.Extends (s.count f) :=
  ⟨⟨List.prefix_rfl, List.prefix_rfl, fun _ _ h => h⟩, rfl, rfl, rfl, rfl⟩

/-! ## Following the edges of a node -/

/-- Recording a failure takes nothing away and moves no cursor. -/
theorem fail_extends (s : Analysis N ε) (id : Nat) (error : ε) : s.Extends (s.fail id error) := by
  unfold fail
  split
  · exact .refl s
  · refine ⟨⟨List.prefix_rfl, ?_, fun _ _ h => h⟩, rfl, rfl, rfl, rfl⟩
    simp [failures]

/-- Recording a failure marks nothing. -/
@[simp] theorem nodes_fail (s : Analysis N ε) (id : Nat) (error : ε) :
    (s.fail id error).nodes = s.nodes := by
  unfold fail
  split <;> rfl

/-- A failure is recorded last. -/
theorem failures_fail (s : Analysis N ε) {id : Nat} {n : N} (error : ε)
    (h : s.nodes[id]? = some n) :
    (s.fail id error).failures = s.failures ++ [⟨id, n, error⟩] := by
  unfold fail
  rw [s.get?_nodes, h]
  simp [failures]

/-- Taking note of a conditional edge takes nothing away and moves no cursor. -/
theorem addConditional_extends (source : Nat) (s : Analysis N ε) (e : ConditionalEdge N) :
    s.Extends (s.addConditional sys source e) := by
  unfold addConditional
  split
  · exact (count_extends s _).trans (mark_extends sys _ _ _)
  · split
    · exact .refl s
    · refine ⟨⟨List.prefix_rfl, List.prefix_rfl, ?_⟩, rfl, rfl, rfl, rfl⟩
      intro t c h
      rcases h with ht | ⟨hc, w, hw, rfl⟩
      · exact .inl ht
      · refine .inr ⟨hc, w, ?_, rfl⟩
        simp only [waitingFor, Std.HashMap.getElem?_insert] at hw ⊢
        split
        · next heq =>
          rw [eq_of_beq heq]
          exact List.mem_cons_of_mem _ hw
        · exact hw

/-- A conditional edge that was added is noted. -/
theorem noted_addConditional (source : Nat) (s : Analysis N ε) (e : ConditionalEdge N) :
    (s.addConditional sys source e).Noted e.target e.condition := by
  unfold addConditional
  split
  · exact .inl (mem_mark sys _ _ _)
  · next hnone =>
    split
    · next ht => exact .inl ((s.isMarked_iff _).1 ht)
    · refine .inr ⟨s.position?_eq_none hnone, ⟨e.target, source, e.label⟩, ?_, rfl⟩
      simp [waitingFor]

end Mark

/-- What each step of a list achieves, and growing keeps, holds after the whole list. -/
theorem forall_mem_foldl {α : Type} (f : Analysis N ε → α → Analysis N ε)
    (hf : ∀ s a, Extends s (f s a)) (P : α → Analysis N ε → Prop) (hP : ∀ s a, P a (f s a))
    (hmono : ∀ s s' a, Grows s s' → P a s → P a s') (l : List α) (s : Analysis N ε) :
    ∀ a ∈ l, P a (l.foldl f s) := by
  induction l generalizing s with
  | nil => simp
  | cons b l ih =>
    intro a ha
    rcases List.mem_cons.1 ha with rfl | ha
    · exact hmono _ _ a (extends_foldl f hf l (f s a)).toGrows (hP s a)
    · exact ih (f s b) a ha

/-- The edges of an expansion are taken care of. -/
structure Followed (s : Analysis N ε) (x : Expansion N) : Prop where
  edges : ∀ e ∈ x.edges, e.target ∈ s.nodes
  conditional : ∀ e ∈ x.conditional, s.Noted e.target e.condition

/-- What came out of expanding the node `n` at a position is taken care of: its edges, or its
failure. -/
def Handled (s : Analysis N ε) (id : Nat) (n : N) : Except ε (Expansion N) → Prop
  | .ok x => s.Followed x
  | .error error => ⟨id, n, error⟩ ∈ s.failures

/-- Edges that are taken care of stay so. -/
theorem Followed.mono {s s' : Analysis N ε} {x : Expansion N} (h : s.Followed x)
    (hg : s.Grows s') : s'.Followed x :=
  ⟨fun e he => hg.mem (h.edges e he), fun e he => hg.noted _ _ (h.conditional e he)⟩

/-- What came out of an expansion stays taken care of. -/
theorem Handled.mono {s s' : Analysis N ε} {id : Nat} {n : N} {r : Except ε (Expansion N)}
    (h : s.Handled id n r) (hg : s.Grows s') : s'.Handled id n r := by
  cases r with
  | ok x => exact Followed.mono h hg
  | error error => exact hg.failures.subset h

section Apply

variable (sys : NodeSystem N ε σ)

/-- Taking care of an expansion takes nothing away and moves no cursor. -/
theorem apply_extends (s : Analysis N ε) (id : Nat) (r : Except ε (Expansion N)) :
    s.Extends (s.apply sys id r) := by
  cases r with
  | error error => exact (count_extends s _).trans (fail_extends _ _ _)
  | ok x =>
    unfold apply
    refine Extends.trans ?_ (extends_foldl _ (addConditional_extends sys id) x.conditional _)
    refine Extends.trans ?_ (extends_foldl _ (fun s e => mark_extends sys s _ _) x.edges _)
    exact count_extends s _

/-- Whatever comes out of an expansion, its edges or its failure are taken care of. -/
theorem handled_apply (s : Analysis N ε) {id : Nat} {n : N} (hn : s.nodes[id]? = some n)
    (r : Except ε (Expansion N)) : (s.apply sys id r).Handled id n r := by
  cases r with
  | error error =>
    have hfail := failures_fail (s.count fun c => { c with expanded := c.expanded + 1 }) error hn
    show _ ∈ Analysis.failures (Analysis.fail _ id error)
    rw [hfail]
    simp
  | ok x =>
    constructor
    · intro e he
      have hmarked := forall_mem_foldl
        (fun (s : Analysis N ε) (e : Edge N) => s.mark sys e.target (.edge id e.label))
        (fun s e => mark_extends sys s _ _) (fun e s => e.target ∈ s.nodes)
        (fun s e => mem_mark sys s _ _) (fun _ _ _ hg h => hg.mem h) x.edges
      exact (extends_foldl _ (addConditional_extends sys id) _ _).mem (hmarked _ e he)
    · exact forall_mem_foldl _ (addConditional_extends sys id)
        (fun e s => s.Noted e.target e.condition) (noted_addConditional sys id)
        (fun _ _ _ hg h => hg.noted _ _ h) x.conditional _

end Apply

end Analysis

/-! ## Soundness -/

namespace NodeSystem

variable {N ε σ ω : Type} [Recorder σ ω] [Inhabited σ]

/-- A set of nodes that contains whatever its members lead to. -/
structure Closed (sys : NodeSystem N ε σ) (C : N → Prop) : Prop where
  edge : ∀ {n : N} {x : Expansion N}, C n → (sys.expand n).value = .ok x →
    ∀ e ∈ x.edges, C e.target
  conditional : ∀ {n : N} {x : Expansion N}, C n → (sys.expand n).value = .ok x →
    ∀ e ∈ x.conditional, C e.condition → C e.target
  dynamic : ∀ {n : N} {x : Expansion N}, C n → (sys.expand n).value = .ok x →
    sys.isDynamic n = true → ∀ {l : List N} {found : List (Edge N)}, (∀ m ∈ l, C m) →
    (sys.search n l).value = .ok found → ∀ e ∈ found, C e.target

/-- The set of all nodes contains whatever its members lead to. -/
theorem closed_true (sys : NodeSystem N ε σ) : sys.Closed fun _ => True :=
  ⟨fun _ _ _ _ => trivial, fun _ _ _ _ _ => trivial, fun _ _ _ _ _ _ _ _ _ => trivial⟩

end NodeSystem

namespace Analysis

variable {N ε σ ω : Type} [BEq N] [LawfulBEq N] [Hashable N] [Recorder σ ω] [Inhabited σ]

/-- Whatever the state holds has a reason. -/
structure Sound (sys : NodeSystem N ε σ) (C : N → Prop) (s : Analysis N ε) : Prop where
  /-- The marked nodes belong to the set. -/
  within : ∀ n ∈ s.nodes, C n
  /-- The edges that wait are edges of marked nodes. -/
  waiting : ∀ c, ∀ w ∈ s.waitingFor c, ∃ n ∈ s.nodes, ∃ x, (sys.expand n).value = .ok x ∧
    ∃ e ∈ x.conditional, e.condition = c ∧ e.target = w.target
  /-- The listed positions are those of the dynamic nodes. -/
  dynamic : ∀ i, i ∈ s.dynamic.toList ↔ ∃ n, s.nodes[i]? = some n ∧ sys.isDynamic n = true
  /-- The recorded failures did happen. -/
  failures : ∀ f ∈ s.failures, s.nodes[f.id]? = some f.node ∧
    ((sys.expand f.node).value = .error f.error ∨
      ∃ l, (∀ m ∈ l, C m) ∧ (sys.search f.node l).value = .error f.error)

namespace Sound

variable {sys : NodeSystem N ε σ} {C D : N → Prop} {s : Analysis N ε}

/-- What a state holds has a reason in every larger set. -/
theorem mono (h : Sound sys C s) (hCD : ∀ n, C n → D n) : Sound sys D s where
  within n hn := hCD n (h.within n hn)
  waiting := h.waiting
  dynamic := h.dynamic
  failures f hf := by
    refine ⟨(h.failures f hf).1, (h.failures f hf).2.imp_right ?_⟩
    rintro ⟨l, hl, herror⟩
    exact ⟨l, fun m hm => hCD m (hl m hm), herror⟩

/-- Counting does not change what has a reason. -/
theorem count (h : Sound sys C s) (f : Stats → Stats) : Sound sys C (s.count f) :=
  ⟨h.within, h.waiting, h.dynamic, h.failures⟩

/-- A target whose edge waits for a node of a closed set belongs to the set. -/
theorem target_mem (h : Sound sys C s) (hC : sys.Closed C) {c : N} (hc : C c) :
    ∀ w ∈ s.waitingFor c, C w.target := by
  intro w hw
  obtain ⟨n, hn, x, hx, e, he, rfl, ht⟩ := h.waiting c w hw
  rw [← ht]
  exact hC.conditional (h.within n hn) hx e he hc

/-- A node of the set may be entered, and the edges that wait for it released. -/
theorem enter_release (h : Sound sys C s) {n : N} (r : Reason) (hn : n ∉ s.nodes) (hCn : C n) :
    Sound sys C ((s.release n).enter sys n r) := by
  have hnodes : ((s.release n).enter sys n r).nodes = s.nodes ++ [n] :=
    nodes_enter sys (s.release n) n r hn
  have hget : ∀ {i : Nat} {m : N}, s.nodes[i]? = some m → (s.nodes ++ [n])[i]? = some m := by
    intro i m hm
    rw [List.getElem?_append_left (List.getElem?_eq_some_iff.1 hm).1, hm]
  constructor
  · intro m hm
    rw [hnodes, List.mem_append, List.mem_singleton] at hm
    rcases hm with hm | rfl
    · exact h.within m hm
    · exact hCn
  · intro c w hw
    rw [waitingFor_enter, waitingFor_release] at hw
    rw [hnodes]
    split at hw
    · simp at hw
    · obtain ⟨m, hm, hrest⟩ := h.waiting c w hw
      exact ⟨m, List.mem_append_left _ hm, hrest⟩
  · intro i
    rw [mem_dynamic_enter_release, h.dynamic, hnodes]
    constructor
    · rintro (⟨m, hm, hd⟩ | ⟨rfl, hd⟩)
      · exact ⟨m, hget hm, hd⟩
      · exact ⟨n, by simp, hd⟩
    · rintro ⟨m, hm, hd⟩
      rw [List.getElem?_append] at hm
      split at hm
      · exact .inl ⟨m, hm, hd⟩
      · obtain ⟨hi, rfl⟩ := List.getElem?_eq_some_iff.1 hm
        simp only [List.length_singleton] at hi
        refine .inr ⟨by omega, ?_⟩
        simpa using hd
  · intro f hf
    have hf' : f ∈ s.failures := by
      unfold enter at hf
      split at hf <;> exact hf
    rw [hnodes]
    exact ⟨hget (h.failures f hf').1, (h.failures f hf').2⟩

/-- Nodes of the set may be marked, and all that they release. -/
theorem markAll (h : Sound sys C s) (hC : sys.Closed C) {stack : List (N × Reason)}
    (hstack : ∀ p ∈ stack, C p.1) : Sound sys C (s.markAll sys stack) := by
  fun_induction Analysis.markAll sys s stack with
  | case1 s => exact h
  | case2 s n r rest hn ih => exact ih h fun p hp => hstack p (List.mem_cons_of_mem _ hp)
  | case3 s n r rest hn id released ih =>
    have hCn : C n := hstack (n, r) List.mem_cons_self
    refine ih (h.enter_release r (by rwa [s.isMarked_iff] at hn) hCn) ?_
    intro p hp
    rcases List.mem_append.1 hp with hp | hp
    · obtain ⟨w, hw, rfl⟩ := List.mem_map.1 hp
      exact h.target_mem hC hCn w hw
    · exact hstack p (List.mem_cons_of_mem _ hp)

/-- A node of the set may be marked, and all that it releases. -/
theorem mark (h : Sound sys C s) (hC : sys.Closed C) {n : N} (hn : C n) (r : Reason) :
    Sound sys C (s.mark sys n r) :=
  h.markAll hC (by simpa using hn)

/-- Failures that did happen may be recorded. -/
theorem fail (h : Sound sys C s) (id : Nat) (error : ε)
    (he : ∀ n, s.nodes[id]? = some n → (sys.expand n).value = .error error ∨
      ∃ l, (∀ m ∈ l, C m) ∧ (sys.search n l).value = .error error) :
    Sound sys C (s.fail id error) := by
  cases hn : s.nodes[id]? with
  | none =>
    unfold Analysis.fail
    rw [s.get?_nodes, hn]
    exact h
  | some n =>
    have hfailures := failures_fail s error hn
    have hwaiting : ∀ c, (s.fail id error).waitingFor c = s.waitingFor c := by
      intro c
      unfold Analysis.fail
      split <;> rfl
    have hdynamic : (s.fail id error).dynamic = s.dynamic := by
      unfold Analysis.fail
      split <;> rfl
    refine ⟨?_, ?_, ?_, ?_⟩
    · rw [nodes_fail]
      exact h.within
    · intro c
      rw [hwaiting, nodes_fail]
      exact h.waiting c
    · rw [hdynamic, nodes_fail]
      exact h.dynamic
    · intro f hf
      rw [hfailures, List.mem_append, List.mem_singleton] at hf
      rw [nodes_fail]
      rcases hf with hf | rfl
      · exact h.failures f hf
      · exact ⟨hn, he n hn⟩

/-- Note may be taken of a conditional edge of a marked node. -/
theorem addConditional (h : Sound sys C s) (hC : sys.Closed C) {n : N} {x : Expansion N}
    (hn : n ∈ s.nodes) (hx : (sys.expand n).value = .ok x) (source : Nat)
    {e : ConditionalEdge N} (he : e ∈ x.conditional) :
    Sound sys C (s.addConditional sys source e) := by
  unfold Analysis.addConditional
  split
  · next i hi =>
    have hcond : C e.condition := h.within _ (s.position?_eq_some hi)
    exact (h.count _).mark hC (hC.conditional (h.within n hn) hx e he hcond) _
  · split
    · exact h
    · refine ⟨h.within, ?_, h.dynamic, h.failures⟩
      intro c w hw
      simp only [waitingFor, Std.HashMap.getElem?_insert] at hw
      split at hw
      · next heq =>
        have hc : e.condition = c := eq_of_beq heq
        rcases List.mem_cons.1 hw with rfl | hw
        · exact ⟨n, hn, x, hx, e, he, hc, rfl⟩
        · rw [← hc]
          exact h.waiting e.condition w hw
      · exact h.waiting c w hw

/-- Marking the targets of edges keeps within a closed set that contains them. -/
theorem markEdges (h : Sound sys C s) (hC : sys.Closed C) (reason : Edge N → Reason)
    {l : List (Edge N)} (hl : ∀ e ∈ l, C e.target) :
    Sound sys C (l.foldl (fun s e => s.mark sys e.target (reason e)) s) := by
  induction l generalizing s with
  | nil => exact h
  | cons e l ih =>
    refine ih (h.mark hC (hl e List.mem_cons_self) _) ?_
    exact fun e' he' => hl e' (List.mem_cons_of_mem _ he')

/-- Note may be taken of conditional edges of a marked node one after the other. -/
theorem addConditionals (h : Sound sys C s) (hC : sys.Closed C) {n : N} {x : Expansion N}
    (hn : n ∈ s.nodes) (hx : (sys.expand n).value = .ok x) (source : Nat)
    {l : List (ConditionalEdge N)} (hl : ∀ e ∈ l, e ∈ x.conditional) :
    Sound sys C (l.foldl (Analysis.addConditional sys source) s) := by
  induction l generalizing s with
  | nil => exact h
  | cons e l ih =>
    refine ih (h.addConditional hC hn hx source (hl e List.mem_cons_self)) ?_ ?_
    · exact (addConditional_extends sys source s e).mem hn
    · exact fun e' he' => hl e' (List.mem_cons_of_mem _ he')

/-- Following what expanding a marked node yields keeps within a closed set. -/
theorem apply (h : Sound sys C s) (hC : sys.Closed C) {id : Nat} {n : N}
    (hn : s.nodes[id]? = some n) : Sound sys C (s.apply sys id (sys.expand n).value) := by
  have hmem : n ∈ s.nodes := List.mem_of_getElem? hn
  unfold Analysis.apply
  split
  · next error hx =>
    refine (h.count _).fail id error fun m hm => .inl ?_
    have hnm : some n = some m := hn.symm.trans hm
    cases hnm
    exact hx
  · next x hx =>
    have hedges : ∀ e ∈ x.edges, C e.target := hC.edge (h.within n hmem) hx
    refine ((h.count _).markEdges hC _ hedges).addConditionals hC ?_ hx id fun e he => he
    exact (extends_foldl _ (fun s e => mark_extends sys s _ _) x.edges _).mem hmem

end Sound

end Analysis

end Marking

end AheadOfTime
